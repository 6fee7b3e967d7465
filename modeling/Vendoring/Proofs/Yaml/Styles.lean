import Vendoring.Proofs.Yaml.Plain
import Vendoring.Proofs.Yaml.Quoted

/-!
# What the choice of a style promises

A text is only written in a style that can hold it, so what the scanner of
that style needs follows from `styleOf`.
-/

namespace Vendoring.Yaml

variable {cs : List Char}

theorem printable_of_needsEscapes (h : needsEscapes cs = false) :
    ∀ c ∈ cs, isPrintable c = true := by
  intro c hc
  have hany := List.any_eq_false.mp (Bool.or_eq_false_iff.mp h).2 c hc
  simpa using hany

theorem styleOf_ne_folded : styleOf cs ≠ .folded := by
  unfold styleOf
  split_ifs <;> exact ScalarStyle.noConfusion

/-- A plain scalar is no punctuation, neither at its head nor behind it. -/
theorem plain_of_styleOf (h : styleOf cs = .plain) :
    (∀ c ∈ cs.head?, opensStructure c cs.tail.head? = false) ∧ PlainText 'x' cs := by
  have hplain : cs.contains '\n' = false ∧ (!readsAsOther cs && allowsPlain cs) = true := by
    unfold styleOf at h
    split_ifs at h with hbreak _ hallows
    exact ⟨eq_false_of_ne_true hbreak, hallows⟩
  obtain ⟨hother, hallows⟩ := (Bool.and_eq_true _ _).mp hplain.2
  have hne : cs ≠ [] := by
    rintro rfl
    exact absurd hother (by decide)
  simp only [allowsPlain, Bool.not_eq_true', Bool.or_eq_false_iff] at hallows
  obtain ⟨⟨⟨⟨hfirst, hlast⟩, hbreaks⟩, hescapes⟩, hindicators⟩ := hallows
  have hedge {c? : Option Char} (h : (c?.any fun c => isSpace c || isBreak c) = false) :
      ∀ c ∈ c?, isSpace c = false := by
    rintro c rfl
    exact (Bool.or_eq_false_iff.mp h).1
  obtain ⟨c, rest, rfl⟩ := List.exists_cons_of_ne_nil hne
  obtain ⟨hopens, hholds⟩ := Bool.or_eq_false_iff.mp (Bool.or_eq_false_iff.mp hindicators).2
  obtain ⟨hreserved, hword⟩ := Bool.or_eq_false_iff.mp hopens
  have hcomment : c ≠ '#' := by
    rintro rfl
    cases hreserved
  refine ⟨?_, hne, printable_of_needsEscapes hescapes, ?_, hedge hfirst, hedge hlast, ?_, ?_⟩
  · intro d hd
    obtain rfl : c = d := Option.some.inj hd
    exact hopens
  · intro d hd
    exact eq_false_of_ne_true (List.any_eq_false.mp hbreaks d hd)
  · exact fun hc => hcomment (Option.some.inj hc)
  · have hcolon : (c == ':' && endsWord rest.head?) = false := by
      cases hc : c == ':' with
      | false => rfl
      | true =>
        rw [hc, Bool.or_true, Bool.true_or, Bool.true_and] at hword
        exact hword
    rw [holdsStructure, hholds, hcolon, beq_false_of_ne hcomment]
    rfl

theorem singleQuotable_of_styleOf (h : styleOf cs = .singleQuoted) : SingleQuotable cs := by
  have hsingle : cs.contains '\n' = false ∧ allowsSingleQuotes cs = true := by
    unfold styleOf at h
    split_ifs at h with hbreak _ _ hallows
    exact ⟨eq_false_of_ne_true hbreak, hallows⟩
  obtain ⟨hbreak, hallows⟩ := hsingle
  rw [allowsSingleQuotes, Bool.not_eq_true', Bool.or_eq_false_iff] at hallows
  exact ⟨printable_of_needsEscapes hallows.2, by simpa using hbreak,
    (Bool.or_eq_false_iff.mp hallows.2).1, hallows.1⟩

theorem literal_of_styleOf (h : styleOf cs = .literal) :
    cs ≠ [] ∧ ∀ c ∈ cs, isPrintable c = true := by
  have hallows : allowsLiteral cs = true := by
    unfold styleOf at h
    split_ifs at h with hbreak hallows
    exact hallows
  rw [allowsLiteral, Bool.not_eq_true', Bool.or_eq_false_iff, Bool.or_eq_false_iff] at hallows
  exact ⟨by simpa using hallows.1.1, printable_of_needsEscapes hallows.2⟩

end Vendoring.Yaml
