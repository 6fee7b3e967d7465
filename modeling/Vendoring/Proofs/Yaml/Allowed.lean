import Vendoring.Proofs.Yaml.Escape
import Vendoring.Proofs.Yaml.Styles
import Vendoring.Yaml.Token.Stream

/-!
# Written text holds no forbidden characters

Some characters may not stand in a text at all. They are not printable, so the
writer escapes them, and what it writes instead is allowed.
-/

namespace Vendoring.Yaml

/-- All characters may stand in a text. -/
def AllAllowed (cs : List Char) : Prop :=
  ∀ c ∈ cs, TokenStream.isAllowed c = true

instance (cs : List Char) : Decidable (AllAllowed cs) :=
  decidable_of_iff (cs.all TokenStream.isAllowed = true) List.all_eq_true

namespace AllAllowed

variable {cs ds : List Char}

theorem nil : AllAllowed [] :=
  List.forall_mem_nil _

theorem append (hcs : AllAllowed cs) (hds : AllAllowed ds) : AllAllowed (cs ++ ds) := by
  intro c hc
  rcases List.mem_append.mp hc with hc | hc
  · exact hcs c hc
  · exact hds c hc

theorem cons {c : Char} (hc : TokenStream.isAllowed c = true) (hcs : AllAllowed cs) :
    AllAllowed (c :: cs) :=
  List.forall_mem_cons.mpr ⟨hc, hcs⟩

theorem flatMap {α : Type} {as : List α} {f : α → List Char} (h : ∀ a ∈ as, AllAllowed (f a)) :
    AllAllowed (as.flatMap f) := by
  intro c hc
  obtain ⟨a, ha, hc⟩ := List.mem_flatMap.mp hc
  exact h a ha c hc

/-- Then the text is not refused for its characters. -/
theorem forbiddenOffset? (h : AllAllowed cs) (offset : Nat) :
    TokenStream.forbiddenOffset? offset cs = none := by
  induction cs generalizing offset with
  | nil => rfl
  | cons c cs ih =>
    rw [TokenStream.forbiddenOffset?, if_pos (h c (List.mem_cons_self ..))]
    exact ih (fun d hd => h d (List.mem_cons_of_mem _ hd)) _

end AllAllowed

theorem isAllowed_of_printable {c : Char} (h : isPrintable c = true) :
    TokenStream.isAllowed c = true := by
  simp only [isPrintable, Bool.or_eq_true, Bool.and_eq_true, beq_iff_eq, decide_eq_true_eq,
    bne_iff_ne] at h
  simp only [TokenStream.isAllowed, Bool.or_eq_true, Bool.and_eq_true, beq_iff_eq,
    decide_eq_true_eq]
  omega

theorem isAllowed_of_ascii {c : Char} (hlow : 0x20 ≤ c.toNat) (hhigh : c.toNat ≤ 0x7e) :
    TokenStream.isAllowed c = true := by
  refine isAllowed_of_printable ?_
  simp only [isPrintable, Bool.or_eq_true, Bool.and_eq_true, decide_eq_true_eq]
  omega

theorem allAllowed_spaces (n : Nat) : AllAllowed (spaces n) := by
  intro c hc
  rw [List.eq_of_mem_replicate hc]
  decide

theorem allAllowed_digits (n : Nat) : AllAllowed ((Nat.toDigits 16 n).map Char.toUpper) := by
  induction n using Nat.strong_induction_on with
  | _ n ih =>
    have hdigit {d : Nat} (hd : d < 16) : AllAllowed [(Nat.digitChar d).toUpper] := by
      interval_cases d <;> decide
    rw [Nat.toDigits_eq_if (by decide)]
    by_cases hn : n < 16
    · rw [if_pos hn]
      exact hdigit hn
    · rw [if_neg hn, List.map_append]
      exact (ih (n / 16) (by omega)).append (hdigit (Nat.mod_lt _ (by decide)))

theorem allAllowed_hexDigits (width n : Nat) : AllAllowed (hexDigits width n) := by
  refine AllAllowed.append (fun c hc => ?_) (allAllowed_digits n)
  rw [List.eq_of_mem_replicate hc]
  decide

theorem allAllowed_escapeSequence (c : Char) : AllAllowed (escapeSequence c) := by
  unfold escapeSequence
  refine AllAllowed.cons (by decide) ?_
  cases hletter : escapeLetter? c with
  | some letter =>
    unfold escapeLetter? at hletter
    split at hletter <;> cases hletter <;> decide
  | none =>
    simp only
    split_ifs
    · exact AllAllowed.cons (by decide) (allAllowed_hexDigits 2 _)
    · exact AllAllowed.cons (by decide) (allAllowed_hexDigits 4 _)
    · exact AllAllowed.cons (by decide) (allAllowed_hexDigits 8 _)

theorem allAllowed_doubleQuoted (cs : List Char) : AllAllowed (cs.flatMap doubleQuotedChar) := by
  refine AllAllowed.flatMap fun c _ => ?_
  unfold doubleQuotedChar
  split_ifs with h
  · exact allAllowed_escapeSequence c
  · simp only [Bool.or_eq_true, not_or, Bool.not_eq_true', Bool.not_eq_false] at h
    exact AllAllowed.cons (isAllowed_of_printable h.1.1.1) .nil

theorem allAllowed_singleQuotedFrom {cs : List Char} (h : AllAllowed cs) (indent : Nat)
    (broken : Bool) : AllAllowed (singleQuotedFrom indent broken cs) := by
  induction cs generalizing broken with
  | nil =>
    rw [singleQuotedFrom]
    split_ifs
    · exact allAllowed_spaces indent
    · exact .nil
  | cons c cs ih =>
    have hc := h c (List.mem_cons_self ..)
    have hcs : AllAllowed cs := fun d hd => h d (List.mem_cons_of_mem _ hd)
    have hindent : AllAllowed (if broken then spaces indent else []) := by
      split_ifs
      · exact allAllowed_spaces indent
      · exact .nil
    have hquote : AllAllowed (if c == '\x27' then ['\x27', c] else [c]) := by
      split_ifs
      · exact AllAllowed.cons (by decide) (AllAllowed.cons hc .nil)
      · exact AllAllowed.cons hc .nil
    rw [singleQuotedFrom]
    by_cases hspace : isSpace c = true
    · rw [if_pos hspace]
      exact AllAllowed.cons hc (ih hcs _)
    rw [if_neg hspace]
    by_cases hbreak : isBreak c = true
    · rw [if_pos hbreak]
      exact AllAllowed.cons hc (ih hcs _)
    · rw [if_neg hbreak]
      exact (hindent.append hquote).append (ih hcs _)

theorem allAllowed_literalFrom {cs : List Char} (h : AllAllowed cs) (indent : Nat) (fresh : Bool) :
    AllAllowed (literalFrom indent fresh cs) := by
  induction cs generalizing fresh with
  | nil =>
    rw [literalFrom]
    split_ifs
    · exact .nil
    · decide
  | cons c cs ih =>
    have hc := h c (List.mem_cons_self ..)
    have hcs : AllAllowed cs := fun d hd => h d (List.mem_cons_of_mem _ hd)
    rw [literalFrom]
    split_ifs
    · exact AllAllowed.cons hc (ih hcs _)
    · exact (allAllowed_spaces indent).append (AllAllowed.cons hc (ih hcs _))
    · exact AllAllowed.cons hc (ih hcs _)

theorem allAllowed_literalHints (cs : List Char) : AllAllowed (literalHints cs) := by
  unfold literalHints
  refine AllAllowed.append ?_ ?_
  · split_ifs <;> decide
  · split
    · decide
    · split_ifs <;> decide
    · split_ifs <;> decide

/-- Whatever the text, it can be written. -/
theorem allAllowed_writtenScalar (indent : Nat) (cs : List Char) :
    AllAllowed (writtenScalar indent cs) := by
  have hplain (h : ∀ c ∈ cs, isPrintable c = true) : AllAllowed cs :=
    fun c hc => isAllowed_of_printable (h c hc)
  unfold writtenScalar
  cases hstyle : styleOf cs with
  | plain =>
    have hcs := hplain (plain_of_styleOf hstyle).2.printable
    exact AllAllowed.append (AllAllowed.cons (by decide) hcs) (by decide)
  | singleQuoted =>
    have hcs := hplain (singleQuotable_of_styleOf hstyle).printable
    exact AllAllowed.append (AllAllowed.cons (by decide) (AllAllowed.cons (by decide)
      (allAllowed_singleQuotedFrom hcs indent false))) (by decide)
  | doubleQuoted =>
    exact AllAllowed.append (AllAllowed.cons (by decide) (AllAllowed.cons (by decide)
      (allAllowed_doubleQuoted cs))) (by decide)
  | literal =>
    have hcs := hplain (literal_of_styleOf hstyle).2
    exact AllAllowed.append (AllAllowed.cons (by decide) (AllAllowed.cons (by decide)
      (allAllowed_literalHints cs))) (AllAllowed.cons (by decide)
        (allAllowed_literalFrom hcs indent true))
  | folded => exact absurd hstyle styleOf_ne_folded

end Vendoring.Yaml
