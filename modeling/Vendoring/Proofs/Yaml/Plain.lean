import Mathlib.Data.List.Basic
import Vendoring.Proofs.Yaml.Quoted

/-!
# Plain scalars are read back

A plain scalar ends where its line ends, or at the colon that makes it a key.
In front of that nothing may look like structure: `Unstructured` is what
`holdsStructure` rules out, and `PlainText` collects what the writer makes
sure of. Both ends are read back (`plainScalar_line`, `plainScalar_name`).
-/

namespace Vendoring.Yaml

/-! ## Words -/

theorem holdsStructure_tail {previous c : Char} {cs : List Char}
    (h : holdsStructure previous (c :: cs) = false) : holdsStructure c cs = false := by
  rw [holdsStructure, Bool.or_eq_false_iff] at h
  exact h.2

theorem holdsStructure_suffix {previous : Char} {xs ys : List Char}
    (h : holdsStructure previous (xs ++ ys) = false) : ∃ last, holdsStructure last ys = false := by
  induction xs generalizing previous with
  | nil => exact ⟨previous, h⟩
  | cons x xs ih => exact ih (holdsStructure_tail h)

theorem holdsStructure_behind {previous last : Char} {xs ys : List Char}
    (h : holdsStructure previous (xs ++ last :: ys) = false) : holdsStructure last ys = false := by
  obtain ⟨_, hlast⟩ := holdsStructure_suffix h
  exact holdsStructure_tail hlast

/-- A colon is followed by more of the word. -/
theorem solid_behind_colon {previous : Char} {cs : List Char}
    (h : holdsStructure previous (':' :: cs) = false) : endsWord cs.head? = false := by
  simp only [holdsStructure, Bool.or_eq_false_iff, beq_self_eq_true, Bool.true_and] at h
  exact h.1.1

/-- No comment begins behind a space. -/
theorem head_ne_comment {cs : List Char} (h : holdsStructure ' ' cs = false) :
    cs.head? ≠ some '#' := by
  cases cs with
  | nil => simp
  | cons c cs =>
    intro hc
    obtain rfl : c = '#' := Option.some.inj hc
    simp [holdsStructure, endsWord, isBlank] at h

theorem takePlainWord_char {c : Char} {cs : List Char} (hblank : isBlank c = false)
    (hbreak : isBreak c = false) (hcolon : (c == ':' && endsWord cs.head?) = false) (start : Mark)
    (k : Nat) (acc : List Char) (m : Mark) :
    takePlainWord false start (k + 1) acc ⟨c :: cs, m⟩
      = takePlainWord false start k (c :: acc) ⟨cs, m.forward 1⟩ := by
  simp [takePlainWord, hblank, hbreak, hcolon]

/-- A word is read up to where reading stops. -/
theorem takePlainWord_run {w rest : List Char} {start : Mark}
    (hw : ∀ c ∈ w, isBlank c = false ∧ isBreak c = false)
    (hcolon : ∀ xs ys, w = xs ++ ':' :: ys → endsWord (ys ++ rest).head? = false)
    (hstop : ∀ k acc m, takePlainWord false start (k + 1) acc ⟨rest, m⟩ = .ok (acc, ⟨rest, m⟩))
    {fuel : Nat} (hfuel : w.length < fuel) (acc : List Char) (m : Mark) :
    takePlainWord false start fuel acc ⟨w ++ rest, m⟩
      = .ok (w.reverse ++ acc, ⟨rest, m.forward w.length⟩) := by
  obtain ⟨k, rfl⟩ : ∃ k, fuel = k + 1 := ⟨fuel - 1, by omega⟩
  induction w generalizing k acc m with
  | nil => exact hstop k acc m
  | cons c w ih =>
    obtain ⟨hblank, hbreak⟩ := hw c (List.mem_cons_self ..)
    have hhere : (c == ':' && endsWord (w ++ rest).head?) = false := by
      rw [Bool.and_eq_false_iff, beq_eq_false_iff_ne]
      by_cases hc : c = ':'
      · exact Or.inr (hcolon [] w (by rw [hc, List.nil_append]))
      · exact Or.inl hc
    have hlater : ∀ xs ys, w = xs ++ ':' :: ys → endsWord (ys ++ rest).head? = false :=
      fun xs ys hsplit => hcolon (c :: xs) ys (by rw [hsplit, List.cons_append])
    rw [List.length_cons] at hfuel
    obtain ⟨j, rfl⟩ : ∃ j, k = j + 1 := ⟨k - 1, by omega⟩
    have hrest := ih (fun d hd => hw d (List.mem_cons_of_mem _ hd)) hlater (c :: acc) (m.forward 1)
      j (by omega)
    rw [List.cons_append, takePlainWord_char hblank hbreak hhere, hrest, List.reverse_cons,
      List.append_assoc, List.singleton_append, Mark.forward_forward, List.length_cons,
      Nat.add_comm 1]

/-- A word of a plain scalar, up to the space or the line break behind it. -/
theorem takePlainWord_word {w s : List Char} (hw : ∀ c ∈ w, isBlank c = false ∧ isBreak c = false)
    {previous : Char} (hstructure : holdsStructure previous (w ++ s) = false)
    (hs : ∀ c ∈ s.head?, isSpace c = true) (start : Mark) (more : List Char) {fuel : Nat}
    (hfuel : w.length < fuel) (acc : List Char) (m : Mark) :
    takePlainWord false start fuel acc ⟨w ++ (s ++ '\n' :: more), m⟩
      = .ok (w.reverse ++ acc, ⟨s ++ '\n' :: more, m.forward w.length⟩) := by
  refine takePlainWord_run hw (fun xs ys hsplit => ?_) (fun k acc m => ?_) hfuel acc m
  · rw [hsplit, List.append_assoc] at hstructure
    obtain ⟨_, hstructure⟩ := holdsStructure_suffix hstructure
    have hend := solid_behind_colon hstructure
    -- something of the text follows the colon, for its end would end a word
    rw [← List.append_assoc]
    cases hrest : ys ++ s with
    | nil =>
      rw [List.append_eq, hrest] at hend
      cases hend
    | cons d rest =>
      rw [List.append_eq, hrest] at hend
      exact hend
  · cases s with
    | nil => rfl
    | cons c s =>
      obtain rfl : c = ' ' := by simpa [isSpace] using hs c rfl
      rfl

/-! ## Scalars that end with their line -/

/-- The texts that can stand plainly behind `previous`. -/
structure PlainText (previous : Char) (cs : List Char) : Prop where
  nonempty : cs ≠ []
  printable : ∀ c ∈ cs, isPrintable c = true
  unbroken : ∀ c ∈ cs, isBreak c = false
  first : ∀ c ∈ cs.head?, isSpace c = false
  last : ∀ c ∈ cs.getLast?, isSpace c = false
  comment : cs.head? ≠ some '#'
  unstructured : holdsStructure previous cs = false

/-- A text that stands plainly is a word, or one with more of that kind behind
spaces. -/
theorem PlainText.split {previous : Char} {cs : List Char} (h : PlainText previous cs) :
    ∃ w s, cs = w ++ s ∧ w ≠ [] ∧ (∀ c ∈ w, isBlank c = false ∧ isBreak c = false)
      ∧ (s = [] ∨ ∃ n rest, s = List.replicate (n + 1) ' ' ++ rest ∧ PlainText ' ' rest) := by
  obtain ⟨w, s, rfl, hw, hs⟩ := run_split (fun c => !isSpace c) cs
  refine ⟨w, s, rfl, ?_, fun c hc => ?_, ?_⟩
  · rintro rfl
    cases s with
    | nil => exact h.nonempty rfl
    | cons c s =>
      have hspace := hs c rfl
      rw [h.first c rfl] at hspace
      cases hspace
  · have hmem := List.mem_append_left s hc
    refine ⟨(isBlank_eq_isSpace (h.printable c hmem)).trans ?_, h.unbroken c hmem⟩
    simpa using hw c hc
  · cases s with
    | nil => exact Or.inl rfl
    | cons c s =>
      right
      have hspace : isSpace c = true := by simpa using hs c rfl
      obtain ⟨n, rest, hspaces, hrest⟩ := spaces_split s hspace
      have hsplit : w ++ c :: s = (w ++ List.replicate n ' ') ++ ' ' :: rest := by
        rw [hspaces, List.replicate_succ', List.append_assoc, List.append_assoc,
          List.singleton_append]
      have hmem {d : Char} (hd : d ∈ rest) : d ∈ w ++ c :: s := by
        rw [hsplit]
        exact List.mem_append_right _ (List.mem_cons_of_mem _ hd)
      have hne : rest ≠ [] := by
        rintro rfl
        have hlast := h.last ' ' (by rw [hsplit]; simp)
        exact absurd hlast (by decide)
      have hstructure : holdsStructure ' ' rest = false := by
        have := h.unstructured
        rw [hsplit] at this
        exact holdsStructure_behind this
      refine ⟨n, rest, hspaces, hne, fun d hd => h.printable d (hmem hd),
        fun d hd => h.unbroken d (hmem hd), hrest, fun d hd => h.last d ?_,
        head_ne_comment hstructure, hstructure⟩
      rw [hsplit, List.getLast?_append, List.getLast?_cons_of_ne_nil hne, Option.mem_def.mp hd]
      rfl

theorem PlainText.solid {previous : Char} {cs : List Char} (h : PlainText previous cs)
    (more : List Char) : Solid (cs ++ more) := by
  cases cs with
  | nil => exact absurd rfl h.nonempty
  | cons c cs =>
    have hmem := List.mem_cons_self (a := c) (l := cs)
    exact solid_cons.mpr ⟨(isBlank_eq_isSpace (h.printable c hmem)).trans (h.first c rfl),
      h.unbroken c hmem⟩

/-- One word of a plain scalar and the gap behind it. -/
theorem takePlain_turn {w s more : List Char} (hne : w ≠ [])
    (hw : ∀ c ∈ w, isBlank c = false ∧ isBreak c = false) {previous : Char}
    (hstructure : holdsStructure previous (w ++ s) = false) (hs : ∀ c ∈ s.head?, isSpace c = true)
    (hcomment : w.head? ≠ some '#') {indent : Int} (start : Mark) {k : Nat} {run : PlainRun}
    {m : Mark} (hcursor : run.cursor = ⟨w ++ (s ++ '\n' :: more), m⟩) (hm : 0 < m.column)
    (hfuel : w.length ≤ k) {gap : Gap} {c : Cursor}
    (hgap : takeGap (some indent) (k + 1) {} ⟨s ++ '\n' :: more, m.forward w.length⟩
      = .ok (gap, c)) :
    takePlain false indent start (k + 1) run
      = if (c.mark.column : Int) < indent then
          .ok ⟨w.reverse ++ (run.gap.text.reverse ++ run.text), gap, m.forward w.length, c⟩
        else takePlain false indent start k
          ⟨w.reverse ++ (run.gap.text.reverse ++ run.text), gap, m.forward w.length, c⟩ := by
  have hword := takePlainWord_word hw hstructure hs start more (by omega : w.length < k + 1) [] m
  have hdocument : Cursor.atDocumentIndicator ⟨w ++ (s ++ '\n' :: more), m⟩ = false :=
    Cursor.atDocumentIndicator_of_column hm
  have hplain : Cursor.looksAt ⟨w ++ (s ++ '\n' :: more), m⟩ '#' = false := by
    cases w with
    | nil => exact absurd rfl hne
    | cons c w => exact beq_false_of_ne hcomment
  have hat : (Cursor.atBlank ⟨s ++ '\n' :: more, m.forward w.length⟩
      || Cursor.atBreak ⟨s ++ '\n' :: more, m.forward w.length⟩) = true := by
    cases s with
    | nil => rfl
    | cons c s =>
      obtain rfl : c = ' ' := by simpa [isSpace] using hs c rfl
      rfl
  have hempty : w.reverse.isEmpty = false := by simpa using hne
  rw [List.append_nil] at hword
  rw [takePlain, hcursor]
  simp only [hdocument, hplain, hword, hat, hgap, hempty, bind, Except.bind, pure, Except.pure,
    Bool.or_false, Bool.not_true, Bool.not_false, Bool.true_and, Bool.false_eq_true, if_false,
    decide_eq_true_eq]

/-- Words and gaps up to the line break behind the last word, and the
indentation of the next line. The induction is on the length of the text:
behind a word and the spaces that follow it stands a shorter one. -/
theorem takePlain_line {previous : Char} {cs : List Char} (h : PlainText previous cs)
    {body : List Char} (hbody : Solid body) {column : Nat} {indent : Int}
    (hcolumn : (column : Int) < indent) (start : Mark) {fuel : Nat} {run : PlainRun} {m : Mark}
    (hcursor : run.cursor = ⟨cs ++ '\n' :: (List.replicate column ' ' ++ body), m⟩)
    (hindent : indent ≤ m.column) (hm : 0 < m.column) (hfuel : cs.length + column < fuel) :
    ∃ run' m', takePlain false indent start fuel run = .ok run'
      ∧ run'.text = cs.reverse ++ (run.gap.text.reverse ++ run.text) ∧ run'.gap.broken = true
      ∧ run'.cursor = ⟨body, m'⟩ ∧ m'.column = column ∧ m.line < m'.line := by
  induction hn : cs.length using Nat.strong_induction_on generalizing previous cs fuel run m with
  | _ n ih =>
    obtain ⟨k, rfl⟩ : ∃ k, fuel = k + 1 := ⟨fuel - 1, by omega⟩
    obtain ⟨w, s, rfl, hne, hw, hs⟩ := h.split
    have hcomment : w.head? ≠ some '#' := by
      have := h.comment
      cases w with
      | nil => exact absurd rfl hne
      | cons c w => exact this
    have hlength : 0 < w.length := List.length_pos_of_ne_nil hne
    rw [List.length_append] at hfuel hn
    rw [List.append_assoc] at hcursor
    rcases hs with rfl | ⟨j, rest, rfl, hrest⟩
    · -- the scalar ends here
      have hbound : ([] : List Char).length + column < k + 1 := by
        rw [List.length_nil]
        omega
      obtain ⟨m', hgap, hcolumn', hline⟩ := takeGap_lines hbody (Or.inl rfl) (by simp) hbound
        (m.forward w.length)
      have hgap : takeGap (some indent) (k + 1) {}
            ⟨[] ++ '\n' :: (List.replicate column ' ' ++ body), m.forward w.length⟩
          = .ok (⟨[], ['\n'], [], true⟩, ⟨body, m'⟩) := hgap
      have hturn := takePlain_turn hne hw h.unstructured (by simp) hcomment start hcursor hm
        (by omega) hgap
      rw [if_pos (by simp only [hcolumn']; exact hcolumn)] at hturn
      exact ⟨_, m', hturn, by simp, rfl, rfl, hcolumn', hline⟩
    · -- spaces, and another word
      rw [List.length_append, List.length_replicate] at hfuel hn
      have hsolid := hrest.solid ('\n' :: (List.replicate column ' ' ++ body))
      have hbehind : indent ≤ (m.forward (w.length + (j + 1))).column
          ∧ 0 < (m.forward (w.length + (j + 1))).column := by
        rw [Mark.forward_column]
        omega
      have hspaces : takeGap (some indent) (k + 1) {} ⟨List.replicate (j + 1) ' ' ++ rest
            ++ '\n' :: (List.replicate column ' ' ++ body), m.forward w.length⟩
          = .ok (⟨List.replicate (j + 1) ' ', [], [], false⟩,
            ⟨rest ++ '\n' :: (List.replicate column ' ' ++ body),
              m.forward (w.length + (j + 1))⟩) := by
        rw [List.append_assoc, takeGap_spaces hsolid (by omega) [], Mark.forward_forward]
        rfl
      have hspace : ∀ c ∈ (List.replicate (j + 1) ' ' ++ rest).head?, isSpace c = true := by
        intro c hc
        cases hc
        rfl
      have hturn := takePlain_turn hne hw h.unstructured hspace hcomment start hcursor hm
        (by omega) hspaces
      rw [if_neg (Int.not_lt.mpr hbehind.1)] at hturn
      generalize hrun : PlainRun.mk (w.reverse ++ (run.gap.text.reverse ++ run.text)) _ _ _ = run₁
        at hturn
      have hcursor₁ : run₁.cursor = ⟨rest ++ '\n' :: (List.replicate column ' ' ++ body),
          m.forward (w.length + (j + 1))⟩ := by
        rw [← hrun]
      have hbound : rest.length + column < k := by omega
      obtain ⟨run', m', hread, htext, hbroken, hcursor', hcolumn', hline⟩ :=
        ih rest.length (by omega) hrest hcursor₁ hbehind.1 hbehind.2 hbound rfl
      refine ⟨run', m', hturn.trans hread, ?_, hbroken, hcursor', hcolumn', hline⟩
      rw [htext, ← hrun]
      simp [Gap.text]

/-- A plain scalar that ends with its line. -/
theorem plainScalar_line {previous : Char} {cs : List Char} (h : PlainText previous cs)
    {body : List Char} (hbody : Solid body) {column : Nat} {indent : Int}
    (hcolumn : (column : Int) < indent + 1) {m : Mark} (hindent : indent < m.column)
    (hm : 0 < m.column) :
    ∃ finish m', plainScalar ⟨cs ++ '\n' :: (List.replicate column ' ' ++ body), m⟩ false indent
        = .ok (⟨.scalar cs .plain, m, finish⟩, true, ⟨body, m'⟩)
      ∧ m'.column = column ∧ m.line < m'.line := by
  have hfuel : cs.length + column
      < (cs ++ '\n' :: (List.replicate column ' ' ++ body)).length + 1 := by
    simp only [List.length_append, List.length_cons, List.length_replicate]
    omega
  have hcursor : PlainRun.cursor ⟨[], {}, m, ⟨cs ++ '\n' :: (List.replicate column ' ' ++ body), m⟩⟩
      = ⟨cs ++ '\n' :: (List.replicate column ' ' ++ body), m⟩ := rfl
  obtain ⟨run, m', hread, htext, hbroken, hcursor, hcolumn', hline⟩ :=
    takePlain_line h hbody hcolumn m hcursor hindent hm hfuel
  refine ⟨run.finish, m', ?_, hcolumn', hline⟩
  simp only [plainScalar, hread, htext, hbroken, hcursor, bind, Except.bind, pure, Except.pure]
  simp [Gap.text]

/-! ## Names in front of a colon -/

/-- A name is made of letters and underscores. -/
structure IsName (cs : List Char) : Prop where
  nonempty : cs ≠ []
  letters : ∀ c ∈ cs, (c.isAlpha || c == '_') = true

instance (cs : List Char) : Decidable (IsName cs) :=
  decidable_of_iff (cs ≠ [] ∧ cs.all (fun c => c.isAlpha || c == '_') = true)
    ⟨fun h => ⟨h.1, List.all_eq_true.mp h.2⟩, fun h => ⟨h.nonempty, List.all_eq_true.mpr h.letters⟩⟩

/-- What is no letter and no underscore stands in no name. -/
theorem ne_of_letter {c d : Char} (hc : (c.isAlpha || c == '_') = true)
    (hd : (d.isAlpha || d == '_') = false) : c ≠ d := by
  rintro rfl
  rw [hc] at hd
  cases hd

theorem IsName.head_ne {name : List Char} (h : IsName name) {d : Char}
    (hd : (d.isAlpha || d == '_') = false) (more : List Char) : (name ++ more).head? ≠ some d := by
  cases name with
  | nil => exact absurd rfl h.nonempty
  | cons c w =>
    intro heq
    exact ne_of_letter (h.letters c (List.mem_cons_self ..)) hd (Option.some.inj heq)

theorem word_of_letter {c : Char} (hc : (c.isAlpha || c == '_') = true) :
    isBlank c = false ∧ isBreak c = false := by
  have hne {d : Char} (hd : (d.isAlpha || d == '_') = false) : (c == d) = false :=
    beq_false_of_ne (ne_of_letter hc hd)
  constructor
  · rw [isBlank, hne (by decide), hne (by decide), Bool.or_false]
  · rw [isBreak, hne (by decide), hne (by decide), hne (by decide), hne (by decide),
      hne (by decide)]
    rfl

theorem takePlainWord_name {w : List Char} (hw : ∀ c ∈ w, (c.isAlpha || c == '_') = true)
    {rest : List Char} (hrest : endsWord rest.head? = true) (start : Mark) {fuel : Nat}
    (hfuel : w.length < fuel) (acc : List Char) (m : Mark) :
    takePlainWord false start fuel acc ⟨w ++ ':' :: rest, m⟩
      = .ok (w.reverse ++ acc, ⟨':' :: rest, m.forward w.length⟩) := by
  refine takePlainWord_run (fun c hc => word_of_letter (hw c hc)) (fun xs ys hsplit => ?_)
    (fun k acc m => ?_) hfuel acc m
  · have hcolon := hw ':' (by rw [hsplit]; simp)
    exact absurd hcolon (by decide)
  · have hcolon : (isBlank ':' || isBreak ':') = false := by decide
    simp [takePlainWord, hcolon, hrest]

/-- A name in front of a colon is a scalar of its own. -/
theorem plainScalar_name {name : List Char} (h : IsName name) {rest : List Char}
    (hrest : endsWord rest.head? = true) (indent : Int) (m : Mark) :
    plainScalar ⟨name ++ ':' :: rest, m⟩ false indent
      = .ok (⟨.scalar name .plain, m, m.forward name.length⟩, false,
        ⟨':' :: rest, m.forward name.length⟩) := by
  have hfuel : name.length < (name ++ ':' :: rest).length + 1 := by
    rw [List.length_append]
    omega
  have hword := takePlainWord_name h.letters hrest m hfuel [] m
  have hdocument : (Cursor.atDocumentIndicator ⟨name ++ ':' :: rest, m⟩
      || Cursor.looksAt ⟨name ++ ':' :: rest, m⟩ '#') = false := by
    have hcomment : Cursor.looksAt ⟨name ++ ':' :: rest, m⟩ '#' = false :=
      beq_false_of_ne (h.head_ne (by decide) _)
    rw [Cursor.atDocumentIndicator, Cursor.atTriple_of_head (h.head_ne (by decide) _),
      Cursor.atTriple_of_head (h.head_ne (by decide) _), hcomment]
    rfl
  have hempty : name.reverse.isEmpty = false := by simpa using h.nonempty
  have hat : (Cursor.atBlank ⟨':' :: rest, m.forward name.length⟩
      || Cursor.atBreak ⟨':' :: rest, m.forward name.length⟩) = false := rfl
  have hread : takePlain false (indent + 1) m ((name ++ ':' :: rest).length + 1)
      ⟨[], {}, m, ⟨name ++ ':' :: rest, m⟩⟩
        = .ok ⟨name.reverse, {}, m.forward name.length, ⟨':' :: rest, m.forward name.length⟩⟩ := by
    rw [List.append_nil] at hword
    rw [takePlain]
    simp only [hdocument, hword, hempty, hat, bind, Except.bind, pure, Except.pure,
      Bool.false_eq_true, if_false, Bool.not_false, if_true]
    simp [Gap.text]
  simp only [plainScalar, hread, bind, Except.bind, pure, Except.pure, List.reverse_reverse]

end Vendoring.Yaml
