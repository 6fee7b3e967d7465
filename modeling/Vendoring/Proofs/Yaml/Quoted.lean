import Mathlib.Data.List.TakeWhile
import Vendoring.Proofs.Yaml.Escape

/-!
# Quoted scalars are read back

`Quoted` says how a text stands between quotes: words of characters, doubled
quotes and escapes, and between the words gaps, either of spaces or of line
breaks with the indentation behind them. Whatever stands so is read back
(`quotedScalar_of_quoted`), and both writers of quoted scalars write so
(`quoted_single`, `quoted_double`).
-/

namespace Vendoring.Yaml

/-- What stands between quotes, and the text that it stands for. A gap is as
long as it can be. -/
inductive Quoted (quote : Char) : List Char → List Char → Prop
  | nil : Quoted quote [] []
  | char {c : Char} {w t : List Char} (hblank : isBlank c = false) (hbreak : isBreak c = false)
      (hquote : c ≠ quote) (hescape : quote = '"' → c ≠ '\\') (rest : Quoted quote w t) :
      Quoted quote (c :: w) (c :: t)
  | doubled {w t : List Char} (hquote : quote = '\x27') (rest : Quoted quote w t) :
      Quoted quote ('\x27' :: '\x27' :: w) ('\x27' :: t)
  | escape {c : Char} {w t : List Char} (hquote : quote = '"') (rest : Quoted quote w t) :
      Quoted quote (escapeSequence c ++ w) (c :: t)
  | spaces {n : Nat} {w t : List Char} (hsolid : Solid w) (rest : Quoted quote w t) :
      Quoted quote (List.replicate (n + 1) ' ' ++ w) (List.replicate (n + 1) ' ' ++ t)
  | lines {b : Char} {bs : List Char} {n : Nat} {w t : List Char} (hb : IsKept b)
      (hfold : b ≠ '\n') (hbs : ∀ b ∈ bs, IsKept b) (hn : 0 < n) (hsolid : Solid w)
      (rest : Quoted quote w t) :
      Quoted quote (b :: bs ++ (List.replicate n ' ' ++ w)) (b :: bs ++ t)

/-! ## Reading -/

/-- A closing quote, and what is behind it. -/
structure Closes (quote : Char) (rest : List Char) : Prop where
  quote : quote = '\x27' ∨ quote = '"'
  rest : rest.head? ≠ some '\x27'

section Reading

variable {quote : Char} {rest : List Char} (start : Mark)

theorem Closes.solid (hclose : Closes quote rest) (w : List Char) (hw : Solid w) :
    Solid (w ++ quote :: rest) := by
  cases w with
  | nil =>
    rw [List.nil_append, solid_cons]
    rcases hclose.quote with h | h <;> rw [h] <;> decide
  | cons c w => exact hw

/-- No gap begins with the quote. -/
theorem Closes.not_gap (hclose : Closes quote rest) {c : Char}
    (hc : (isBlank c || isBreak c) = true) : c ≠ quote := by
  rintro rfl
  rcases hclose.quote with h | h <;> rw [h] at hc <;> exact absurd hc (by decide)

section Word

variable (acc : List Char) (k : Nat) (m : Mark)

theorem takeQuotedWord_close (hclose : Closes quote rest) :
    takeQuotedWord quote start (k + 1) acc ⟨quote :: rest, m⟩
      = .ok (acc, false, ⟨quote :: rest, m⟩) := by
  have hrest := beq_false_of_ne hclose.rest
  rcases hclose.quote with h | h <;> subst h <;>
    simp [takeQuotedWord, isBlank, isBreak, hrest]

theorem takeQuotedWord_gap {c : Char} (h : (isBlank c || isBreak c) = true) (cs : List Char) :
    takeQuotedWord quote start (k + 1) acc ⟨c :: cs, m⟩ = .ok (acc, false, ⟨c :: cs, m⟩) := by
  simp only [takeQuotedWord, h, if_true]

theorem takeQuotedWord_char {c : Char} (hblank : isBlank c = false) (hbreak : isBreak c = false)
    (hquote : c ≠ quote) (hescape : quote = '"' → c ≠ '\\') (cs : List Char) :
    takeQuotedWord quote start (k + 1) acc ⟨c :: cs, m⟩
      = takeQuotedWord quote start k (c :: acc) ⟨cs, m.forward 1⟩ := by
  have hdoubled : (quote == '\x27' && c == '\x27') = false := by
    rw [Bool.and_eq_false_iff, beq_eq_false_iff_ne, beq_eq_false_iff_ne]
    by_cases h : quote = '\x27'
    · exact Or.inr fun hc => hquote (hc.trans h.symm)
    · exact Or.inl h
  have hbackslash : (quote == '"' && c == '\\') = false := by
    rw [Bool.and_eq_false_iff, beq_eq_false_iff_ne, beq_eq_false_iff_ne]
    by_cases h : quote = '"'
    · exact Or.inr (hescape h)
    · exact Or.inl h
  simp [takeQuotedWord, hblank, hbreak, hdoubled, beq_false_of_ne hquote, hbackslash]

theorem takeQuotedWord_doubled (cs : List Char) :
    takeQuotedWord '\x27' start (k + 1) acc ⟨'\x27' :: '\x27' :: cs, m⟩
      = takeQuotedWord '\x27' start k ('\x27' :: acc) ⟨cs, m.forward 2⟩ := by
  rfl

theorem takeQuotedWord_escape (c : Char) (cs : List Char) :
    takeQuotedWord '"' start (k + 1) acc ⟨escapeSequence c ++ cs, m⟩
      = takeQuotedWord '"' start k (c :: acc) ⟨cs, m.forward (escapeSequence c).length⟩ := by
  obtain ⟨⟨letter, body, hwritten, hbreak⟩, hread⟩ := takeEscape_written start c cs m
  have hblank : (isBlank '\\' || isBreak '\\') = false := by decide
  rw [hwritten] at hread ⊢
  simp only [List.cons_append] at hread ⊢
  simp only [takeQuotedWord, hblank]
  simp [hbreak, hread, bind, Except.bind]

end Word

/-- One word of `w` is read, and a gap or the closing quote is left. -/
def ReadsWord (quote : Char) (rest : List Char) (start : Mark) (w t : List Char) : Prop :=
  ∀ fuel, w.length < fuel → ∀ acc m, ∃ t₀ w₁ t₁ m', t = t₀ ++ t₁ ∧ Quoted quote w₁ t₁
    ∧ (∀ c ∈ w₁.head?, (isBlank c || isBreak c) = true) ∧ w₁.length ≤ w.length
    ∧ takeQuotedWord quote start fuel acc ⟨w ++ quote :: rest, m⟩
      = .ok (t₀.reverse ++ acc, false, ⟨w₁ ++ quote :: rest, m'⟩)
    ∧ m'.line = m.line ∧ m.column ≤ m'.column

namespace ReadsWord

variable {start} {w t e : List Char} {c : Char}

/-- Nothing is read in front of a gap or the closing quote. -/
theorem stop (h : Quoted quote w t) (hhead : ∀ c ∈ w.head?, (isBlank c || isBreak c) = true)
    (hstop : ∀ k acc m, takeQuotedWord quote start (k + 1) acc ⟨w ++ quote :: rest, m⟩
      = .ok (acc, false, ⟨w ++ quote :: rest, m⟩)) : ReadsWord quote rest start w t := by
  intro fuel hfuel acc m
  obtain ⟨k, rfl⟩ : ∃ k, fuel = k + 1 := ⟨fuel - 1, by omega⟩
  exact ⟨[], w, t, m, rfl, h, hhead, Nat.le_refl _, hstop k acc m, rfl, Nat.le_refl _⟩

/-- A character is read from what stands for it, and the word goes on. -/
theorem item (hitem : ∀ k acc m cs, takeQuotedWord quote start (k + 1) acc ⟨e ++ cs, m⟩
      = takeQuotedWord quote start k (c :: acc) ⟨cs, m.forward e.length⟩)
    (hlength : 0 < e.length) (h : ReadsWord quote rest start w t) :
    ReadsWord quote rest start (e ++ w) (c :: t) := by
  intro fuel hfuel acc m
  rw [List.length_append] at hfuel
  obtain ⟨k, rfl⟩ : ∃ k, fuel = k + 1 := ⟨fuel - 1, by omega⟩
  obtain ⟨t₀, w₁, t₁, m', ht, hw₁, hhead, hlen, hread, hline, hcolumn⟩ :=
    h k (by omega) (c :: acc) (m.forward e.length)
  refine ⟨c :: t₀, w₁, t₁, m', by rw [ht, List.cons_append], hw₁, hhead, ?_, ?_, hline,
    Nat.le_trans (Nat.le_add_right ..) hcolumn⟩
  · rw [List.length_append]
    omega
  · rw [List.append_assoc, hitem, hread, List.reverse_cons, List.append_assoc,
      List.singleton_append]

end ReadsWord

theorem readsWord_of_quoted (hclose : Closes quote rest) {w t : List Char}
    (h : Quoted quote w t) : ReadsWord quote rest start w t := by
  induction h with
  | nil => exact .stop .nil (by simp) fun k acc m => takeQuotedWord_close start acc k m hclose
  | @char c w t hblank hbreak hquote hescape _ ih =>
    exact .item (e := [c]) (fun k acc m cs =>
      takeQuotedWord_char start acc k m hblank hbreak hquote hescape cs) Nat.zero_lt_one ih
  | doubled hquote _ ih =>
    subst hquote
    exact .item (e := ['\x27', '\x27']) (fun k acc m cs =>
      takeQuotedWord_doubled start acc k m cs) (by decide) ih
  | @escape c w t hquote _ ih =>
    subst hquote
    have hlength : 0 < (escapeSequence c).length := by
      rw [escapeSequence, List.length_cons]
      omega
    exact .item (fun k acc m cs => takeQuotedWord_escape start acc k m c cs) hlength ih
  | spaces hsolid hrest _ =>
    refine .stop (.spaces hsolid hrest) (fun c hc => ?_) fun k acc m =>
      takeQuotedWord_gap start acc k m (by decide) _
    cases hc
    decide
  | @lines b bs n w t hb hfold hbs hn hsolid hrest _ =>
    have hbreak : (isBlank b || isBreak b) = true := by
      rw [isBreak_of_isKept hb, Bool.or_true]
    refine .stop (.lines hb hfold hbs hn hsolid hrest) (fun c hc => ?_) fun k acc m =>
      takeQuotedWord_gap start acc k m hbreak _
    cases hc
    exact hbreak

/-- A gap of `w` is read, and another word or the closing quote is left. -/
theorem takeGap_quoted (hclose : Closes quote rest) {w t : List Char} (h : Quoted quote w t)
    (hne : w ≠ []) (hhead : ∀ c ∈ w.head?, (isBlank c || isBreak c) = true) {fuel : Nat}
    (hfuel : w.length ≤ fuel) {m : Mark} (hm : 0 < m.column) :
    ∃ gap w₁ t₁ m', t = Gap.text gap ++ t₁ ∧ Quoted quote w₁ t₁ ∧ w₁.length < w.length
      ∧ takeGap none fuel {} ⟨w ++ quote :: rest, m⟩ = .ok (gap, ⟨w₁ ++ quote :: rest, m'⟩)
      ∧ 0 < m'.column ∧ m.line ≤ m'.line := by
  cases h with
  | nil => exact absurd rfl hne
  | char hblank hbreak _ _ _ =>
    have := hhead _ rfl
    rw [hblank, hbreak] at this
    cases this
  | doubled _ _ => exact absurd (hhead _ rfl) (by decide)
  | escape _ _ => exact absurd (hhead _ rfl) (by decide)
  | @spaces n w₁ t₁ hsolid hrest =>
    rw [List.length_append, List.length_replicate] at hfuel
    refine ⟨⟨List.replicate (n + 1) ' ', [], [], false⟩, w₁, t₁, m.forward (n + 1), rfl, hrest,
      ?_, ?_, ?_, Nat.le_refl _⟩
    · rw [List.length_append, List.length_replicate]
      omega
    · have hbound : n + 1 ≤ fuel := by omega
      rw [List.append_assoc]
      exact takeGap_spaces (hclose.solid w₁ hsolid) hbound [] m
    · rw [Mark.forward_column]
      omega
  | @lines b bs n w₁ t₁ hb hfold hbs hn hsolid hrest =>
    simp only [List.length_append, List.length_cons, List.length_replicate] at hfuel
    have hbound : bs.length + n < fuel := by omega
    obtain ⟨m', hgap, hcolumn, hline⟩ :=
      takeGap_lines (hclose.solid w₁ hsolid) hb hbs hbound m
    have hfirst : ([b] == ['\n']) = false := beq_false_of_ne fun h => hfold (List.cons.inj h).1
    refine ⟨⟨[], [b], bs, true⟩, w₁, t₁, m', ?_, hrest, ?_, ?_, by omega, by omega⟩
    · simp only [Gap.text, if_true, hfirst, Bool.false_eq_true, if_false, List.singleton_append]
    · simp only [List.length_append, List.length_cons, List.length_replicate]
      omega
    · rw [List.append_assoc, List.append_assoc]
      exact hgap

section Round

variable {k : Nat} {acc acc₁ : List Char} {c c₁ c₂ : Cursor} {gap : Gap}
  (hdocument : c.atDocumentIndicator = false) (hend : c.atEnd = false)
  (hread : takeQuotedWord quote start (k + 1) acc c = .ok (acc₁, false, c₁))

include hdocument hend hread

theorem takeQuoted_of_close (hat : c₁.looksAt quote = true) :
    takeQuoted quote start (k + 1) acc c = .ok (acc₁.reverse, c₁.skip) := by
  rw [takeQuoted]
  simp only [hdocument, hend, hread, hat, bind, Except.bind, Bool.false_eq_true, if_false, if_true]
  rfl

theorem takeQuoted_of_gap (hat : c₁.looksAt quote = false)
    (hgap : takeGap none (k + 1) {} c₁ = .ok (gap, c₂)) :
    takeQuoted quote start (k + 1) acc c
      = takeQuoted quote start k (gap.text.reverse ++ acc₁) c₂ := by
  rw [takeQuoted]
  simp only [hdocument, hend, hread, hat, hgap, bind, Except.bind, Bool.false_eq_true, if_false]

end Round

/-- Words and gaps up to the closing quote. The induction is on the length of
what is quoted: behind a word there is a gap, and that takes some of it. -/
theorem takeQuoted_quoted (hclose : Closes quote rest) {w t : List Char} (h : Quoted quote w t)
    {fuel : Nat} (hfuel : w.length < fuel) (acc : List Char) {m : Mark} (hm : 0 < m.column) :
    ∃ m', takeQuoted quote start fuel acc ⟨w ++ quote :: rest, m⟩
        = .ok (acc.reverse ++ t, ⟨rest, m'⟩) ∧ m.line ≤ m'.line := by
  induction hn : w.length using Nat.strong_induction_on generalizing w t fuel acc m with
  | _ n ih =>
    obtain ⟨t₀, w₁, t₁, m₁, rfl, hw₁, hhead, hlen, hread, hline, hcolumn⟩ :=
      readsWord_of_quoted start hclose h fuel hfuel acc m
    obtain ⟨k, rfl⟩ : ∃ k, fuel = k + 1 := ⟨fuel - 1, by omega⟩
    have hdocument : Cursor.atDocumentIndicator ⟨w ++ quote :: rest, m⟩ = false :=
      Cursor.atDocumentIndicator_of_column hm
    have hend : Cursor.atEnd ⟨w ++ quote :: rest, m⟩ = false := by
      simp [Cursor.atEnd]
    cases hw : w₁ with
    | nil =>
      subst hw
      cases hw₁
      have hat : Cursor.looksAt ⟨[] ++ quote :: rest, m₁⟩ quote = true := by
        simp [Cursor.looksAt]
      rw [takeQuoted_of_close start hdocument hend hread hat, List.append_nil,
        List.reverse_append, List.reverse_reverse]
      exact ⟨_, rfl, Nat.le_of_eq hline.symm⟩
    | cons c cs =>
      have hne : w₁ ≠ [] := by simp [hw]
      obtain ⟨gap, w₂, t₂, m₂, rfl, hw₂, hshort, hgap, hcolumn₂, hline₂⟩ :=
        takeGap_quoted hclose hw₁ hne hhead (by omega : w₁.length ≤ k + 1)
          (Nat.lt_of_lt_of_le hm hcolumn)
      have hat : Cursor.looksAt ⟨w₁ ++ quote :: rest, m₁⟩ quote = false := by
        subst hw
        exact beq_false_of_ne fun h => hclose.not_gap (hhead c rfl) (Option.some.inj h)
      obtain ⟨m', hmore, hlater⟩ := ih w₂.length (by omega) hw₂ (by omega : w₂.length < k)
        (gap.text.reverse ++ (t₀.reverse ++ acc)) hcolumn₂ rfl
      refine ⟨m', ?_, by omega⟩
      rw [takeQuoted_of_gap start hdocument hend hread hat hgap, hmore]
      simp

/-- A quoted scalar is read to its end. -/
theorem quotedScalar_of_quoted {single : Bool} (hquote : quote = if single then '\x27' else '"')
    (hrest : rest.head? ≠ some '\x27') {w t : List Char} (h : Quoted quote w t) (m : Mark) :
    ∃ m', quotedScalar ⟨quote :: (w ++ quote :: rest), m⟩ single
        = .ok (⟨.scalar t (if single then .singleQuoted else .doubleQuoted), m, m'⟩, ⟨rest, m'⟩)
      ∧ m.line ≤ m'.line := by
  have hclose : Closes quote rest := by
    refine ⟨?_, hrest⟩
    rw [hquote]
    cases single <;> simp
  have hfuel : w.length < (quote :: (w ++ quote :: rest)).length + 1 := by
    simp only [List.length_cons, List.length_append]
    omega
  have hcolumn : 0 < (m.forward 1).column := by simp
  obtain ⟨m', hread, hline⟩ := takeQuoted_quoted m hclose h hfuel [] hcolumn
  refine ⟨m', ?_, hline⟩
  simp only [quotedScalar, ← hquote, Cursor.skip_cons, hread, bind, Except.bind, pure, Except.pure,
    List.reverse_nil, List.nil_append]

end Reading

/-! ## Runs -/

/-- A text begins with a run of characters of one kind, as long as can be. -/
theorem run_split (p : Char → Bool) (cs : List Char) :
    ∃ run rest, cs = run ++ rest ∧ (∀ c ∈ run, p c = true) ∧ ∀ c ∈ rest.head?, p c = false := by
  refine ⟨cs.takeWhile p, cs.dropWhile p, List.takeWhile_append_dropWhile.symm,
    fun c hc => List.mem_takeWhile_imp hc, fun c hc => ?_⟩
  have h := List.head?_dropWhile_not p cs
  rw [Option.mem_def.mp hc] at h
  exact h

theorem spaces_split {c : Char} (cs : List Char) (hspace : isSpace c = true) :
    ∃ n rest, c :: cs = List.replicate (n + 1) ' ' ++ rest
      ∧ ∀ c ∈ rest.head?, isSpace c = false := by
  obtain ⟨run, rest, rfl, hrun, hrest⟩ := run_split isSpace cs
  have hspaces : ∀ d ∈ run, d = ' ' := fun d hd => by simpa [isSpace] using hrun d hd
  obtain rfl : c = ' ' := by simpa [isSpace] using hspace
  have hrun := List.eq_replicate_of_mem hspaces
  exact ⟨run.length, rest, by rw [List.replicate_succ, ← hrun, List.cons_append], hrest⟩

theorem hasNeighbours_tail {p q : Char → Bool} {c : Char} {cs : List Char}
    (h : hasNeighbours p q (c :: cs) = false) : hasNeighbours p q cs = false := by
  cases cs with
  | nil => rfl
  | cons d cs =>
    rw [hasNeighbours, Bool.or_eq_false_iff] at h
    exact h.2

theorem hasNeighbours_append_right {p q : Char → Bool} {xs ys : List Char}
    (h : hasNeighbours p q (xs ++ ys) = false) : hasNeighbours p q ys = false := by
  induction xs with
  | nil => exact h
  | cons x xs ih => exact ih (hasNeighbours_tail h)

/-- Behind a run on the left side nothing of the right side follows. -/
theorem head_behind_run {p q : Char → Bool} {x : Char} {xs ys : List Char}
    (hxs : ∀ c ∈ x :: xs, p c = true) (h : hasNeighbours p q (x :: xs ++ ys) = false) :
    ∀ c ∈ ys.head?, q c = false := by
  induction xs generalizing x with
  | nil =>
    intro c hc
    cases ys with
    | nil => cases hc
    | cons d ys =>
      cases hc
      have hx := hxs x (List.mem_singleton_self x)
      simp only [List.singleton_append, hasNeighbours, Bool.or_eq_false_iff, hx, Bool.true_and] at h
      exact h.1
  | cons x' xs ih =>
    exact ih (fun c hc => hxs c (List.mem_cons_of_mem _ hc)) (hasNeighbours_tail h)

/-! ## Writing between single quotes -/

/-- A printable blank is a space. -/
theorem isBlank_eq_isSpace {c : Char} (h : isPrintable c = true) : isBlank c = isSpace c := by
  have htab : c ≠ '\t' := by
    rintro rfl
    exact absurd h (by decide)
  rw [isBlank, isSpace, beq_false_of_ne htab, Bool.or_false]

/-- The texts that are written between single quotes. -/
structure SingleQuotable (cs : List Char) : Prop where
  printable : ∀ c ∈ cs, isPrintable c = true
  unbroken : '\n' ∉ cs
  spaceBreak : hasNeighbours isSpace isBreak cs = false
  breakSpace : hasNeighbours isBreak isSpace cs = false

theorem SingleQuotable.behind {xs ys : List Char} (h : SingleQuotable (xs ++ ys)) :
    SingleQuotable ys where
  printable c hc := h.printable c (List.mem_append_right _ hc)
  unbroken hc := h.unbroken (List.mem_append_right _ hc)
  spaceBreak := hasNeighbours_append_right h.spaceBreak
  breakSpace := hasNeighbours_append_right h.breakSpace

theorem SingleQuotable.breaks_split {c : Char} {cs : List Char} (h : SingleQuotable (c :: cs))
    (hbreak : isBreak c = true) :
    ∃ bs rest, cs = bs ++ rest ∧ (∀ b ∈ bs, isBreak b = true) ∧ (∀ b ∈ c :: bs, IsKept b)
      ∧ c ≠ '\n' ∧ ∀ c ∈ rest.head?, isSpace c = false ∧ isBreak c = false := by
  obtain ⟨bs, rest, rfl, hbs, hrest⟩ := run_split isBreak cs
  rw [← List.cons_append] at h
  have hbreaks : ∀ b ∈ c :: bs, isBreak b = true := List.forall_mem_cons.mpr ⟨hbreak, hbs⟩
  have hspace := head_behind_run hbreaks h.breakSpace
  refine ⟨bs, rest, rfl, hbs, fun b hb => ?_, ?_, fun d hd => ⟨hspace d hd, hrest d hd⟩⟩
  · exact isKept_of_printable (hbreaks b hb) (h.printable b (List.mem_append_left _ hb))
  · rintro rfl
    exact h.unbroken (List.mem_cons_self ..)

section Single

variable {indent : Nat} {cs : List Char}

theorem singleQuotedFrom_spaces (indent n : Nat) (cs : List Char) :
    singleQuotedFrom indent false (List.replicate n ' ' ++ cs)
      = List.replicate n ' ' ++ singleQuotedFrom indent false cs := by
  induction n with
  | zero => rfl
  | succ n ih =>
    rw [List.replicate_succ, List.cons_append, singleQuotedFrom, if_pos (by decide), ih,
      List.cons_append]

theorem singleQuotedFrom_break {c : Char} (hc : isBreak c = true) (broken : Bool) :
    singleQuotedFrom indent broken (c :: cs) = c :: singleQuotedFrom indent true cs := by
  have hspace : isSpace c = false := by
    have hblank := not_isBlank_of_isBreak hc
    rw [isBlank, Bool.or_eq_false_iff] at hblank
    exact hblank.1
  rw [singleQuotedFrom, hspace, if_neg Bool.false_ne_true, if_pos hc]

theorem singleQuotedFrom_breaks {bs : List Char} (hbs : ∀ b ∈ bs, isBreak b = true) :
    singleQuotedFrom indent true (bs ++ cs) = bs ++ singleQuotedFrom indent true cs := by
  induction bs with
  | nil => rfl
  | cons b bs ih =>
    rw [List.cons_append, singleQuotedFrom_break (hbs b (List.mem_cons_self ..)),
      ih fun b' hb' => hbs b' (List.mem_cons_of_mem _ hb'), List.cons_append]

/-- Behind a break the line is indented before it goes on. -/
theorem singleQuotedFrom_broken (h : ∀ c ∈ cs.head?, isSpace c = false ∧ isBreak c = false) :
    singleQuotedFrom indent true cs
      = List.replicate indent ' ' ++ singleQuotedFrom indent false cs := by
  cases cs with
  | nil => simp [singleQuotedFrom, spaces]
  | cons c cs =>
    obtain ⟨hspace, hbreak⟩ := h c rfl
    simp [singleQuotedFrom, hspace, hbreak, spaces]

theorem solid_singleQuotedFrom (hprint : ∀ c ∈ cs, isPrintable c = true)
    (h : ∀ c ∈ cs.head?, isSpace c = false ∧ isBreak c = false) :
    Solid (singleQuotedFrom indent false cs) := by
  cases cs with
  | nil => exact solid_nil
  | cons c cs =>
    obtain ⟨hspace, hbreak⟩ := h c rfl
    have hblank : isBlank c = false :=
      (isBlank_eq_isSpace (hprint c (List.mem_cons_self ..))).trans hspace
    rw [singleQuotedFrom, hspace, hbreak]
    simp only [Bool.false_eq_true, if_false, List.nil_append]
    split
    · exact solid_cons.mpr (by decide)
    · exact solid_cons.mpr ⟨hblank, hbreak⟩

/-- What the writer puts between single quotes is read back. The induction is
on the length of the text, since a run is taken at once. -/
theorem quoted_single (hindent : 0 < indent) (h : SingleQuotable cs) :
    Quoted '\x27' (singleQuotedFrom indent false cs) cs := by
  induction hn : cs.length using Nat.strong_induction_on generalizing cs with
  | _ n ih =>
    cases cs with
    | nil => exact .nil
    | cons c cs =>
      rw [List.length_cons] at hn
      by_cases hspace : isSpace c = true
      · obtain ⟨j, rest, hsplit, hrest⟩ := spaces_split cs hspace
        have hlength := congrArg List.length hsplit
        rw [List.length_cons, List.length_append, List.length_replicate] at hlength
        rw [hsplit] at h ⊢
        have hbreak := head_behind_run (by simp [isSpace]) h.spaceBreak
        have hhead : ∀ c ∈ rest.head?, isSpace c = false ∧ isBreak c = false :=
          fun d hd => ⟨hrest d hd, hbreak d hd⟩
        rw [singleQuotedFrom_spaces]
        exact .spaces (solid_singleQuotedFrom h.behind.printable hhead)
          (ih _ (by omega) h.behind rfl)
      · rw [Bool.not_eq_true] at hspace
        by_cases hbreak : isBreak c = true
        · obtain ⟨bs, rest, rfl, hbreaks, hkept, hfold, hhead⟩ := h.breaks_split hbreak
          rw [← List.cons_append] at h
          rw [singleQuotedFrom_break hbreak, singleQuotedFrom_breaks hbreaks,
            singleQuotedFrom_broken hhead]
          rw [List.length_append] at hn
          exact .lines (hkept c (List.mem_cons_self ..)) hfold
            (fun b hb => hkept b (List.mem_cons_of_mem _ hb)) hindent
            (solid_singleQuotedFrom h.behind.printable hhead) (ih _ (by omega) h.behind rfl)
        · rw [Bool.not_eq_true] at hbreak
          have hbehind : SingleQuotable ([c] ++ cs) := h
          have hrest := ih _ (by omega) hbehind.behind rfl
          rw [singleQuotedFrom, hspace, hbreak]
          simp only [Bool.false_eq_true, if_false, List.nil_append, beq_iff_eq]
          split
          · next hquote =>
            subst hquote
            exact .doubled rfl hrest
          · next hquote =>
            have hblank : isBlank c = false :=
              (isBlank_eq_isSpace (h.printable c (List.mem_cons_self ..))).trans hspace
            exact .char hblank hbreak hquote (fun h => absurd h (by decide)) hrest

end Single

/-! ## Writing between double quotes -/

theorem doubleQuotedChar_cases (c : Char) :
    doubleQuotedChar c = escapeSequence c
      ∨ doubleQuotedChar c = [c] ∧ isPrintable c = true ∧ isBreak c = false ∧ c ≠ '"'
        ∧ c ≠ '\\' := by
  unfold doubleQuotedChar
  split
  · exact Or.inl rfl
  · next h =>
    simp only [Bool.or_eq_true, Bool.not_eq_eq_eq_not, Bool.not_true, beq_iff_eq, not_or,
      Bool.not_eq_true, Bool.not_eq_false] at h
    exact Or.inr ⟨rfl, h.1.1.1, h.1.1.2, h.1.2, h.2⟩

theorem solid_doubleQuoted {cs : List Char} (h : ∀ c ∈ cs.head?, isSpace c = false) :
    Solid (cs.flatMap doubleQuotedChar) := by
  cases cs with
  | nil => exact solid_nil
  | cons c cs =>
    rw [List.flatMap_cons]
    rcases doubleQuotedChar_cases c with hc | ⟨hc, hprint, hbreak, -, -⟩
    · rw [hc]
      exact solid_cons.mpr (by decide)
    · rw [hc]
      exact solid_cons.mpr ⟨(isBlank_eq_isSpace hprint).trans (h c rfl), hbreak⟩

theorem doubleQuoted_spaces (n : Nat) :
    (List.replicate n ' ').flatMap doubleQuotedChar = List.replicate n ' ' := by
  induction n with
  | zero => rfl
  | succ n ih =>
    rw [List.replicate_succ, List.flatMap_cons, ih]
    rfl

/-- Any text can stand between double quotes. -/
theorem quoted_double (cs : List Char) : Quoted '"' (cs.flatMap doubleQuotedChar) cs := by
  induction hn : cs.length using Nat.strong_induction_on generalizing cs with
  | _ n ih =>
    cases cs with
    | nil => exact .nil
    | cons c cs =>
      rw [List.length_cons] at hn
      by_cases hspace : isSpace c = true
      · obtain ⟨j, rest, hsplit, hrest⟩ := spaces_split cs hspace
        have hlength := congrArg List.length hsplit
        rw [List.length_cons, List.length_append, List.length_replicate] at hlength
        rw [hsplit, List.flatMap_append, doubleQuoted_spaces]
        exact .spaces (solid_doubleQuoted hrest) (ih _ (by omega) rest rfl)
      · rw [Bool.not_eq_true] at hspace
        have hrest := ih _ (by omega) cs rfl
        rw [List.flatMap_cons]
        rcases doubleQuotedChar_cases c with hc | ⟨hc, hprint, hbreak, hquote, hbackslash⟩
        · rw [hc]
          exact .escape rfl hrest
        · rw [hc]
          exact .char ((isBlank_eq_isSpace hprint).trans hspace) hbreak hquote
            (fun _ => hbackslash) hrest

end Vendoring.Yaml
