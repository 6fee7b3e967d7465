import Vendoring.Proofs.Yaml.Plain

/-!
# Literal blocks are read back

A literal block is a list of lines, each behind its indentation, with empty
lines between them: `Block` says how the lines stand and which text they hold,
with the breaks at the end apart, because the head of the block decides what
becomes of these. The writer and the reader of the head agree
(`takeBlockHeader_hints`, `chompingOf_cases`), and with that the whole block is
read back (`blockScalar_literal`).
-/

namespace Vendoring.Yaml

/-! ## Empty lines -/

theorem span_eq_takeWhile (p : Char → Bool) (cs : List Char) (m : Mark) :
    (Cursor.span p ⟨cs, m⟩).1 = cs.takeWhile p := by
  unfold Cursor.span
  induction cs generalizing m with
  | nil => rfl
  | cons c cs ih =>
    simp only [Cursor.spanFrom, List.takeWhile_cons]
    split
    · exact congrArg (c :: ·) (ih m.step)
    · rfl

/-- The next line with text, or what stands behind the block: a line is
indented by `indent`, and what stands behind by less. -/
structure NextLine (indent column : Nat) (rest : List Char) : Prop where
  fits : column ≤ indent
  unbroken : ∀ c ∈ rest.head?, isBreak c = false
  behind : column < indent → Solid rest

theorem NextLine.room {indent column : Nat} {rest : List Char} (h : NextLine indent column rest)
    (m : Mark) (hm : m.column = 0) :
    min (Cursor.span (· == ' ') ⟨List.replicate column ' ' ++ rest, m⟩).1.length (indent - m.column)
      = column := by
  rw [span_eq_takeWhile, List.takeWhile_append_of_pos (by simp), List.length_append,
    List.length_replicate, hm]
  rcases Nat.lt_or_ge column indent with hlt | hge
  · have hstop : rest.takeWhile (· == ' ') = [] := by
      cases rest with
      | nil => rfl
      | cons c rest =>
        have hblank := (solid_cons.mp (h.behind hlt)).1
        rw [isBlank, Bool.or_eq_false_iff] at hblank
        simp [hblank.1]
    rw [hstop, List.length_nil]
    omega
  · have := h.fits
    omega

section EmptyLines

variable {indent column : Nat} {rest : List Char} (start : Mark)

/-- Empty lines end at the next line with text. -/
theorem takeEmptyLines_end (hnext : NextLine indent column rest) (k : Nat) (before : List Char)
    (deepest : Nat) (finish : Mark) {m : Mark} (hm : m.column = 0) :
    takeEmptyLines (some indent) start (k + 1)
        ⟨before, deepest, finish, ⟨List.replicate column ' ' ++ rest, m⟩⟩
      = .ok ⟨before, max deepest (m.column + column), finish, ⟨rest, m.forward column⟩⟩ := by
  have hskip := Cursor.skipMany_append (List.replicate column ' ') rest m
  rw [List.length_replicate] at hskip
  have htab : (decide (m.column + column < indent)
      && Cursor.looksAt ⟨rest, m.forward column⟩ '\t') = false := by
    rw [Bool.and_eq_false_iff, decide_eq_false_iff_not]
    rcases Nat.lt_or_ge column indent with hlt | hge
    · right
      refine beq_false_of_ne fun htab => ?_
      have hblank := (hnext.behind hlt '\t' htab).1
      cases hblank
    · left
      omega
  have hbreak : Cursor.atBreak ⟨rest, m.forward column⟩ = false := by
    cases rest with
    | nil => rfl
    | cons c rest => exact hnext.unbroken c rfl
  rw [takeEmptyLines]
  simp only [hnext.room m hm, hskip, Option.all_some, Mark.forward_column, htab, hbreak,
    Bool.false_eq_true, if_false]
  rfl

/-- An empty line is a break. -/
theorem takeEmptyLines_break {b : Char} (hb : IsKept b) (k : Nat) (before cs : List Char)
    (deepest : Nat) (finish m : Mark) :
    takeEmptyLines (some indent) start (k + 1) ⟨before, deepest, finish, ⟨b :: cs, m⟩⟩
      = takeEmptyLines (some indent) start k
        ⟨before ++ [b], max deepest m.column, m.nextLine 1, ⟨cs, m.nextLine 1⟩⟩ := by
  have hne {c : Char} (hc : isBreak c = false) : b ≠ c := by
    rintro rfl
    rw [isBreak_of_isKept hb] at hc
    cases hc
  have hspace : (Cursor.span (· == ' ') ⟨b :: cs, m⟩).1.length = 0 := by
    rw [span_eq_takeWhile, List.takeWhile_cons, beq_false_of_ne (hne (by decide))]
    rfl
  have htab : Cursor.looksAt ⟨b :: cs, m⟩ '\t' = false :=
    beq_false_of_ne fun h => hne (by decide) (Option.some.inj h)
  have hbreak : Cursor.atBreak ⟨b :: cs, m⟩ = true := isBreak_of_isKept hb
  rw [takeEmptyLines]
  simp only [hspace, Nat.zero_min, Cursor.skipMany, htab, hbreak, Bool.and_false,
    Bool.false_eq_true, if_false, if_true]
  rw [Cursor.takeBreak_kept hb]

/-- Breaks, and the indentation of what follows them. -/
theorem takeEmptyLines_breaks (hnext : NextLine indent column rest) {bs : List Char}
    (hbs : ∀ b ∈ bs, IsKept b) {fuel : Nat} (hfuel : bs.length < fuel) (before : List Char)
    (deepest : Nat) (finish : Mark) {m : Mark} (hm : m.column = 0) :
    ∃ lines m', takeEmptyLines (some indent) start fuel
          ⟨before, deepest, finish, ⟨bs ++ (List.replicate column ' ' ++ rest), m⟩⟩ = .ok lines
      ∧ lines.breaks = before ++ bs ∧ lines.cursor = ⟨rest, m'⟩ ∧ m'.column = column
      ∧ m.line ≤ m'.line := by
  obtain ⟨k, rfl⟩ : ∃ k, fuel = k + 1 := ⟨fuel - 1, by omega⟩
  induction bs generalizing k before deepest finish m with
  | nil =>
    refine ⟨_, _, takeEmptyLines_end start hnext k before deepest finish hm,
      (List.append_nil _).symm, rfl, ?_, Nat.le_refl _⟩
    rw [Mark.forward_column, hm, Nat.zero_add]
  | cons b bs ih =>
    rw [List.length_cons] at hfuel
    obtain ⟨j, rfl⟩ : ∃ j, k = j + 1 := ⟨k - 1, by omega⟩
    obtain ⟨lines, m', hread, hbreaks, hcursor, hcolumn, hline⟩ :=
      ih (fun b' hb' => hbs b' (List.mem_cons_of_mem _ hb')) (before ++ [b]) (max deepest m.column)
        (m.nextLine 1) (m.nextLine_column 1) j (by omega)
    refine ⟨lines, m', ?_, by rw [hbreaks, List.append_assoc, List.singleton_append], hcursor,
      hcolumn, Nat.le_of_succ_le hline⟩
    rw [List.cons_append, takeEmptyLines_break start (hbs b (List.mem_cons_self ..)), hread]

end EmptyLines

/-! ## Lines -/

/-- The lines `w` of a block, from the text of the first one to the breaks
behind the last one, hold the text `body` in front of the breaks `tail`. -/
inductive Block (indent : Nat) : List Char → List Char → List Char → Prop
  | last {l : List Char} {b : Char} {bs : List Char} (hne : l ≠ [])
      (hl : ∀ c ∈ l, isBreak c = false) (hb : IsKept b) (hbs : ∀ b ∈ bs, IsKept b) :
      Block indent (l ++ b :: bs) l (b :: bs)
  | line {l : List Char} {b : Char} {bs w body tail : List Char} (hne : l ≠ [])
      (hl : ∀ c ∈ l, isBreak c = false) (hb : IsKept b) (hbs : ∀ b ∈ bs, IsKept b)
      (rest : Block indent w body tail) :
      Block indent (l ++ b :: bs ++ (List.replicate indent ' ' ++ w)) (l ++ b :: bs ++ body) tail

section Lines

variable {indent : Nat}

theorem Block.tail_kept {w body tail : List Char} (h : Block indent w body tail) :
    ∃ b bs, tail = b :: bs ∧ IsKept b ∧ ∀ b ∈ bs, IsKept b := by
  induction h with
  | last _ _ hb hbs => exact ⟨_, _, rfl, hb, hbs⟩
  | line _ _ _ _ _ ih => exact ih

/-- The text in front of the breaks at the end ends with a line. -/
theorem Block.body_ends {w body tail : List Char} (h : Block indent w body tail) :
    ∃ front c, body = front ++ [c] ∧ isBreak c = false := by
  induction h with
  | last hne hl _ _ =>
    exact ⟨_, _, (List.dropLast_concat_getLast hne).symm, hl _ (List.getLast_mem hne)⟩
  | line _ _ _ _ _ ih =>
    obtain ⟨front, c, hbody, hc⟩ := ih
    exact ⟨_, c, by rw [hbody, ← List.append_assoc], hc⟩

theorem Block.head_unbroken {w body tail : List Char} (h : Block indent w body tail)
    (more : List Char) : ∀ c ∈ (w ++ more).head?, isBreak c = false := by
  have hline {l more : List Char} (hne : l ≠ []) (hl : ∀ c ∈ l, isBreak c = false) :
      ∀ c ∈ (l ++ more).head?, isBreak c = false := by
    intro c hc
    cases l with
    | nil => exact absurd rfl hne
    | cons d l => exact hl c (List.mem_of_mem_head? hc)
  cases h with
  | last hne hl _ _ =>
    rw [List.append_assoc]
    exact hline hne hl
  | line hne hl _ _ _ =>
    rw [List.append_assoc, List.append_assoc]
    exact hline hne hl

/-- One line, the break behind it and the empty lines behind that. -/
theorem takeBlockLines_turn {l : List Char} {b : Char} {bs : List Char} (hne : l ≠ [])
    (hl : ∀ c ∈ l, isBreak c = false) (hb : IsKept b) (hbs : ∀ b ∈ bs, IsKept b) {column : Nat}
    {rest : List Char} (hnext : NextLine indent column rest) (start : Mark) (k : Nat)
    {run : BlockRun} {m : Mark}
    (hcursor : run.lines.cursor = ⟨l ++ b :: bs ++ (List.replicate column ' ' ++ rest), m⟩)
    (hm : m.column = indent) :
    ∃ run' m', takeBlockLines false indent start (k + 1) run
        = takeBlockLines false indent start k run'
      ∧ run'.text = l.reverse ++ ((run.lastBreak ++ run.lines.breaks).reverse ++ run.text)
      ∧ run'.lastBreak = [b] ∧ run'.lines.breaks = bs ∧ run'.lines.cursor = ⟨rest, m'⟩
      ∧ m'.column = column ∧ m.line < m'.line := by
  have hfuel : bs.length < (bs ++ (List.replicate column ' ' ++ rest)).length + 1 := by
    rw [List.length_append]
    omega
  obtain ⟨lines, m', hread, hbreaks, hcursor', hcolumn, hline⟩ :=
    takeEmptyLines_breaks start hnext hbs hfuel [] 0 ((m.forward l.length).nextLine 1)
      ((m.forward l.length).nextLine_column 1)
  have hspan : Cursor.span (fun c => !isBreak c)
      ⟨l ++ b :: (bs ++ (List.replicate column ' ' ++ rest)), m⟩
        = (l, ⟨b :: (bs ++ (List.replicate column ' ' ++ rest)), m.forward l.length⟩) := by
    refine Cursor.spanFrom_append (fun c hc => by rw [hl c hc]; rfl) (fun c hc => ?_) m
    cases hc
    rw [isBreak_of_isKept hb]
    rfl
  have hmore : (m.column != indent
      || Cursor.atEnd ⟨l ++ b :: (bs ++ (List.replicate column ' ' ++ rest)), m⟩) = false := by
    rw [hm]
    cases l with
    | nil => exact absurd rfl hne
    | cons c l => simp [Cursor.atEnd]
  refine ⟨⟨l.reverse ++ ((run.lastBreak ++ run.lines.breaks).reverse ++ run.text), [b],
    run.lines.cursor.atBlank, lines⟩, m', ?_, rfl, rfl, hbreaks, hcursor', hcolumn, hline⟩
  rw [List.append_assoc, List.cons_append] at hcursor
  rw [takeBlockLines]
  simp only [hcursor, hmore, hspan, Cursor.takeBreak_kept hb, hread, bind, Except.bind,
    Bool.false_and, Bool.false_eq_true, if_false]

/-- A run of lines ends where something stands that is indented less. -/
theorem takeBlockLines_end {start : Mark} {k : Nat} {run : BlockRun}
    (h : run.lines.cursor.mark.column ≠ indent) :
    takeBlockLines false indent start k run = .ok run := by
  cases k with
  | zero => rfl
  | succ k =>
    have hne : (run.lines.cursor.mark.column != indent) = true := by simpa using h
    rw [takeBlockLines]
    simp only [hne, Bool.true_or, if_true]
    rfl

theorem takeBlockLines_block {w body tail : List Char} (h : Block indent w body tail)
    {column : Nat} (hcolumn : column < indent) {rest : List Char} (hrest : Solid rest)
    (start : Mark) {fuel : Nat} (hfuel : w.length < fuel) {run : BlockRun} {m : Mark}
    (hcursor : run.lines.cursor = ⟨w ++ (List.replicate column ' ' ++ rest), m⟩)
    (hm : m.column = indent) :
    ∃ run' m', takeBlockLines false indent start fuel run = .ok run'
      ∧ run'.text = body.reverse ++ ((run.lastBreak ++ run.lines.breaks).reverse ++ run.text)
      ∧ run'.lastBreak ++ run'.lines.breaks = tail ∧ run'.lastBreak.length = 1
      ∧ run'.lines.cursor = ⟨rest, m'⟩ ∧ m'.column = column ∧ m.line < m'.line := by
  induction h generalizing fuel run m with
  | @last l b bs hne hl hb hbs =>
    obtain ⟨k, rfl⟩ : ∃ k, fuel = k + 1 := ⟨fuel - 1, by omega⟩
    have hnext : NextLine indent column rest :=
      ⟨Nat.le_of_lt hcolumn, fun c hc => (hrest c hc).2, fun _ => hrest⟩
    obtain ⟨run', m', hturn, htext, hlast, hbreaks, hcursor', hcolumn', hline⟩ :=
      takeBlockLines_turn hne hl hb hbs hnext start k hcursor hm
    have hend : run'.lines.cursor.mark.column ≠ indent := by
      rw [hcursor', hcolumn']
      omega
    exact ⟨run', m', hturn.trans (takeBlockLines_end hend), htext, by rw [hlast, hbreaks]; rfl,
      by rw [hlast]; rfl, hcursor', hcolumn', hline⟩
  | @line l b bs w body tail hne hl hb hbs hw ih =>
    obtain ⟨k, rfl⟩ : ∃ k, fuel = k + 1 := ⟨fuel - 1, by omega⟩
    simp only [List.length_append, List.length_cons, List.length_replicate] at hfuel
    have hnext : NextLine indent indent (w ++ (List.replicate column ' ' ++ rest)) :=
      ⟨Nat.le_refl _, hw.head_unbroken _, fun h => absurd h (Nat.lt_irrefl _)⟩
    have hcursor₀ : run.lines.cursor = ⟨l ++ b :: bs
        ++ (List.replicate indent ' ' ++ (w ++ (List.replicate column ' ' ++ rest))), m⟩ := by
      simp only [hcursor, List.append_assoc]
    obtain ⟨run₁, m₁, hturn, htext, hlast, hbreaks, hcursor₁, hcolumn₁, hline₁⟩ :=
      takeBlockLines_turn hne hl hb hbs hnext start k hcursor₀ hm
    obtain ⟨run', m', hread, htext', htail, hlength, hcursor', hcolumn', hline⟩ :=
      ih (by omega : w.length < k) hcursor₁ hcolumn₁
    refine ⟨run', m', hturn.trans hread, ?_, htail, hlength, hcursor', hcolumn',
      Nat.lt_trans hline₁ hline⟩
    rw [htext', htext, hlast, hbreaks]
    simp

end Lines

/-! ## Writing -/

section Writing

variable {indent : Nat} {cs : List Char}

theorem literalFrom_break {b : Char} (hb : isBreak b = true) (fresh : Bool) :
    literalFrom indent fresh (b :: cs) = b :: literalFrom indent true cs := by
  rw [literalFrom, if_pos hb]

theorem literalFrom_breaks {bs : List Char} (hbs : ∀ b ∈ bs, isBreak b = true) :
    literalFrom indent true (bs ++ cs) = bs ++ literalFrom indent true cs := by
  induction bs with
  | nil => rfl
  | cons b bs ih =>
    rw [List.cons_append, literalFrom_break (hbs b (List.mem_cons_self ..)),
      ih fun b' hb' => hbs b' (List.mem_cons_of_mem _ hb'), List.cons_append]

/-- A line begins with its indentation. -/
theorem literalFrom_fresh (hne : cs ≠ []) (h : ∀ c ∈ cs.head?, isBreak c = false) :
    literalFrom indent true cs = List.replicate indent ' ' ++ literalFrom indent false cs := by
  cases cs with
  | nil => exact absurd rfl hne
  | cons c cs => simp [literalFrom, h c rfl, spaces]

theorem literalFrom_line {l : List Char} (hl : ∀ c ∈ l, isBreak c = false) :
    literalFrom indent false (l ++ cs) = l ++ literalFrom indent false cs := by
  induction l with
  | nil => rfl
  | cons c l ih =>
    rw [List.cons_append, literalFrom, if_neg (by rw [hl c (List.mem_cons_self ..)]; simp),
      ih fun d hd => hl d (List.mem_cons_of_mem _ hd)]
    rfl

/-- The lines that are written hold the text, and a last line that has no
break is given one. -/
theorem block_literal (hne : cs ≠ []) (hhead : ∀ c ∈ cs.head?, isBreak c = false)
    (hprint : ∀ c ∈ cs, isPrintable c = true) :
    ∃ body tail, Block indent (literalFrom indent false cs) body tail
      ∧ (cs = body ++ tail ∨ cs = body ∧ tail = ['\n']) := by
  induction hn : cs.length using Nat.strong_induction_on generalizing cs with
  | _ n ih =>
    obtain ⟨l, s, rfl, hl, hs⟩ := run_split (fun c => !isBreak c) cs
    have hl : ∀ c ∈ l, isBreak c = false := fun c hc => by simpa using hl c hc
    have hne' : l ≠ [] := by
      rintro rfl
      cases s with
      | nil => exact hne rfl
      | cons c s =>
        have hbreak := hs c rfl
        rw [hhead c rfl] at hbreak
        cases hbreak
    rw [literalFrom_line hl]
    cases s with
    | nil =>
      exact ⟨l, ['\n'], .last hne' hl (Or.inl rfl) (by simp), Or.inr ⟨List.append_nil l, rfl⟩⟩
    | cons b s =>
      obtain ⟨bs, rest, rfl, hbs, hrest⟩ := run_split isBreak s
      have hb : isBreak b = true := by simpa using hs b rfl
      have hkept {c : Char} (hc : isBreak c = true) (hmem : c ∈ b :: (bs ++ rest)) : IsKept c :=
        isKept_of_printable hc (hprint c (List.mem_append_right _ hmem))
      have hb' : IsKept b := hkept hb (List.mem_cons_self ..)
      have hbs' : ∀ c ∈ bs, IsKept c := fun c hc =>
        hkept (hbs c hc) (List.mem_cons_of_mem _ (List.mem_append_left _ hc))
      rw [literalFrom_break hb, literalFrom_breaks hbs]
      by_cases hrest' : rest = []
      · subst hrest'
        rw [literalFrom, if_pos rfl, List.append_nil]
        exact ⟨l, b :: bs, .last hne' hl hb' hbs', Or.inl rfl⟩
      · simp only [List.length_append, List.length_cons] at hn
        obtain ⟨body, tail, hblock, htext⟩ := ih rest.length (by omega) hrest' hrest
          (fun c hc => hprint c (by simp [hc])) rfl
        refine ⟨l ++ b :: bs ++ body, tail, ?_, ?_⟩
        · rw [literalFrom_fresh hrest' hrest]
          have := Block.line hne' hl hb' hbs' hblock
          rwa [List.append_assoc, List.cons_append] at this
        · rcases htext with h | ⟨h, htail⟩
          · left
            rw [h]
            simp
          · right
            refine ⟨?_, htail⟩
            rw [h]
            simp

end Writing

/-! ## The head of a block -/

/-- What the head of a written block says about the breaks at its end. -/
def chompingOf (cs : List Char) : Chomping :=
  match cs.reverse with
  | [] => .strip
  | [last] => if isBreak last then .keep else .strip
  | last :: previous :: _ =>
    if !isBreak last then .strip else if isBreak previous then .keep else .clip

theorem chompingOf_line (front : List Char) {c : Char} (hc : isBreak c = false) :
    chompingOf (front ++ [c]) = .strip := by
  rw [chompingOf, List.reverse_append, List.reverse_singleton, List.singleton_append]
  cases front.reverse <;> simp [hc]

theorem chompingOf_break (front : List Char) {c b : Char} (hc : isBreak c = false)
    (hb : isBreak b = true) : chompingOf (front ++ [c, b]) = .clip := by
  rw [chompingOf, List.reverse_append]
  simp [hc, hb]

theorem chompingOf_breaks (front : List Char) {b b' : Char} {bs : List Char}
    (hbs : ∀ c ∈ b :: bs, isBreak c = true) (hb' : isBreak b' = true) :
    chompingOf (front ++ b :: (bs ++ [b'])) = .keep := by
  obtain ⟨middle, c, hmiddle⟩ : ∃ middle c, b :: bs = middle ++ [c] :=
    ⟨_, _, (List.dropLast_concat_getLast (List.cons_ne_nil b bs)).symm⟩
  have hc : isBreak c = true := hbs c (by rw [hmiddle]; simp)
  rw [← List.cons_append, hmiddle, chompingOf, List.reverse_append]
  simp [hc, hb']

theorem chompingOf_only_breaks {bs : List Char} (hne : bs ≠ [])
    (hbs : ∀ b ∈ bs, isBreak b = true) : chompingOf bs = .keep := by
  rcases List.eq_nil_or_concat' bs with rfl | ⟨front, b', rfl⟩
  · exact absurd rfl hne
  have hb' : isBreak b' = true := hbs b' (by simp)
  cases front with
  | nil => simp [chompingOf, hb']
  | cons b front =>
    exact chompingOf_breaks [] (fun c hc => hbs c (List.mem_append_left _ hc)) hb'

/-- The sign that stands for it. -/
def Chomping.sign : Chomping → List Char
  | .strip => ['-']
  | .clip => []
  | .keep => ['+']

/-- The first line does not show how deep the block is indented. -/
def isHinted (cs : List Char) : Bool := cs.head?.any fun c => isSpace c || isBreak c

theorem literalHints_eq (cs : List Char) :
    literalHints cs = (if isHinted cs then ['2'] else []) ++ (chompingOf cs).sign := by
  unfold literalHints chompingOf isHinted
  match cs.reverse with
  | [] => rfl
  | [last] => cases h : isBreak last <;> simp [h, Chomping.sign]
  | last :: previous :: _ =>
    cases h : isBreak last <;> cases h' : isBreak previous <;> simp [h, h', Chomping.sign]

/-- The head is read as it is meant. -/
theorem takeBlockHeader_hints (start : Mark) (cs rest : List Char) (m : Mark) :
    takeBlockHeader start ⟨literalHints cs ++ '\n' :: rest, m⟩
      = .ok (chompingOf cs, if isHinted cs then some 2 else none,
        ⟨'\n' :: rest, m.forward (literalHints cs).length⟩) := by
  rw [literalHints_eq]
  cases isHinted cs <;> cases chompingOf cs <;> rfl

/-! ## Blocks -/

/-- In front of a first line that shows it, the indentation is found. -/
theorem takeEmptyLines_shown {rest : List Char} (hrest : Solid rest) (start : Mark) (n k : Nat)
    {m : Mark} (hm : m.column = 0) :
    takeEmptyLines none start (k + 1) ⟨[], 0, m, ⟨List.replicate n ' ' ++ rest, m⟩⟩
      = .ok ⟨[], n, m, ⟨rest, m.forward n⟩⟩ := by
  have hspaces : (Cursor.span (· == ' ') ⟨List.replicate n ' ' ++ rest, m⟩).1.length = n := by
    have hstop : ∀ c ∈ rest.head?, (c == ' ') = false := by
      intro c hc
      have hblank := (hrest c hc).1
      rw [isBlank, Bool.or_eq_false_iff] at hblank
      exact hblank.1
    rw [Cursor.span, Cursor.spanFrom_append (by simp) hstop, List.length_replicate]
  have hskip := Cursor.skipMany_append (List.replicate n ' ') rest m
  rw [List.length_replicate] at hskip
  have htab : Cursor.looksAt ⟨rest, m.forward n⟩ '\t' = false :=
    beq_false_of_ne fun htab => by
      have hblank := (hrest '\t' htab).1
      cases hblank
  rw [takeEmptyLines]
  simp only [hspaces, hskip, htab, Cursor.atBreak_of_solid hrest, Mark.forward_column, hm,
    Nat.zero_add, Nat.zero_max, Bool.and_false, Bool.false_eq_true, if_false]
  rfl

/-- The breaks at the end that a block keeps. -/
def BlockRun.kept (run : BlockRun) : Chomping → List Char
  | .strip => []
  | .clip => run.lastBreak
  | .keep => run.lastBreak ++ run.lines.breaks

section Blocks

variable {cs : List Char} {content : List Char} {m : Mark}

/-- The mark of the first line of a block. -/
def contentMark (cs : List Char) (m : Mark) : Mark :=
  (m.forward (1 + (literalHints cs).length)).nextLine 1

theorem contentMark_column (cs : List Char) (m : Mark) : (contentMark cs m).column = 0 := rfl

theorem lt_contentMark_line (cs : List Char) (m : Mark) : m.line < (contentMark cs m).line :=
  Nat.lt_succ_self _

/-- A block is its empty lines and its lines. Inside a mapping indented by two
a block is indented by two more. -/
theorem blockScalar_of_run {lines : EmptyLines} {run : BlockRun}
    (hlines : takeEmptyLines (if isHinted cs then some 4 else none) m (content.length + 1)
      ⟨[], 0, contentMark cs m, ⟨content, contentMark cs m⟩⟩ = .ok lines)
    (hindent : isHinted cs = false → lines.deepest = 4)
    (hrun : takeBlockLines false 4 m (content.length + 1) ⟨[], [], false, lines⟩ = .ok run) :
    blockScalar ⟨'|' :: (literalHints cs ++ '\n' :: content), m⟩ false 2
      = .ok (⟨.scalar (run.text.reverse ++ run.kept (chompingOf cs)) .literal, m,
          run.lines.finish⟩, run.lines.cursor) := by
  have hheader := takeBlockHeader_hints m cs content (m.forward 1)
  rw [Mark.forward_forward] at hheader
  have hblanks : Cursor.skipWhile isBlank
      ⟨'\n' :: content, m.forward (1 + (literalHints cs).length)⟩
        = ⟨'\n' :: content, m.forward (1 + (literalHints cs).length)⟩ := rfl
  have hbreak : Cursor.skipBreak
      ⟨'\n' :: content, m.forward (1 + (literalHints cs).length)⟩
        = ⟨content, contentMark cs m⟩ := rfl
  have hindents : (Option.map (fun n => (max (2 : Int) 0).toNat + n)
        (if isHinted cs then some 2 else none)) = (if isHinted cs then some 4 else none)
      ∧ (if isHinted cs then some 4 else none).getD
        (max (max lines.deepest ((2 : Int) + 1).toNat) 1) = 4 := by
    cases h : isHinted cs with
    | true => exact ⟨rfl, rfl⟩
    | false =>
      refine ⟨rfl, ?_⟩
      simp only [Bool.false_eq_true, if_false, Option.getD_none, hindent h]
      rfl
  have hcomment : Cursor.skipComment
      ⟨'\n' :: content, m.forward (1 + (literalHints cs).length)⟩
        = ⟨'\n' :: content, m.forward (1 + (literalHints cs).length)⟩ := rfl
  have hends : (!endsLine (Cursor.peek
      ⟨'\n' :: content, m.forward (1 + (literalHints cs).length)⟩)) = false := rfl
  rw [blockScalar, Cursor.skip_cons]
  simp only [hheader, hblanks, hcomment, hends, hbreak, hindents.1, hlines, hindents.2, hrun, bind,
    Except.bind, pure, Except.pure, Bool.false_eq_true, if_false]
  cases chompingOf cs <;> rfl

/-- What is kept of the breaks at the end is what the text has. -/
theorem kept_of_block {body tail w : List Char} (hblock : Block 4 w body tail) (before : List Char)
    (htext : cs = before ++ (body ++ tail) ∨ cs = before ++ body ∧ tail = ['\n']) {run : BlockRun}
    (htail : run.lastBreak ++ run.lines.breaks = tail) (hlast : run.lastBreak.length = 1) :
    before ++ body ++ run.kept (chompingOf cs) = cs := by
  obtain ⟨front, c, rfl, hc⟩ := hblock.body_ends
  rcases htext with rfl | ⟨rfl, -⟩
  · obtain ⟨b, bs, rfl, hb, hbs⟩ := hblock.tail_kept
    rcases List.eq_nil_or_concat' bs with rfl | ⟨bs, b', rfl⟩
    · have hchomping : chompingOf (before ++ (front ++ [c] ++ [b])) = .clip := by
        have := chompingOf_break (before ++ front) hc (isBreak_of_isKept hb)
        simpa using this
      have hkept : run.lastBreak = [b] := by
        have hlength := congrArg List.length htail
        rw [List.length_append, hlast] at hlength
        have hnone : run.lines.breaks = [] := List.eq_nil_of_length_eq_zero (by simpa using hlength)
        rwa [hnone, List.append_nil] at htail
      rw [hchomping, BlockRun.kept, hkept, List.append_assoc]
    · have hchomping : chompingOf (before ++ (front ++ [c] ++ b :: (bs ++ [b']))) = .keep := by
        have hb' := isBreak_of_isKept (hbs b' (by simp))
        have hbreaks : ∀ d ∈ b :: bs, isBreak d = true := List.forall_mem_cons.mpr
          ⟨isBreak_of_isKept hb, fun d hd => isBreak_of_isKept (hbs d (List.mem_append_left _ hd))⟩
        rw [← List.append_assoc]
        exact chompingOf_breaks _ hbreaks hb'
      rw [hchomping, BlockRun.kept, htail, List.append_assoc]
  · have hchomping : chompingOf (before ++ (front ++ [c])) = .strip := by
      have := chompingOf_line (before ++ front) hc
      simpa using this
    rw [hchomping, BlockRun.kept, List.append_nil]

/-- The first line of a block begins in the fourth column, whether the head
says so or the line shows it. -/
theorem takeEmptyLines_first {bs line : List Char}
    (hline : ∀ c ∈ line.head?, isBreak c = false) (hbs : ∀ b ∈ bs, IsKept b) {hinted : Bool}
    (hshown : hinted = false → bs = [] ∧ Solid line) (start : Mark) {m : Mark} (hm : m.column = 0) :
    ∃ lines m', takeEmptyLines (if hinted then some 4 else none) start
          ((bs ++ (List.replicate 4 ' ' ++ line)).length + 1)
          ⟨[], 0, m, ⟨bs ++ (List.replicate 4 ' ' ++ line), m⟩⟩ = .ok lines
      ∧ lines.breaks = bs ∧ lines.cursor = ⟨line, m'⟩ ∧ m'.column = 4 ∧ m.line ≤ m'.line
      ∧ (hinted = false → lines.deepest = 4) := by
  cases hinted with
  | true =>
    have hnext : NextLine 4 4 line :=
      ⟨Nat.le_refl _, hline, fun h => absurd h (Nat.lt_irrefl _)⟩
    have hfuel : bs.length < (bs ++ (List.replicate 4 ' ' ++ line)).length + 1 := by
      rw [List.length_append]
      omega
    obtain ⟨lines, m', hread, hbreaks, hcursor, hcolumn, hlater⟩ :=
      takeEmptyLines_breaks start hnext hbs hfuel [] 0 m hm
    exact ⟨lines, m', hread, hbreaks, hcursor, hcolumn, hlater, nofun⟩
  | false =>
    obtain ⟨rfl, hsolid⟩ := hshown rfl
    exact ⟨_, _, takeEmptyLines_shown hsolid start 4 _ hm, rfl, rfl,
      by rw [Mark.forward_column, hm], Nat.le_refl _, fun _ => rfl⟩

/-- A block that does not hint at its indentation begins with a line that
shows it. -/
theorem shown_of_not_hinted {bs : List Char} (hne : cs ≠ []) (hbs : ∀ b ∈ bs, isBreak b = true)
    (hprint : ∀ c ∈ cs, isPrintable c = true) (h : isHinted (bs ++ cs) = false)
    (more : List Char) : bs = [] ∧ Solid (literalFrom 4 false cs ++ more) := by
  cases bs with
  | cons b bs => simp [isHinted, hbs b (List.mem_cons_self ..)] at h
  | nil =>
    cases cs with
    | nil => exact absurd rfl hne
    | cons c cs =>
      simp only [isHinted, List.nil_append, List.head?_cons, Option.any_some,
        Bool.or_eq_false_iff] at h
      have hblank := (isBlank_eq_isSpace (hprint c (List.mem_cons_self ..))).trans h.1
      refine ⟨rfl, ?_⟩
      rw [literalFrom, if_neg (by simp [h.2])]
      exact solid_cons.mpr ⟨hblank, h.2⟩

section Literal

variable {column : Nat} (hcolumn : column < 4) {rest : List Char} (hrest : Solid rest) (m : Mark)

include hcolumn hrest

/-- A text of breaks only has no lines, and the head keeps all of them. -/
theorem blockScalar_breaks {bs : List Char} (hne : bs ≠ []) (hbs : ∀ b ∈ bs, isBreak b = true)
    (hkept : ∀ b ∈ bs, IsKept b) :
    ∃ finish m', blockScalar ⟨'|' :: (literalHints bs ++ '\n' ::
          (bs ++ (List.replicate column ' ' ++ rest))), m⟩ false 2
        = .ok (⟨.scalar bs .literal, m, finish⟩, ⟨rest, m'⟩)
      ∧ m'.column = column ∧ m.line < m'.line := by
  have hhinted : isHinted bs = true := by
    cases bs with
    | nil => exact absurd rfl hne
    | cons b bs => simp [isHinted, hbs b (List.mem_cons_self ..)]
  have hnext : NextLine 4 column rest :=
    ⟨Nat.le_of_lt hcolumn, fun c hc => (hrest c hc).2, fun _ => hrest⟩
  have hfuel : bs.length < (bs ++ (List.replicate column ' ' ++ rest)).length + 1 := by
    rw [List.length_append]
    omega
  obtain ⟨lines, m', hlines, hbreaks, hcursor, hcolumn', hline⟩ :=
    takeEmptyLines_breaks m hnext hkept hfuel [] 0 (contentMark bs m) (contentMark_column bs m)
  have hend : lines.cursor.mark.column ≠ 4 := by
    rw [hcursor, hcolumn']
    omega
  have hread := blockScalar_of_run (by rw [hhinted]; exact hlines)
    (fun h => by rw [hhinted] at h; cases h) (takeBlockLines_end hend)
  refine ⟨lines.finish, m', ?_, hcolumn', Nat.lt_of_lt_of_le (lt_contentMark_line bs m) hline⟩
  rw [hread, chompingOf_only_breaks hne hbs, BlockRun.kept, hbreaks, hcursor]
  rfl

/-- Breaks, and lines behind them. -/
theorem blockScalar_lines {bs : List Char} (hne : cs ≠ []) (hbs : ∀ b ∈ bs, isBreak b = true)
    (hkept : ∀ b ∈ bs, IsKept b) (hhead : ∀ c ∈ cs.head?, isBreak c = false)
    (hprint : ∀ c ∈ cs, isPrintable c = true) :
    ∃ finish m', blockScalar ⟨'|' :: (literalHints (bs ++ cs) ++ '\n' :: (bs ++
          (List.replicate 4 ' ' ++ (literalFrom 4 false cs
            ++ (List.replicate column ' ' ++ rest))))), m⟩ false 2
        = .ok (⟨.scalar (bs ++ cs) .literal, m, finish⟩, ⟨rest, m'⟩)
      ∧ m'.column = column ∧ m.line < m'.line := by
  obtain ⟨body, tail, hblock, htext⟩ :
      ∃ body tail, Block 4 (literalFrom 4 false cs) body tail
        ∧ (cs = body ++ tail ∨ cs = body ∧ tail = ['\n']) := block_literal hne hhead hprint
  have hunbroken := hblock.head_unbroken (List.replicate column ' ' ++ rest)
  obtain ⟨lines, m₁, hlines, hbreaks, hcursor, hcolumn₁, hline₁, hdeepest⟩ :=
    takeEmptyLines_first hunbroken hkept (fun h => shown_of_not_hinted hne hbs hprint h _) m
      (contentMark_column (bs ++ cs) m)
  have hfuel : (literalFrom 4 false cs).length < (bs ++ (List.replicate 4 ' ' ++
      (literalFrom 4 false cs ++ (List.replicate column ' ' ++ rest)))).length + 1 := by
    simp only [List.length_append]
    omega
  have hcursor₁ : (⟨[], [], false, lines⟩ : BlockRun).lines.cursor
      = ⟨literalFrom 4 false cs ++ (List.replicate column ' ' ++ rest), m₁⟩ := hcursor
  obtain ⟨run, m', hrun, htext', htail, hlast, hcursor', hcolumn', hline⟩ :=
    takeBlockLines_block hblock hcolumn hrest m hfuel hcursor₁ hcolumn₁
  have hread := blockScalar_of_run hlines hdeepest hrun
  have hkeep : bs ++ body ++ run.kept (chompingOf (bs ++ cs)) = bs ++ cs :=
    kept_of_block hblock bs (htext.imp (congrArg (bs ++ ·)) (And.imp_left (congrArg (bs ++ ·))))
      htail hlast
  refine ⟨run.lines.finish, m', ?_, hcolumn', ?_⟩
  · rw [hread, htext', hbreaks, hcursor']
    simp only [List.append_nil, List.nil_append, List.reverse_append, List.reverse_reverse, hkeep]
  · have hmark := lt_contentMark_line (bs ++ cs) m
    omega

/-- A literal block is read back. -/
theorem blockScalar_literal (hne : cs ≠ []) (hprint : ∀ c ∈ cs, isPrintable c = true) :
    ∃ finish m', blockScalar ⟨'|' :: (literalHints cs ++ '\n' ::
          (literalFrom 4 true cs ++ (List.replicate column ' ' ++ rest))), m⟩ false 2
        = .ok (⟨.scalar cs .literal, m, finish⟩, ⟨rest, m'⟩)
      ∧ m'.column = column ∧ m.line < m'.line := by
  obtain ⟨bs, cs, rfl, hbs, hhead⟩ := run_split isBreak cs
  have hkept : ∀ b ∈ bs, IsKept b := fun b hb =>
    isKept_of_printable (hbs b hb) (hprint b (List.mem_append_left _ hb))
  rw [literalFrom_breaks hbs]
  by_cases hcs : cs = []
  · subst hcs
    rw [List.append_nil] at hne ⊢
    rw [literalFrom, if_pos rfl, List.append_nil]
    exact blockScalar_breaks hcolumn hrest m hne hbs hkept
  · rw [literalFrom_fresh hcs hhead, List.append_assoc, List.append_assoc]
    exact blockScalar_lines hcolumn hrest m hcs hbs hkept hhead
      fun c hc => hprint c (List.mem_append_right _ hc)

end Literal

end Blocks

end Vendoring.Yaml
