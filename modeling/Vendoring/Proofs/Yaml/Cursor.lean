import Vendoring.Yaml.Style
import Vendoring.Yaml.Token.Scalar

/-!
# Cursors that move over known text

What the movements of a cursor come to when the text in front of it is known
as a list: steps on one line, line breaks that a scalar keeps, and the gaps
between two words. Where a movement crosses lines, only two things are said of
the mark behind it: its column, and that its line is a later one.
-/

namespace Vendoring.Yaml

/-- The mark `n` characters further on the same line. -/
def Mark.forward (m : Mark) (n : Nat) : Mark :=
  { m with index := m.index + n, column := m.column + n }

namespace Mark

variable (m : Mark) (n k : Nat)

@[simp] theorem forward_zero : m.forward 0 = m := rfl

@[simp] theorem forward_index : (m.forward n).index = m.index + n := rfl

@[simp] theorem forward_line : (m.forward n).line = m.line := rfl

@[simp] theorem forward_column : (m.forward n).column = m.column + n := rfl

@[simp] theorem forward_forward : (m.forward n).forward k = m.forward (n + k) := by
  simp only [forward, Nat.add_assoc]

theorem step_eq_forward : m.step = m.forward 1 := rfl

@[simp] theorem nextLine_column : (m.nextLine n).column = 0 := rfl

end Mark

/-- The text begins with neither a blank nor a line break. -/
def Solid (cs : List Char) : Prop :=
  ∀ c ∈ cs.head?, isBlank c = false ∧ isBreak c = false

theorem solid_nil : Solid [] := by
  intro c hc
  cases hc

theorem solid_cons {c : Char} {cs : List Char} :
    Solid (c :: cs) ↔ isBlank c = false ∧ isBreak c = false := by
  simp [Solid]

/-- The breaks that a scalar keeps as they are. -/
def IsKept (c : Char) : Prop := c = '\n' ∨ c = '\u2028' ∨ c = '\u2029'

/-- A break that need not be escaped is kept. -/
theorem isKept_of_printable {c : Char} (hbreak : isBreak c = true) (hprint : isPrintable c = true) :
    IsKept c := by
  simp only [isBreak, Bool.or_eq_true, beq_iff_eq] at hbreak
  rcases hbreak with (((h | rfl) | rfl) | h) | h
  · exact Or.inl h
  · exact absurd hprint (by decide)
  · exact absurd hprint (by decide)
  · exact Or.inr (Or.inl h)
  · exact Or.inr (Or.inr h)

theorem isBreak_of_isKept {c : Char} (h : IsKept c) : isBreak c = true := by
  rcases h with rfl | rfl | rfl <;> decide

theorem not_isBlank_of_isBreak {c : Char} (h : isBreak c = true) : isBlank c = false := by
  simp only [isBreak, Bool.or_eq_true, beq_iff_eq] at h
  rcases h with (((rfl | rfl) | rfl) | rfl) | rfl <;> decide

namespace Cursor

/-! ## Steps on one line -/

@[simp] theorem peek_mk (cs : List Char) (m : Mark) : Cursor.peek ⟨cs, m⟩ = cs.head? := rfl

@[simp] theorem peekAt_mk (cs : List Char) (m : Mark) (n : Nat) :
    Cursor.peekAt ⟨cs, m⟩ n = cs[n]? := rfl

@[simp] theorem skip_cons (c : Char) (cs : List Char) (m : Mark) :
    Cursor.skip ⟨c :: cs, m⟩ = ⟨cs, m.forward 1⟩ := rfl

theorem skipMany_append (xs rest : List Char) (m : Mark) :
    skipMany xs.length ⟨xs ++ rest, m⟩ = ⟨rest, m.forward xs.length⟩ := by
  induction xs generalizing m with
  | nil => rfl
  | cons x xs ih =>
    rw [List.cons_append, List.length_cons, skipMany, skip_cons, ih, Mark.forward_forward,
      Nat.add_comm]

theorem spanFrom_append {p : Char → Bool} {xs rest : List Char} (hxs : ∀ x ∈ xs, p x = true)
    (hrest : ∀ c ∈ rest.head?, p c = false) (m : Mark) :
    spanFrom p (xs ++ rest) m = (xs, ⟨rest, m.forward xs.length⟩) := by
  induction xs generalizing m with
  | nil =>
    cases rest with
    | nil => rfl
    | cons c rest => simp [spanFrom, hrest c rfl]
  | cons x xs ih =>
    have hx := hxs x (List.mem_cons_self ..)
    rw [List.cons_append, spanFrom, if_pos hx, Mark.step_eq_forward,
      ih fun y hy => hxs y (List.mem_cons_of_mem _ hy), Mark.forward_forward, List.length_cons,
      Nat.add_comm 1]

theorem skipWhile_append {p : Char → Bool} {xs rest : List Char} (hxs : ∀ x ∈ xs, p x = true)
    (hrest : ∀ c ∈ rest.head?, p c = false) (m : Mark) :
    skipWhile p ⟨xs ++ rest, m⟩ = ⟨rest, m.forward xs.length⟩ :=
  congrArg Prod.snd (spanFrom_append hxs hrest m)

theorem atBlank_of_solid {cs : List Char} (h : Solid cs) (m : Mark) :
    Cursor.atBlank ⟨cs, m⟩ = false := by
  cases cs with
  | nil => rfl
  | cons c cs => exact (solid_cons.mp h).1

theorem atBreak_of_solid {cs : List Char} (h : Solid cs) (m : Mark) :
    Cursor.atBreak ⟨cs, m⟩ = false := by
  cases cs with
  | nil => rfl
  | cons c cs => exact (solid_cons.mp h).2

theorem atTriple_of_column {c : Cursor} (h : 0 < c.mark.column) (ch : Char) :
    c.atTriple ch = false := by
  have hne : (c.mark.column == 0) = false := beq_false_of_ne (by omega)
  simp [atTriple, hne]

theorem atTriple_of_head {c : Cursor} {ch : Char} (h : c.rest.head? ≠ some ch) :
    c.atTriple ch = false := by
  have hne : (c.peek == some ch) = false := beq_false_of_ne h
  simp only [atTriple, hne, Bool.and_false, Bool.false_and]

/-- Only at the start of a line a document can be separated. -/
theorem atDocumentIndicator_of_column {c : Cursor} (h : 0 < c.mark.column) :
    c.atDocumentIndicator = false := by
  rw [atDocumentIndicator, atTriple_of_column h, atTriple_of_column h, Bool.or_false]

/-! ## Line breaks -/

theorem takeBreak_kept {c : Char} (h : IsKept c) (rest : List Char) (m : Mark) :
    takeBreak ⟨c :: rest, m⟩ = ([c], ⟨rest, m.nextLine 1⟩) := by
  rcases h with rfl | rfl | rfl <;> rfl

end Cursor

/-! ## Gaps -/

section Gap

variable {limit : Option Int} {rest : List Char} (hrest : Solid rest)

include hrest

theorem takeGap_solid (fuel : Nat) (g : Gap) (m : Mark) :
    takeGap limit fuel g ⟨rest, m⟩ = .ok (g, ⟨rest, m⟩) := by
  cases fuel with
  | zero => rfl
  | succ fuel =>
    simp [takeGap, Cursor.atBlank_of_solid hrest, Cursor.atBreak_of_solid hrest]

/-- Spaces count as long as the line goes on. -/
theorem takeGap_spaces {n fuel : Nat} (hfuel : n ≤ fuel) (before : List Char) (m : Mark) :
    takeGap limit fuel ⟨before, [], [], false⟩ ⟨List.replicate n ' ' ++ rest, m⟩
      = .ok (⟨before ++ List.replicate n ' ', [], [], false⟩, ⟨rest, m.forward n⟩) := by
  induction n generalizing before fuel m with
  | zero => simpa using takeGap_solid hrest fuel ⟨before, [], [], false⟩ m
  | succ n ih =>
    obtain ⟨fuel, rfl⟩ : ∃ k, fuel = k + 1 := ⟨fuel - 1, by omega⟩
    have hstep : takeGap limit (fuel + 1) ⟨before, [], [], false⟩
          ⟨List.replicate (n + 1) ' ' ++ rest, m⟩
        = takeGap limit fuel ⟨before ++ [' '], [], [], false⟩
          ⟨List.replicate n ' ' ++ rest, m.forward 1⟩ := by
      rfl
    rw [hstep, ih (by omega), Mark.forward_forward, List.append_assoc, Nat.add_comm 1 n]
    rfl

/-- Behind a line break spaces are indentation. -/
theorem takeGap_indentation {n fuel : Nat} (hfuel : n ≤ fuel) (first further : List Char)
    (m : Mark) :
    takeGap limit fuel ⟨[], first, further, true⟩ ⟨List.replicate n ' ' ++ rest, m⟩
      = .ok (⟨[], first, further, true⟩, ⟨rest, m.forward n⟩) := by
  induction n generalizing fuel m with
  | zero => simpa using takeGap_solid hrest fuel ⟨[], first, further, true⟩ m
  | succ n ih =>
    obtain ⟨fuel, rfl⟩ : ∃ k, fuel = k + 1 := ⟨fuel - 1, by omega⟩
    have hstep : takeGap limit (fuel + 1) ⟨[], first, further, true⟩
          ⟨List.replicate (n + 1) ' ' ++ rest, m⟩
        = takeGap limit fuel ⟨[], first, further, true⟩
          ⟨List.replicate n ' ' ++ rest, m.forward 1⟩ := by
      rfl
    rw [hstep, ih (by omega), Mark.forward_forward, Nat.add_comm 1 n]

/-- Breaks, and the indentation of the line behind the last one. -/
theorem takeGap_breaks {bs : List Char} (hbs : ∀ b ∈ bs, IsKept b) {n fuel : Nat}
    (hfuel : bs.length + n ≤ fuel) (first further : List Char) {m : Mark} (hm : m.column = 0) :
    ∃ m', takeGap limit fuel ⟨[], first, further, true⟩ ⟨bs ++ (List.replicate n ' ' ++ rest), m⟩
        = .ok (⟨[], first, further ++ bs, true⟩, ⟨rest, m'⟩)
      ∧ m'.column = n ∧ m.line ≤ m'.line := by
  induction bs generalizing further fuel m with
  | nil =>
    rw [List.nil_append, takeGap_indentation hrest (by simpa using hfuel), List.append_nil]
    exact ⟨_, rfl, by simp [hm], Nat.le_refl _⟩
  | cons b bs ih =>
    rw [List.length_cons] at hfuel
    obtain ⟨fuel, rfl⟩ : ∃ k, fuel = k + 1 := ⟨fuel - 1, by omega⟩
    have hstep : takeGap limit (fuel + 1) ⟨[], first, further, true⟩
          ⟨b :: bs ++ (List.replicate n ' ' ++ rest), m⟩
        = takeGap limit fuel ⟨[], first, further ++ [b], true⟩
          ⟨bs ++ (List.replicate n ' ' ++ rest), m.nextLine 1⟩ := by
      rcases hbs b (List.mem_cons_self ..) with rfl | rfl | rfl <;> rfl
    have hfuel' : bs.length + n ≤ fuel := by omega
    obtain ⟨m', hgap, hcolumn, hline⟩ := ih (fun b' hb' => hbs b' (List.mem_cons_of_mem _ hb'))
      hfuel' (further ++ [b]) (m.nextLine_column 1)
    refine ⟨m', ?_, hcolumn, Nat.le_of_succ_le hline⟩
    rw [hstep, hgap, List.append_assoc, List.singleton_append]

/-- A gap over several lines. -/
theorem takeGap_lines {b : Char} {bs : List Char} (hb : IsKept b) (hbs : ∀ b ∈ bs, IsKept b)
    {n fuel : Nat} (hfuel : bs.length + n < fuel) (m : Mark) :
    ∃ m', takeGap limit fuel {} ⟨b :: bs ++ (List.replicate n ' ' ++ rest), m⟩
        = .ok (⟨[], [b], bs, true⟩, ⟨rest, m'⟩)
      ∧ m'.column = n ∧ m.line < m'.line := by
  obtain ⟨fuel, rfl⟩ : ∃ k, fuel = k + 1 := ⟨fuel - 1, by omega⟩
  have hstep : takeGap limit (fuel + 1) {} ⟨b :: bs ++ (List.replicate n ' ' ++ rest), m⟩
      = takeGap limit fuel ⟨[], [b], [], true⟩
        ⟨bs ++ (List.replicate n ' ' ++ rest), m.nextLine 1⟩ := by
    rcases hb with rfl | rfl | rfl <;> rfl
  have hfuel' : bs.length + n ≤ fuel := by omega
  obtain ⟨m', hgap, hcolumn, hline⟩ :=
    takeGap_breaks hrest hbs hfuel' [b] [] (m.nextLine_column 1)
  exact ⟨m', hstep.trans hgap, hcolumn, hline⟩

end Gap

end Vendoring.Yaml
