import Mathlib.Data.List.Basic
import Vendoring.Patch.Line

/-!
# Splitting at breaks

A text is cut into lines that end where a break ends (`Line.Ended`), and perhaps a
last one without a break (`Line.Unended`); put together again they are the text
(`join_linesOf`). In the other direction, lines with breaks are found again where
none of them starts with a line feed, which could belong to the break in front of
it (`linesOf_join`).
-/

namespace Vendoring.Patch

/-- Characters that end no line. -/
def Unbroken (cs : List Char) : Prop := '\n' ∉ cs ∧ '\r' ∉ cs

theorem unbroken_nil : Unbroken [] := ⟨List.not_mem_nil, List.not_mem_nil⟩

theorem unbroken_cons_iff {c : Char} {cs : List Char} :
    Unbroken (c :: cs) ↔ (c ≠ '\n' ∧ c ≠ '\r') ∧ Unbroken cs := by
  unfold Unbroken
  rw [List.mem_cons, List.mem_cons, not_or, not_or, ne_comm, ne_comm (a := c)]
  tauto

theorem unbroken_reverse_iff {cs : List Char} : Unbroken cs.reverse ↔ Unbroken cs := by
  unfold Unbroken
  rw [List.mem_reverse, List.mem_reverse]

/-- A line feed, a carriage return, or both. -/
inductive IsBreak : List Char → Prop
  | feed : IsBreak ['\n']
  | carriage : IsBreak ['\r']
  | both : IsBreak ['\r', '\n']

/-- A line with its break. -/
def Line.Ended (l : Line) : Prop :=
  ∃ content brk, l.toList = content ++ brk ∧ Unbroken content ∧ IsBreak brk

/-- A line that lacks a break. -/
def Line.Unended (l : Line) : Prop := l ≠ "" ∧ Unbroken l.toList

theorem Line.isComplete_of_ended {l : Line} (h : l.Ended) : l.isComplete = true := by
  obtain ⟨content, brk, hl, -, hbrk⟩ := h
  unfold isComplete
  rw [hl]
  cases hbrk <;> simp

theorem Line.not_isComplete_of_unended {l : Line} (h : l.Unended) : l.isComplete = false := by
  obtain ⟨-, hfeed, hreturn⟩ := h
  unfold isComplete
  rw [Option.any_eq_false]
  intro c hc
  have hmem := List.mem_of_getLast? hc
  have hfeed : c ≠ '\n' := fun heq => hfeed (heq ▸ hmem)
  have hreturn : c ≠ '\r' := fun heq => hreturn (heq ▸ hmem)
  simp [hfeed, hreturn]

/-! ## Cutting -/

theorem linesFrom_cons_of_plain {c : Char} (hfeed : c ≠ '\n') (hreturn : c ≠ '\r')
    (begun rest : List Char) : linesFrom begun (c :: rest) = linesFrom (c :: begun) rest := by
  rw [linesFrom]
  · rw [if_neg (by simp [hfeed, hreturn])]
  · rintro _ heq -
    exact absurd heq hreturn

theorem linesFrom_append_of_unbroken {content : List Char} (h : Unbroken content)
    (begun rest : List Char) :
    linesFrom begun (content ++ rest) = linesFrom (content.reverse ++ begun) rest := by
  induction content generalizing begun with
  | nil => rfl
  | cons c content ih =>
    obtain ⟨⟨hfeed, hreturn⟩, h⟩ := unbroken_cons_iff.mp h
    rw [List.cons_append, linesFrom_cons_of_plain hfeed hreturn, ih h, List.reverse_cons,
      List.append_assoc, List.singleton_append]

/-- A break ends the line, unless a line feed behind it belongs to it. -/
theorem linesFrom_append_of_isBreak {brk rest : List Char} (h : IsBreak brk)
    (hrest : rest.head? ≠ some '\n') (begun : List Char) :
    linesFrom begun (brk ++ rest) = String.ofList (begun.reverse ++ brk) :: linesFrom [] rest := by
  cases h with
  | feed =>
    show linesFrom begun ('\n' :: rest) = _
    rw [linesFrom]
    · simp
    · rintro _ heq -
      exact absurd heq (by decide)
  | carriage =>
    show linesFrom begun ('\r' :: rest) = _
    rw [linesFrom]
    · simp
    · rintro rest' - rfl
      exact hrest rfl
  | both =>
    show linesFrom begun ('\r' :: '\n' :: rest) = _
    rw [linesFrom]
    simp

/-! ## The lines of a text -/

theorem join_linesFrom (begun text : List Char) :
    (String.join (linesFrom begun text)).toList = begun.reverse ++ text := by
  fun_induction linesFrom begun text with
  | case1 begun h => rw [List.isEmpty_iff.mp h]; rfl
  | case2 begun h => simp
  | case3 begun rest ih => rw [String.join_cons, String.toList_append, ih]; simp
  | case4 begun c rest _ _ ih => rw [String.join_cons, String.toList_append, ih]; simp
  | case5 begun c rest _ _ ih => rw [ih]; simp

theorem join_linesOf (text : String) : String.join (linesOf text) = text := by
  rw [← String.toList_inj, linesOf, join_linesFrom]
  rfl

theorem ended_or_unended_of_mem_linesFrom {begun text : List Char} (h : Unbroken begun) {l : Line}
    (hl : l ∈ linesFrom begun text) : l.Ended ∨ l.Unended := by
  fun_induction linesFrom begun text with
  | case1 begun _ => cases hl
  | case2 begun hne =>
    rw [List.mem_singleton.mp hl]
    refine Or.inr ⟨?_, ?_⟩
    · simpa using hne
    · rw [String.toList_ofList]
      exact unbroken_reverse_iff.mpr h
  | case3 begun rest ih =>
    rcases List.mem_cons.mp hl with rfl | hl
    · exact Or.inl ⟨begun.reverse, ['\r', '\n'], by simp, unbroken_reverse_iff.mpr h, .both⟩
    · exact ih unbroken_nil hl
  | case4 begun c rest _ hc ih =>
    rcases List.mem_cons.mp hl with rfl | hl
    · refine Or.inl ⟨begun.reverse, [c], by simp, unbroken_reverse_iff.mpr h, ?_⟩
      rw [Bool.or_eq_true, beq_iff_eq, beq_iff_eq] at hc
      rcases hc with rfl | rfl
      · exact .feed
      · exact .carriage
    · exact ih unbroken_nil hl
  | case5 begun c rest _ hc ih =>
    rw [Bool.or_eq_true, beq_iff_eq, beq_iff_eq, not_or] at hc
    exact ih (unbroken_cons_iff.mpr ⟨hc, h⟩) hl

theorem ended_or_unended {text : String} {l : Line} (h : l ∈ linesOf text) :
    l.Ended ∨ l.Unended :=
  ended_or_unended_of_mem_linesFrom unbroken_nil h

/-! ## Lines found again -/

theorem Line.Ended.head?_join {l : Line} (h : l.Ended) (rest : List Line) :
    (String.join (l :: rest)).toList.head? = l.toList.head? := by
  obtain ⟨content, brk, hl, -, hbrk⟩ := h
  rw [String.join_cons, String.toList_append, hl]
  cases hbrk <;> cases content <;> rfl

/-- Lines with breaks are found again. -/
theorem linesOf_join {ls : List Line} (hended : ∀ l ∈ ls, l.Ended)
    (hstart : ∀ l ∈ ls, l.toList.head? ≠ some '\n') : linesOf (String.join ls) = ls := by
  induction ls with
  | nil => rfl
  | cons l ls ih =>
    have hrest : (String.join ls).toList.head? ≠ some '\n' := by
      cases ls with
      | nil => exact nofun
      | cons m ls =>
        rw [(hended m (by simp)).head?_join]
        exact hstart m (by simp)
    obtain ⟨content, brk, hl, hcontent, hbrk⟩ := hended l (List.mem_cons_self ..)
    have hback : String.ofList ((content.reverse ++ []).reverse ++ brk) = l := by
      rw [List.append_nil, List.reverse_reverse, ← hl, String.ofList_toList]
    rw [linesOf, String.join_cons, String.toList_append, hl, List.append_assoc,
      linesFrom_append_of_unbroken hcontent, linesFrom_append_of_isBreak hbrk hrest, hback]
    exact congrArg (l :: ·) (ih (fun m hm => hended m (List.mem_cons_of_mem _ hm))
      fun m hm => hstart m (List.mem_cons_of_mem _ hm))

end Vendoring.Patch
