import Mathlib.Data.List.Induction
import Vendoring.Manifest.Basic
import Vendoring.Sync.Write

/-!
# The names along a path

Where a path leads is decided by the names in it. `names` are the segments
that are not silent, in order, and every operation on paths is described by
what it does to them. A path is `Inward` when it has no `..`, so that it can
only lead further down, and it may end in a name (`EndsInName`), which is
what can be created or replaced.

Joining two paths joins their names (`names_join`). Validation promises of
an entry that it is relative, inward and ends in a name (`toPath_relative`,
`toPath_inward`, `toPath_endsInName`).
-/

namespace Vendoring

/-- A separator does not occur in the parts that it separates. -/
theorem mem_splitOn {α : Type} [BEq α] [LawfulBEq α] {a : α} {cs s : List α}
    (h : s ∈ cs.splitOn a) {c : α} (hc : c ∈ s) : c ∈ cs ∧ c ≠ a := by
  induction cs generalizing s with
  | nil =>
    rw [List.splitOn_nil, List.mem_singleton] at h
    rw [h] at hc
    cases hc
  | cons x rest ih =>
    rw [List.splitOn_cons_eq_if_modifyHead] at h
    split at h
    · rcases List.mem_cons.mp h with rfl | h
      · cases hc
      · exact ⟨List.mem_cons_of_mem _ (ih h hc).1, (ih h hc).2⟩
    · next hx =>
      cases hs : rest.splitOn a with
      | nil => exact absurd hs (List.splitOn_ne_nil a rest)
      | cons s₀ more =>
        rw [hs, List.modifyHead_cons] at h
        rcases List.mem_cons.mp h with rfl | h
        · rcases List.mem_cons.mp hc with rfl | hc
          · exact ⟨List.mem_cons_self .., fun hxa => hx (beq_iff_eq.mpr hxa)⟩
          · have := ih (hs ▸ List.mem_cons_self ..) hc
            exact ⟨List.mem_cons_of_mem _ this.1, this.2⟩
        · have := ih (hs ▸ List.mem_cons_of_mem _ h) hc
          exact ⟨List.mem_cons_of_mem _ this.1, this.2⟩

namespace Path

/-- A path has a first segment, which may be empty. -/
theorem segments_eq_cons (p : Path) : ∃ s rest, p.segments = s :: rest :=
  List.exists_cons_of_ne_nil (List.splitOn_ne_nil '/' p.text.toList)

/-- The segments that are names, or the `..` among them. -/
def spoken (segments : List Segment) : List String :=
  (segments.filter fun s => !s.isSilent).map String.ofList

@[simp] theorem spoken_nil : spoken [] = [] := rfl

@[simp] theorem spoken_append (xs ys : List Segment) :
    spoken (xs ++ ys) = spoken xs ++ spoken ys := by
  simp [spoken]

theorem spoken_cons_of_silent {s : Segment} (h : s.isSilent = true) (rest : List Segment) :
    spoken (s :: rest) = spoken rest := by
  simp [spoken, h]

theorem spoken_cons_of_name {s : Segment} (h : s.isSilent = false) (rest : List Segment) :
    spoken (s :: rest) = String.ofList s :: spoken rest := by
  simp [spoken, h]

def names (p : Path) : List String := spoken p.segments

/-- No segment leads outwards. -/
def Inward (p : Path) : Prop := ['.', '.'] ∉ p.segments

/-- The last segment is no silent one. -/
def EndsInName (p : Path) : Prop :=
  ∃ front last, p.segments = front ++ [last] ∧ Segment.isSilent last = false

theorem slash_not_mem {p : Path} {s : Segment} (h : s ∈ p.segments) : '/' ∉ s :=
  fun hs => (mem_splitOn h hs).2 rfl

theorem headAndBody_of_absolute {p : Path} (h : p.isAbsolute = true) :
    ∃ body, p.segments = [] :: body ∧ p.headAndBody = (none, body) := by
  obtain ⟨rest, hrest⟩ : ∃ rest, p.text.toList = '/' :: rest := by
    cases ht : p.text.toList with
    | nil => simp [isAbsolute, ht] at h
    | cons c rest =>
      simp only [isAbsolute, ht, List.head?_cons, beq_iff_eq, Option.some.injEq] at h
      exact ⟨rest, by rw [h]⟩
  have hseg : p.segments = [] :: rest.splitOn '/' := by
    rw [segments, hrest, List.splitOn_cons_eq_if_modifyHead, if_pos (by rfl)]
  refine ⟨rest.splitOn '/', hseg, ?_⟩
  rw [headAndBody, h, hseg]

theorem headAndBody_of_relative {p : Path} (h : p.isAbsolute = false) :
    ∃ head body, p.segments = head :: body ∧ p.headAndBody = (some head, body)
      ∧ (head = [] → p.text = "" ∧ body = []) := by
  cases hseg : p.segments with
  | nil => exact absurd hseg (List.splitOn_ne_nil _ _)
  | cons head body =>
    refine ⟨head, body, rfl, by rw [headAndBody, h, hseg], ?_⟩
    rintro rfl
    cases ht : p.text.toList with
    | nil =>
      have : p.text = "" := by rw [← String.ofList_toList (s := p.text), ht]
      rw [segments, ht] at hseg
      exact ⟨this, (List.cons.inj hseg).2.symm⟩
    | cons c rest =>
      simp only [isAbsolute, ht, List.head?_cons, beq_eq_false_iff_ne, ne_eq,
        Option.some.injEq] at h
      rw [segments, ht, List.splitOn_cons_eq_if_modifyHead, if_neg (by simpa using h)] at hseg
      cases hr : rest.splitOn '/' with
      | nil => exact absurd hr (List.splitOn_ne_nil _ _)
      | cons s more => rw [hr] at hseg; cases hseg

/-- The head and the body of a path are its segments. Only the empty path has
an empty head. -/
theorem headAndBody_split (p : Path) : ∃ head body, p.headAndBody = (head, body)
    ∧ p.segments = head.getD [] :: body ∧ p.isAbsolute = head.isNone
    ∧ (head = some [] → p.text = "" ∧ body = []) := by
  cases habs : p.isAbsolute with
  | true =>
    obtain ⟨body, hseg, hhb⟩ := headAndBody_of_absolute habs
    exact ⟨none, body, hhb, hseg, rfl, fun h => nomatch h⟩
  | false =>
    obtain ⟨head, body, hseg, hhb, hempty⟩ := headAndBody_of_relative habs
    exact ⟨some head, body, hhb, hseg, rfl, fun h => hempty (Option.some.inj h)⟩

/-! ## Joining -/

/-- What a path brings to a join: its segments, without the empty one behind
a separator at the end. -/
def stem (p : Path) : List Segment :=
  if p.text.toList.getLast?.all (· == '/') then p.segments.dropLast else p.segments

theorem stem_subset (p : Path) : p.stem ⊆ p.segments := by
  unfold stem
  split
  · exact List.dropLast_subset _
  · exact List.Subset.refl _

theorem eq_nil_or_concat_slash {cs : List Char} (h : cs.getLast?.all (· == '/') = true) :
    cs = [] ∨ ∃ front, cs = front ++ ['/'] := by
  induction cs using List.reverseRecOn with
  | nil => exact Or.inl rfl
  | append_singleton front c _ =>
    rw [List.getLast?_concat, Option.all_some, beq_iff_eq] at h
    exact Or.inr ⟨front, by rw [h]⟩

theorem segments_join (p : Path) {q : Path} (hq : q.isAbsolute = false) :
    (p.join q).segments = p.stem ++ q.segments := by
  unfold join stem
  rw [if_neg (by simp [hq])]
  split
  · next h =>
    rw [segments, String.toList_append]
    rcases eq_nil_or_concat_slash h with hnil | ⟨front, hfront⟩
    · rw [segments, hnil]
      rfl
    · rw [segments, hfront, List.append_assoc, List.singleton_append,
        List.splitOn_append_cons_self, List.splitOn_append_cons_self]
      simp [segments]
  · rw [segments, String.toList_append, String.toList_append]
    show (p.text.toList ++ ['/'] ++ q.text.toList).splitOn '/' = _
    rw [List.append_assoc, List.singleton_append, List.splitOn_append_cons_self]
    rfl

/-- The stem is all but the empty segment behind a separator at the end. -/
theorem segments_eq_stem (p : Path) : p.segments = p.stem ∨ p.segments = p.stem ++ [[]] := by
  unfold stem
  split
  · next h =>
    right
    rcases eq_nil_or_concat_slash h with hnil | ⟨front, hfront⟩
    · rw [segments, hnil]
      rfl
    · rw [segments, hfront, List.splitOn_append_cons_self, List.splitOn_nil, List.dropLast_concat]
  · exact Or.inl rfl

theorem spoken_stem (p : Path) : spoken p.stem = p.names := by
  unfold names
  rcases segments_eq_stem p with h | h
  · rw [h]
  · rw [h, spoken_append, spoken_cons_of_silent (s := []) rfl, spoken_nil, List.append_nil]

theorem names_join (p : Path) {q : Path} (hq : q.isAbsolute = false) :
    (p.join q).names = p.names ++ q.names := by
  rw [names, segments_join p hq, spoken_append, spoken_stem]
  rfl

theorem join_empty {q : Path} (hq : q.isAbsolute = false) : Path.join ⟨""⟩ q = q := by
  rw [join, if_neg (by simp [hq]), if_pos (by rfl), String.empty_append]

theorem isAbsolute_join (p : Path) {q : Path} (hq : q.isAbsolute = false) :
    (p.join q).isAbsolute = p.isAbsolute := by
  unfold join
  rw [if_neg (by simp [hq])]
  cases hp : p.text.toList with
  | nil => simpa [isAbsolute, hp] using hq
  | cons c cs => split <;> simp [isAbsolute, hp]

theorem Inward.join {p q : Path} (hp : p.Inward) (hq : q.Inward) (hrel : q.isAbsolute = false) :
    (p.join q).Inward := by
  intro h
  rw [segments_join p hrel] at h
  rcases List.mem_append.mp h with h | h
  · exact hp (stem_subset p h)
  · exact hq h

theorem EndsInName.join (p : Path) {q : Path} (hq : q.EndsInName) (hrel : q.isAbsolute = false) :
    (p.join q).EndsInName := by
  obtain ⟨front, last, hseg, hlast⟩ := hq
  exact ⟨p.stem ++ front, last, by rw [segments_join p hrel, hseg, List.append_assoc], hlast⟩

/-! ## Names joined one by one -/

theorem stem_of_endsInName {p : Path} (h : p.EndsInName) : p.stem = p.segments := by
  obtain ⟨front, last, hseg, hlast⟩ := h
  have hlast' : last ≠ [] := by
    rintro rfl
    cases hlast
  unfold stem
  split
  · next hslash =>
    rcases eq_nil_or_concat_slash hslash with hnil | ⟨before, hbefore⟩
    · rw [segments, hnil, List.splitOn_nil] at hseg
      have := congrArg List.getLast? hseg
      simp at this
      exact absurd this hlast'
    · rw [segments, hbefore, List.splitOn_append_cons_self, List.splitOn_nil] at hseg
      have := congrArg List.getLast? hseg
      simp at this
      exact absurd this hlast'
  · rfl

theorem segments_of_name {s : Segment} (h : '/' ∉ s) : Path.segments ⟨String.ofList s⟩ = [s] := by
  rw [segments, String.toList_ofList, List.splitOn_eq_singleton h]

theorem isAbsolute_of_name {s : Segment} (h : '/' ∉ s) :
    Path.isAbsolute ⟨String.ofList s⟩ = false := by
  cases s with
  | nil => simp [isAbsolute]
  | cons c cs =>
    have hc : c ≠ '/' := fun hc => h (hc ▸ List.mem_cons_self ..)
    simp [isAbsolute, hc]

theorem foldl_join_names {segments : List Segment}
    (h : ∀ s ∈ segments, Segment.isSilent s = false ∧ '/' ∉ s) {p : Path} (hp : p.EndsInName) :
    ((segments.map String.ofList).foldl (fun p s => p.join ⟨s⟩) p).segments
      = p.segments ++ segments := by
  induction segments generalizing p with
  | nil => simp
  | cons s rest ih =>
    obtain ⟨hs, hslash⟩ := h s (List.mem_cons_self ..)
    have hjoin : (p.join ⟨String.ofList s⟩).segments = p.segments ++ [s] := by
      rw [segments_join p (isAbsolute_of_name hslash), stem_of_endsInName hp,
        segments_of_name hslash]
    rw [List.map_cons, List.foldl_cons, ih (fun t ht => h t (List.mem_cons_of_mem _ ht))
      ⟨p.segments, s, hjoin, hs⟩, hjoin, List.append_assoc, List.singleton_append]

end Path

/-! ## The paths of entries -/

namespace Entry

open Vendoring.Path

variable {e : Entry}

/-- One test of the check. -/
theorem test_eq_none_iff {c : Prop} [Decidable c] {x : Flaw} {rest : Option Flaw} :
    (if c then some x else rest) = none ↔ ¬c ∧ rest = none := by
  split <;> simp [*]

theorem segmentFlaw?_eq_none_iff {s : String} :
    segmentFlaw? s = none ↔ s ≠ "" ∧ s ≠ "." ∧ s ≠ ".." ∧ ':' ∉ s.toList := by
  simp only [segmentFlaw?, test_eq_none_iff, not_or, and_assoc, and_true, ne_eq]

theorem flaw?_eq_none_iff : e.flaw? = none ↔ e.text ≠ "" ∧ '\\' ∉ e.text.toList
    ∧ (∀ c ∈ e.text.toList, c ≠ '"' ∧ isControl c = false) ∧ e.text.toList.head? ≠ some '/'
    ∧ ∀ s ∈ e.segments, segmentFlaw? s = none := by
  simp [flaw?, test_eq_none_iff, List.findSome?_eq_none_iff]

theorem segment_of_flaw?_eq_none (h : e.flaw? = none) {s : Segment}
    (hs : s ∈ e.text.toList.splitOn '/') : Segment.isSilent s = false ∧ s ≠ ['.', '.'] := by
  obtain ⟨-, -, -, -, hsegments⟩ := flaw?_eq_none_iff.mp h
  obtain ⟨hempty, hdot, hdots, -⟩ :=
    segmentFlaw?_eq_none_iff.mp (hsegments _ (List.mem_map_of_mem hs))
  have key (t : Segment) (ht : String.ofList s ≠ String.ofList t) : s ≠ t :=
    fun hst => ht (hst ▸ rfl)
  refine ⟨?_, key ['.', '.'] hdots⟩
  rw [Segment.isSilent, Bool.or_eq_false_iff]
  exact ⟨beq_false_of_ne (key [] hempty), beq_false_of_ne (key ['.'] hdot)⟩

theorem segments_toPath (h : e.flaw? = none) :
    e.toPath.segments = e.text.toList.splitOn '/' := by
  have hname : ∀ s ∈ e.text.toList.splitOn '/', Segment.isSilent s = false ∧ '/' ∉ s :=
    fun s hs => ⟨(segment_of_flaw?_eq_none h hs).1, fun hc => (mem_splitOn hs hc).2 rfl⟩
  unfold toPath segments
  cases hsplit : e.text.toList.splitOn '/' with
  | nil => exact absurd hsplit (List.splitOn_ne_nil _ _)
  | cons s rest =>
    rw [hsplit] at hname
    obtain ⟨hs, hslash⟩ := hname s (List.mem_cons_self ..)
    have hfirst : (Path.join ⟨""⟩ ⟨String.ofList s⟩).segments = [s] := by
      rw [segments_join _ (isAbsolute_of_name hslash), segments_of_name hslash]
      rfl
    rw [List.map_cons, List.foldl_cons, foldl_join_names
      (fun t ht => hname t (List.mem_cons_of_mem _ ht)) ⟨[], s, hfirst, hs⟩, hfirst,
      List.singleton_append]

theorem names_toPath (h : e.flaw? = none) :
    e.toPath.names = (e.text.toList.splitOn '/').map String.ofList := by
  rw [names, segments_toPath h, spoken, List.filter_eq_self.mpr]
  intro s hs
  rw [(segment_of_flaw?_eq_none h hs).1]
  rfl

theorem toPath_relative (h : e.flaw? = none) : e.toPath.isAbsolute = false := by
  cases habs : e.toPath.isAbsolute with
  | false => rfl
  | true =>
    obtain ⟨body, hseg, _⟩ := headAndBody_of_absolute habs
    rw [segments_toPath h] at hseg
    have := (segment_of_flaw?_eq_none h (hseg ▸ List.mem_cons_self ..)).1
    cases this

theorem toPath_inward (h : e.flaw? = none) : e.toPath.Inward := by
  intro hmem
  rw [segments_toPath h] at hmem
  exact (segment_of_flaw?_eq_none h hmem).2 rfl

theorem toPath_endsInName (h : e.flaw? = none) : e.toPath.EndsInName := by
  have hne : e.toPath.segments ≠ [] := List.splitOn_ne_nil _ _
  refine ⟨_, _, (List.dropLast_concat_getLast hne).symm, ?_⟩
  refine (segment_of_flaw?_eq_none h ?_).1
  rw [← segments_toPath h]
  exact List.getLast_mem hne

end Entry

end Vendoring
