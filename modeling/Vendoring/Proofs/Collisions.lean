import Vendoring.Proofs.Layout
import Vendoring.Proofs.Parents

/-!
# Whether an entry meets the unit

Validation compares an entry with the unit before the manifest is bound to a
destination root, a run writes to the paths behind it. The components of a
path are its `opening`, which is the root or a leading `.`, and those of its
segments; bound to a root, a relative path loses its opening
(`components_join`). So the two comparisons agree for layouts that open
alike (`same_bound_iff`), and there `entries_avoid_unit` carries over what
validation has seen. Layouts that open differently escape it: `lib` and
`./lib` are two paths, and one directory of any root; `/dst/lib` and `lib`
are one directory of the root `/dst`.
-/

namespace Vendoring

namespace Path

/-! ## Components of joined paths -/

/-- What a path begins with, unless it is a name or `..`. -/
def opening (p : Path) : Option Component :=
  if p.isAbsolute then some .root
  else if p.segments.head? = some ['.'] then some .here
  else none

/-- The components of segments that stand behind others. -/
def inner (segments : List Segment) : List Component :=
  segments.filterMap Segment.component?

theorem inner_append (xs ys : List Segment) : inner (xs ++ ys) = inner xs ++ inner ys :=
  List.filterMap_append

theorem inner_cons_of_silent {s : Segment} (h : s.isSilent = true) (rest : List Segment) :
    inner (s :: rest) = inner rest := by
  simp [inner, Segment.component?, h]

theorem components_eq (p : Path) : p.components = p.opening.toList ++ inner p.segments := by
  obtain ⟨head, body, hhb, hseg, habs, -⟩ := headAndBody_split p
  unfold components opening
  rw [hhb, hseg, habs]
  cases head with
  | none => rw [Option.getD_none, inner_cons_of_silent rfl]; rfl
  | some head =>
    by_cases hdot : head = ['.']
    · subst hdot
      rw [Option.getD_some, inner_cons_of_silent rfl]
      rfl
    · have hhead : headComponent? head = Segment.component? head := by
        rw [headComponent?, if_neg (by simpa using hdot)]
      simp only [Option.isNone_some, Bool.false_eq_true, if_false, Option.getD_some,
        List.head?_cons, Option.some.injEq, hdot, Option.toList_none, List.nil_append, hhead,
        inner, List.filterMap_cons]
      cases Segment.component? head <;> rfl

theorem inner_stem (p : Path) : inner p.stem = inner p.segments := by
  rcases segments_eq_stem p with h | h
  · rw [← h]
  · rw [h, inner_append]
    exact (List.append_nil _).symm

theorem stem_ne_nil {p : Path} (hp : p.text ≠ "") : p.stem ≠ [] := by
  intro hstem
  rcases segments_eq_stem p with h | h
  · rw [hstem] at h
    exact List.splitOn_ne_nil _ _ h
  · refine hp (String.toList_inj.mp ?_)
    rw [text_eq, h, hstem]
    rfl

/-- The first segment of a path stays the first one of what is joined to it. -/
theorem opening_join {p q : Path} (hp : p.text ≠ "") (hq : q.isAbsolute = false) :
    (p.join q).opening = p.opening := by
  have hhead : (p.join q).segments.head? = p.segments.head? := by
    rw [segments_join p hq]
    cases hstem : p.stem with
    | nil => exact absurd hstem (stem_ne_nil hp)
    | cons s rest =>
      rcases segments_eq_stem p with h | h
      · rw [h, hstem]; rfl
      · rw [h, hstem]; rfl
  unfold opening
  rw [isAbsolute_join p hq, hhead]

theorem inner_join (p : Path) {q : Path} (hq : q.isAbsolute = false) :
    inner (p.join q).segments = inner p.segments ++ inner q.segments := by
  rw [segments_join p hq, inner_append, inner_stem]

/-- A relative path that is joined to another one loses its opening. -/
theorem components_join {p q : Path} (hp : p.text ≠ "") (hq : q.isAbsolute = false) :
    (p.join q).components = p.components ++ inner q.segments := by
  rw [components_eq, opening_join hp hq, inner_join p hq, components_eq p, List.append_assoc]

theorem join_absolute {p q : Path} (hq : q.isAbsolute = true) : p.join q = q := by
  rw [join, if_pos hq]

theorem opening_eq_root_iff {p : Path} : p.opening = some .root ↔ p.isAbsolute = true := by
  unfold opening
  cases p.isAbsolute with
  | true => simp
  | false => by_cases h : p.segments.head? = some ['.'] <;> simp [h]

/-- Below a root, paths that open alike are told apart as they are without
it. -/
theorem same_bound_iff {root p q : Path} (hroot : root.text ≠ "") (hopen : p.opening = q.opening)
    (xs ys : List Component) :
    (root.join p).components ++ xs = (root.join q).components ++ ys
      ↔ p.components ++ xs = q.components ++ ys := by
  have habs : p.isAbsolute = q.isAbsolute := by
    rw [Bool.eq_iff_iff, ← opening_eq_root_iff, ← opening_eq_root_iff, hopen]
  cases hq : q.isAbsolute with
  | true =>
    rw [hq] at habs
    rw [join_absolute habs, join_absolute hq]
  | false =>
    rw [hq] at habs
    rw [components_join hroot habs, components_join hroot hq, components_eq p, components_eq q,
      hopen]
    simp only [List.append_assoc, List.append_cancel_left_eq]

end Path

/-! ## The path of an entry -/

namespace Entry

open Vendoring.Path

theorem opening_toPath {e : Entry} (h : e.flaw? = none) : e.toPath.opening = none := by
  unfold opening
  rw [toPath_relative h, if_neg Bool.false_ne_true, if_neg]
  intro hhead
  have hmem : ['.'] ∈ e.toPath.segments := List.mem_of_head? hhead
  rw [segments_toPath h] at hmem
  cases (segment_of_flaw?_eq_none h hmem).1

theorem components_below {e : Entry} (h : e.flaw? = none) (p : Path) :
    (p.join e.toPath).components = p.components ++ inner e.toPath.segments := by
  by_cases hp : p.text = ""
  · obtain rfl : p = ⟨""⟩ := by rw [← hp]
    have hempty : Path.components ⟨""⟩ = [] := by decide
    rw [join_empty (toPath_relative h), hempty, List.nil_append, components_eq, opening_toPath h]
    rfl
  · exact components_join hp (toPath_relative h)

end Entry

/-! ## Valid manifests -/

namespace Manifest

open Vendoring.Path

/-- Validation compares the paths below the destination root. -/
theorem not_same_of_valid {m : Manifest} (hvalid : m.invalid? = none) {kind : Kind} {e : Entry}
    (he : e ∈ (m.layout kind).files) :
    ¬((m.layout kind).destination.join e.toPath).Same
      (m.sources.destination.join m.aggregate.output.toPath) := by
  simp only [invalid?, Option.orElse_eq_orElse, Option.orElse_eq_or, Option.or_eq_none_iff]
    at hvalid
  have hkind : kind ∈ Kind.all := by cases kind <;> decide
  have hnone := List.findSome?_eq_none_iff.mp hvalid.2.2 kind hkind
  rw [collision?, Option.map_eq_none_iff, List.find?_eq_none] at hnone
  simpa using hnone e he

/-- No entry of a valid manifest meets the unit, as long as the layout of its
category opens as that of the sources does. Of relative layouts, however
they open, an entry meets the unit exactly when the two are the same path
behind their openings. An absolute layout does not move with the destination
root: beside a relative one, an entry meets the unit exactly when the
absolute path is the destination root and what is behind the opening of the
relative one. -/
theorem entries_avoid_unit (m : Manifest) (source destination : Path) (hvalid : m.invalid? = none)
    (hroot : destination.text ≠ "") (kind : Kind) (e : Entry)
    (he : e ∈ (m.layout kind).files) :
    ((m.layout kind).destination.opening = m.sources.destination.opening →
      ¬((m.category kind source destination).destinationPath e).Same
        (m.unitPath source destination))
    ∧ ((m.layout kind).destination.isAbsolute = false → m.sources.destination.isAbsolute = false →
      (((m.category kind source destination).destinationPath e).Same
          (m.unitPath source destination)
        ↔ inner ((m.layout kind).destination.join e.toPath).segments
          = inner (m.sources.destination.join m.aggregate.output.toPath).segments))
    ∧ ((m.layout kind).destination.isAbsolute = true → m.sources.destination.isAbsolute = false →
      (((m.category kind source destination).destinationPath e).Same
          (m.unitPath source destination)
        ↔ ((m.layout kind).destination.join e.toPath).components
          = destination.components
            ++ inner (m.sources.destination.join m.aggregate.output.toPath).segments))
    ∧ ((m.layout kind).destination.isAbsolute = false → m.sources.destination.isAbsolute = true →
      (((m.category kind source destination).destinationPath e).Same
          (m.unitPath source destination)
        ↔ destination.components ++ inner ((m.layout kind).destination.join e.toPath).segments
          = (m.sources.destination.join m.aggregate.output.toPath).components)) := by
  obtain ⟨hentries, houtput⟩ := flaw?_of_valid hvalid
  have hflaw := hentries kind e he
  have hentry : ((m.category kind source destination).destinationPath e).components
      = (destination.join (m.layout kind).destination).components
        ++ inner e.toPath.segments := Entry.components_below hflaw _
  have hunit : (m.unitPath source destination).components
      = (destination.join m.sources.destination).components
        ++ inner m.aggregate.output.toPath.segments := Entry.components_below houtput _
  unfold Same
  rw [hentry, hunit, inner_join _ (Entry.toPath_relative hflaw),
    inner_join _ (Entry.toPath_relative houtput), Entry.components_below hflaw,
    Entry.components_below houtput]
  refine ⟨?alike, ?relative, ?entryAbsolute, ?unitAbsolute⟩
  case alike =>
    intro hopen hsame
    refine not_same_of_valid hvalid he ?_
    rw [Same, Entry.components_below hflaw, Entry.components_below houtput]
    exact (same_bound_iff hroot hopen _ _).mp hsame
  case relative =>
    intro hrel hrel'
    rw [components_join hroot hrel, components_join hroot hrel', List.append_assoc,
      List.append_assoc, List.append_cancel_left_eq]
  case entryAbsolute =>
    intro habs hrel
    rw [join_absolute habs, components_join hroot hrel, List.append_assoc]
  case unitAbsolute =>
    intro hrel habs
    rw [components_join hroot hrel, join_absolute habs, List.append_assoc]

/-! A manifest whose layouts share a directory under several spellings, and
one whose headers go to `./lib` where the sources go to `lib`. -/

def sharedLayout : Manifest where
  aggregate := { output := ⟨"gen/All.cpp"⟩ }
  headers := ⟨⟨"inc"⟩, ⟨"lib//./gen/"⟩, [⟨"all.h"⟩, ⟨"gen/All.cpp"⟩]⟩
  sources := ⟨⟨"src"⟩, ⟨"lib/"⟩, [⟨"x.cpp"⟩]⟩
  tests := ⟨⟨"t"⟩, ⟨"lib/."⟩, [⟨"All.cpp"⟩]⟩

theorem shared_layout_avoids_unit :
    ¬((sharedLayout.category .headers ⟨"up"⟩ ⟨"./out"⟩).destinationPath ⟨"gen/All.cpp"⟩).Same
      (sharedLayout.unitPath ⟨"up"⟩ ⟨"./out"⟩) :=
  (entries_avoid_unit sharedLayout ⟨"up"⟩ ⟨"./out"⟩ (by decide +kernel) (by decide) .headers
    ⟨"gen/All.cpp"⟩ (by decide)).1 (by decide)

def dottedLayout : Manifest where
  aggregate := {}
  headers := ⟨⟨"inc"⟩, ⟨"./lib"⟩, [⟨"Support.cpp"⟩]⟩
  sources := ⟨⟨"src"⟩, ⟨"lib"⟩, []⟩
  tests := ⟨⟨"t"⟩, ⟨"tests"⟩, []⟩

theorem dotted_layout_meets_unit :
    dottedLayout.invalid? = none ∧ (⟨"Support.cpp"⟩ : Entry) ∈ (dottedLayout.layout .headers).files
      ∧ ((dottedLayout.category .headers ⟨"up"⟩ ⟨"dst"⟩).destinationPath ⟨"Support.cpp"⟩).Same
        (dottedLayout.unitPath ⟨"up"⟩ ⟨"dst"⟩) := by
  decide +kernel

/-! A manifest whose headers go to an absolute directory, where the sources
go as well if the destination root is `/dst`. -/

def absoluteLayout : Manifest where
  aggregate := {}
  headers := ⟨⟨"inc"⟩, ⟨"/dst/lib"⟩, [⟨"Support.cpp"⟩]⟩
  sources := ⟨⟨"src"⟩, ⟨"lib"⟩, []⟩
  tests := ⟨⟨"t"⟩, ⟨"tests"⟩, []⟩

example : absoluteLayout.invalid? = none
    ∧ ((absoluteLayout.category .headers ⟨"up"⟩ ⟨"/dst"⟩).destinationPath ⟨"Support.cpp"⟩).Same
      (absoluteLayout.unitPath ⟨"up"⟩ ⟨"/dst"⟩) := by
  decide +kernel

end Manifest

end Vendoring
