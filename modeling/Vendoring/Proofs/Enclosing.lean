import Vendoring.Proofs.Confining
import Vendoring.Proofs.Footprints
import Vendoring.Proofs.Ordering

/-!
# Whether a run stays below its roots

Validation keeps entries to plain names and leaves the directories of a
layout alone. So a path of a run is that of its root and names behind it just
when the layout between them is relative and has no `..` (`bound_join`). Where
that is so of all layouts, a run has its roots for a footprint
(`surroundings`): it looks at nothing but them, what is below them and the way
to them, and alters nothing that is not below the destination root, apart from
creating directories that are missing on the way to it.
-/

namespace Vendoring

namespace Path

/-- The path is that of the root and names behind it. -/
def Below (p root : Path) : Prop :=
  ∃ names : List String, p.components = root.components ++ names.map .name

/-- Segments contribute names only, unless there is a `..` among them. -/
theorem inner_eq_names_iff {segments : List Segment} :
    (∃ names : List String, inner segments = names.map .name) ↔ ['.', '.'] ∉ segments := by
  refine ⟨?_, fun h => ⟨spoken segments, inner_of_inward h⟩⟩
  rintro ⟨names, hnames⟩ hup
  have hmem : Component.up ∈ inner segments := List.mem_filterMap.mpr ⟨_, hup, rfl⟩
  rw [hnames] at hmem
  obtain ⟨name, -, hname⟩ := List.mem_map.mp hmem
  cases hname

theorem below_of_components {p root : Path} {segments : List Segment}
    (h : p.components = root.components ++ inner segments) :
    p.Below root ↔ ['.', '.'] ∉ segments := by
  rw [Below, h, ← inner_eq_names_iff]
  simp only [List.append_cancel_left_eq]

theorem Below.isAbsolute {p root : Path} (h : p.Below root) : p.isAbsolute = root.isAbsolute := by
  obtain ⟨names, hnames⟩ := h
  rw [Bool.eq_iff_iff, ← root_mem_components, ← root_mem_components, hnames, List.mem_append]
  simp

/-- How a path behind a root and a layout lies to them: a relative layout
stays below the root when it has no `..`, an absolute one takes the place of
the root. -/
structure Bound (root layout p : Path) : Prop where
  relative : layout.isAbsolute = false → (p.Below root ↔ layout.Inward)
  absolute : layout.isAbsolute = true →
    p.Below layout ∧ (root.isAbsolute = false → ¬p.Below root)

end Path

open Vendoring.Path FileTree

theorem Entry.bound_join {root layout : Path} (hroot : root.text ≠ "") {e : Entry}
    (he : e.flaw? = none) : Bound root layout ((root.join layout).join e.toPath) where
  relative hrel := by
    have hcomponents : ((root.join layout).join e.toPath).components
        = root.components ++ Path.inner (layout.segments ++ e.toPath.segments) := by
      rw [components_below he, components_join hroot hrel, inner_append, List.append_assoc]
    rw [below_of_components hcomponents, List.mem_append, not_or, Path.Inward]
    exact and_iff_left (toPath_inward he)
  absolute habs := by
    rw [join_absolute habs]
    have hlayout : (layout.join e.toPath).Below layout :=
      (below_of_components (components_below he layout)).mpr (toPath_inward he)
    refine ⟨hlayout, fun hrel hbelow => ?_⟩
    rw [← hbelow.isAbsolute, hlayout.isAbsolute, habs] at hrel
    cases hrel

/-! ## The footprint of two roots -/

/-- What is seen from two roots: what is below them, and the way to them. What
is below the destination root may be altered, and where nothing is on the way
to it a directory may come to stand. -/
def surroundings (source destination : Path) (here : Location) : Footprint where
  here := here
  sees l := ∃ root ∈ [source, destination], l ∈ root.trail here ∨ root.goal here <:+ l
  alters l old new := new = old ∨ StrictlyBelow (destination.goal here) l
    ∨ l ∈ destination.trail here ∧ old = none ∧ new = some .directory
  same _ _ := Or.inl rfl
  trans l n₁ n₂ n₃ h h' := by
    rcases h with rfl | h | ⟨hl, hnone, hdir⟩
    · exact h'
    · exact Or.inr (Or.inl h)
    · rcases h' with rfl | h' | ⟨_, hnone', _⟩
      · exact Or.inr (Or.inr ⟨hl, hnone, hdir⟩)
      · exact Or.inr (Or.inl h')
      · rw [hdir] at hnone'
        cases hnone'

namespace Path.Beneath

variable {source destination p root : Path} {further : List String} (here : Location)

theorem reads (hroot : root ∈ [source, destination]) (h : p.Beneath root further) :
    (surroundings source destination here).Reads p :=
  fun _ hl => ⟨root, hroot, h.mem_trail here hl⟩

theorem replaces (h : p.Beneath destination further) :
    (surroundings source destination here).Replaces p where
  reads := h.reads here (by simp)
  opens l hl := by
    rcases h.mem_trail here hl with hway | hbelow
    · exact Or.inr (Or.inr ⟨hway, rfl, rfl⟩)
    · by_cases hgoal : destination.goal here = l
      · exact Or.inr (Or.inr ⟨hgoal ▸ goal_mem_trail destination here, rfl, rfl⟩)
      · exact Or.inr (Or.inl ⟨hbelow, hgoal⟩)
  replaces old new := by
    refine Or.inr (Or.inl ⟨?_, fun heq => ?_⟩)
    · exact h.goal here ▸ List.suffix_append ..
    · have hlength := congrArg List.length ((h.goal here).symm.trans heq.symm)
      rw [List.length_append, List.length_reverse] at hlength
      have := List.length_pos_iff.mpr h.proper
      omega

/-- A file beneath the destination root has its temporary file there too. -/
theorem writes (h : p.Beneath destination further) {front : List Segment} {last : Segment}
    (hends : p.EndsIn front last) : (surroundings source destination here).Writes p :=
  ⟨h.replaces here, (h.temporary hends).replaces here⟩

end Path.Beneath

namespace Manifest

/-- No layout leads outwards, or starts anew. -/
def Contained (m : Manifest) : Prop :=
  ∀ kind, ∀ p ∈ [(m.layout kind).source, (m.layout kind).destination],
    p.isAbsolute = false ∧ p.Inward

theorem Contained.writes {m : Manifest} (h : m.Contained) (kind : Kind)
    (source destination : Path) (here : Location) {e : Entry} (he : e.flaw? = none) :
    (surroundings source destination here).Writes
      ((m.category kind source destination).destinationPath e) := by
  obtain ⟨hrel, hin⟩ := h kind (m.layout kind).destination (by simp)
  obtain ⟨front, last, hends⟩ := endsIn_join (destination.join (m.layout kind).destination) he
  exact (beneath_join hrel hin he).writes here hends

theorem Contained.covers {m : Manifest} (h : m.Contained) (hvalid : m.invalid? = none)
    (source destination : Path) (here : Location) {c : Category}
    (hc : c ∈ m.categories source destination) :
    (surroundings source destination here).Covers c := by
  obtain ⟨kind, rfl⟩ := mem_categories hc
  have hflaw := (flaw?_of_valid hvalid).1 kind
  obtain ⟨hrel, hin⟩ := h kind (m.layout kind).source (by simp)
  exact ⟨fun e he => (beneath_join hrel hin (hflaw e he)).reads here (by simp),
    fun e he => h.writes kind source destination here (hflaw e he)⟩

/-- Below non-empty roots, every path of a valid manifest stays where its
layout does, and a run does so with all of them. -/
theorem run_stays_below (m : Manifest) (source destination : Path) (hvalid : m.invalid? = none)
    (hsource : source.text ≠ "") (hdestination : destination.text ≠ "") :
    (∀ kind, ∀ e ∈ (m.layout kind).files,
      Bound source (m.layout kind).source ((m.category kind source destination).sourcePath e)
      ∧ Bound destination (m.layout kind).destination
          ((m.category kind source destination).destinationPath e))
    ∧ Bound destination m.sources.destination (m.unitPath source destination)
    ∧ (m.Contained → ∀ (options : RunOptions) (here : Location) (d d' : Disk),
        Disk.Twins here (surroundings source destination here).sees d d' →
        Within (surroundings source destination here) d
          (run m source destination options d).change
          (run m source destination options d').change) := by
  obtain ⟨hentries, houtput⟩ := flaw?_of_valid hvalid
  refine ⟨fun kind e he => ⟨Entry.bound_join hsource (hentries kind e he),
    Entry.bound_join hdestination (hentries kind e he)⟩, Entry.bound_join hdestination houtput, ?_⟩
  intro hcontained options here d d' htwins
  exact run_within htwins m source destination options
    (fun c hc => hcontained.covers hvalid source destination here hc)
    (hcontained.writes .sources source destination here houtput)

/-- What stands beside the two roots has no influence. -/
theorem sample_stays_below :
    ((sample.category .headers ⟨"up"⟩ ⟨"a/../out"⟩).destinationPath ⟨"a.h"⟩).Below ⟨"a/../out"⟩
      ∧ (run sample ⟨"up"⟩ ⟨"a/../out"⟩ ⟨false, true⟩
          ⟨sampleTree.put ["x"] (.file "x".toUTF8 0o600), []⟩).result
        = (run sample ⟨"up"⟩ ⟨"a/../out"⟩ ⟨false, true⟩ ⟨sampleTree, []⟩).result := by
  have h := run_stays_below sample ⟨"up"⟩ ⟨"a/../out"⟩ (by decide +kernel) (by decide) (by decide)
  constructor
  · exact ((h.1 .headers ⟨"a.h"⟩ (by decide)).2.relative (by decide)).mpr
      (by unfold Path.Inward; decide)
  · have hput : sampleTree.CanPut ["x"] := by decide +kernel
    have hunseen : ¬(surroundings ⟨"up"⟩ ⟨"a/../out"⟩ []).sees ["x"] := by
      change ¬∃ root ∈ _, ["x"] ∈ _ ∨ _ <:+ ["x"]
      decide +kernel
    have htwins : Disk.Twins [] (surroundings ⟨"up"⟩ ⟨"a/../out"⟩ []).sees
        ⟨sampleTree.put ["x"] (.file "x".toUTF8 0o600), []⟩ ⟨sampleTree, []⟩ := by
      refine ⟨⟨linkFree_of_nodes (by decide +kernel), rfl⟩,
        ⟨linkFree_of_nodes (by decide +kernel), rfl⟩, fun l hl => ?_⟩
      rw [node?_put _ _ _ hput, if_neg]
      rintro rfl
      exact hunseen hl
    have hcontained : sample.Contained := by
      unfold Contained Path.Inward
      intro kind
      cases kind <;> decide +kernel
    exact congrArg Prod.fst (h.2.2 hcontained ⟨false, true⟩ [] _ _ htwins).same

/-! A layout whose destination leads outwards. -/

def escaping : Manifest where
  aggregate := {}
  headers := ⟨⟨"inc"⟩, ⟨"../out"⟩, [⟨"a.h"⟩]⟩
  sources := ⟨⟨"src"⟩, ⟨"lib"⟩, []⟩
  tests := ⟨⟨"t"⟩, ⟨"tests"⟩, []⟩

def escapingTree : FileTree :=
  (((FileTree.empty.put ["up"] .directory).put ["inc", "up"] .directory).put ["a.h", "inc", "up"]
    (.file "h".toUTF8 0o644)).put ["dst"] .directory

theorem escaping_writes_beside_the_root :
    escaping.invalid? = none ∧ (⟨"a.h"⟩ : Entry) ∈ (escaping.layout .headers).files
      ∧ ¬((escaping.category .headers ⟨"up"⟩ ⟨"dst"⟩).destinationPath ⟨"a.h"⟩).Below ⟨"dst"⟩
      ∧ escapingTree.node? ["out"] = none
      ∧ (run escaping ⟨"up"⟩ ⟨"dst"⟩ ⟨false, true⟩ ⟨escapingTree, []⟩).disk.tree.node?
          ["a.h", "out"] = some (.file "h".toUTF8 0o644) := by
  refine ⟨by decide +kernel, by decide, ?_, by decide +kernel, by decide +kernel⟩
  rintro ⟨names, hnames⟩
  have hcomponents : ((escaping.category .headers ⟨"up"⟩ ⟨"dst"⟩).destinationPath
      ⟨"a.h"⟩).components = Path.components ⟨"dst"⟩ ++ [.up, .name "out", .name "a.h"] := by decide
  rw [hcomponents, List.append_cancel_left_eq] at hnames
  cases names <;> cases hnames

end Manifest

end Vendoring
