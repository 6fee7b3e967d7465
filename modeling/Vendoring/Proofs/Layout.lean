import Vendoring.Manifest.Validation
import Vendoring.Proofs.Lasting

/-!
# What a valid manifest promises to a run

Validation keeps every entry and the output of the aggregate to plain names,
so the paths that a run works with are plain as soon as the roots are
(`plain_of_mem_agenda`). That targets, temporary files and sources keep apart
is not validated: it is a condition on the roots and the manifest together,
stated over the places of the paths by `Apart` and, in two strengths, by
`TemporariesApart` and `TemporariesClear`. `orderly_agenda` is what all this
comes to for a run.
-/

namespace Vendoring

open Vendoring.Path

namespace Manifest

variable {m : Manifest} {source destination : Path} {amalgamate : Bool} {here : Location}

/-! ## Validation -/

theorem flaw?_of_valid (h : m.invalid? = none) :
    (∀ kind, ∀ e ∈ (m.layout kind).files, e.flaw? = none) ∧ m.aggregate.output.flaw? = none := by
  simp only [invalid?, Option.orElse_eq_orElse, Option.orElse_eq_or, Option.or_eq_none_iff] at h
  obtain ⟨hentries, haggregate, -⟩ := h
  constructor
  · intro kind e he
    have hkind : kind ∈ Kind.all := by cases kind <;> decide
    have h := List.findSome?_eq_none_iff.mp (List.findSome?_eq_none_iff.mp hentries kind hkind) e he
    rwa [Option.map_eq_none_iff] at h
  · unfold invalidAggregate? at haggregate
    split at haggregate
    · cases haggregate
    · next hflaw => exact hflaw

/-- No path of a run leads outwards. -/
def Inward (m : Manifest) (source destination : Path) : Prop :=
  ∀ c ∈ m.categories source destination, c.sourceRoot.Inward ∧ c.destinationRoot.Inward

instance (m : Manifest) (source destination : Path) : Decidable (m.Inward source destination) :=
  inferInstanceAs (Decidable (∀ c ∈ _, ['.', '.'] ∉ _ ∧ ['.', '.'] ∉ _))

/-- The aggregate unit of a run. -/
def unitPath (m : Manifest) (source destination : Path) : Path :=
  (m.category .sources source destination).aggregatePath m.aggregate

theorem mem_categories {c : Category} (h : c ∈ m.categories source destination) :
    ∃ kind, c = m.category kind source destination := by
  obtain ⟨kind, _, rfl⟩ := List.mem_map.mp h
  exact ⟨kind, rfl⟩

theorem category_mem (m : Manifest) (kind : Kind) (source destination : Path) :
    m.category kind source destination ∈ m.categories source destination :=
  List.mem_map_of_mem (by cases kind <;> decide)

theorem plain_join {root : Path} {e : Entry} (hroot : root.Inward) (he : e.flaw? = none) :
    (root.join e.toPath).Plain :=
  ⟨hroot.join (Entry.toPath_inward he) (Entry.toPath_relative he),
    EndsInName.join root (Entry.toPath_endsInName he) (Entry.toPath_relative he)⟩

/-- An entry ends in a name, wherever the root leads. -/
theorem endsIn_join (root : Path) {e : Entry} (he : e.flaw? = none) :
    ∃ front last, (root.join e.toPath).EndsIn front last := by
  obtain ⟨front, last, hsegments, hsilent⟩ := Entry.toPath_endsInName he
  have hup : last ≠ ['.', '.'] := by
    intro hup
    refine Entry.toPath_inward he ?_
    rw [hsegments, hup]
    exact List.mem_append_right _ (List.mem_singleton_self _)
  refine ⟨root.stem ++ front, last, ?_, hsilent, hup⟩
  rw [segments_join _ (Entry.toPath_relative he), hsegments, List.append_assoc]

/-! ## The steps of a run -/

theorem mem_agenda {s : Step} : s ∈ m.agenda source destination amalgamate ↔
    (∃ c ∈ m.categories source destination, s = .start c)
      ∨ (∃ c ∈ m.categories source destination, ∃ e ∈ c.entries, s = .entry c e)
      ∨ amalgamate = true ∧ s = .unit (m.category .sources source destination) m.aggregate := by
  rw [agenda, List.mem_append, List.mem_flatMap]
  constructor
  · rintro (⟨c, hc, hs⟩ | hs)
    · rcases List.mem_cons.mp hs with rfl | hs
      · exact Or.inl ⟨c, hc, rfl⟩
      · obtain ⟨e, he, rfl⟩ := List.mem_map.mp hs
        exact Or.inr (Or.inl ⟨c, hc, e, he, rfl⟩)
    · split at hs
      · next ha => exact Or.inr (Or.inr ⟨ha, List.mem_singleton.mp hs⟩)
      · cases hs
  · rintro (⟨c, hc, rfl⟩ | ⟨c, hc, e, he, rfl⟩ | ⟨ha, rfl⟩)
    · exact Or.inl ⟨c, hc, List.mem_cons_self ..⟩
    · exact Or.inl ⟨c, hc, List.mem_cons_of_mem _ (List.mem_map_of_mem he)⟩
    · rw [if_pos ha]
      exact Or.inr (List.mem_singleton.mpr rfl)

theorem entry_mem_agenda {c : Category} {e : Entry} :
    .entry c e ∈ m.agenda source destination amalgamate
      ↔ c ∈ m.categories source destination ∧ e ∈ c.entries := by
  rw [mem_agenda]
  constructor
  · rintro (⟨c', _, h⟩ | ⟨c', hc, e', he, h⟩ | ⟨_, h⟩)
    · cases h
    · cases h
      exact ⟨hc, he⟩
    · cases h
  · rintro ⟨hc, he⟩
    exact Or.inr (Or.inl ⟨c, hc, e, he, rfl⟩)

/-- The entries come first, whether the unit is written behind them or not. -/
theorem agenda_eq (m : Manifest) (source destination : Path) (amalgamate : Bool) :
    m.agenda source destination amalgamate = m.agenda source destination false
      ++ if amalgamate then [.unit (m.category .sources source destination) m.aggregate]
        else [] := by
  simp only [agenda, Bool.false_eq_true, if_false, List.append_nil]

theorem plain_unitPath (hvalid : m.invalid? = none) (hin : m.Inward source destination) :
    (m.unitPath source destination).Plain :=
  plain_join (hin _ (category_mem m .sources source destination)).2 (flaw?_of_valid hvalid).2

theorem plain_of_mem_agenda (hvalid : m.invalid? = none) (hin : m.Inward source destination)
    {s : Step} (hs : s ∈ m.agenda source destination amalgamate) : s.Plain := by
  have hentries := (flaw?_of_valid hvalid).1
  rcases mem_agenda.mp hs with ⟨c, _, rfl⟩ | ⟨c, hc, e, he, rfl⟩ | ⟨_, rfl⟩
  · trivial
  · obtain ⟨kind, rfl⟩ := mem_categories hc
    have hflaw := hentries kind e he
    exact ⟨plain_join (hin _ hc).1 hflaw, plain_join (hin _ hc).2 hflaw⟩
  · exact plain_unitPath hvalid hin

/-- The files that the entries of a manifest are written to. -/
def destinations (m : Manifest) (source destination : Path) : List Path :=
  (m.categories source destination).flatMap fun c => c.entries.map c.destinationPath

theorem plain_of_mem_destinations (hvalid : m.invalid? = none) (hin : m.Inward source destination)
    {q : Path} (hq : q ∈ m.destinations source destination) : q.Plain := by
  obtain ⟨c, hc, hq⟩ := List.mem_flatMap.mp hq
  obtain ⟨e, he, rfl⟩ := List.mem_map.mp hq
  have hs : .entry c e ∈ m.agenda source destination false := entry_mem_agenda.mpr ⟨hc, he⟩
  exact (plain_of_mem_agenda hvalid hin hs).2

/-! ## Places that keep apart -/

/-- The files that a run writes, the unit among them. -/
def targets (m : Manifest) (source destination : Path) : List Path :=
  m.unitPath source destination ::
    (m.categories source destination).flatMap fun c => c.entries.map c.destinationPath

/-- The files that a run reads. -/
def sourcePaths (m : Manifest) (source destination : Path) : List Path :=
  (m.categories source destination).flatMap fun c => c.entries.map c.sourcePath

/-- Entries that are written to one place come from one place, the unit has
a place of its own, and nothing is written over a source. -/
structure Apart (m : Manifest) (source destination : Path) (here : Location) : Prop where
  sameSource : ∀ c ∈ m.categories source destination, ∀ e ∈ c.entries,
    ∀ c' ∈ m.categories source destination, ∀ e' ∈ c'.entries,
    (c.destinationPath e).place here = (c'.destinationPath e').place here →
    (c.sourcePath e).place here = (c'.sourcePath e').place here
  unitAlone : ∀ c ∈ m.categories source destination, ∀ e ∈ c.entries,
    (c.destinationPath e).place here ≠ (m.unitPath source destination).place here
  sources : ∀ p ∈ m.targets source destination, ∀ q ∈ m.sourcePaths source destination,
    p.place here ≠ q.place here

/-- No temporary file of a run stands where a file is written or read. -/
def TemporariesApart (m : Manifest) (source destination : Path) (here : Location) : Prop :=
  ∀ p ∈ m.targets source destination,
    ∀ q ∈ m.targets source destination ++ m.sourcePaths source destination,
      (Disk.temporary p).place here ≠ q.place here

/-- No temporary file of a run stands where a file is written or read, nor
above. -/
def TemporariesClear (m : Manifest) (source destination : Path) (here : Location) : Prop :=
  ∀ p ∈ m.targets source destination,
    ∀ q ∈ m.targets source destination ++ m.sourcePaths source destination,
      ¬(Disk.temporary p).place here <:+ q.place here

theorem TemporariesClear.apart (h : m.TemporariesClear source destination here) :
    m.TemporariesApart source destination here :=
  fun p hp q hq heq => h p hp q hq (heq ▸ List.suffix_refl _)

theorem mem_targets {p : Path} : p ∈ m.targets source destination ↔
    p = m.unitPath source destination
      ∨ ∃ c ∈ m.categories source destination, ∃ e ∈ c.entries, p = c.destinationPath e := by
  rw [targets, List.mem_cons, List.mem_flatMap]
  simp only [List.mem_map, eq_comm]

theorem target_mem {s : Step} (hs : s ∈ m.agenda source destination amalgamate) {p : Path}
    (hp : s.target? = some p) : p ∈ m.targets source destination := by
  rcases mem_agenda.mp hs with ⟨c, _, rfl⟩ | ⟨c, hc, e, he, rfl⟩ | ⟨_, rfl⟩
  · cases hp
  · exact mem_targets.mpr (Or.inr ⟨c, hc, e, he, (Option.some.inj hp).symm⟩)
  · exact mem_targets.mpr (Or.inl (Option.some.inj hp).symm)

theorem source_mem {c : Category} {e : Entry}
    (hs : .entry c e ∈ m.agenda source destination amalgamate) :
    c.sourcePath e ∈ m.sourcePaths source destination := by
  obtain ⟨hc, he⟩ := entry_mem_agenda.mp hs
  exact List.mem_flatMap.mpr ⟨c, hc, List.mem_map_of_mem he⟩

/-- The steps of a run keep out of each other's way. -/
theorem orderly_agenda (hvalid : m.invalid? = none) (hin : m.Inward source destination)
    (hapart : m.Apart source destination here)
    (htmp : m.TemporariesApart source destination here) (amalgamate : Bool) :
    Orderly here (m.agenda source destination amalgamate) where
  plain _ hs := plain_of_mem_agenda hvalid hin hs
  sameSource c e c' e' he he' := by
    obtain ⟨hc, he⟩ := entry_mem_agenda.mp he
    obtain ⟨hc', he'⟩ := entry_mem_agenda.mp he'
    exact hapart.sameSource c hc e he c' hc' e' he'
  unitAlone sources settings c e hu he := by
    obtain ⟨hc, he⟩ := entry_mem_agenda.mp he
    rcases mem_agenda.mp hu with ⟨_, _, h⟩ | ⟨_, _, _, _, h⟩ | ⟨_, h⟩
    · cases h
    · cases h
    · cases h
      exact (hapart.unitAlone c hc e he).symm
  sourceApart _ hs _ hp _ _ he := hapart.sources _ (target_mem hs hp) _ (source_mem he)
  temporarySource _ hs _ hp _ _ he :=
    htmp _ (target_mem hs hp) _ (List.mem_append_right _ (source_mem he))
  temporaryTarget _ hs _ hp _ hs' _ hq :=
    htmp _ (target_mem hs hp) _ (List.mem_append_left _ (target_mem hs' hq))

end Manifest

end Vendoring
