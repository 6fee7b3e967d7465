import Vendoring.Proofs.Agreement
import Vendoring.Proofs.Layout

/-!
# The synchronized state

`InSync` is the state that a run works towards: every destination holds the
bytes of its source, and the unit holds its text. In this state there is
nothing to do for anybody: the differences are empty, the status is clean,
and a run writes no entry (`InSync.differences`, `InSync.isClean`,
`InSync.run`). A run that succeeds reaches it (`inSync_of_run`).
-/

namespace Vendoring

open Vendoring.Path FileTree

/-- Everything is as a run would leave it, and the unit can be written
again. -/
structure Manifest.InSync (m : Manifest) (source destination : Path) (d : Disk) : Prop where
  entries : ∀ c ∈ m.categories source destination, ∀ e ∈ c.entries,
    d.Synced (c.sourcePath e) (c.destinationPath e)
  unit : ∃ mode, d.node? (m.unitPath source destination) = .ok (.file
    (Aggregate.expected (m.category .sources source destination) m.aggregate).toUTF8 mode)

/-! ## One category -/

section Category

variable {c : Category} {d : Disk} {entries : List Entry}
  (h : ∀ e ∈ entries, d.Synced (c.sourcePath e) (c.destinationPath e))

theorem entryState_of_synced {e : Entry} (h : d.Synced (c.sourcePath e) (c.destinationPath e)) :
    entryState c e d = .ok .current := by
  obtain ⟨bytes, mode, mode', hs, hd⟩ := h
  rw [entryState_of_files hs hd, if_pos rfl]

include h

theorem entryStates_of_synced :
    entryStates c d entries = .ok (entries.map fun e => (e, .current)) := by
  induction entries with
  | nil => rfl
  | cons e rest ih =>
    rw [entryStates, entryState_of_synced (h e (List.mem_cons_self ..)),
      ih fun e' he' => h e' (List.mem_cons_of_mem _ he')]
    rfl

theorem entryDifferences_of_synced (root : Path) :
    entryDifferences c root d entries = .ok [] := by
  induction entries with
  | nil => rfl
  | cons e rest ih =>
    rw [entryDifferences, entryDifference, entryState_of_synced (h e (List.mem_cons_self ..)),
      ih fun e' he' => h e' (List.mem_cons_of_mem _ he')]
    rfl

theorem syncEntries_of_synced (dryRun : Bool) :
    (syncEntries c dryRun entries d).writes
        = entries.map (fun e => (e, .unchanged (c.destinationPath e)))
      ∧ (syncEntries c dryRun entries d).failure = none
      ∧ (syncEntries c dryRun entries d).disk = d := by
  induction entries with
  | nil => exact ⟨rfl, rfl, rfl⟩
  | cons e rest ih =>
    have he := syncEntry_of_synced dryRun (h e (List.mem_cons_self ..))
    obtain ⟨hwrites, hfailure, hdisk⟩ := ih fun e' he' => h e' (List.mem_cons_of_mem _ he')
    simp only [syncEntries, he, hwrites, hfailure, hdisk, List.map_cons, and_self]

end Category

/-- What a run reports of a category in which there is nothing to do. -/
def Category.rested (c : Category) : CategoryResult :=
  ⟨c.kind, c.entries.map fun e => (e, .unchanged (c.destinationPath e))⟩

theorem total_written_rested (categories : List Category) :
    total ((categories.map Category.rested).map CategoryResult.written) = 0 := by
  induction categories with
  | nil => rfl
  | cons c rest ih =>
    rw [List.map_cons, List.map_cons, total_cons, ih]
    simp [Category.rested, CategoryResult.written, WriteResult.isChange, List.countP_eq_zero]

/-! ## Whole trees -/

section Categories

variable {d : Disk} {categories : List Category}
  (h : ∀ c ∈ categories, ∀ e ∈ c.entries, d.Synced (c.sourcePath e) (c.destinationPath e))

include h

theorem categoriesDifferences_of_synced (root : Path) :
    categoriesDifferences root d categories = .ok [] := by
  induction categories with
  | nil => rfl
  | cons c rest ih =>
    rw [categoriesDifferences, categoryDifferences,
      entryDifferences_of_synced (h c (List.mem_cons_self ..)),
      ih fun c' hc' => h c' (List.mem_cons_of_mem _ hc')]
    rfl

theorem categoryStatuses_of_synced {tracked roots : List Path} {statuses : List CategoryStatus}
    (hok : categoryStatuses tracked roots d categories = .ok statuses) :
    ∀ s ∈ statuses, ∀ e ∈ s.entries, e.2 = .current := by
  induction categories generalizing statuses with
  | nil =>
    obtain rfl := Except.ok.inj hok
    intro s hs
    cases hs
  | cons c rest ih =>
    rw [categoryStatuses, categoryStatus,
      entryStates_of_synced (h c (List.mem_cons_self ..))] at hok
    simp only [bind, Except.bind, pure, Except.pure] at hok
    cases hfiles : filesBelow d c.destinationRoot with
    | error x => simp [hfiles] at hok
    | ok files =>
      cases hmore : categoryStatuses tracked roots d rest with
      | error x => simp [hfiles, hmore] at hok
      | ok more =>
        simp only [hfiles, hmore, Except.ok.injEq] at hok
        subst hok
        intro s hs e he
        rcases List.mem_cons.mp hs with rfl | hs
        · obtain ⟨e', _, rfl⟩ := List.mem_map.mp he
          rfl
        · exact ih (fun c' hc' => h c' (List.mem_cons_of_mem _ hc')) hmore s hs e he

theorem runCategories_of_synced (dryRun : Bool) :
    (runCategories dryRun categories d).result = .ok (categories.map Category.rested)
      ∧ (runCategories dryRun categories d).disk = d := by
  induction categories with
  | nil => exact ⟨rfl, rfl⟩
  | cons c rest ih =>
    obtain ⟨hdone, hdisk⟩ := ih fun c' hc' => h c' (List.mem_cons_of_mem _ hc')
    obtain ⟨hwrites, hfailure, hsame⟩ :=
      syncEntries_of_synced (h c (List.mem_cons_self ..)) dryRun
    constructor
    · simp only [runCategories, syncCategory, hfailure, hsame, hdone, hwrites, Except.map,
        List.map_cons, Category.rested]
    · simp only [runCategories, syncCategory, hfailure, hsame, hdisk]

end Categories

namespace Manifest.InSync

variable {m : Manifest} {source destination : Path} {d : Disk}

theorem differences (h : m.InSync source destination d) :
    treeDifferences m source destination d = .ok [] := by
  obtain ⟨mode, hunit⟩ := h.unit
  rw [unitPath] at hunit
  rw [treeDifferences, categoriesDifferences_of_synced h.entries, aggregateDifference,
    Disk.readOrEmpty_of_file hunit]
  simp [bytes_beq_iff.mpr, bind, Except.bind, pure, Except.pure]

theorem isClean (h : m.InSync source destination d) {report : StatusReport}
    (hok : treeStatus m source destination d = .ok report) : report.isClean = true := by
  obtain ⟨mode, hunit⟩ := h.unit
  rw [unitPath] at hunit
  have haggregate : aggregateStatus (m.category .sources source destination) m.aggregate d
      = .ok ⟨m.unitPath source destination, .current⟩ := by
    rw [aggregateStatus, Disk.compareWithText_of_file _ hunit, bytes_beq_iff.mpr rfl]
    rfl
  rw [treeStatus, haggregate] at hok
  simp only [bind, Except.bind, pure, Except.pure] at hok
  split at hok
  · cases hok
  · next statuses hstatuses =>
    obtain rfl := Except.ok.inj hok
    have hcurrent := categoryStatuses_of_synced h.entries hstatuses
    simp only [StatusReport.isClean, Bool.and_eq_true, List.all_eq_true]
    refine ⟨fun s hs e he => ?_, rfl⟩
    rw [hcurrent s hs e he]
    rfl

/-- A run has nothing to write but the unit, and a dry run not even that. -/
theorem run (h : m.InSync source destination d) (hvalid : m.invalid? = none)
    (hfree : d.tree.LinkFree) (hplain : (m.unitPath source destination).Plain)
    (hwritable : d.Writable (m.unitPath source destination)) (options : RunOptions) :
    ∃ report, (run m source destination options d).result = .ok report
      ∧ report.written = 0
      ∧ (options.dryRun = true → (run m source destination options d).disk = d
        ∧ ∀ u, report.aggregate = some u →
          u.write = .unchanged (m.unitPath source destination)) := by
  obtain ⟨mode, hunit⟩ := h.unit
  obtain ⟨hdone, hdisk⟩ := runCategories_of_synced h.entries options.dryRun
  have hwritten := total_written_rested (m.categories source destination)
  unfold Vendoring.run
  simp only [hvalid, hdone, hdisk]
  cases hu : options.amalgamate with
  | false =>
    refine ⟨⟨_, none⟩, rfl, hwritten, fun _ => ⟨rfl, fun u hu => ?_⟩⟩
    cases hu
  | true =>
    simp only [if_true, runAggregate]
    cases hdry : options.dryRun with
    | true =>
      have htext : Aggregate.expected (m.category .sources source destination) m.aggregate =
        (Aggregate.Plan.ofEntries m.aggregate
          (m.category .sources source destination).entries).unitText m.aggregate := rfl
      rw [unitPath, htext] at hunit
      simp only [Vendoring.amalgamate, if_true, Disk.compareWithText_of_file _ hunit,
        bytes_beq_iff.mpr]
      exact ⟨_, rfl, hwritten, fun _ => ⟨trivial, fun u hu => Option.some.inj hu ▸ rfl⟩⟩
    | false =>
      have hcheck : checkSynchronized (m.category .sources source destination) d = .ok () := by
        refine requireSynchronized_eq_ok_iff.mpr fun e he => ?_
        obtain ⟨bytes, mode, mode', _, hfile⟩ :=
          h.entries _ (category_mem m .sources source destination) e he
        exact Disk.isFile?_of_file hfile
      obtain ⟨r, hr⟩ := amalgamate_of_writable hfree hplain hcheck hwritable
      simp only [hr]
      refine ⟨⟨_, some r⟩, rfl, hwritten, fun h => ?_⟩
      cases h

end Manifest.InSync

/-! ## Reaching it -/

namespace Manifest

variable {m : Manifest} {source destination : Path} {d : Disk}

/-- A run that succeeds and has the unit in it ends with the unit. -/
theorem unit_of_run (hok : (follow false (m.agenda source destination true) d).failure = none) :
    ∃ r, (amalgamate (m.category .sources source destination) m.aggregate false
          (follow false (m.agenda source destination false) d).disk).result = .ok r
      ∧ (follow false (m.agenda source destination true) d).disk
        = (amalgamate (m.category .sources source destination) m.aggregate false
          (follow false (m.agenda source destination false) d).disk).disk := by
  rw [m.agenda_eq source destination true, if_pos rfl] at hok ⊢
  obtain ⟨hfailure, hdisk⟩ := follow_append_of_none (failure_of_append hok)
    [.unit (m.category .sources source destination) m.aggregate]
  rw [hfailure] at hok
  obtain ⟨⟨p, hp⟩, hlast⟩ := follow_singleton_ok hok
  rw [hdisk, hlast]
  cases hu : (amalgamate (m.category .sources source destination) m.aggregate false
      (follow false (m.agenda source destination false) d).disk).result with
  | error x => rw [Step.perform_unit_error.mpr hu] at hp; cases hp
  | ok r => exact ⟨r, rfl, rfl⟩

theorem inSync_of_run (hvalid : m.invalid? = none) (hin : m.Inward source destination)
    (hfree : d.tree.LinkFree) (hapart : m.Apart source destination d.here)
    (htmp : m.TemporariesApart source destination d.here)
    (hok : (follow false (m.agenda source destination true) d).failure = none) :
    m.InSync source destination (follow false (m.agenda source destination true) d).disk
      ∧ (follow false (m.agenda source destination true) d).disk.Writable
          (m.unitPath source destination) := by
  have hsteps := orderly_agenda hvalid hin hapart htmp true
  have hd : d.Simple d.here := ⟨hfree, rfl⟩
  have hplain := plain_unitPath hvalid hin
  have hentries : ∀ c ∈ m.categories source destination, ∀ e ∈ c.entries,
      (follow false (m.agenda source destination true) d).disk.Synced (c.sourcePath e)
        (c.destinationPath e) :=
    fun c hc e he =>
      follow_synced hsteps (List.Subset.refl _) hd hok (entry_mem_agenda.mpr ⟨hc, he⟩)
  obtain ⟨u, hu, hdisk⟩ := unit_of_run hok
  have hD := follow_simple (orderly_agenda hvalid hin hapart htmp false) (List.Subset.refl _) hd
  obtain ⟨hunit, hwritable⟩ := amalgamate_again hD.linkFree hplain hu
  rw [hdisk] at hentries ⊢
  exact ⟨⟨hentries, hunit⟩, hwritable⟩

/-- A run that succeeds reaches the synchronized state, and every reader of
the tree agrees that it did: destinations hold the bytes that their sources
had at the start, the unit holds its text, there are no differences, a
status is clean, and another run writes no entry, in a dry run not even the
unit. -/
theorem successful_run_synchronizes (m : Manifest) (source destination : Path) (d : Disk)
    (report : RunReport) (hvalid : m.invalid? = none) (hin : m.Inward source destination)
    (hfree : d.tree.LinkFree) (hapart : m.Apart source destination d.here)
    (htmp : m.TemporariesApart source destination d.here)
    (hok : (run m source destination ⟨false, true⟩ d).result = .ok report) :
    (∀ c ∈ m.categories source destination, ∀ e ∈ c.entries, ∃ bytes mode mode',
        d.node? (c.sourcePath e) = .ok (.file bytes mode)
        ∧ (run m source destination ⟨false, true⟩ d).disk.node? (c.destinationPath e)
          = .ok (.file bytes mode'))
    ∧ (run m source destination ⟨false, true⟩ d).disk.read? (m.unitPath source destination)
        = .ok (Aggregate.expected (m.category .sources source destination) m.aggregate).toUTF8
    ∧ treeDifferences m source destination (run m source destination ⟨false, true⟩ d).disk = .ok []
    ∧ (∀ status, treeStatus m source destination (run m source destination ⟨false, true⟩ d).disk
        = .ok status → status.isClean = true)
    ∧ ∀ options, ∃ again,
        (run m source destination options (run m source destination ⟨false, true⟩ d).disk).result
          = .ok again
        ∧ again.written = 0
        ∧ (options.dryRun = true →
          (run m source destination options (run m source destination ⟨false, true⟩ d).disk).disk
            = (run m source destination ⟨false, true⟩ d).disk
          ∧ ∀ u, again.aggregate = some u →
            u.write = .unchanged (m.unitPath source destination)) := by
  have hcourse := run_course hvalid source destination ⟨false, true⟩ d
  have hdisk : (run m source destination ⟨false, true⟩ d).disk
      = (follow false (m.agenda source destination true) d).disk := congrArg Course.disk hcourse
  have hfailure : (follow false (m.agenda source destination true) d).failure = none := by
    rw [← hcourse, Run.course, hok]
  rw [hdisk]
  have hsteps := orderly_agenda hvalid hin hapart htmp true
  have hd : d.Simple d.here := ⟨hfree, rfl⟩
  have hd' := follow_simple hsteps (List.Subset.refl _) hd
  obtain ⟨hsync, hwritable⟩ := inSync_of_run hvalid hin hfree hapart htmp hfailure
  have hplain := plain_unitPath hvalid hin
  refine ⟨fun c hc e he => ?_, ?_, hsync.differences, fun status h => hsync.isClean h,
    fun options => ?_⟩
  · obtain ⟨bytes, mode, mode', hs, hdest⟩ := hsync.entries c hc e he
    have he' : .entry c e ∈ m.agenda source destination true := entry_mem_agenda.mpr ⟨hc, he⟩
    exact ⟨bytes, mode, mode', (follow_source hsteps (List.Subset.refl _) hd he').mp hs, hdest⟩
  · obtain ⟨mode, hunit⟩ := hsync.unit
    exact Disk.read?_of_file hunit
  · exact hsync.run hvalid hd'.linkFree hplain hwritable options

/-! A tree with one header, one source and one fragment, and nothing at the
destination. -/

def sample : Manifest where
  aggregate := {}
  headers := ⟨⟨"inc"⟩, ⟨"include"⟩, [⟨"a.h"⟩]⟩
  sources := ⟨⟨"src"⟩, ⟨"lib"⟩, [⟨"x.cpp"⟩, ⟨"t.inc"⟩]⟩
  tests := ⟨⟨"t"⟩, ⟨"tests"⟩, []⟩

def sampleTree : FileTree :=
  ((((((FileTree.empty.put ["up"] .directory).put ["inc", "up"] .directory).put
    ["a.h", "inc", "up"] (.file "h".toUTF8 0o644)).put ["src", "up"] .directory).put
    ["x.cpp", "src", "up"] (.file "x".toUTF8 0o644)).put
    ["t.inc", "src", "up"] (.file "t".toUTF8 0o600))

theorem sample_synchronizes :
    ∃ report, (run sample ⟨"up"⟩ ⟨"out"⟩ ⟨false, true⟩ ⟨sampleTree, []⟩).result = .ok report
      ∧ treeDifferences sample ⟨"up"⟩ ⟨"out"⟩
          (run sample ⟨"up"⟩ ⟨"out"⟩ ⟨false, true⟩ ⟨sampleTree, []⟩).disk = .ok [] := by
  have hsome : (run sample ⟨"up"⟩ ⟨"out"⟩ ⟨false, true⟩ ⟨sampleTree, []⟩).result.toOption.isSome
      = true := by decide +kernel
  cases hok : (run sample ⟨"up"⟩ ⟨"out"⟩ ⟨false, true⟩ ⟨sampleTree, []⟩).result with
  | error x => rw [hok] at hsome; cases hsome
  | ok report =>
    have h := successful_run_synchronizes sample ⟨"up"⟩ ⟨"out"⟩ ⟨sampleTree, []⟩ report
      (by decide +kernel) (by decide +kernel) (linkFree_of_nodes (by decide +kernel))
      ⟨by decide +kernel, by decide +kernel, by decide +kernel⟩
      (by unfold TemporariesApart; decide +kernel) hok
    exact ⟨report, rfl, h.2.2.1⟩

end Manifest

end Vendoring
