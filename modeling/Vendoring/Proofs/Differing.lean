import Vendoring.Proofs.Agreement

/-!
# The status and the differences call for the same files

A status names the files that a run would write (`StatusReport.stale`), and
the differences are patches of just these, one category after the other and
the aggregate unit at the end. The two readers part at one place: to a patch
a file that is not there is an empty one, so a unit that is missing and would
be empty is no difference, while the status calls for it
(`differences_match_status`). That happens when every source is a fragment
(`expected_eq_empty_iff`).
-/

namespace Vendoring

/-- What succeeds in sequence succeeds step by step. -/
theorem bind_eq_ok {ε α β : Type} {x : Except ε α} {f : α → Except ε β} {b : β}
    (h : x >>= f = .ok b) : ∃ a, x = .ok a ∧ f a = .ok b := by
  cases x with
  | error y => cases h
  | ok a => exact ⟨a, rfl, h⟩

/-! ## What a status calls for -/

/-- There is a source, and a run would write it. -/
def EntryState.isStale : EntryState → Bool
  | .outdated | .missing => true
  | .current | .sourceMissing => false

theorem EntryState.needsSync_eq_false_iff {state : EntryState} :
    state.needsSync = false ↔ state = .current := by
  cases state <;> simp [needsSync]

/-- The files of a category that a run would write, in the order of its
entries. -/
def CategoryStatus.stale (s : CategoryStatus) : List Path :=
  (s.entries.filter fun e => e.2.isStale).map fun e => s.destinationRoot.join e.1.toPath

namespace StatusReport

def staleEntries (r : StatusReport) : List Path :=
  r.categories.flatMap CategoryStatus.stale

/-- The files that a run would write, the unit at the end. -/
def stale (r : StatusReport) : List Path :=
  r.staleEntries ++ if r.aggregate.state.needsSync then [r.aggregate.path] else []

/-- A status in which every entry has its source calls for nothing just when
it is clean. -/
theorem stale_eq_nil_iff {r : StatusReport}
    (h : ∀ s ∈ r.categories, ∀ e ∈ s.entries, e.2 ≠ .sourceMissing) :
    (r.staleEntries = [] ↔ ∀ s ∈ r.categories, ∀ e ∈ s.entries, e.2 = .current)
      ∧ (r.stale = [] ↔ r.isClean = true) := by
  have hstate {state : EntryState} (hne : state ≠ .sourceMissing) :
      state.isStale = false ↔ state = .current := by
    cases state <;> simp_all [EntryState.isStale]
  have hentries : r.staleEntries = [] ↔ ∀ s ∈ r.categories, ∀ e ∈ s.entries, e.2 = .current := by
    simp only [staleEntries, List.flatMap_eq_nil_iff, CategoryStatus.stale, List.map_eq_nil_iff,
      List.filter_eq_nil_iff, Bool.not_eq_true]
    exact forall₂_congr fun s hs => forall₂_congr fun e he => hstate (h s hs e he)
  refine ⟨hentries, ?_⟩
  rw [stale, List.append_eq_nil_iff, hentries]
  simp [isClean, EntryState.needsSync_eq_false_iff]

end StatusReport

/-! ## Entries -/

section Entries

variable {c : Category} {root : Path} {d : Disk}

/-- An entry has a difference if its state is stale, and none if it is
current. Without a source there are no differences at all. -/
theorem entryDifference_of_state {e : Entry} {state : EntryState} {diffs : List FileDifference}
    (hstate : entryState c e d = .ok state) (hdiffs : entryDifference c root e d = .ok diffs) :
    state ≠ .sourceMissing
      ∧ diffs.map FileDifference.path = if state.isStale then [c.destinationPath e] else [] := by
  obtain ⟨w, hw, hpaths⟩ := entryDifference_eq_ok hdiffs
  rw [(syncEntry_dryRun c e d).1, hstate] at hw
  rw [hpaths]
  cases state with
  | sourceMissing => cases hw
  | current => cases hw; exact ⟨nofun, rfl⟩
  | outdated => cases hw; exact ⟨nofun, rfl⟩
  | missing => cases hw; exact ⟨nofun, rfl⟩

theorem entryDifferences_of_states {entries : List Entry} {states : List (Entry × EntryState)}
    {diffs : List FileDifference} (hstates : entryStates c d entries = .ok states)
    (hdiffs : entryDifferences c root d entries = .ok diffs) :
    states.map Prod.fst = entries ∧ (∀ e ∈ states, e.2 ≠ .sourceMissing)
      ∧ diffs.map FileDifference.path
        = (states.filter fun e => e.2.isStale).map fun e => c.destinationPath e.1 := by
  induction entries generalizing states diffs with
  | nil =>
    cases hstates
    cases hdiffs
    exact ⟨rfl, (fun e he => nomatch he), rfl⟩
  | cons e rest ih =>
    obtain ⟨state, hstate, hstates⟩ := bind_eq_ok hstates
    obtain ⟨later, hlater, hstates⟩ := bind_eq_ok hstates
    obtain ⟨one, hone, hdiffs⟩ := bind_eq_ok hdiffs
    obtain ⟨more, hmore, hdiffs⟩ := bind_eq_ok hdiffs
    cases hstates
    cases hdiffs
    obtain ⟨hentries, hsources, hpaths⟩ := ih hlater hmore
    obtain ⟨hsource, hpath⟩ := entryDifference_of_state hstate hone
    refine ⟨by rw [List.map_cons, hentries], ?_, ?_⟩
    · intro e' he'
      rcases List.mem_cons.mp he' with rfl | he'
      · exact hsource
      · exact hsources e' he'
    · rw [List.map_append, hpath, hpaths, List.filter_cons]
      cases state.isStale <;> rfl

end Entries

/-! ## Categories -/

def Category.outline (c : Category) : Kind × Path × List Entry :=
  (c.kind, c.destinationRoot, c.entries)

/-- The category that a status is about, as far as a report shows it. -/
def CategoryStatus.outline (s : CategoryStatus) : Kind × Path × List Entry :=
  (s.kind, s.destinationRoot, s.entries.map Prod.fst)

section Categories

variable {root : Path} {d : Disk} {diffs : List FileDifference}

theorem categoryDifferences_of_status {c : Category} {s : CategoryStatus}
    (hstatus : categoryStatus c d = .ok s) (hdiffs : categoryDifferences c root d = .ok diffs) :
    s.outline = c.outline ∧ (∀ e ∈ s.entries, e.2 ≠ .sourceMissing)
      ∧ diffs.map FileDifference.path = s.stale := by
  obtain ⟨states, hstates, hstatus⟩ := bind_eq_ok hstatus
  obtain ⟨files, _, hstatus⟩ := bind_eq_ok hstatus
  cases hstatus
  obtain ⟨hentries, hsources, hpaths⟩ := entryDifferences_of_states hstates hdiffs
  refine ⟨?_, hsources, hpaths⟩
  rw [CategoryStatus.outline, hentries]
  rfl

theorem categoriesDifferences_of_statuses {tracked roots : List Path} {categories : List Category}
    {statuses : List CategoryStatus}
    (hstatuses : categoryStatuses tracked roots d categories = .ok statuses)
    (hdiffs : categoriesDifferences root d categories = .ok diffs) :
    statuses.map CategoryStatus.outline = categories.map Category.outline
      ∧ (∀ s ∈ statuses, ∀ e ∈ s.entries, e.2 ≠ .sourceMissing)
      ∧ diffs.map FileDifference.path = statuses.flatMap CategoryStatus.stale := by
  induction categories generalizing statuses diffs with
  | nil =>
    cases hstatuses
    cases hdiffs
    exact ⟨rfl, (fun s hs => nomatch hs), rfl⟩
  | cons c rest ih =>
    obtain ⟨s, hs, hstatuses⟩ := bind_eq_ok hstatuses
    obtain ⟨later, hlater, hstatuses⟩ := bind_eq_ok hstatuses
    obtain ⟨one, hone, hdiffs⟩ := bind_eq_ok hdiffs
    obtain ⟨more, hmore, hdiffs⟩ := bind_eq_ok hdiffs
    cases hstatuses
    cases hdiffs
    obtain ⟨houtlines, hsources, hpaths⟩ := ih hlater hmore
    obtain ⟨houtline, hsource, hpath⟩ := categoryDifferences_of_status hs hone
    -- what is restricted are the untracked files only
    refine ⟨?_, ?_, ?_⟩
    · rw [List.map_cons, List.map_cons, houtlines, ← houtline]
      rfl
    · intro s' hs'
      rcases List.mem_cons.mp hs' with rfl | hs'
      · exact hsource
      · exact hsources s' hs'
    · rw [List.map_append, hpath, hpaths]
      rfl

end Categories

/-! ## The aggregate unit -/

namespace Aggregate

theorem unitText_eq_empty_iff (undefMacro : String) (paths : List String) :
    unitText undefMacro paths = "" ↔ paths = [] := by
  cases paths with
  | nil => exact ⟨fun _ => rfl, fun _ => rfl⟩
  | cons path rest => simp [unitText, pair]

theorem included_eq_nil_iff (settings : AggregateSettings) (entries : List Entry) :
    (Plan.ofEntries settings entries).included = [] ↔
      ∀ e ∈ entries, settings.isFragment e = true := by
  simp [Plan.included_ofEntries]

/-- The unit is empty when nothing but fragments is there. -/
theorem expected_eq_empty_iff (sources : Category) (settings : AggregateSettings) :
    expected sources settings = "" ↔ ∀ e ∈ sources.entries, settings.isFragment e = true := by
  rw [expected, Plan.unitText, unitText_eq_empty_iff, List.map_eq_nil_iff, included_eq_nil_iff]

end Aggregate

section Unit

variable {sources : Category} {settings : AggregateSettings} {root : Path} {d : Disk}
  {a : AggregateStatus} {diffs : List FileDifference}

/-- The unit has a difference when it is not current, unless it is missing
and would be empty. -/
theorem aggregateDifference_of_status (hstatus : aggregateStatus sources settings d = .ok a)
    (hdiffs : aggregateDifference sources settings root d = .ok diffs) :
    a.path = sources.aggregatePath settings
      ∧ (¬(a.state = .missing ∧ Aggregate.expected sources settings = "") →
        diffs.map FileDifference.path = if a.state.needsSync then [a.path] else [])
      ∧ (a.state = .missing → Aggregate.expected sources settings = "" → diffs = []) := by
  obtain ⟨compared, hcompared, hstatus⟩ := bind_eq_ok hstatus
  obtain ⟨old, hold, hdiffs⟩ := bind_eq_ok hdiffs
  unfold compareWithText at hcompared
  unfold readOrEmpty at hold
  cases hread : d.read? (sources.aggregatePath settings) with
  | ok bytes =>
    rw [hread] at hcompared hold
    cases hcompared
    obtain rfl := Except.ok.inj hold
    cases hsame : bytes == (Aggregate.expected sources settings).toUTF8 with
    | true =>
      rw [hsame] at hstatus hdiffs
      cases hstatus
      cases hdiffs
      exact ⟨rfl, fun _ => rfl, fun h => nomatch h⟩
    | false =>
      rw [hsame] at hstatus hdiffs
      cases hstatus
      cases hdiffs
      exact ⟨rfl, fun _ => rfl, fun h => nomatch h⟩
  | error f =>
    -- a fault other than absence fails both readers
    have hf : f = .notFound := by
      rw [hread] at hold
      cases f <;> first | rfl | cases hold
    subst hf
    rw [hread] at hcompared hold
    cases hcompared
    cases hold
    cases hstatus
    have hempty : (ByteArray.empty == (Aggregate.expected sources settings).toUTF8) = true
        ↔ Aggregate.expected sources settings = "" := by
      rw [bytes_beq_iff, eq_comm, String.toUTF8_eq_toByteArray, String.toByteArray_eq_empty_iff]
    refine ⟨rfl, fun hne => ?_, fun _ htext => ?_⟩
    · rw [if_neg fun h => hne ⟨rfl, hempty.mp h⟩] at hdiffs
      cases hdiffs
      rfl
    · rw [if_pos (hempty.mpr htext)] at hdiffs
      cases hdiffs
      rfl

end Unit

/-! ## The whole tree -/

/-- The differences are those of the entries that the status calls outdated
or missing, in its order, which is that of the manifest, and then of the unit
if that is not current. Only a unit that is missing where all sources are
fragments is passed over, so that the differences can come out empty although
the status is not clean. -/
theorem differences_match_status (m : Manifest) (source destination : Path) (d : Disk)
    (report : StatusReport) (diffs : List FileDifference)
    (hstatus : treeStatus m source destination d = .ok report)
    (hdiffs : treeDifferences m source destination d = .ok diffs) :
    report.categories.map CategoryStatus.outline
        = (m.categories source destination).map Category.outline
    ∧ report.aggregate.path = (m.category .sources source destination).aggregatePath m.aggregate
    ∧ (¬(report.aggregate.state = .missing
          ∧ ∀ e ∈ m.sources.files, m.aggregate.isFragment e = true) →
        diffs.map FileDifference.path = report.stale ∧ (diffs = [] ↔ report.isClean = true))
    ∧ (report.aggregate.state = .missing →
        (∀ e ∈ m.sources.files, m.aggregate.isFragment e = true) →
        diffs.map FileDifference.path = report.staleEntries ∧ report.isClean = false
          ∧ (diffs = [] ↔ ∀ s ∈ report.categories, ∀ e ∈ s.entries, e.2 = .current)) := by
  obtain ⟨a, ha, hstatus⟩ := bind_eq_ok hstatus
  obtain ⟨statuses, hstatuses, hstatus⟩ := bind_eq_ok hstatus
  obtain ⟨files, hfiles, hdiffs⟩ := bind_eq_ok hdiffs
  obtain ⟨unit, hunit, hdiffs⟩ := bind_eq_ok hdiffs
  cases hstatus
  cases hdiffs
  obtain ⟨houtlines, hsources, hpaths⟩ := categoriesDifferences_of_statuses hstatuses hfiles
  obtain ⟨hpath, hshown, hpassed⟩ := aggregateDifference_of_status ha hunit
  have hempty := Aggregate.expected_eq_empty_iff (m.category .sources source destination)
    m.aggregate
  obtain ⟨hentries, hclean⟩ := StatusReport.stale_eq_nil_iff (r := ⟨statuses, a⟩) hsources
  refine ⟨houtlines, hpath, fun hseen => ?_, fun hmissing hfragments => ?_⟩
  · have hall : (files ++ unit).map FileDifference.path = StatusReport.stale ⟨statuses, a⟩ := by
      rw [List.map_append, hpaths, hshown fun h => hseen ⟨h.1, hempty.mp h.2⟩]
      rfl
    refine ⟨hall, ?_⟩
    rw [← hclean, ← hall, List.map_eq_nil_iff]
  · obtain rfl := hpassed hmissing (hempty.mpr hfragments)
    have hall : (files ++ []).map FileDifference.path
        = StatusReport.staleEntries ⟨statuses, a⟩ := by
      rw [List.append_nil]
      exact hpaths
    refine ⟨hall, ?_, ?_⟩
    · rw [StatusReport.isClean]
      simp only at hmissing
      rw [hmissing]
      simp [EntryState.needsSync]
    · rw [← hentries, ← hall, List.map_eq_nil_iff]

/-! A tree whose only source is a fragment, vendored without the unit, and
with a header that is still to come. -/

def fragmentary : Manifest where
  aggregate := {}
  headers := ⟨⟨"inc"⟩, ⟨"include"⟩, [⟨"a.h"⟩]⟩
  sources := ⟨⟨"src"⟩, ⟨"lib"⟩, [⟨"t.inc"⟩]⟩
  tests := ⟨⟨"t"⟩, ⟨"tests"⟩, []⟩

def fragmentaryTree : FileTree :=
  (((((((FileTree.empty.put ["up"] .directory).put ["inc", "up"] .directory).put
    ["a.h", "inc", "up"] (.file "h".toUTF8 0o644)).put ["src", "up"] .directory).put
    ["t.inc", "src", "up"] (.file "t".toUTF8 0o644)).put ["out"] .directory).put
    ["lib", "out"] .directory).put ["t.inc", "lib", "out"] (.file "t".toUTF8 0o644)

theorem fragmentary_calls_for_its_header :
    ∃ report diffs, treeStatus fragmentary ⟨"up"⟩ ⟨"out"⟩ ⟨fragmentaryTree, []⟩ = .ok report
      ∧ treeDifferences fragmentary ⟨"up"⟩ ⟨"out"⟩ ⟨fragmentaryTree, []⟩ = .ok diffs
      ∧ diffs.map FileDifference.path = report.staleEntries
      ∧ report.staleEntries = [⟨"out/include/a.h"⟩] := by
  have hstatus : (treeStatus fragmentary ⟨"up"⟩ ⟨"out"⟩ ⟨fragmentaryTree, []⟩).toOption.map
      (fun r => (r.aggregate.state, r.staleEntries)) = some (.missing, [⟨"out/include/a.h"⟩]) := by
    decide +kernel
  have hdiffs : (treeDifferences fragmentary ⟨"up"⟩ ⟨"out"⟩ ⟨fragmentaryTree, []⟩).toOption.isSome
      = true := by decide +kernel
  cases hr : treeStatus fragmentary ⟨"up"⟩ ⟨"out"⟩ ⟨fragmentaryTree, []⟩ with
  | error x => rw [hr] at hstatus; cases hstatus
  | ok report =>
    cases hd : treeDifferences fragmentary ⟨"up"⟩ ⟨"out"⟩ ⟨fragmentaryTree, []⟩ with
    | error x => rw [hd] at hdiffs; cases hdiffs
    | ok diffs =>
      rw [hr] at hstatus
      obtain ⟨hstate, hstale⟩ := Prod.mk.inj (Option.some.inj hstatus)
      have h := differences_match_status fragmentary ⟨"up"⟩ ⟨"out"⟩ ⟨fragmentaryTree, []⟩
        report diffs hr hd
      exact ⟨report, diffs, rfl, rfl, (h.2.2.2 hstate (by decide +kernel)).1, hstale⟩

/-- Once the header is there too, only the status still calls for the unit. -/
theorem fragmentary_unit_is_passed_over :
    fragmentary.invalid? = none
      ∧ (treeStatus fragmentary ⟨"up"⟩ ⟨"out"⟩ ⟨(fragmentaryTree.put ["include", "out"]
          .directory).put ["a.h", "include", "out"] (.file "h".toUTF8 0o644), []⟩).toOption.map
            (fun r => (r.isClean, r.aggregate)) = some (false, ⟨⟨"out/lib/Support.cpp"⟩, .missing⟩)
      ∧ (treeDifferences fragmentary ⟨"up"⟩ ⟨"out"⟩ ⟨(fragmentaryTree.put ["include", "out"]
          .directory).put ["a.h", "include", "out"] (.file "h".toUTF8 0o644), []⟩).toOption
            = some [] :=
  ⟨by decide +kernel, by decide +kernel, by decide +kernel⟩

end Vendoring
