import Vendoring.Proofs.Agreement
import Vendoring.Sync.Run

/-!
# A run as one list of steps

`run` is a loop over categories around a loop over entries, with the
aggregate unit behind both. What is proved of a whole run is proved of a
flat list of steps instead: the `agenda` of a manifest names everything that
a run does in its order, `follow` does one step after the other up to the
first error, and `run_course` says that a run of a valid manifest is its
agenda followed. An induction over a run is then one induction over a list.
-/

namespace Vendoring

/-- One step of a run. -/
inductive Step
  | start (c : Category)
  | entry (c : Category) (e : Entry)
  | unit (sources : Category) (settings : AggregateSettings)

/-- Does one step; its result is what the run reports of it. -/
def Step.perform (dryRun : Bool) (d : Disk) : Step → Outcome Progress
  | .start c => ⟨.ok (.started c), d, []⟩
  | .entry c e =>
    let outcome := syncEntry c e dryRun d
    ⟨outcome.result.map (.entry c.kind e), outcome.disk, outcome.log⟩
  | .unit sources settings =>
    let outcome := amalgamate sources settings dryRun d
    ⟨outcome.result.map .amalgamated, outcome.disk, outcome.log⟩

namespace Step

variable {dryRun : Bool} {c : Category} {e : Entry} {d : Disk}

theorem perform_entry_ok {w : WriteResult} (h : (syncEntry c e dryRun d).result = .ok w) :
    ((Step.entry c e).perform dryRun d).result = .ok (.entry c.kind e w) := by
  rw [perform, h]
  rfl

theorem perform_entry_eq_ok {r : Progress}
    (h : ((Step.entry c e).perform dryRun d).result = .ok r) :
    ∃ w, (syncEntry c e dryRun d).result = .ok w ∧ r = .entry c.kind e w := by
  rw [perform] at h
  cases hw : (syncEntry c e dryRun d).result with
  | error x => rw [hw] at h; cases h
  | ok w =>
    rw [hw] at h
    exact ⟨w, rfl, (Except.ok.inj h).symm⟩

theorem perform_entry_error {x : SyncError} :
    ((Step.entry c e).perform dryRun d).result = .error x
      ↔ (syncEntry c e dryRun d).result = .error x := by
  rw [perform]
  cases (syncEntry c e dryRun d).result <;> simp [Except.map]

theorem perform_unit_ok {sources : Category} {settings : AggregateSettings} {r : AggregateResult}
    (h : (amalgamate sources settings dryRun d).result = .ok r) :
    ((Step.unit sources settings).perform dryRun d).result = .ok (.amalgamated r) := by
  rw [perform, h]
  rfl

theorem perform_unit_eq_ok {sources : Category} {settings : AggregateSettings} {r : Progress}
    (h : ((Step.unit sources settings).perform dryRun d).result = .ok r) :
    ∃ u, (amalgamate sources settings dryRun d).result = .ok u ∧ r = .amalgamated u := by
  rw [perform] at h
  cases hu : (amalgamate sources settings dryRun d).result with
  | error x => rw [hu] at h; cases h
  | ok u =>
    rw [hu] at h
    exact ⟨u, rfl, (Except.ok.inj h).symm⟩

theorem perform_unit_error {sources : Category} {settings : AggregateSettings} {x : SyncError} :
    ((Step.unit sources settings).perform dryRun d).result = .error x
      ↔ (amalgamate sources settings dryRun d).result = .error x := by
  rw [perform]
  cases (amalgamate sources settings dryRun d).result <;> simp [Except.map]

end Step

def Category.steps (c : Category) : List Step :=
  .start c :: c.entries.map (.entry c)

/-- The steps of a run over a manifest, in order. -/
def Manifest.agenda (m : Manifest) (source destination : Path) (amalgamate : Bool) : List Step :=
  (m.categories source destination).flatMap Category.steps
    ++ if amalgamate then [.unit (m.category .sources source destination) m.aggregate] else []

/-- How far a list of steps got. -/
structure Course where
  events : List Progress
  failure : Option SyncError
  disk : Disk
  log : List Notice

namespace Course

/-- Goes on from where a list of steps ended, unless it failed. -/
def andThen (a : Course) (next : Disk → Course) : Course :=
  match a.failure with
  | some _ => a
  | none =>
    let b := next a.disk
    ⟨a.events ++ b.events, b.failure, b.disk, a.log ++ b.log⟩

theorem andThen_of_failure {a : Course} {x : SyncError} (h : a.failure = some x)
    (next : Disk → Course) : a.andThen next = a := by
  simp only [andThen, h]

theorem andThen_of_none {a : Course} (h : a.failure = none) (next : Disk → Course) :
    a.andThen next =
      ⟨a.events ++ (next a.disk).events, (next a.disk).failure, (next a.disk).disk,
        a.log ++ (next a.disk).log⟩ := by
  simp only [andThen, h]

theorem andThen_assoc (a : Course) (f g : Disk → Course) :
    (a.andThen f).andThen g = a.andThen fun d => (f d).andThen g := by
  cases ha : a.failure with
  | some x => rw [andThen_of_failure ha, andThen_of_failure ha, andThen_of_failure ha]
  | none =>
    rw [andThen_of_none ha, andThen_of_none ha]
    cases hf : (f a.disk).failure with
    | some x => simp [andThen, hf]
    | none => simp [andThen, hf]

end Course

/-- Does steps one after the other, up to the first error. -/
def follow (dryRun : Bool) : List Step → Disk → Course
  | [], d => ⟨[], none, d, []⟩
  | s :: rest, d =>
    let outcome := s.perform dryRun d
    match outcome.result with
    | .error x => ⟨[], some x, outcome.disk, outcome.log⟩
    | .ok p => (Course.mk [p] none outcome.disk outcome.log).andThen (follow dryRun rest)

section Follow

variable {dryRun : Bool} {s : Step} {rest : List Step} {d : Disk}

theorem follow_cons_error {x : SyncError} (h : (s.perform dryRun d).result = .error x) :
    follow dryRun (s :: rest) d =
      ⟨[], some x, (s.perform dryRun d).disk, (s.perform dryRun d).log⟩ := by
  simp only [follow, h]

theorem follow_cons_ok {p : Progress} (h : (s.perform dryRun d).result = .ok p) :
    follow dryRun (s :: rest) d =
      ⟨p :: (follow dryRun rest (s.perform dryRun d).disk).events,
        (follow dryRun rest (s.perform dryRun d).disk).failure,
        (follow dryRun rest (s.perform dryRun d).disk).disk,
        (s.perform dryRun d).log ++ (follow dryRun rest (s.perform dryRun d).disk).log⟩ := by
  simp only [follow, h, Course.andThen, List.singleton_append]

theorem follow_append (xs ys : List Step) (d : Disk) :
    follow dryRun (xs ++ ys) d = (follow dryRun xs d).andThen (follow dryRun ys) := by
  induction xs generalizing d with
  | nil => simp [follow, Course.andThen]
  | cons s rest ih =>
    cases hs : (s.perform dryRun d).result with
    | error x =>
      rw [List.cons_append, follow_cons_error hs, follow_cons_error hs,
        Course.andThen_of_failure rfl]
    | ok p =>
      rw [List.cons_append, follow, follow]
      simp only [hs]
      rw [Course.andThen_assoc]
      congr 1
      funext d'
      exact ih d'

/-- Steps that succeed hand their disk over to the steps behind them. -/
theorem follow_append_of_none {xs : List Step} (h : (follow dryRun xs d).failure = none)
    (ys : List Step) :
    (follow dryRun (xs ++ ys) d).failure = (follow dryRun ys (follow dryRun xs d).disk).failure
      ∧ (follow dryRun (xs ++ ys) d).disk
        = (follow dryRun ys (follow dryRun xs d).disk).disk := by
  rw [follow_append, Course.andThen_of_none h]
  exact ⟨rfl, rfl⟩

theorem follow_append_of_failure {xs : List Step} {x : SyncError}
    (h : (follow dryRun xs d).failure = some x) (ys : List Step) :
    follow dryRun (xs ++ ys) d = follow dryRun xs d := by
  rw [follow_append, Course.andThen_of_failure h]

theorem failure_of_append {xs ys : List Step} (h : (follow dryRun (xs ++ ys) d).failure = none) :
    (follow dryRun xs d).failure = none := by
  cases hxs : (follow dryRun xs d).failure with
  | none => rfl
  | some x => rw [follow_append_of_failure hxs, hxs] at h; cases h

/-- One step, followed. -/
theorem follow_singleton_ok (h : (follow dryRun [s] d).failure = none) :
    (∃ p, (s.perform dryRun d).result = .ok p)
      ∧ (follow dryRun [s] d).disk = (s.perform dryRun d).disk := by
  cases hs : (s.perform dryRun d).result with
  | error x => rw [follow_cons_error hs] at h; cases h
  | ok p =>
    rw [follow_cons_ok hs]
    exact ⟨⟨p, rfl⟩, rfl⟩

end Follow

/-! ## The loops of a run -/

/-- What is left of a run without its report. -/
def Run.course {α : Type} (r : Run α) : Course where
  events := r.events
  failure := match r.result with
    | .error x => some x
    | .ok _ => none
  disk := r.disk
  log := r.log

theorem follow_entries (c : Category) (dryRun : Bool) (entries : List Entry) (d : Disk) :
    follow dryRun (entries.map (.entry c)) d =
      ⟨(syncEntries c dryRun entries d).writes.map fun w => .entry c.kind w.1 w.2,
        (syncEntries c dryRun entries d).failure, (syncEntries c dryRun entries d).disk,
        (syncEntries c dryRun entries d).log⟩ := by
  induction entries generalizing d with
  | nil => rfl
  | cons e rest ih =>
    rw [List.map_cons]
    cases he : (syncEntry c e dryRun d).result with
    | error x =>
      rw [follow_cons_error (Step.perform_entry_error.mpr he)]
      simp [syncEntries, he, Step.perform]
    | ok w =>
      rw [follow_cons_ok (Step.perform_entry_ok he), show ((Step.entry c e).perform dryRun d).disk
        = (syncEntry c e dryRun d).disk from rfl, ih]
      simp [syncEntries, he, Step.perform]

theorem runCategories_course (dryRun : Bool) (categories : List Category) (d : Disk) :
    (runCategories dryRun categories d).course =
      follow dryRun (categories.flatMap Category.steps) d := by
  induction categories generalizing d with
  | nil => rfl
  | cons c rest ih =>
    rw [List.flatMap_cons, follow_append]
    have hstart : ((Step.start c).perform dryRun d).result = .ok (.started c) := rfl
    rw [Category.steps, follow_cons_ok hstart, follow_entries]
    simp only [runCategories, syncCategory, Step.perform]
    cases hf : (syncEntries c dryRun c.entries d).failure with
    | some x => simp [Run.course, Course.andThen]
    | none =>
      rw [Course.andThen_of_none rfl, ← ih]
      simp only [Run.course, List.nil_append]
      cases (runCategories dryRun rest (syncEntries c dryRun c.entries d).disk).result <;> rfl

/-- A run of a valid manifest is its agenda followed. -/
theorem run_course {m : Manifest} (hvalid : m.invalid? = none) (source destination : Path)
    (options : RunOptions) (d : Disk) :
    (run m source destination options d).course =
      follow options.dryRun (m.agenda source destination options.amalgamate) d := by
  rw [Manifest.agenda, follow_append, ← runCategories_course]
  simp only [run, hvalid]
  cases hc : (runCategories options.dryRun (m.categories source destination) d).result with
  | error x => simp [Run.course, Course.andThen, hc]
  | ok done =>
    rw [Course.andThen_of_none (by simp [Run.course, hc])]
    cases options.amalgamate with
    | false => simp [Run.course, hc, follow]
    | true =>
      simp only [if_true, runAggregate, Run.course]
      cases hu : (amalgamate (m.category .sources source destination) m.aggregate options.dryRun
          (runCategories options.dryRun (m.categories source destination) d).disk).result with
      | error x =>
        rw [follow_cons_error (Step.perform_unit_error.mpr hu)]
        simp [Step.perform]
      | ok r =>
        rw [follow_cons_ok (Step.perform_unit_ok hu)]
        simp [Step.perform, follow]

theorem run_eq_ok_iff {m : Manifest} (hvalid : m.invalid? = none) {source destination : Path}
    {options : RunOptions} {d : Disk} :
    (∃ report, (run m source destination options d).result = .ok report) ↔
      (follow options.dryRun (m.agenda source destination options.amalgamate) d).failure
        = none := by
  rw [← run_course hvalid source destination options d, Run.course]
  cases (run m source destination options d).result <;> simp

theorem run_disk {m : Manifest} (hvalid : m.invalid? = none) (source destination : Path)
    (options : RunOptions) (d : Disk) :
    (run m source destination options d).disk =
      (follow options.dryRun (m.agenda source destination options.amalgamate) d).disk :=
  congrArg Course.disk (run_course hvalid source destination options d)

end Vendoring
