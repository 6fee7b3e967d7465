import Mathlib.Logic.ExistsUnique
import Vendoring.Proofs.Agenda

/-!
# Where a run stops

A run that ends in an error stops at one step of its agenda. `StopsAt` says
what that means: the steps in front of it are done and reported, each from
the disk that those before it left, the step itself gave the error, and no
later step touched the disk. `stopsAt_follow` finds the step by induction
over the agenda.

That a missing source leaves nothing behind, not even a directory, needs one
fact about the steps alone: replacing a file fails with an error of the file
system, so a missing source is found before anything is changed.
-/

namespace Vendoring

/-! ## Errors of one step -/

section Errors

variable {d : Disk} {x : SyncError} {p : Path}

theorem failAt_eq_error {α : Type} {r : Except FileFault α} (h : failAt p r = .error x) :
    ∃ f, x = .io p f := by
  cases r with
  | ok a => cases h
  | error f => exact ⟨f, (Except.error.inj h).symm⟩

theorem createParent_eq_error (h : (d.createParent p).1 = .error x) : ∃ q f, x = .io q f := by
  unfold Disk.createParent at h
  split at h
  · cases h
  · next up _ =>
    obtain ⟨f, hf⟩ := failAt_eq_error h
    exact ⟨up, f, hf⟩

theorem commit_eq_error {tmp : Path} (h : (d.commit tmp p).1 = .error x) : ∃ q f, x = .io q f := by
  unfold Disk.commit at h
  split at h
  · cases h
  · next f _ _ => exact ⟨p, f, (Except.error.inj h).symm⟩

theorem replaceByCopy_eq_error {source : Path} (h : (d.replaceByCopy source p).1 = .error x) :
    ∃ q f, x = .io q f := by
  unfold Disk.replaceByCopy at h
  split at h
  · next hparent =>
    obtain rfl := Except.error.inj h
    exact createParent_eq_error (congrArg Prod.fst hparent)
  · simp only at h
    split at h
    · next f _ _ => exact ⟨source, f, (Except.error.inj h).symm⟩
    · exact commit_eq_error h

theorem replaceByText_eq_error {bytes : ByteArray} (h : (d.replaceByText p bytes).1 = .error x) :
    ∃ q f, x = .io q f := by
  unfold Disk.replaceByText at h
  split at h
  · next hparent =>
    obtain rfl := Except.error.inj h
    exact createParent_eq_error (congrArg Prod.fst hparent)
  · simp only at h
    split at h
    · next hparent =>
      obtain rfl := Except.error.inj h
      exact createParent_eq_error (congrArg Prod.fst hparent)
    · split at h
      · next f _ _ => exact ⟨Disk.temporary p, f, (Except.error.inj h).symm⟩
      · exact commit_eq_error h

end Errors

/-- A source is missed before anything is changed. -/
theorem syncEntry_disk_of_missingSource {c : Category} {e : Entry} {dryRun : Bool} {d : Disk}
    {kind : Kind} {e' : Entry} {p : Path}
    (h : (syncEntry c e dryRun d).result = .error (.missingSource kind e' p)) :
    (syncEntry c e dryRun d).disk = d := by
  cases decision c e d with
  | refused x hrefused _ => rw [hrefused dryRun]
  | current hsynced => rw [syncEntry_of_synced dryRun hsynced]
  | different hs hid =>
    cases dryRun with
    | true => rw [syncEntry_of_different_dry hs hid]
    | false =>
      obtain ⟨q, f, hx⟩ := replaceByCopy_eq_error ((syncEntry_of_different_error_iff hs hid).mp h)
      cases hx

theorem amalgamate_dryRun_disk (sources : Category) (settings : AggregateSettings) (d : Disk) :
    (amalgamate sources settings true d).disk = d := by
  unfold amalgamate
  simp only [if_true]
  split <;> rfl

theorem amalgamate_disk_of_missingSource {sources : Category} {settings : AggregateSettings}
    {dryRun : Bool} {d : Disk} {kind : Kind} {e : Entry} {p : Path}
    (h : (amalgamate sources settings dryRun d).result = .error (.missingSource kind e p)) :
    (amalgamate sources settings dryRun d).disk = d := by
  cases dryRun with
  | true => exact amalgamate_dryRun_disk sources settings d
  | false =>
    cases hcheck : checkSynchronized sources d with
    | error x => rw [amalgamate_of_unsynchronized hcheck]
    | ok _ =>
      obtain ⟨q, f, hx⟩ := replaceByText_eq_error
        ((amalgamate_of_synchronized_error_iff settings hcheck).mp h)
      cases hx

theorem Step.perform_disk_of_missingSource {s : Step} {dryRun : Bool} {d : Disk} {kind : Kind}
    {e : Entry} {p : Path} (h : (s.perform dryRun d).result = .error (.missingSource kind e p)) :
    (s.perform dryRun d).disk = d := by
  cases s with
  | start c => rfl
  | entry c e' => exact syncEntry_disk_of_missingSource (Step.perform_entry_error.mp h)
  | unit sources settings =>
    exact amalgamate_disk_of_missingSource (Step.perform_unit_error.mp h)

/-! ## The step at which a run stops -/

/-- The disk that the first `k` steps leave. -/
def diskAfter (dryRun : Bool) (steps : List Step) (d : Disk) (k : Nat) : Disk :=
  (steps.take k).foldl (fun d s => (s.perform dryRun d).disk) d

/-- Beginning a category cannot fail, so an error belongs to an entry or to
the unit. -/
def Step.isItem : Step → Bool
  | .start _ => false
  | _ => true

/-- Steps stop with the error `x` at step `k`. -/
structure StopsAt (dryRun : Bool) (steps : List Step) (d : Disk) (x : SyncError) (c : Course)
    (k : Nat) : Prop where
  done : ∀ i < k, ∃ s p, steps[i]? = some s
    ∧ (s.perform dryRun (diskAfter dryRun steps d i)).result = .ok p ∧ c.events[i]? = some p
  told : c.events.length = k
  failing : ∃ s, steps[k]? = some s ∧ s.isItem = true
    ∧ (s.perform dryRun (diskAfter dryRun steps d k)).result = .error x
  left : c.disk = diskAfter dryRun steps d (k + 1)
  untouched : ∀ kind e p, x = .missingSource kind e p → c.disk = diskAfter dryRun steps d k

theorem stopsAt_follow {dryRun : Bool} {x : SyncError} {steps : List Step} {d : Disk}
    (h : (follow dryRun steps d).failure = some x) :
    ∃ k, StopsAt dryRun steps d x (follow dryRun steps d) k := by
  induction steps generalizing d with
  | nil => cases h
  | cons s rest ih =>
    cases hs : (s.perform dryRun d).result with
    | error y =>
      rw [follow_cons_error hs] at h ⊢
      obtain rfl := Option.some.inj h
      refine ⟨0, ?_, rfl, ⟨s, rfl, ?_, hs⟩, rfl, ?_⟩
      · intro i hi
        exact absurd hi (Nat.not_lt_zero i)
      · cases s with
        | start c => cases hs
        | entry c e => rfl
        | unit sources settings => rfl
      · rintro kind e p rfl
        exact Step.perform_disk_of_missingSource hs
    | ok p =>
      rw [follow_cons_ok hs] at h ⊢
      obtain ⟨k, hk⟩ := ih h
      refine ⟨k + 1, ?_, ?_, hk.failing, hk.left, hk.untouched⟩
      · intro i hi
        cases i with
        | zero => exact ⟨s, p, rfl, hs, rfl⟩
        | succ i => exact hk.done i (Nat.lt_of_succ_lt_succ hi)
      · rw [List.length_cons, hk.told]

/-- A run that fails stops at exactly one step of its agenda: what is
reported is what the steps before it gave, in order, and the disk is the one
that they and the failing step leave, or they alone if a source was missing.
An invalid manifest is refused before the first step. -/
theorem failed_run_stops_at_one_step (m : Manifest) (source destination : Path)
    (options : RunOptions) (d : Disk) :
    (m.invalid? = none → ∀ x, (run m source destination options d).result = .error x →
      ∃! k, StopsAt options.dryRun (m.agenda source destination options.amalgamate) d x
        (run m source destination options d).course k)
    ∧ (∀ reason, m.invalid? = some reason →
      (run m source destination options d).result = .error (.manifest (.invalid reason))
      ∧ (run m source destination options d).events = []
      ∧ (run m source destination options d).disk = d) := by
  constructor
  · intro hvalid x hx
    have hfail : (run m source destination options d).course.failure = some x := by
      simp only [Run.course, hx]
    rw [run_course hvalid] at hfail ⊢
    obtain ⟨k, hk⟩ := stopsAt_follow hfail
    refine ⟨k, hk, fun k' hk' => ?_⟩
    rw [← hk'.told, hk.told]
  · intro reason hreason
    simp [run, hreason]

/-! A manifest with two sources, of which only the first is there, and the
same one with an entry that leads out of its category. -/

def halfSupplied : Manifest where
  aggregate := {}
  headers := ⟨⟨"inc"⟩, ⟨"include"⟩, [⟨"a.h"⟩]⟩
  sources := ⟨⟨"src"⟩, ⟨"lib"⟩, [⟨"x.cpp"⟩, ⟨"y.cpp"⟩]⟩
  tests := ⟨⟨"t"⟩, ⟨"tests"⟩, [⟨"z.cpp"⟩]⟩

def halfSuppliedDisk : Disk where
  tree := ((((FileTree.empty.put ["up"] .directory).put ["inc", "up"] .directory).put
    ["a.h", "inc", "up"] (.file "h".toUTF8 0o644)).put ["src", "up"] .directory).put
    ["x.cpp", "src", "up"] (.file "x".toUTF8 0o644)
  here := []

def ledOut : Manifest :=
  { halfSupplied with tests := ⟨⟨"t"⟩, ⟨"tests"⟩, [⟨"../z.cpp"⟩]⟩ }

def halfSuppliedRun : Run RunReport :=
  run halfSupplied ⟨"up"⟩ ⟨"out"⟩ ⟨false, true⟩ halfSuppliedDisk

/-- The source that it misses. -/
def unsupplied : SyncError :=
  .missingSource .sources ⟨"y.cpp"⟩ ⟨"up/src/y.cpp"⟩

theorem half_supplied_run_stops :
    halfSuppliedRun.result = .error unsupplied
      ∧ StopsAt false (halfSupplied.agenda ⟨"up"⟩ ⟨"out"⟩ true) halfSuppliedDisk unsupplied
        halfSuppliedRun.course 4
      ∧ (run ledOut ⟨"up"⟩ ⟨"out"⟩ ⟨false, true⟩ halfSuppliedDisk).disk = halfSuppliedDisk := by
  have hfailure : halfSuppliedRun.course.failure = some unsupplied := by decide +kernel
  have htold : halfSuppliedRun.course.events.length = 4 := by decide +kernel
  have hresult : halfSuppliedRun.result = .error unsupplied := by
    cases hr : halfSuppliedRun.result with
    | ok report => simp [Run.course, hr] at hfailure
    | error x =>
      simp only [Run.course, hr] at hfailure
      rw [Option.some.inj hfailure]
  obtain ⟨k, hk, -⟩ := (failed_run_stops_at_one_step halfSupplied ⟨"up"⟩ ⟨"out"⟩ ⟨false, true⟩
    halfSuppliedDisk).1 (by decide +kernel) unsupplied hresult
  obtain rfl : k = 4 := hk.told.symm.trans htold
  obtain ⟨-, -, hdisk⟩ := (failed_run_stops_at_one_step ledOut ⟨"up"⟩ ⟨"out"⟩ ⟨false, true⟩
    halfSuppliedDisk).2 (.entry .tests ⟨"../z.cpp"⟩ .dotSegment) (by decide +kernel)
  exact ⟨hresult, hk, hdisk⟩

end Vendoring
