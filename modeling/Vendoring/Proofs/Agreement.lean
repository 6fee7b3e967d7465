import Vendoring.Proofs.Deciding

/-!
# Status, dry run and differences agree

Three readers classify an entry on their own: `entryState` for the status,
`syncEntry` in a dry run, and `entryDifference` for the patches.
`forecast` is what a state means for a dry run, and `syncEntry_dryRun` says
that a dry run is nothing else: it gives the forecast of the state and leaves
the disk alone. The list of differences and the list of results then run in
step (`entryDifferences_eq_ok`, `entryDifferences_eq_error_iff`).

The readers part at one place only. A destination that is a directory is
missing to the status and would be written to a dry run, while a patch needs
its bytes and fails.
-/

namespace Vendoring

/-! ## One entry -/

/-- What a dry run does about an entry in a given state. -/
def forecast (c : Category) (e : Entry) : EntryState → Except SyncError WriteResult
  | .current => .ok (.unchanged (c.destinationPath e))
  | .outdated => .ok (.wouldWrite (c.destinationPath e))
  | .missing => .ok (.wouldWrite (c.destinationPath e))
  | .sourceMissing => .error (.missingSource c.kind e (c.sourcePath e))

/-- A dry run of one entry is the forecast of its state, and leaves the disk
alone. -/
theorem syncEntry_dryRun (c : Category) (e : Entry) (d : Disk) :
    (syncEntry c e true d).result = (entryState c e d).bind (forecast c e)
      ∧ (syncEntry c e true d).disk = d := by
  cases Disk.found d (c.sourcePath e) (c.destinationPath e) with
  | sourceError x hs =>
    rw [syncEntry_of_source_error true hs, entryState_of_source_error hs]
    exact ⟨rfl, rfl⟩
  | noSource hs =>
    rw [syncEntry_of_no_source true hs, entryState_of_no_source hs]
    exact ⟨rfl, rfl⟩
  | destinationError x hs hd =>
    rw [syncEntry_of_destination_error true hs hd, entryState_of_destination_error hs hd]
    exact ⟨rfl, rfl⟩
  | noDestination hs hd =>
    rw [syncEntry_of_different_dry hs (Disk.identical?_of_not_file hd),
      entryState_of_no_destination hs hd]
    exact ⟨rfl, rfl⟩
  | files a b mode mode' hs hd =>
    by_cases hab : a = b
    · subst hab
      rw [syncEntry_of_current true hs hd, entryState_of_files hs hd, if_pos rfl]
      exact ⟨rfl, rfl⟩
    · have hid := Disk.identical?_of_files hs hd
      rw [decide_eq_false hab] at hid
      rw [syncEntry_of_different_dry (Disk.isFile?_of_file hs) hid,
        entryState_of_files hs hd, if_neg hab]
      exact ⟨rfl, rfl⟩

/-- The errors of a status are errors of the file system. -/
theorem entryState_eq_error {c : Category} {e : Entry} {d : Disk} {x : SyncError}
    (h : entryState c e d = .error x) : ∃ p f, x = .io p f := by
  cases Disk.found d (c.sourcePath e) (c.destinationPath e) with
  | sourceError y hs =>
    rw [entryState_of_source_error hs] at h
    obtain ⟨f, hf⟩ := Disk.isFile?_eq_error hs
    exact ⟨_, f, (Except.error.inj h).symm.trans hf⟩
  | noSource hs => rw [entryState_of_no_source hs] at h; cases h
  | destinationError y hs hd =>
    rw [entryState_of_destination_error hs hd] at h
    obtain ⟨f, hf⟩ := Disk.isFile?_eq_error hd
    exact ⟨_, f, (Except.error.inj h).symm.trans hf⟩
  | noDestination hs hd => rw [entryState_of_no_destination hs hd] at h; cases h
  | files a b mode mode' hs hd => rw [entryState_of_files hs hd] at h; cases h

/-- A real run leaves a file alone exactly when it is current. -/
theorem syncEntry_real_unchanged_iff {c : Category} {e : Entry} {d : Disk} :
    (∃ p, (syncEntry c e false d).result = .ok (.unchanged p)) ↔
      entryState c e d = .ok .current := by
  have different (hs : d.isFile? (c.sourcePath e) = .ok true)
      (hid : d.identical? (c.sourcePath e) (c.destinationPath e) = .ok false) :
      ¬∃ p, (syncEntry c e false d).result = .ok (.unchanged p) := by
    rintro ⟨p, hp⟩
    cases ((syncEntry_of_different_ok_iff hs hid).mp hp).1
  cases Disk.found d (c.sourcePath e) (c.destinationPath e) with
  | sourceError x hs =>
    simp [syncEntry_of_source_error false hs, entryState_of_source_error hs]
  | noSource hs => simp [syncEntry_of_no_source false hs, entryState_of_no_source hs]
  | destinationError x hs hd =>
    simp [syncEntry_of_destination_error false hs hd, entryState_of_destination_error hs hd]
  | noDestination hs hd =>
    have := different hs (Disk.identical?_of_not_file hd)
    simp [this, entryState_of_no_destination hs hd]
  | files a b mode mode' hs hd =>
    by_cases hab : a = b
    · subst hab
      simp [syncEntry_of_current false hs hd, entryState_of_files hs hd]
    · have hid := Disk.identical?_of_files hs hd
      rw [decide_eq_false hab] at hid
      have := different (Disk.isFile?_of_file hs) hid
      simp [this, entryState_of_files hs hd, hab]

/-! ## One entry in a list of differences -/

/-- The file that a dry run announces to write. -/
def WriteResult.announced? : WriteResult → Option Path
  | .wouldWrite p => some p
  | _ => none

/-- An entry that is not current is read on both sides. -/
theorem entryDifference_of_changed {c : Category} {e : Entry} {d : Disk} (root : Path)
    (h : entryState c e d = .ok .outdated ∨ entryState c e d = .ok .missing) :
    entryDifference c root e d =
      (readOrEmpty d (c.destinationPath e)).bind fun old =>
        (readOrEmpty d (c.sourcePath e)).bind fun new =>
          .ok [⟨c.destinationPath e,
            patchText (patchName (c.destinationPath e) root) old new⟩] := by
  unfold entryDifference
  rcases h with h | h <;> rw [h] <;> rfl

/-- A difference is found where a dry run would write. -/
theorem entryDifference_eq_ok {c : Category} {e : Entry} {root : Path} {d : Disk}
    {diffs : List FileDifference} (h : entryDifference c root e d = .ok diffs) :
    ∃ w, (syncEntry c e true d).result = .ok w
      ∧ diffs.map FileDifference.path = w.announced?.toList := by
  have changed (hstate : entryState c e d = .ok .outdated ∨ entryState c e d = .ok .missing) :
      diffs.map FileDifference.path = [c.destinationPath e] := by
    rw [entryDifference_of_changed root hstate] at h
    cases hold : readOrEmpty d (c.destinationPath e) with
    | error x => rw [hold] at h; cases h
    | ok old =>
      cases hnew : readOrEmpty d (c.sourcePath e) with
      | error x => rw [hold, hnew] at h; cases h
      | ok new =>
        rw [hold, hnew] at h
        obtain rfl := Except.ok.inj h
        rfl
  rw [(syncEntry_dryRun c e d).1]
  cases hstate : entryState c e d with
  | error x => rw [entryDifference, hstate] at h; cases h
  | ok state =>
    cases state with
    | current =>
      rw [entryDifference, hstate] at h
      obtain rfl := Except.ok.inj h
      exact ⟨_, rfl, rfl⟩
    | sourceMissing => rw [entryDifference, hstate] at h; cases h
    | outdated => exact ⟨_, rfl, changed (Or.inl hstate)⟩
    | missing => exact ⟨_, rfl, changed (Or.inr hstate)⟩

/-- Where no directory stands at the destination, a patch fails as a dry run
does. -/
theorem entryDifference_eq_error_iff {c : Category} {e : Entry} {d : Disk} (root : Path)
    (hdir : d.isDirectory (c.destinationPath e) = false) (x : SyncError) :
    entryDifference c root e d = .error x ↔ (syncEntry c e true d).result = .error x := by
  rw [(syncEntry_dryRun c e d).1]
  cases Disk.found d (c.sourcePath e) (c.destinationPath e) with
  | sourceError y hs =>
    simp [entryDifference, entryState_of_source_error hs, bind, Except.bind]
  | noSource hs =>
    simp [entryDifference, entryState_of_no_source hs, forecast, bind, Except.bind]
  | destinationError y hs hd =>
    simp [entryDifference, entryState_of_destination_error hs hd, bind, Except.bind]
  | noDestination hs hd =>
    obtain ⟨a, mode, ha⟩ := Disk.isFile?_eq_true_iff.mp hs
    have hstate := entryState_of_no_destination hs hd
    rw [entryDifference_of_changed root (Or.inr hstate), hstate,
      Disk.readOrEmpty_of_not_file hd hdir, Disk.readOrEmpty_of_file ha]
    simp [forecast, Except.bind]
  | files a b mode mode' hs hd =>
    have hstate := entryState_of_files hs hd
    by_cases hab : a = b
    · simp [entryDifference, hstate, hab, forecast, bind, Except.bind, pure, Except.pure]
    · rw [if_neg hab] at hstate
      rw [entryDifference_of_changed root (Or.inl hstate), hstate,
        Disk.readOrEmpty_of_file hs, Disk.readOrEmpty_of_file hd]
      simp [forecast, Except.bind]

/-! ## Lists -/

theorem syncEntries_cons_ok {c : Category} {dryRun : Bool} {e : Entry} {d : Disk}
    {w : WriteResult} (rest : List Entry) (h : (syncEntry c e dryRun d).result = .ok w) :
    (syncEntries c dryRun (e :: rest) d).writes =
        (e, w) :: (syncEntries c dryRun rest (syncEntry c e dryRun d).disk).writes
      ∧ (syncEntries c dryRun (e :: rest) d).failure =
        (syncEntries c dryRun rest (syncEntry c e dryRun d).disk).failure := by
  simp only [syncEntries, h, and_self]

theorem syncEntries_cons_error {c : Category} {dryRun : Bool} {e : Entry} {rest : List Entry}
    {d : Disk} {x : SyncError} (h : (syncEntry c e dryRun d).result = .error x) :
    (syncEntries c dryRun (e :: rest) d).failure = some x := by
  simp only [syncEntries, h]

theorem entryDifferences_eq_ok {c : Category} {root : Path} {d : Disk} :
    ∀ {entries : List Entry} {diffs : List FileDifference},
      entryDifferences c root d entries = .ok diffs →
      (syncEntries c true entries d).failure = none
        ∧ diffs.map FileDifference.path =
          (syncEntries c true entries d).writes.filterMap fun w => w.2.announced?
  | [], diffs, h => by
    obtain rfl := Except.ok.inj h
    exact ⟨rfl, rfl⟩
  | e :: rest, diffs, h => by
    cases hone : entryDifference c root e d with
    | error x => rw [entryDifferences, hone] at h; cases h
    | ok one =>
      cases hmore : entryDifferences c root d rest with
      | error x => rw [entryDifferences, hone, hmore] at h; cases h
      | ok more =>
        rw [entryDifferences, hone, hmore] at h
        obtain rfl := Except.ok.inj h
        obtain ⟨w, hw, hpaths⟩ := entryDifference_eq_ok hone
        obtain ⟨hfailure, hrest⟩ := entryDifferences_eq_ok hmore
        obtain ⟨hwrites, hfail⟩ := syncEntries_cons_ok rest hw
        rw [(syncEntry_dryRun c e d).2] at hwrites hfail
        refine ⟨hfail.trans hfailure, ?_⟩
        rw [List.map_append, hpaths, hrest, hwrites]
        cases hann : w.announced? <;> simp [hann]

theorem entryDifferences_eq_error_iff {c : Category} {d : Disk} {x : SyncError} (root : Path) :
    ∀ {entries : List Entry},
      (∀ e ∈ entries, d.isDirectory (c.destinationPath e) = false) →
      (entryDifferences c root d entries = .error x ↔
        (syncEntries c true entries d).failure = some x)
  | [], _ => by simp [entryDifferences, syncEntries]
  | e :: rest, hdir => by
    have hone := entryDifference_eq_error_iff root (hdir e (List.mem_cons_self ..))
    have hmore := entryDifferences_eq_error_iff (x := x) root
      (fun e' he' => hdir e' (List.mem_cons_of_mem _ he'))
    cases hdiff : entryDifference c root e d with
    | error y =>
      rw [syncEntries_cons_error ((hone y).mp hdiff), entryDifferences, hdiff]
      simp [bind, Except.bind]
    | ok one =>
      obtain ⟨w, hw, _⟩ := entryDifference_eq_ok hdiff
      obtain ⟨_, hfail⟩ := syncEntries_cons_ok rest hw
      rw [hfail, (syncEntry_dryRun c e d).2, ← hmore, entryDifferences, hdiff]
      cases entryDifferences c root d rest <;> simp [bind, Except.bind, pure, Except.pure]

/-- Status, dry run and differences tell the same story of every entry, and
the list of differences that of a dry run over the whole category: the paths
that it would write, in its order, or its very error. -/
theorem readers_agree (c : Category) (root : Path) (d : Disk) :
    (∀ e : Entry,
      (entryState c e d = .ok .current ↔
        ∃ p, (syncEntry c e true d).result = .ok (.unchanged p))
      ∧ ((entryState c e d = .ok .outdated ∨ entryState c e d = .ok .missing) ↔
        ∃ p, (syncEntry c e true d).result = .ok (.wouldWrite p))
      ∧ (entryState c e d = .ok .sourceMissing ↔
        ∃ kind e' p, (syncEntry c e true d).result = .error (.missingSource kind e' p))
      ∧ (∀ p f, entryState c e d = .error (.io p f) ↔
        (syncEntry c e true d).result = .error (.io p f))
      ∧ ((∃ p, (syncEntry c e false d).result = .ok (.unchanged p)) ↔
        entryState c e d = .ok .current))
    ∧ (∀ diffs, categoryDifferences c root d = .ok diffs →
      (syncCategory c true d).failure = none
      ∧ diffs.map FileDifference.path =
        (syncCategory c true d).writes.filterMap fun w => w.2.announced?)
    ∧ ((∀ e ∈ c.entries, d.isDirectory (c.destinationPath e) = false) →
      ∀ x, categoryDifferences c root d = .error x ↔
        (syncCategory c true d).failure = some x) := by
  refine ⟨fun e => ?_, fun diffs => entryDifferences_eq_ok,
    fun hdir x => entryDifferences_eq_error_iff root hdir⟩
  rw [(syncEntry_dryRun c e d).1]
  refine ⟨?_, ?_, ?_, ?_, syncEntry_real_unchanged_iff⟩
  all_goals
    cases hstate : entryState c e d with
    | error x =>
      obtain ⟨p, f, rfl⟩ := entryState_eq_error hstate
      simp [Except.bind]
    | ok state => cases state <;> simp [forecast, Except.bind]

/-! Headers of which one is vendored as it is, one differs and one is still
to come, and the same ones with a header that has no source. -/

def partlyVendored : Category :=
  ⟨.headers, ⟨"up/inc"⟩, ⟨"out/include"⟩, [⟨"a.h"⟩, ⟨"b.h"⟩, ⟨"c.h"⟩]⟩

def oversupplied : Category :=
  { partlyVendored with entries := [⟨"b.h"⟩, ⟨"d.h"⟩] }

def partlyVendoredDisk : Disk where
  tree := ((((((((FileTree.empty.put ["up"] .directory).put ["inc", "up"] .directory).put
    ["a.h", "inc", "up"] (.file "a".toUTF8 0o644)).put
    ["b.h", "inc", "up"] (.file "b".toUTF8 0o644)).put
    ["c.h", "inc", "up"] (.file "c".toUTF8 0o644)).put
    ["out"] .directory).put ["include", "out"] .directory).put
    ["a.h", "include", "out"] (.file "a".toUTF8 0o644)).put
    ["b.h", "include", "out"] (.file "old".toUTF8 0o644)
  here := []

theorem partly_vendored_readers_agree :
    (∃ diffs, categoryDifferences partlyVendored ⟨"out"⟩ partlyVendoredDisk = .ok diffs
      ∧ (syncCategory partlyVendored true partlyVendoredDisk).failure = none
      ∧ diffs.map FileDifference.path = [⟨"out/include/b.h"⟩, ⟨"out/include/c.h"⟩])
    ∧ categoryDifferences oversupplied ⟨"out"⟩ partlyVendoredDisk
      = .error (.missingSource .headers ⟨"d.h"⟩ ⟨"up/inc/d.h"⟩) := by
  have hsome : (categoryDifferences partlyVendored ⟨"out"⟩ partlyVendoredDisk).toOption.isSome
      = true := by decide +kernel
  constructor
  · cases hdiffs : categoryDifferences partlyVendored ⟨"out"⟩ partlyVendoredDisk with
    | error x => rw [hdiffs] at hsome; cases hsome
    | ok diffs =>
      obtain ⟨hfailure, hpaths⟩ :=
        (readers_agree partlyVendored ⟨"out"⟩ partlyVendoredDisk).2.1 diffs hdiffs
      exact ⟨diffs, rfl, hfailure, hpaths.trans (by decide +kernel)⟩
  · exact ((readers_agree oversupplied ⟨"out"⟩ partlyVendoredDisk).2.2 (by decide +kernel) _).mpr
      (by decide +kernel)

end Vendoring
