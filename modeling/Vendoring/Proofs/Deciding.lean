import Vendoring.Proofs.Looking

/-!
# What is decided about one entry

`entryState` and `syncEntry`, one lemma for each of the things that can be
found at the two paths of an entry (`Disk.Found`). Nothing else needs their
text: whoever reads a status goes through these lemmas, and whoever follows a
run through `decision`, which is what they come to there. The unit has one
thing to be decided, whether its sources are synchronized.
-/

namespace Vendoring

variable {c : Category} {e : Entry} {d : Disk}

/-! ## In a status -/

theorem entryState_of_source_error {x : SyncError} (h : d.isFile? (c.sourcePath e) = .error x) :
    entryState c e d = .error x := by
  simp [entryState, h, bind, Except.bind]

theorem entryState_of_no_source (h : d.isFile? (c.sourcePath e) = .ok false) :
    entryState c e d = .ok .sourceMissing := by
  simp [entryState, h, bind, Except.bind, pure, Except.pure]

theorem entryState_of_destination_error {x : SyncError}
    (hs : d.isFile? (c.sourcePath e) = .ok true)
    (hd : d.isFile? (c.destinationPath e) = .error x) : entryState c e d = .error x := by
  simp [entryState, hs, hd, bind, Except.bind]

theorem entryState_of_no_destination (hs : d.isFile? (c.sourcePath e) = .ok true)
    (hd : d.isFile? (c.destinationPath e) = .ok false) :
    entryState c e d = .ok .missing := by
  simp [entryState, hs, hd, bind, Except.bind, pure, Except.pure]

theorem entryState_of_files {a b : ByteArray} {mode mode' : Nat}
    (hs : d.node? (c.sourcePath e) = .ok (.file a mode))
    (hd : d.node? (c.destinationPath e) = .ok (.file b mode')) :
    entryState c e d = .ok (if a = b then .current else .outdated) := by
  have hs' := Disk.isFile?_of_file hs
  have hd' := Disk.isFile?_of_file hd
  by_cases hab : a = b <;>
    simp [entryState, hs', hd', Disk.identical?_of_files hs hd, hab, bind, Except.bind,
      pure, Except.pure]

/-! ## In a run -/

theorem syncEntry_of_source_error {x : SyncError} (dryRun : Bool)
    (h : d.isFile? (c.sourcePath e) = .error x) : syncEntry c e dryRun d = ⟨.error x, d, []⟩ := by
  have hr := Disk.requireSource_of_error c.kind e h
  unfold syncEntry
  simp only [hr]

theorem syncEntry_of_no_source (dryRun : Bool) (h : d.isFile? (c.sourcePath e) = .ok false) :
    syncEntry c e dryRun d = ⟨.error (.missingSource c.kind e (c.sourcePath e)), d, []⟩ := by
  have hr := Disk.requireSource_of_not_file c.kind e h
  unfold syncEntry
  simp only [hr]

theorem syncEntry_of_destination_error {x : SyncError} (dryRun : Bool)
    (hs : d.isFile? (c.sourcePath e) = .ok true)
    (hd : d.isFile? (c.destinationPath e) = .error x) :
    syncEntry c e dryRun d = ⟨.error x, d, []⟩ := by
  have hr := Disk.requireSource_of_file c.kind e hs
  have hid : d.identical? (c.sourcePath e) (c.destinationPath e) = .error x :=
    Disk.identical?_of_error hd
  unfold syncEntry
  simp only [hr, hid]

/-- A destination that holds the bytes of the source is left alone. -/
theorem syncEntry_of_current {bytes : ByteArray} {mode mode' : Nat} (dryRun : Bool)
    (hs : d.node? (c.sourcePath e) = .ok (.file bytes mode))
    (hd : d.node? (c.destinationPath e) = .ok (.file bytes mode')) :
    syncEntry c e dryRun d =
      ⟨.ok (.unchanged (c.destinationPath e)), d, [.unchanged (c.destinationPath e)]⟩ := by
  have hid := Disk.identical?_of_files hs hd
  rw [decide_eq_true rfl] at hid
  have hr := Disk.requireSource_of_file c.kind e (Disk.isFile?_of_file hs)
  unfold syncEntry
  simp only [hr, hid]

section Different

variable (hs : d.isFile? (c.sourcePath e) = .ok true)
  (hid : d.identical? (c.sourcePath e) (c.destinationPath e) = .ok false)

include hs hid

theorem syncEntry_of_different_dry : syncEntry c e true d =
    ⟨.ok (.wouldWrite (c.destinationPath e)), d, [.wouldCopy (c.destinationPath e)]⟩ := by
  have hr := Disk.requireSource_of_file c.kind e hs
  unfold syncEntry
  simp only [hr, hid, if_true]

theorem syncEntry_of_different_disk : (syncEntry c e false d).disk =
    (d.replaceByCopy (c.sourcePath e) (c.destinationPath e)).2 := by
  have hr := Disk.requireSource_of_file c.kind e hs
  unfold syncEntry
  simp only [hr, hid, Bool.false_eq_true, if_false]
  split
  · next hcopy => rw [hcopy]
  · next hcopy => rw [hcopy]

/-- The step succeeds when the copy does. -/
theorem syncEntry_of_different_ok_iff {w : WriteResult} :
    (syncEntry c e false d).result = .ok w ↔ w = .written (c.destinationPath e)
      ∧ (d.replaceByCopy (c.sourcePath e) (c.destinationPath e)).1 = .ok () := by
  have hr := Disk.requireSource_of_file c.kind e hs
  unfold syncEntry
  simp only [hr, hid, Bool.false_eq_true, if_false]
  split
  · next hcopy => simp [hcopy]
  · next hcopy => simp [hcopy, eq_comm]

/-- The errors of the step are those of the copy. -/
theorem syncEntry_of_different_error_iff {x : SyncError} :
    (syncEntry c e false d).result = .error x
      ↔ (d.replaceByCopy (c.sourcePath e) (c.destinationPath e)).1 = .error x := by
  have hr := Disk.requireSource_of_file c.kind e hs
  unfold syncEntry
  simp only [hr, hid, Bool.false_eq_true, if_false]
  split
  · next hcopy => simp [hcopy]
  · next hcopy => simp [hcopy]

end Different

/-! ## The decision -/

/-- A destination holds the bytes of its source. -/
def Disk.Synced (d : Disk) (source destination : Path) : Prop :=
  ∃ bytes mode mode', d.node? source = .ok (.file bytes mode)
    ∧ d.node? destination = .ok (.file bytes mode')

theorem syncEntry_of_synced (dryRun : Bool)
    (h : d.Synced (c.sourcePath e) (c.destinationPath e)) :
    syncEntry c e dryRun d =
      ⟨.ok (.unchanged (c.destinationPath e)), d, [.unchanged (c.destinationPath e)]⟩ := by
  obtain ⟨bytes, mode, mode', hs, hd⟩ := h
  exact syncEntry_of_current dryRun hs hd

/-- A run either refuses an entry before it changes anything, or finds it
current, or replaces the destination. -/
inductive Decision (c : Category) (e : Entry) (d : Disk) : Prop
  | refused (x : SyncError) (h : ∀ dryRun, syncEntry c e dryRun d = ⟨.error x, d, []⟩)
      (hwhy : d.isFile? (c.sourcePath e) ≠ .ok true
        ∨ ∃ y, d.isFile? (c.destinationPath e) = .error y)
  | current (h : d.Synced (c.sourcePath e) (c.destinationPath e))
  | different (hs : d.isFile? (c.sourcePath e) = .ok true)
      (hid : d.identical? (c.sourcePath e) (c.destinationPath e) = .ok false)

theorem decision (c : Category) (e : Entry) (d : Disk) : Decision c e d := by
  cases Disk.found d (c.sourcePath e) (c.destinationPath e) with
  | sourceError x hs =>
    refine .refused x (fun dryRun => syncEntry_of_source_error dryRun hs) (Or.inl ?_)
    rw [hs]
    exact fun h => nomatch h
  | noSource hs =>
    refine .refused _ (fun dryRun => syncEntry_of_no_source dryRun hs) (Or.inl ?_)
    rw [hs]
    exact fun h => nomatch h
  | destinationError x hs hd =>
    exact .refused x (fun dryRun => syncEntry_of_destination_error dryRun hs hd) (Or.inr ⟨x, hd⟩)
  | noDestination hs hd => exact .different hs (Disk.identical?_of_not_file hd)
  | files a b mode mode' hs hd =>
    by_cases hab : a = b
    · subst hab
      exact .current ⟨a, mode, mode', hs, hd⟩
    · have hid := Disk.identical?_of_files hs hd
      rw [decide_eq_false hab] at hid
      exact .different (Disk.isFile?_of_file hs) hid

/-! ## The aggregate unit -/

section Unit

variable {sources : Category} {settings : AggregateSettings}

theorem amalgamate_of_unsynchronized {x : SyncError} (h : checkSynchronized sources d = .error x) :
    amalgamate sources settings false d = ⟨.error x, d, []⟩ := by
  unfold amalgamate
  simp only [Bool.false_eq_true, if_false, h]

variable (settings) (h : checkSynchronized sources d = .ok ())

include h

/-- Once the sources are there, the unit is a text that replaces a file. -/
theorem amalgamate_of_synchronized_disk : (amalgamate sources settings false d).disk =
    (d.replaceByText (sources.aggregatePath settings)
      (Aggregate.expected sources settings).toUTF8).2 := by
  unfold amalgamate Aggregate.expected
  simp only [Bool.false_eq_true, if_false, h]
  split
  · next hreplace => rw [hreplace]
  · next hreplace => rw [hreplace]

theorem amalgamate_of_synchronized_ok_iff :
    (∃ r, (amalgamate sources settings false d).result = .ok r)
      ↔ (d.replaceByText (sources.aggregatePath settings)
        (Aggregate.expected sources settings).toUTF8).1 = .ok () := by
  unfold amalgamate Aggregate.expected
  simp only [Bool.false_eq_true, if_false, h]
  split
  · next hreplace => rw [hreplace]; simp only [reduceCtorEq, exists_false]
  · next hreplace => rw [hreplace]; simp only [Except.ok.injEq, exists_eq']

theorem amalgamate_of_synchronized_error_iff {x : SyncError} :
    (amalgamate sources settings false d).result = .error x
      ↔ (d.replaceByText (sources.aggregatePath settings)
        (Aggregate.expected sources settings).toUTF8).1 = .error x := by
  unfold amalgamate Aggregate.expected
  simp only [Bool.false_eq_true, if_false, h]
  split
  · next hreplace => rw [hreplace]; simp only [Except.error.injEq]
  · next hreplace => rw [hreplace]; simp only [reduceCtorEq]

end Unit

end Vendoring
