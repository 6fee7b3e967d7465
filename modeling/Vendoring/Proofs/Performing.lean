import Vendoring.Proofs.Agenda
import Vendoring.Proofs.Replacing

/-!
# What one step does to a disk

The steps of a real run, seen on a disk without links: what a step that
succeeds has done (`syncEntry_ok`, `amalgamate_ok`), when a step succeeds
(`syncEntry_of_writable`, `amalgamate_of_writable`), and what it can touch
whatever its result is (`syncEntry_touched`, `amalgamate_touched`). A run is
followed with these lemmas only.
-/

namespace Vendoring

open Vendoring.Path FileTree

variable {c : Category} {e : Entry} {d : Disk}

/-! ## Entries -/

section Entries

variable (hfree : d.tree.LinkFree) (hs : (c.sourcePath e).Plain) (hd : (c.destinationPath e).Plain)

include hfree hs hd

/-- Whatever a step does, it does by replacing the destination. -/
theorem syncEntry_touched : d.Touched (c.destinationPath e) (syncEntry c e false d).disk := by
  cases decision c e d with
  | refused x h _ =>
    rw [h false]
    exact Disk.Touched.refl ..
  | current h =>
    rw [syncEntry_of_synced false h]
    exact Disk.Touched.refl ..
  | different hsource hid =>
    rw [syncEntry_of_different_disk hsource hid]
    exact (Disk.replaceByCopy_attempt hfree hs hd).touched

/-- A step that fails leaves the destination as it was. -/
theorem syncEntry_error {x : SyncError} (herror : (syncEntry c e false d).result = .error x) :
    (syncEntry c e false d).disk.tree.node? ((c.destinationPath e).place d.here)
      = d.tree.node? ((c.destinationPath e).place d.here) := by
  cases decision c e d with
  | refused x h _ => rw [h false]
  | current h => rw [syncEntry_of_synced false h]
  | different hsource hid =>
    rw [syncEntry_of_different_disk hsource hid]
    exact (Disk.replaceByCopy_attempt hfree hs hd).error x
      ((syncEntry_of_different_error_iff hsource hid).mp herror)

/-- A step that succeeds found the destination current, or replaced it. -/
theorem syncEntry_ok {w : WriteResult}
    (hapart : (Disk.temporary (c.destinationPath e)).place d.here ≠ (c.sourcePath e).place d.here)
    (hok : (syncEntry c e false d).result = .ok w) :
    ((syncEntry c e false d).disk = d ∧ d.Synced (c.sourcePath e) (c.destinationPath e))
      ∨ d.Prepared (c.destinationPath e) ∧ ∃ bytes mode,
        d.node? (c.sourcePath e) = .ok (.file bytes mode)
        ∧ (syncEntry c e false d).disk.tree.node? ((c.destinationPath e).place d.here)
          = some (.file bytes mode) := by
  cases decision c e d with
  | refused x h _ =>
    rw [h false] at hok
    cases hok
  | current h =>
    rw [syncEntry_of_synced false h]
    exact Or.inl ⟨rfl, h⟩
  | different hsource hid =>
    have hcopy := ((syncEntry_of_different_ok_iff hsource hid).mp hok).2
    obtain ⟨hprepared, bytes, mode, ⟨held, hnode, hheld⟩, hfile⟩ :=
      (Disk.replaceByCopy_attempt hfree hs hd).ok hcopy
    rw [if_neg hapart] at hheld
    subst hheld
    rw [syncEntry_of_different_disk hsource hid]
    exact Or.inr ⟨hprepared, bytes, mode, hnode, hfile⟩

/-- Behind a step that succeeds the destination holds the bytes of the source. -/
theorem syncEntry_synced {w : WriteResult}
    (hne : (c.destinationPath e).place d.here ≠ (c.sourcePath e).place d.here)
    (hapart : (Disk.temporary (c.destinationPath e)).place d.here ≠ (c.sourcePath e).place d.here)
    (hok : (syncEntry c e false d).result = .ok w) :
    (syncEntry c e false d).disk.Synced (c.sourcePath e) (c.destinationPath e) := by
  have htouched := syncEntry_touched hfree hs hd
  have hfree' := htouched.linkFree hfree
  rcases syncEntry_ok hfree hs hd hapart hok with
    ⟨hdisk, hsynced⟩ | ⟨hprepared, bytes, mode, hsource, hfile⟩
  · rwa [hdisk]
  · obtain ⟨hsfits, hsnode⟩ := (Disk.node?_eq_ok_iff hfree hs).mp hsource
    obtain ⟨d₁, _, hrec, _⟩ := hprepared
    refine ⟨bytes, mode, mode, ?_, ?_⟩
    · rw [Disk.node?_eq_ok_iff hfree' hs, htouched.here]
      exact ⟨hsfits, htouched.node?_of_ne hne.symm hapart.symm hsnode⟩
    · rw [Disk.node?_eq_ok_iff hfree' hd, htouched.here]
      exact ⟨hrec.fits, hfile⟩

/-- Where the destination can be replaced, an entry with a source succeeds. -/
theorem syncEntry_of_writable (hsource : d.isFile? (c.sourcePath e) = .ok true)
    (hwritable : d.Writable (c.destinationPath e)) :
    ∃ w, (syncEntry c e false d).result = .ok w := by
  cases decision c e d with
  | refused x _ hwhy =>
    rcases hwhy with h | ⟨y, hy⟩
    · exact absurd hsource h
    · have := hwritable.isFile? hfree hd
      rw [hy] at this
      obtain ⟨_, h⟩ := this
      cases h
  | current h => exact ⟨_, congrArg Outcome.result (syncEntry_of_synced false h)⟩
  | different _ hid =>
    refine ⟨_, (syncEntry_of_different_ok_iff hsource hid).mpr ⟨rfl, ?_⟩⟩
    exact (Disk.replaceByCopy_attempt hfree hs hd).succeeds hsource hwritable

end Entries

/-! ## The aggregate unit -/

theorem requireSynchronized_eq_ok_iff {sources : Category} {entries : List Entry} :
    requireSynchronized sources d entries = .ok ()
      ↔ ∀ e ∈ entries, d.isFile? (sources.destinationPath e) = .ok true := by
  induction entries with
  | nil => simp [requireSynchronized]
  | cons e rest ih =>
    rw [requireSynchronized]
    cases hfile : d.isFile? (sources.destinationPath e) with
    | error x => simp [hfile, bind, Except.bind]
    | ok there =>
      cases there with
      | false => simp [hfile, bind, Except.bind]
      | true => simpa [hfile, bind, Except.bind] using ih

section Unit

variable {sources : Category} {settings : AggregateSettings} (hfree : d.tree.LinkFree)
  (hp : (sources.aggregatePath settings).Plain)

include hfree hp

theorem amalgamate_touched :
    d.Touched (sources.aggregatePath settings) (amalgamate sources settings false d).disk := by
  cases hcheck : checkSynchronized sources d with
  | error x =>
    rw [amalgamate_of_unsynchronized hcheck]
    exact Disk.Touched.refl ..
  | ok _ =>
    rw [amalgamate_of_synchronized_disk settings hcheck]
    exact (Disk.replaceByText_attempt hfree hp _).touched

/-- The unit gets the mode of what stood at its temporary name. -/
theorem amalgamate_brings {r : AggregateResult}
    (hok : (amalgamate sources settings false d).result = .ok r) :
    checkSynchronized sources d = .ok () ∧ d.Prepared (sources.aggregatePath settings)
      ∧ (amalgamate sources settings false d).disk.tree.node?
          ((sources.aggregatePath settings).place d.here)
        = some (.file (Aggregate.expected sources settings).toUTF8
          (Disk.modeAt d.tree
            ((Disk.temporary (sources.aggregatePath settings)).place d.here))) := by
  cases hcheck : checkSynchronized sources d with
  | error x =>
    rw [amalgamate_of_unsynchronized hcheck] at hok
    cases hok
  | ok _ =>
    have hreplace := (amalgamate_of_synchronized_ok_iff settings hcheck).mp ⟨r, hok⟩
    obtain ⟨hprepared, bytes, mode, ⟨rfl, rfl⟩, hfile⟩ :=
      (Disk.replaceByText_attempt hfree hp _).ok hreplace
    rw [amalgamate_of_synchronized_disk settings hcheck]
    exact ⟨rfl, hprepared, hfile⟩

theorem amalgamate_ok {r : AggregateResult}
    (hok : (amalgamate sources settings false d).result = .ok r) :
    checkSynchronized sources d = .ok () ∧ d.Prepared (sources.aggregatePath settings)
      ∧ ∃ mode, (amalgamate sources settings false d).disk.tree.node?
          ((sources.aggregatePath settings).place d.here)
        = some (.file (Aggregate.expected sources settings).toUTF8 mode) := by
  obtain ⟨hcheck, hprepared, hfile⟩ := amalgamate_brings hfree hp hok
  exact ⟨hcheck, hprepared, _, hfile⟩

/-- Behind a step that succeeds the unit holds its text, and can be written
again. -/
theorem amalgamate_again {r : AggregateResult}
    (hok : (amalgamate sources settings false d).result = .ok r) :
    (∃ mode, (amalgamate sources settings false d).disk.node? (sources.aggregatePath settings)
        = .ok (.file (Aggregate.expected sources settings).toUTF8 mode))
      ∧ (amalgamate sources settings false d).disk.Writable (sources.aggregatePath settings) := by
  obtain ⟨_, hprepared, mode, hfile⟩ := amalgamate_ok hfree hp hok
  have htouched := amalgamate_touched hfree hp
  have hwritable := hprepared.writable_again hp htouched hfile
  rw [← htouched.here] at hfile
  refine ⟨⟨mode, ?_⟩, hwritable⟩
  exact (Disk.node?_eq_ok_iff (htouched.linkFree hfree) hp).mpr ⟨hwritable.fits, hfile⟩

theorem amalgamate_of_writable (hcheck : checkSynchronized sources d = .ok ())
    (hwritable : d.Writable (sources.aggregatePath settings)) :
    ∃ r, (amalgamate sources settings false d).result = .ok r := by
  refine (amalgamate_of_synchronized_ok_iff settings hcheck).mpr ?_
  exact (Disk.replaceByText_attempt hfree hp _).succeeds trivial hwritable

end Unit

end Vendoring
