import Vendoring.Proofs.Layout

/-!
# The files that a step spares

Replacing a file touches the file and its temporary name, so every other
file stays as it is, whatever becomes of the replacement
(`Touched.keeps_file`). A file is lost only at a temporary name, and there it
is lost whenever the replacement gets as far as copying
(`replaceByCopy_clears`): nothing keeps an entry from bearing such a name.
`other_files_are_spared` says what this comes to for entries, for the unit
and for whole runs.
-/

namespace Vendoring

open Vendoring.Path FileTree

namespace Disk

variable {d d' : Disk} {p q source : Path} {bytes : ByteArray} {mode : Nat}

theorem Touched.keeps_file (h : d.Touched p d') (hfree : d.tree.LinkFree) (hq : q.Plain)
    (hne : p.place d.here ≠ q.place d.here)
    (htmp : (temporary p).place d.here ≠ q.place d.here)
    (hfile : d.node? q = .ok (.file bytes mode)) : d'.node? q = .ok (.file bytes mode) := by
  obtain ⟨hfits, hnode⟩ := (node?_eq_ok_iff hfree hq).mp hfile
  rw [node?_eq_ok_iff (h.linkFree hfree) hq, h.here]
  exact ⟨hfits, h.node?_of_ne hne.symm htmp.symm hnode⟩

/-- Where the temporary name is bare behind a replacement, another file is
kept just when it did not stand there. -/
theorem Touched.keeps_file_iff (h : d.Touched p d') (hfree : d.tree.LinkFree) (hq : q.Plain)
    (hne : p.place d.here ≠ q.place d.here)
    (hclear : d'.tree.node? ((temporary p).place d.here) = none)
    (hfile : d.node? q = .ok (.file bytes mode)) :
    d'.node? q = .ok (.file bytes mode) ↔ (temporary p).place d.here ≠ q.place d.here := by
  refine ⟨fun hkept heq => ?_, fun htmp => h.keeps_file hfree hq hne htmp hfile⟩
  have hnode := ((node?_eq_ok_iff (h.linkFree hfree) hq).mp hkept).2
  rw [h.here, ← heq, hclear] at hnode
  cases hnode

/-- A regular file stands where the path leads. -/
def Holds (d : Disk) (p : Path) : Prop :=
  ∃ bytes mode, d.node? p = .ok (.file bytes mode)

/-- A file that is replaced is a file again. -/
theorem Touched.holds (h : d.Touched p d') (hfree : d.tree.LinkFree) (hq : q.Plain)
    (htmp : (temporary p).place d.here ≠ q.place d.here) (hfile : d.Holds q) : d'.Holds q := by
  obtain ⟨bytes, mode, hfile⟩ := hfile
  obtain ⟨hfits, hnode⟩ := (node?_eq_ok_iff hfree hq).mp hfile
  have found {bytes : ByteArray} {mode : Nat}
      (hnew : d'.tree.node? (q.place d.here) = some (.file bytes mode)) : d'.Holds q := by
    rw [← h.here] at hnew
    exact ⟨bytes, mode, (node?_eq_ok_iff (h.linkFree hfree) hq).mpr ⟨hfits, hnew⟩⟩
  cases h.nodes (q.place d.here) with
  | same hsame => exact found (hsame.trans hnode)
  | written _ _ bytes' mode' hnew => exact found hnew
  | cleared heq _ _ => exact absurd heq.symm htmp
  | grown _ hold _ =>
    rw [hnode] at hold
    cases hold

/-! ## The temporary name -/

section Cleared

variable (hfree : d.tree.LinkFree) (hp : p.Plain)

include hfree hp

theorem commit_clears (htmp : d.Receives (temporary p))
    (hok : ((d.withFile (temporary p) bytes mode).commit (temporary p) p).1 = .ok ()) :
    ((d.withFile (temporary p) bytes mode).commit (temporary p) p).2.tree.node?
      ((temporary p).place d.here) = none := by
  obtain ⟨htail, hne⟩ := hp.place_temporary d.here
  by_cases hrec : d.Receives p
  · rw [commit_of_receives hfree hp htmp hrec]
    have hnode := node?_moved htmp hp.temporary bytes mode htail hne hp hrec
      ((temporary p).place d.here)
    rw [if_neg hne, if_pos rfl] at hnode
    exact hnode
  · obtain ⟨f, hcommit⟩ := commit_of_not_receives hfree hp htmp hrec bytes mode
    rw [hcommit] at hok
    cases hok

/-- Behind a copy that succeeds nothing stands at the temporary name. -/
theorem replaceByCopy_clears (hs : source.Plain) (hok : (d.replaceByCopy source p).1 = .ok ()) :
    (d.replaceByCopy source p).2.tree.node? ((temporary p).place d.here) = none := by
  have hgrown := createParent_grown hfree hp
  unfold replaceByCopy at hok ⊢
  cases hr : d.createParent p with
  | mk r d₁ =>
    rw [hr] at hgrown hok
    cases r with
    | error x => cases hok
    | ok _ =>
      simp only at hgrown hok ⊢
      have hfree₁ := hgrown.linkFree hfree
      rcases copy_cases hfree₁ hs hp.temporary with ⟨htmp, _, _, _, hcopy⟩ | ⟨_, f, hcopy⟩
      · rw [hcopy] at hok ⊢
        rw [← hgrown.here]
        exact commit_clears hfree₁ hp htmp hok
      · rw [hcopy] at hok
        cases hok

theorem replaceByText_clears {text : ByteArray} (hok : (d.replaceByText p text).1 = .ok ()) :
    (d.replaceByText p text).2.tree.node? ((temporary p).place d.here) = none := by
  have hgrown := createParent_grown hfree hp
  unfold replaceByText at hok ⊢
  cases hr : d.createParent p with
  | mk r d₁ =>
    rw [hr] at hgrown hok
    cases r with
    | error x => cases hok
    | ok _ =>
      simp only at hgrown hok ⊢
      have hfree₁ := hgrown.linkFree hfree
      have hgrown' := createParent_grown hfree₁ hp.temporary
      cases hr' : d₁.createParent (temporary p) with
      | mk r' d₂ =>
        rw [hr'] at hgrown' hok
        cases r' with
        | error x => cases hok
        | ok _ =>
          simp only at hgrown' hok ⊢
          have hfree₂ := hgrown'.linkFree hfree₁
          rcases write_cases hfree₂ hp.temporary text with ⟨htmp, hwrite⟩ | ⟨_, f, hwrite⟩
          · rw [hwrite] at hok ⊢
            rw [← hgrown.here, ← hgrown'.here]
            exact commit_clears hfree₂ hp htmp hok
          · rw [hwrite] at hok
            cases hok

end Cleared

end Disk

/-! ## Steps -/

section Steps

variable {c : Category} {e : Entry} {d : Disk}
  (hfree : d.tree.LinkFree) (hs : (c.sourcePath e).Plain) (hd : (c.destinationPath e).Plain)

include hfree hs hd

/-- An entry that succeeds has a file. -/
theorem syncEntry_holds {w : WriteResult} (hok : (syncEntry c e false d).result = .ok w) :
    (syncEntry c e false d).disk.Holds (c.destinationPath e) := by
  have htouched := syncEntry_touched hfree hs hd
  cases decision c e d with
  | refused x h _ =>
    rw [h false] at hok
    cases hok
  | current h =>
    rw [syncEntry_of_synced false h]
    obtain ⟨bytes, _, mode, _, hfile⟩ := h
    exact ⟨bytes, mode, hfile⟩
  | different hsource hid =>
    have hcopy := ((syncEntry_of_different_ok_iff hsource hid).mp hok).2
    obtain ⟨⟨d₁, _, hrec, _⟩, bytes, mode, _, hfile⟩ :=
      (Disk.replaceByCopy_attempt hfree hs hd).ok hcopy
    rw [← syncEntry_of_different_disk hsource hid, ← htouched.here] at hfile
    exact ⟨bytes, mode, (Disk.node?_eq_ok_iff (htouched.linkFree hfree) hd).mpr
      ⟨hrec.fits, hfile⟩⟩

/-- An entry that is written clears its temporary name. -/
theorem syncEntry_clears {p : Path}
    (hok : (syncEntry c e false d).result = .ok (.written p)) :
    (syncEntry c e false d).disk.tree.node?
      ((Disk.temporary (c.destinationPath e)).place d.here) = none := by
  cases decision c e d with
  | refused x h _ =>
    rw [h false] at hok
    cases hok
  | current h =>
    rw [syncEntry_of_synced false h] at hok
    cases hok
  | different hsource hid =>
    rw [syncEntry_of_different_disk hsource hid]
    exact Disk.replaceByCopy_clears hfree hd hs
      ((syncEntry_of_different_ok_iff hsource hid).mp hok).2

end Steps

/-- Writing the unit clears its temporary name. -/
theorem amalgamate_clears {sources : Category} {settings : AggregateSettings} {d : Disk}
    (hfree : d.tree.LinkFree) (hp : (sources.aggregatePath settings).Plain) {r : AggregateResult}
    (hok : (amalgamate sources settings false d).result = .ok r) :
    (amalgamate sources settings false d).disk.tree.node?
      ((Disk.temporary (sources.aggregatePath settings)).place d.here) = none := by
  have hcheck := (amalgamate_ok hfree hp hok).1
  rw [amalgamate_of_synchronized_disk settings hcheck]
  exact Disk.replaceByText_clears hfree hp
    ((amalgamate_of_synchronized_ok_iff settings hcheck).mp ⟨r, hok⟩)

/-- Along steps that have their temporary files elsewhere a file stays a
file, and the same one if it is no target. -/
theorem follow_holds {here : Location} {steps : List Step} (hplain : ∀ s ∈ steps, s.Plain)
    {d : Disk} (hd : d.Simple here) {q : Path} (hq : q.Plain)
    (htmp : ∀ s ∈ steps, ∀ p, s.target? = some p → (Disk.temporary p).place here ≠ q.place here)
    (hfile : d.Holds q) :
    (follow false steps d).disk.Holds q
      ∧ ((∀ s ∈ steps, ∀ p, s.target? = some p → p.place here ≠ q.place here) →
        ∀ bytes mode, d.node? q = .ok (.file bytes mode) →
          (follow false steps d).disk.node? q = .ok (.file bytes mode)) := by
  constructor
  · refine follow_frame (P := fun d' => d'.Holds q) hplain ?_ hd hfile
    rintro s hs p hp d₁ d₂ ⟨hfree, rfl⟩ htouched
    exact htouched.holds hfree hq (htmp s hs p hp)
  · intro hne bytes mode hnode
    refine follow_frame (P := fun d' => d'.node? q = .ok (.file bytes mode)) hplain ?_ hd hnode
    rintro s hs p hp d₁ d₂ ⟨hfree, rfl⟩ htouched
    exact htouched.keeps_file hfree hq (hne s hs p hp) (htmp s hs p hp)

/-! ## Runs -/

namespace Manifest

variable {m : Manifest} {source destination : Path} {d : Disk}

/-- What a run has vendored stays a file to the end of the run, and the same
one unless it is a target again, if no later temporary file takes its place. -/
theorem run_keeps_vendored (hvalid : m.invalid? = none) (hin : m.Inward source destination)
    (hfree : d.tree.LinkFree) {amalgamate : Bool} {pre post : List Step} {c : Category} {e : Entry}
    (hagenda : m.agenda source destination amalgamate = pre ++ .entry c e :: post)
    (hdone : (follow false (pre ++ [.entry c e]) d).failure = none)
    (htmp : ∀ s ∈ post, ∀ p, s.target? = some p →
      (Disk.temporary p).place d.here ≠ (c.destinationPath e).place d.here) :
    ∃ bytes mode,
      (follow false (pre ++ [.entry c e]) d).disk.node? (c.destinationPath e)
          = .ok (.file bytes mode)
      ∧ (run m source destination ⟨false, amalgamate⟩ d).disk.Holds (c.destinationPath e)
      ∧ ((∀ s ∈ post, ∀ p, s.target? = some p →
          p.place d.here ≠ (c.destinationPath e).place d.here) →
        (run m source destination ⟨false, amalgamate⟩ d).disk.node? (c.destinationPath e)
          = .ok (.file bytes mode)) := by
  have hplain : ∀ s ∈ pre ++ .entry c e :: post, s.Plain :=
    fun s hs => plain_of_mem_agenda hvalid hin (hagenda ▸ hs)
  have hentry := hplain (.entry c e) (by simp)
  have hbefore : ∀ s ∈ pre ++ [.entry c e], s.Plain := fun s hs => hplain s (by
    rcases List.mem_append.mp hs with hs | hs
    · exact List.mem_append_left _ hs
    · exact List.mem_append_right _ (List.mem_singleton.mp hs ▸ List.mem_cons_self ..))
  have hsimple : (follow false (pre ++ [.entry c e]) d).disk.Simple d.here :=
    Disk.Simple.follow hbefore ⟨hfree, rfl⟩
  have hpre := failure_of_append hdone
  obtain ⟨hsingle, hdisk⟩ := follow_append_of_none hpre [.entry c e]
  obtain ⟨⟨r, hr⟩, hone⟩ := follow_singleton_ok (hsingle ▸ hdone)
  obtain ⟨w, hw, -⟩ := Step.perform_entry_eq_ok hr
  have hd : (follow false pre d).disk.Simple d.here :=
    Disk.Simple.follow (fun s hs => hplain s (List.mem_append_left _ hs)) ⟨hfree, rfl⟩
  obtain ⟨bytes, mode, hfile⟩ := syncEntry_holds hd.linkFree hentry.1 hentry.2 hw
  rw [show (syncEntry c e false (follow false pre d).disk).disk
    = (follow false (pre ++ [.entry c e]) d).disk from (hdisk.trans hone).symm] at hfile
  have hrun : (run m source destination ⟨false, amalgamate⟩ d).disk
      = (follow false post (follow false (pre ++ [.entry c e]) d).disk).disk := by
    rw [run_disk hvalid, ← (follow_append_of_none hdone post).2, List.append_assoc,
      List.singleton_append, ← hagenda]
  obtain ⟨hholds, hkept⟩ := follow_holds
    (fun s hs => hplain s (List.mem_append_right _ (List.mem_cons_of_mem _ hs))) hsimple hentry.2
    htmp ⟨bytes, mode, hfile⟩
  rw [hrun]
  exact ⟨bytes, mode, hfile, hholds, fun hne => hkept hne bytes mode hfile⟩

/-- What becomes of the files of other entries, paths compared by their
places. The writing of an entry or of the unit spares every file but the one
at its temporary name, and that one is lost whenever something is written;
along a run, what was vendored is a file at the end unless a later temporary
file takes its place, and the same file unless a later step has its path. -/
theorem other_files_are_spared (m : Manifest) (source destination : Path) (d : Disk)
    (hvalid : m.invalid? = none) (hin : m.Inward source destination)
    (hfree : d.tree.LinkFree) :
    (∀ c ∈ m.categories source destination, ∀ e ∈ c.entries,
      ∀ q ∈ m.destinations source destination,
      (c.destinationPath e).place d.here ≠ q.place d.here →
      ∀ bytes mode, d.node? q = .ok (.file bytes mode) →
        ((Disk.temporary (c.destinationPath e)).place d.here ≠ q.place d.here →
          (syncEntry c e false d).disk.node? q = .ok (.file bytes mode))
        ∧ ∀ p, (syncEntry c e false d).result = .ok (.written p) →
          ((syncEntry c e false d).disk.node? q = .ok (.file bytes mode)
            ↔ (Disk.temporary (c.destinationPath e)).place d.here ≠ q.place d.here))
    ∧ (∀ q ∈ m.destinations source destination,
      (m.unitPath source destination).place d.here ≠ q.place d.here →
      ∀ bytes mode, d.node? q = .ok (.file bytes mode) →
        ((Disk.temporary (m.unitPath source destination)).place d.here ≠ q.place d.here →
          (amalgamate (m.category .sources source destination) m.aggregate false d).disk.node? q
            = .ok (.file bytes mode))
        ∧ ∀ r, (amalgamate (m.category .sources source destination) m.aggregate false d).result
            = .ok r →
          ((amalgamate (m.category .sources source destination) m.aggregate false d).disk.node? q
              = .ok (.file bytes mode)
            ↔ (Disk.temporary (m.unitPath source destination)).place d.here ≠ q.place d.here))
    ∧ ∀ amalgamate pre c e post,
      m.agenda source destination amalgamate = pre ++ .entry c e :: post →
      (follow false (pre ++ [.entry c e]) d).failure = none →
      (∀ s ∈ post, ∀ p, s.target? = some p →
        (Disk.temporary p).place d.here ≠ (c.destinationPath e).place d.here) →
      ∃ bytes mode,
        (follow false (pre ++ [.entry c e]) d).disk.node? (c.destinationPath e)
            = .ok (.file bytes mode)
        ∧ (run m source destination ⟨false, amalgamate⟩ d).disk.Holds (c.destinationPath e)
        ∧ ((∀ s ∈ post, ∀ p, s.target? = some p →
            p.place d.here ≠ (c.destinationPath e).place d.here) →
          (run m source destination ⟨false, amalgamate⟩ d).disk.node? (c.destinationPath e)
            = .ok (.file bytes mode)) := by
  have hunit := plain_unitPath hvalid hin
  refine ⟨fun c hc e he q hq hne bytes mode hfile => ?_, fun q hq hne bytes mode hfile => ?_,
    fun _ _ _ _ _ hagenda hdone htmp =>
      run_keeps_vendored hvalid hin hfree hagenda hdone htmp⟩
  · have hplain := plain_of_mem_destinations hvalid hin hq
    have hs : .entry c e ∈ m.agenda source destination false := entry_mem_agenda.mpr ⟨hc, he⟩
    obtain ⟨hsource, hdest⟩ := plain_of_mem_agenda hvalid hin hs
    have htouched := syncEntry_touched hfree hsource hdest
    exact ⟨fun htmp => htouched.keeps_file hfree hplain hne htmp hfile, fun p hok =>
      htouched.keeps_file_iff hfree hplain hne (syncEntry_clears hfree hsource hdest hok) hfile⟩
  · have hplain := plain_of_mem_destinations hvalid hin hq
    have htouched := amalgamate_touched hfree hunit
    exact ⟨fun htmp => htouched.keeps_file hfree hplain hne htmp hfile, fun r hok =>
      htouched.keeps_file_iff hfree hplain hne (amalgamate_clears hfree hunit hok) hfile⟩

/-! A header that bears the name of another one's temporary file. -/

def crowded : Manifest where
  aggregate := {}
  headers := ⟨⟨"inc"⟩, ⟨"include"⟩, [⟨"a.h.carve.tmp"⟩, ⟨"a.h"⟩]⟩
  sources := ⟨⟨"src"⟩, ⟨"lib"⟩, []⟩
  tests := ⟨⟨"t"⟩, ⟨"tests"⟩, []⟩

def crowdedTree : FileTree :=
  (((FileTree.empty.put ["up"] .directory).put ["inc", "up"] .directory).put
    ["a.h.carve.tmp", "inc", "up"] (.file "t".toUTF8 0o644)).put
    ["a.h", "inc", "up"] (.file "h".toUTF8 0o644)

theorem crowded_spares_the_last :
    ∃ bytes mode, (run crowded ⟨"up"⟩ ⟨"out"⟩ ⟨false, true⟩ ⟨crowdedTree, []⟩).disk.node?
      ⟨"out/include/a.h"⟩ = .ok (.file bytes mode) := by
  obtain ⟨bytes, mode, -, -, hkept⟩ := (other_files_are_spared crowded ⟨"up"⟩ ⟨"out"⟩
    ⟨crowdedTree, []⟩ (by decide +kernel) (by decide +kernel)
    (linkFree_of_nodes (by decide +kernel))).2.2 true
    [.start (crowded.category .headers ⟨"up"⟩ ⟨"out"⟩),
      .entry (crowded.category .headers ⟨"up"⟩ ⟨"out"⟩) ⟨"a.h.carve.tmp"⟩]
    (crowded.category .headers ⟨"up"⟩ ⟨"out"⟩) ⟨"a.h"⟩
    [.start (crowded.category .sources ⟨"up"⟩ ⟨"out"⟩),
      .start (crowded.category .tests ⟨"up"⟩ ⟨"out"⟩),
      .unit (crowded.category .sources ⟨"up"⟩ ⟨"out"⟩) crowded.aggregate]
    rfl (by decide +kernel) (by decide +kernel)
  exact ⟨bytes, mode, hkept (by decide +kernel)⟩

/-- A run that succeeds can lose a file it has vendored. -/
theorem crowded_loses_the_first :
    crowded.invalid? = none ∧ crowded.Inward ⟨"up"⟩ ⟨"out"⟩ ∧ crowdedTree.LinkFree
      ∧ (syncEntry (crowded.category .headers ⟨"up"⟩ ⟨"out"⟩) ⟨"a.h.carve.tmp"⟩ false
          ⟨crowdedTree, []⟩).disk.read? ⟨"out/include/a.h.carve.tmp"⟩ = .ok "t".toUTF8
      ∧ (syncEntry (crowded.category .headers ⟨"up"⟩ ⟨"out"⟩) ⟨"a.h"⟩ false
          (syncEntry (crowded.category .headers ⟨"up"⟩ ⟨"out"⟩) ⟨"a.h.carve.tmp"⟩ false
            ⟨crowdedTree, []⟩).disk).disk.read? ⟨"out/include/a.h.carve.tmp"⟩ = .error .notFound
      ∧ (run crowded ⟨"up"⟩ ⟨"out"⟩ ⟨false, true⟩ ⟨crowdedTree, []⟩).result.toOption.isSome = true
      ∧ (run crowded ⟨"up"⟩ ⟨"out"⟩ ⟨false, true⟩ ⟨crowdedTree, []⟩).disk.read?
          ⟨"out/include/a.h.carve.tmp"⟩ = .error .notFound :=
  ⟨by decide +kernel, by decide +kernel, linkFree_of_nodes (by decide +kernel),
    by decide +kernel, by decide +kernel, by decide +kernel, by decide +kernel⟩

end Manifest

end Vendoring
