import Vendoring.Proofs.Settling
import Vendoring.Proofs.Visiting

/-!
# The same tree listed in another order

A directory lists its members in the order in which the tree keeps its nodes.
Disks that keep the same nodes in two orders are alike (`Disk.alike_of_perm`), and
on disks that are alike a path leads to the same location, through whatever links
(`Disk.Alike.locate?`). So there is the same to find on both, and since what a walk
finds comes in strict order, two walks that find the same are equal.
-/

namespace Vendoring

open Vendoring.Path FileTree

namespace FileTree

variable {t t' : FileTree}

/-- A tree is looked at without its order. -/
theorem node?_of_perm (h : t'.nodes.Perm t.nodes) (l : Location) : t'.node? l = t.node? l := by
  by_cases hl : l = []
  · rw [hl, node?_root, node?_root]
  · refine Option.ext fun n => ?_
    have hmem := h.mem_iff (a := (l, n))
    rwa [mem_nodes_iff, mem_nodes_iff, and_iff_right hl, and_iff_right hl] at hmem

section SameNodes

variable (h : ∀ l, t'.node? l = t.node? l)

include h

theorem isDirectory_congr (l : Location) : t'.isDirectory l = t.isDirectory l := by
  rw [isDirectory, isDirectory, h]

theorem walkWith_of_same (follow : Location → List Segment → Except FileFault Location)
    (l : Location) (segments : List Segment) :
    t'.walkWith follow l segments = t.walkWith follow l segments := by
  induction segments generalizing l with
  | nil => rfl
  | cons s rest ih =>
    have hstep : t'.step l s = t.step l s := step_congr fun m => by rw [h]
    simp only [walkWith, isDirectory_congr h, obstacle, hstep, h, ih]

theorem walk_of_same (links : Nat) (l : Location) (segments : List Segment) :
    t'.walk links l segments = t.walk links l segments := by
  induction links generalizing l segments with
  | zero => exact walkWith_of_same h _ l segments
  | succ links ih =>
    have hfollow : t'.walk links = t.walk links := funext₂ ih
    rw [FileTree.walk, FileTree.walk, hfollow]
    exact walkWith_of_same h _ l segments

theorem Descent.of_same {l : Location} {names : List String} (hdescent : t.Descent l names) :
    t'.Descent l names := by
  induction hdescent with
  | file hn => exact .file ((h _).trans hn)
  | inside hn _ ih => exact .inside ((h _).trans hn) ih

end SameNodes

end FileTree

namespace Disk

variable {d d' : Disk} {root p : Path}

/-- The order of the nodes is the order of listing, and nothing else. -/
theorem alike_of_perm (hhere : d'.here = d.here) (h : d'.tree.nodes.Perm d.tree.nodes) :
    d.Alike d' :=
  ⟨hhere, node?_of_perm h⟩

namespace Alike

variable (h : d.Alike d')

include h

theorem locate? (p : Path) : d'.locate? p = d.locate? p := by
  unfold Disk.locate?
  rw [h.here, walk_of_same h.nodes]

/-- What can be read on one of them can be read on the other. -/
theorem readable (hread : d.Readable p) : d'.Readable p := by
  intro f hf
  cases hl : d.locate? p with
  | error f' =>
    rw [list?_of_error ((h.locate? p).trans hl)] at hf
    obtain rfl := Except.error.inj hf
    exact hread.fault hl
  | ok l =>
    have hdir := (isDirectory_congr h.nodes l).trans (hread.isDirectory hl)
    rw [list?_of_directory ((h.locate? p).trans hl) hdir] at hf
    cases hf

theorem accessible (hroot : d.Accessible root) : d'.Accessible root where
  readable := h.readable hroot.readable
  located l names hl hnames := by
    rw [h.locate?] at hl ⊢
    rw [h.nodes] at hnames
    exact hroot.located l names hl hnames

theorem fileBelow (hp : d.FileBelow root p) : d'.FileBelow root p := by
  obtain ⟨l, names, hl, hdescent, rfl⟩ := hp
  exact ⟨l, names, (h.locate? root).trans hl, hdescent.of_same h.nodes, rfl⟩

end Alike

/-! ## One list of files -/

/-- Strict order leaves one list of the same paths. -/
theorem eq_of_strictly_sorted {xs ys : List Path}
    (hxs : xs.Pairwise fun p q => p.compare q = .lt)
    (hys : ys.Pairwise fun p q => p.compare q = .lt) (hmem : ∀ p, p ∈ xs ↔ p ∈ ys) : xs = ys := by
  have hasymm {p q : Path} (hpq : p.compare q = .lt) : q.compare p ≠ .lt := by
    rw [compare_swap p q, hpq]
    exact nofun
  have hnodup {zs : List Path} (hzs : zs.Pairwise fun p q => p.compare q = .lt) : zs.Nodup := by
    refine hzs.imp ?_
    rintro p q hpq rfl
    exact hasymm hpq hpq
  refine List.Perm.eq_of_pairwise (fun p q _ _ hpq hqp => absurd hqp (hasymm hpq)) hxs hys ?_
  exact (List.perm_ext_iff_of_nodup (hnodup hxs) (hnodup hys)).mpr hmem

theorem Alike.visits_eq (h : d.Alike d') {files : List Path} {r : Except SyncError (List Path)}
    (hfiles : d.Visits root (.ok files)) (hr : d'.Visits root r) : r = .ok files := by
  obtain ⟨files', rfl⟩ := hr.ok_iff.mpr (h.accessible hfiles.accessible)
  refine congrArg Except.ok (eq_of_strictly_sorted hr.sorted hfiles.sorted fun p => ?_)
  rw [hr.mem_iff, hfiles.mem_iff]
  exact ⟨h.symm.fileBelow, h.fileBelow⟩

/-- Nothing is found below a root that is not there. -/
theorem visits_of_missing (h : d.node? root = .error .notFound)
    {r : Except SyncError (List Path)} (hr : d.Visits root r) : r = .ok [] := by
  have hlocate : d.locate? root = .error .notFound := by
    unfold Disk.node? at h
    cases hl : d.locate? root with
    | error f =>
      rw [hl] at h
      exact congrArg Except.error (Except.error.inj h)
    | ok l =>
      obtain ⟨-, _, -, hwalk⟩ := walks_of_locate? hl
      obtain ⟨n, hn⟩ := hwalk.node? (List.splitOn_ne_nil _ _)
      rw [hl] at h
      simp [bind, Except.bind, hn] at h
  obtain ⟨files, rfl⟩ := hr.ok_iff.mpr (accessible_of_missing (list?_of_error hlocate))
  refine congrArg Except.ok (List.eq_nil_iff_forall_not_mem.mpr fun p hp => ?_)
  obtain ⟨l, names, hl, -⟩ := hr.mem_iff.mp hp
  rw [hlocate] at hl
  cases hl

/-- The walk over the directories below a root, in whatever order each of them
lists its members. A walk ends: it takes at most one round for every node and one
for the root, and where it has no result yet there is a next round. `filesBelow` is
one of these walks. A walk succeeds just when the root is not there or every
directory below it is reached by its path, and then it gives just the paths of the
regular files to which names lead down through nothing but directories, in strict
order. A root that is not there gives no files, and walks on disks that are alike
give one list. -/
theorem walk_finds_each_file_once (d : Disk) (root : Path) :
    (∀ k s, d.Turns k (.start root) s →
      k ≤ d.tree.nodes.length + 1 ∧ ((∃ r, d.Ends s r) ∨ ∃ s', d.Turn s s'))
    ∧ d.Visits root (filesBelow d root)
    ∧ (∀ r, d.Visits root r → ((∃ files, r = .ok files) ↔ d.Accessible root))
    ∧ (∀ files, d.Visits root (.ok files) →
      (files.Pairwise fun p q => p.compare q = .lt) ∧ ∀ p, p ∈ files ↔ d.FileBelow root p)
    ∧ (d.node? root = .error .notFound → ∀ r, d.Visits root r → r = .ok [])
    ∧ ∀ d', d.Alike d' → ∀ files r, d.Visits root (.ok files) → d'.Visits root r →
      r = .ok files := by
  refine ⟨fun k s hturns => ⟨?_, ends_or_turns d s⟩, visits_filesBelow d root,
    fun r hr => hr.ok_iff, fun files hfiles => ⟨hfiles.sorted, fun p => hfiles.mem_iff⟩,
    fun hmissing r hr => visits_of_missing hmissing hr,
    fun d' halike files r hfiles hr => halike.visits_eq hfiles hr⟩
  have hlength := hturns.length_le
  have hcost := cost_start d root
  omega

/-! The root is a link to a directory, below which there are a link back and one
to a file; `b` comes in front of `b.h`. -/

def tangledDisk : Disk where
  tree := (((((((FileTree.empty.put ["store"] .directory).put ["b", "store"] .directory).put
    ["a.h", "store"] (.file "a".toUTF8 0o644)).put ["b.h", "store"] (.file "b".toUTF8 0o644)).put
    ["z.h", "b", "store"] (.file "z".toUTF8 0o600)).put ["back", "b", "store"] (.link "..")).put
    ["c.h", "store"] (.link "a.h")).put ["lib"] (.link "store")
  here := []

/-- The same nodes, kept in another order. -/
def reshuffledDisk : Disk where
  tree := (((((((FileTree.empty.put ["lib"] (.link "store")).put ["store"] .directory).put
    ["b.h", "store"] (.file "b".toUTF8 0o644)).put ["c.h", "store"] (.link "a.h")).put
    ["b", "store"] .directory).put ["back", "b", "store"] (.link "..")).put
    ["z.h", "b", "store"] (.file "z".toUTF8 0o600)).put ["a.h", "store"] (.file "a".toUTF8 0o644)
  here := []

theorem tangled_files : filesBelow tangledDisk ⟨"lib"⟩
    = .ok [⟨"lib/a.h"⟩, ⟨"lib/b/z.h"⟩, ⟨"lib/b.h"⟩] := by
  have hsome : (walkWaiting tangledDisk (tangledDisk.tree.nodes.length + 2) []
      [⟨"lib"⟩]).toOption = some [⟨"lib/b/z.h"⟩, ⟨"lib/b.h"⟩, ⟨"lib/a.h"⟩] := by decide +kernel
  cases hwalk : walkWaiting tangledDisk (tangledDisk.tree.nodes.length + 2) [] [⟨"lib"⟩] with
  | error x => rw [hwalk] at hsome; cases hsome
  | ok found =>
    have hfiles : filesBelow tangledDisk ⟨"lib"⟩ = .ok (found.mergeSort le) := by
      rw [filesBelow, hwalk]
      rfl
    rw [hwalk] at hsome
    obtain rfl := Option.some.inj hsome
    have hsorted := (filesBelow_lists hfiles).sorted
    rw [hfiles]
    -- the sorting is not run: of the same paths there is one sorted list
    refine congrArg Except.ok (eq_of_strictly_sorted hsorted (by decide +kernel) fun p => ?_)
    rw [(List.mergeSort_perm _ _).mem_iff]
    exact (show List.Perm _ _ by decide +kernel).mem_iff

theorem reshuffled_walk_agrees :
    reshuffledDisk.tree.nodes ≠ tangledDisk.tree.nodes
    ∧ tangledDisk.Alike reshuffledDisk
    ∧ tangledDisk.Visits ⟨"lib"⟩ (.ok [⟨"lib/a.h"⟩, ⟨"lib/b/z.h"⟩, ⟨"lib/b.h"⟩])
    ∧ filesBelow reshuffledDisk ⟨"lib"⟩ = .ok [⟨"lib/a.h"⟩, ⟨"lib/b/z.h"⟩, ⟨"lib/b.h"⟩]
    ∧ filesBelow reshuffledDisk ⟨"lib/c"⟩ = .ok [] := by
  have halike : tangledDisk.Alike reshuffledDisk := alike_of_perm rfl (by decide +kernel)
  obtain ⟨-, hwalk, -, -, -, hagree⟩ := walk_finds_each_file_once tangledDisk ⟨"lib"⟩
  obtain ⟨-, hwalk', -⟩ := walk_finds_each_file_once reshuffledDisk ⟨"lib"⟩
  obtain ⟨-, hgone, -, -, hmissing, -⟩ := walk_finds_each_file_once reshuffledDisk ⟨"lib/c"⟩
  rw [tangled_files] at hwalk
  exact ⟨by decide +kernel, halike, hwalk, hagree _ halike _ _ hwalk hwalk',
    hmissing (by decide +kernel) _ hgone⟩

end Disk

end Vendoring
