import Mathlib.Data.List.Dedup
import Vendoring.Proofs.Untracked

/-!
# How often an untracked file is counted

A category keeps a file when its root is a deepest one for it, and compares
roots as paths. So a file is listed by all categories that share its deepest
root, in whatever spelling, and by no others (`timesAmong_untrackedPaths`): it
is counted once where the deepest root belongs to one category alone.
-/

namespace Vendoring

open Vendoring.Path FileTree

/-! ## Listing a path several times -/

/-- How often a path is listed. -/
def timesAmong (paths : List Path) (p : Path) : Nat :=
  paths.countP fun q => decide (q.Same p)

theorem timesAmong_eq_count (paths : List Path) (p : Path) :
    timesAmong paths p = (paths.map components).count p.components := by
  rw [timesAmong, List.count, List.countP_map]
  refine List.countP_congr fun q _ => ?_
  rw [decide_eq_true_eq, Function.comp_apply, beq_iff_eq]
  rfl

theorem distinct_iff {paths : List Path} :
    (paths.Pairwise fun p q => ¬p.Same q) ↔ (paths.map components).Nodup :=
  (List.pairwise_map (R := fun a b : List Component => a ≠ b) (f := components)).symm

/-- Paths that differ are listed once or not at all. -/
theorem timesAmong_of_distinct {paths : List Path} (h : paths.Pairwise fun p q => ¬p.Same q)
    (p : Path) : timesAmong paths p = if isAmong paths p = true then 1 else 0 := by
  rw [timesAmong_eq_count, (distinct_iff.mp h).count]
  simp only [isAmong_iff_mem]

theorem distinct_iff_timesAmong {paths : List Path} :
    (paths.Pairwise fun p q => ¬p.Same q) ↔ ∀ p ∈ paths, timesAmong paths p = 1 := by
  rw [distinct_iff, List.nodup_iff_count_eq_one, List.forall_mem_map]
  simp only [timesAmong_eq_count]

/-- Where every list has at most one, counting all of them counts the lists
that have it. -/
theorem countP_flatMap_of_one {α β : Type} {l : List α} {f : α → List β} {P : β → Bool}
    {Q : α → Bool} (h : ∀ a ∈ l, (f a).countP P = if Q a = true then 1 else 0) :
    (l.flatMap f).countP P = l.countP Q := by
  induction l with
  | nil => rfl
  | cons a rest ih =>
    rw [List.flatMap_cons, List.countP_append, h a (List.mem_cons_self ..),
      ih fun b hb => h b (List.mem_cons_of_mem _ hb), List.countP_cons, Nat.add_comm]

namespace Manifest

variable {m : Manifest} {source destination : Path} {d : Disk} {report : StatusReport}

/-! ## The untracked files of a tree -/

theorem length_untrackedPaths (report : StatusReport) :
    report.untracked = report.untrackedPaths.length := by
  rw [StatusReport.untracked, StatusReport.untrackedPaths]
  induction report.categories with
  | nil => rfl
  | cons s rest ih =>
    rw [List.map_cons, total_cons, ih, List.flatMap_cons, List.length_append,
      CategoryStatus.untrackedPaths, List.length_map]

/-- A file that one category lists is listed by those that have the same
root. -/
theorem isAmong_untrackedPaths (h : treeStatus m source destination d = .ok report)
    {s s' : CategoryStatus} (hs : s ∈ report.categories) (hs' : s' ∈ report.categories) {p : Path}
    (hp : isAmong s.untrackedPaths p = true) : isAmong s'.untrackedPaths p = true
      ↔ s'.destinationRoot.Same s.destinationRoot := by
  have hroot {s : CategoryStatus} (hs : s ∈ report.categories) :
      s.destinationRoot ∈ m.destinationRoots source destination := by
    rw [← root_of_status h]
    exact List.mem_map_of_mem hs
  have hattributed := (attributed_of_treeStatus h).2 s hs
  have hattributed' := (attributed_of_treeStatus h).2 s' hs'
  obtain ⟨hcontains, hfree, hdeepest⟩ := (hattributed.isAmong_iff p).mp hp
  constructor
  · intro hp'
    obtain ⟨-, -, hdeepest'⟩ := (hattributed'.isAmong_iff p).mp hp'
    exact hdeepest'.same hdeepest (hroot hs') (hroot hs)
  · intro hsame
    exact (hattributed'.isAmong_iff p).mpr ⟨hcontains.respell hsame.symm hattributed'.readable,
      hfree, hdeepest.respell rfl hsame.symm⟩

theorem timesAmong_untrackedPaths (h : treeStatus m source destination d = .ok report)
    {s : CategoryStatus} (hs : s ∈ report.categories) {p : Path}
    (hp : isAmong s.untrackedPaths p = true) : timesAmong report.untrackedPaths p
      = timesAmong (m.destinationRoots source destination) s.destinationRoot := by
  rw [← root_of_status h, timesAmong, timesAmong, List.countP_map, StatusReport.untrackedPaths]
  refine countP_flatMap_of_one fun s' hs' => ?_
  rw [← timesAmong, timesAmong_of_distinct ((attributed_of_treeStatus h).2 s' hs').distinct]
  simp only [isAmong_untrackedPaths h hs hs' hp, Function.comp_apply, decide_eq_true_eq]

/-- Whatever the roots and whatever links there are: the number of untracked
files is that of the listed paths, and a path is listed once for every category
at its root. So the listed paths differ, and their number is that of the
different ones, just when no category that lists a file shares its root. -/
theorem untracked_counted (m : Manifest) (source destination : Path) (d : Disk)
    (report : StatusReport) (h : treeStatus m source destination d = .ok report) :
    report.untracked = report.untrackedPaths.length
    ∧ (∀ s ∈ report.categories, ∀ rel ∈ s.untracked,
      timesAmong report.untrackedPaths (s.destinationRoot.join rel)
        = timesAmong (m.destinationRoots source destination) s.destinationRoot)
    ∧ ((report.untrackedPaths.Pairwise fun p q => ¬p.Same q)
      ↔ ∀ s ∈ report.categories, s.untracked ≠ [] →
        timesAmong (m.destinationRoots source destination) s.destinationRoot = 1)
    ∧ (report.untracked = (report.untrackedPaths.map components).dedup.length
      ↔ report.untrackedPaths.Pairwise fun p q => ¬p.Same q) := by
  have htimes : ∀ s ∈ report.categories, ∀ rel ∈ s.untracked,
      timesAmong report.untrackedPaths (s.destinationRoot.join rel)
        = timesAmong (m.destinationRoots source destination) s.destinationRoot :=
    fun s hs rel hrel => timesAmong_untrackedPaths h hs
      (isAmong_iff_exists.mpr ⟨_, List.mem_map_of_mem hrel, rfl⟩)
  refine ⟨length_untrackedPaths report, htimes, ?_, ?_⟩
  · rw [distinct_iff_timesAmong]
    constructor
    · intro hone s hs hne
      obtain ⟨rel, hrel⟩ := List.exists_mem_of_ne_nil _ hne
      rw [← htimes s hs rel hrel]
      exact hone _ (List.mem_flatMap.mpr ⟨s, hs, List.mem_map_of_mem hrel⟩)
    · intro hone p hp
      obtain ⟨s, hs, hp⟩ := List.mem_flatMap.mp hp
      obtain ⟨rel, hrel, rfl⟩ := List.mem_map.mp hp
      rw [htimes s hs rel hrel]
      exact hone s hs (List.ne_nil_of_mem hrel)
  · rw [length_untrackedPaths, distinct_iff, ← List.dedup_eq_self]
    constructor
    · intro hlength
      refine (List.dedup_sublist _).eq_of_length ?_
      rw [← hlength, List.length_map]
    · intro hself
      rw [hself, List.length_map]

/-! Headers and sources share a root, which the sources spell in another
way. -/

def sharing : Manifest where
  aggregate := {}
  headers := ⟨⟨"inc"⟩, ⟨"lib"⟩, []⟩
  sources := ⟨⟨"src"⟩, ⟨"lib/"⟩, []⟩
  tests := ⟨⟨"t"⟩, ⟨"tests"⟩, []⟩

def sharingTree : FileTree :=
  ((((FileTree.empty.put ["dst"] .directory).put ["lib", "dst"] .directory).put
    ["stray.txt", "lib", "dst"] (.file "s".toUTF8 0o644)).put ["tests", "dst"] .directory).put
    ["b.cpp", "tests", "dst"] (.file "b".toUTF8 0o644)

def sharingReport : StatusReport where
  categories := [⟨.headers, ⟨"dst/lib"⟩, [], [⟨"stray.txt"⟩]⟩,
    ⟨.sources, ⟨"dst/lib/"⟩, [], [⟨"stray.txt"⟩]⟩, ⟨.tests, ⟨"dst/tests"⟩, [], [⟨"b.cpp"⟩]⟩]
  aggregate := ⟨⟨"dst/lib/Support.cpp"⟩, .missing⟩

theorem sharing_status :
    treeStatus sharing ⟨"up"⟩ ⟨"dst"⟩ ⟨sharingTree, []⟩ = .ok sharingReport := by
  have hsome : (treeStatus sharing ⟨"up"⟩ ⟨"dst"⟩ ⟨sharingTree, []⟩).toOption
      = some sharingReport := by decide +kernel
  cases hok : treeStatus sharing ⟨"up"⟩ ⟨"dst"⟩ ⟨sharingTree, []⟩ with
  | error x => rw [hok] at hsome; cases hsome
  | ok report => rw [hok] at hsome; exact congrArg Except.ok (Option.some.inj hsome)

theorem shared_root_counts_twice :
    timesAmong sharingReport.untrackedPaths ⟨"dst/lib/stray.txt"⟩ = 2
      ∧ timesAmong sharingReport.untrackedPaths ⟨"dst/tests/b.cpp"⟩ = 1 := by
  have h := (untracked_counted sharing ⟨"up"⟩ ⟨"dst"⟩ ⟨sharingTree, []⟩ sharingReport
    sharing_status).2.1
  have hlib := h ⟨.sources, ⟨"dst/lib/"⟩, [], [⟨"stray.txt"⟩]⟩ (by decide) ⟨"stray.txt"⟩
    (by decide)
  have htests := h ⟨.tests, ⟨"dst/tests"⟩, [], [⟨"b.cpp"⟩]⟩ (by decide) ⟨"b.cpp"⟩ (by decide)
  rw [show Path.join ⟨"dst/lib/"⟩ ⟨"stray.txt"⟩ = ⟨"dst/lib/stray.txt"⟩ by decide] at hlib
  rw [show Path.join ⟨"dst/tests"⟩ ⟨"b.cpp"⟩ = ⟨"dst/tests/b.cpp"⟩ by decide] at htests
  exact ⟨hlib.trans (by decide +kernel), htests.trans (by decide +kernel)⟩

/-- One file in a shared root makes two untracked ones. -/
theorem shared_stray_is_listed_twice :
    sharing.invalid? = none ∧ sharingTree.LinkFree
      ∧ treeStatus sharing ⟨"up"⟩ ⟨"dst"⟩ ⟨sharingTree, []⟩ = .ok sharingReport
      ∧ sharingReport.untracked = 3
      ∧ ¬sharingReport.untrackedPaths.Pairwise fun p q => ¬p.Same q :=
  ⟨by decide +kernel, linkFree_of_nodes (by decide +kernel), sharing_status, by decide,
    by decide +kernel⟩

end Manifest

end Vendoring
