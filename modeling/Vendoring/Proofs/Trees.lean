import Vendoring.FileTree.Disk

/-!
# What stands where in a tree

A node stands in a directory, so what stands at one location says something
about the locations around it and below it: around a node all are
directories (`directory_of_suffix`), and below nothing there is nothing
(`none_of_suffix`). `LinkFree` is the condition under which a path leads to
one location in every tree.
-/

namespace Vendoring

namespace FileTree

variable {t : FileTree} {l m : Location}

/-- No node of the tree is a link. -/
def LinkFree (t : FileTree) : Prop :=
  ∀ l target, t.node? l ≠ some (.link target)

/-- A directory may come to stand here, or stands here already. -/
def Open (t : FileTree) (l : Location) : Prop :=
  t.node? l = none ∨ t.node? l = some .directory

theorem linkFree_of_nodes
    (h : (t.nodes.all fun n => n.2.isFile || n.2.isDirectory) = true) : t.LinkFree := by
  intro l target hl
  unfold node? find at hl
  split at hl
  · cases hl
  · obtain ⟨l₁, l₂, hnodes, _⟩ := List.lookup_eq_some_iff.mp hl
    have := List.all_eq_true.mp h (l, .link target) (by simp [hnodes])
    cases this

theorem LinkFree.put (h : t.LinkFree) {n : Node} (hn : ∀ target, n ≠ .link target) :
    (t.put l n).LinkFree := by
  intro m target hm
  by_cases hput : t.CanPut l
  · rw [node?_put _ _ _ hput] at hm
    split at hm
    · exact hn target (Option.some.inj hm)
    · exact h m target hm
  · rw [put_of_not_canPut _ _ _ hput] at hm
    exact h m target hm

theorem isDirectory_iff : t.isDirectory l = true ↔ t.node? l = some .directory := by
  unfold isDirectory
  cases h : t.node? l with
  | none => simp
  | some n => cases n <;> simp [Node.isDirectory]

/-- What stands somewhere stands under a proper name in a directory. -/
theorem up_of_node? {name : String} {up : Location} {n : Node}
    (h : t.node? (name :: up) = some n) :
    isFileName name = true ∧ t.node? up = some .directory := by
  simp only [node?, find, reduceCtorEq, if_false] at h
  rw [List.lookup_eq_some_iff] at h
  obtain ⟨l₁, l₂, hnodes, _⟩ := h
  obtain ⟨name', up', he, hname, hdir⟩ := t.sound.inDirectory (name :: up) (by simp [hnodes])
  obtain ⟨rfl, rfl⟩ := List.cons.inj he
  exact ⟨hname, hdir⟩

theorem directory_of_suffix (h : l <:+ m) (hne : l ≠ m) {n : Node} (hm : t.node? m = some n) :
    t.node? l = some .directory := by
  obtain ⟨front, rfl⟩ := h
  induction front generalizing n with
  | nil => exact absurd rfl hne
  | cons name front ih =>
    have hup : t.node? (front ++ l) = some .directory := (up_of_node? hm).2
    by_cases hl : l = front ++ l
    · rw [← hl] at hup
      exact hup
    · exact ih hl hup

/-- Around a directory all are directories. -/
theorem directory_above (h : l <:+ m) (hm : t.node? m = some .directory) :
    t.node? l = some .directory := by
  by_cases hne : l = m
  · rw [hne, hm]
  · exact directory_of_suffix h hne hm

theorem none_of_suffix (h : l <:+ m) (hl : t.node? l = none) : t.node? m = none := by
  cases hm : t.node? m with
  | none => rfl
  | some n =>
    by_cases hne : l = m
    · rw [← hm, ← hne, hl]
    · rw [directory_of_suffix h hne hm] at hl
      cases hl

end FileTree

end Vendoring
