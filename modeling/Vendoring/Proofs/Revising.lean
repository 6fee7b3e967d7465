import Vendoring.Proofs.Mirroring

/-!
# Revisions of a tree

A `Revision` is a change of files that does not depend on the tree it is made
in, so that the same one can be made in the tree a run started from and in
the one that the run left. `Leads` says what the tree is like behind it. The
lemmas carry what holds in both trees before over to both trees behind.
-/

namespace Vendoring

open Vendoring.Path FileTree

/-- A change of files. It says of each location that no file stands there
any more (`some none`), that this file stands there now, or nothing. -/
abbrev Revision := Location → Option (Option (ByteArray × Nat))

namespace Revision

/-- A revision leads from one tree to another one: files come and go as it
says, and directories are made around new files. -/
structure Leads (u : Revision) (t t' : FileTree) : Prop where
  kept : ∀ l, u l = none → t'.node? l = t.node? l
    ∨ t.node? l = none ∧ t'.node? l = some .directory
      ∧ ∃ k file, u k = some (some file) ∧ l <:+ k
  removed : ∀ l, u l = some none → t.node? l ≠ some .directory ∧ t'.node? l = none
  added : ∀ l bytes mode, u l = some (some (bytes, mode)) →
    t.node? l ≠ some .directory ∧ t'.node? l = some (.file bytes mode)

/-- A revision changes nothing at the places of these paths and below them,
nor at those of their temporary files. -/
def Away (u : Revision) (here : Location) (paths : List Path) : Prop :=
  ∀ l, u l ≠ none → ∀ p ∈ paths,
    ¬p.place here <:+ l ∧ ¬(Disk.temporary p).place here <:+ l

variable {u : Revision} {t t' : FileTree}

theorem Leads.linkFree (h : u.Leads t t') (hfree : t.LinkFree) : t'.LinkFree := by
  intro l target hl
  cases hu : u l with
  | none =>
    rcases h.kept l hu with hsame | ⟨_, hdir, _⟩
    · exact hfree l target (hsame ▸ hl)
    · rw [hdir] at hl
      cases hl
  | some edit =>
    cases edit with
    | none =>
      rw [(h.removed l hu).2] at hl
      cases hl
    | some file =>
      rw [(h.added l _ _ hu).2] at hl
      cases hl

theorem Leads.directory (h : u.Leads t t') {l : Location} (hl : t.node? l = some .directory) :
    t'.node? l = some .directory := by
  cases hu : u l with
  | none =>
    rcases h.kept l hu with hsame | ⟨hnone, _, _⟩
    · exact hsame.trans hl
    · rw [hl] at hnone
      cases hnone
  | some edit =>
    cases edit with
    | none => exact absurd hl (h.removed l hu).1
    | some file => exact absurd hl (h.added l _ _ hu).1

/-- Away from a revision nothing changes. -/
theorem Leads.same (h : u.Leads t t') {l : Location} (hl : ∀ k, u k ≠ none → ¬l <:+ k) :
    t'.node? l = t.node? l := by
  cases hu : u l with
  | none =>
    refine (h.kept l hu).resolve_right fun ⟨_, _, k, file, hk, hsuffix⟩ => ?_
    exact hl k (by rw [hk]; exact fun h => nomatch h) hsuffix
  | some edit => exact absurd (List.suffix_refl l) (hl l (by rw [hu]; exact fun h => nomatch h))

/-- A file in the one tree is a file in the other one, if it was one before. -/
theorem Leads.file {t₁ t₁' : FileTree} (h : u.Leads t t') (h₁ : u.Leads t₁ t₁') {l : Location}
    {bytes : ByteArray} {mode : Nat}
    (hold : t.node? l = some (.file bytes mode) → t₁.node? l = some (.file bytes mode))
    (hl : t'.node? l = some (.file bytes mode)) : t₁'.node? l = some (.file bytes mode) := by
  cases hu : u l with
  | none =>
    rcases h.kept l hu with hsame | ⟨_, hdir, _⟩
    · have hl₁ := hold (hsame ▸ hl)
      rcases h₁.kept l hu with hsame₁ | ⟨hnone, _, _⟩
      · exact hsame₁.trans hl₁
      · rw [hl₁] at hnone
        cases hnone
    · rw [hdir] at hl
      cases hl
  | some edit =>
    cases edit with
    | none =>
      rw [(h.removed l hu).2] at hl
      cases hl
    | some file =>
      rw [(h.added l _ _ hu).2] at hl
      rw [(h₁.added l _ _ hu).2, hl]

/-- A location that is open behind a revision is so behind the same revision
of a tree in which nothing but directories came to be. -/
theorem Leads.open {t₁ t₁' : FileTree} (h : u.Leads t t') (h₁ : u.Leads t₁ t₁') {l : Location}
    (hold : t.Open l → t₁.Open l) (hl : t'.Open l) : t₁'.Open l := by
  cases hu : u l with
  | none =>
    have hl₁ : t₁.Open l := by
      rcases h.kept l hu with hsame | ⟨hnone, _, _⟩
      · exact hold (hl.imp hsame.symm.trans hsame.symm.trans)
      · exact hold (Or.inl hnone)
    rcases h₁.kept l hu with hsame₁ | ⟨_, hdir, _⟩
    · exact hl₁.imp hsame₁.trans hsame₁.trans
    · exact Or.inr hdir
  | some edit =>
    cases edit with
    | none => exact Or.inl (h₁.removed l hu).2
    | some file =>
      rcases hl with hnone | hdir
      · rw [(h.added l _ _ hu).2] at hnone
        cases hnone
      · rw [(h.added l _ _ hu).2] at hdir
        cases hdir

/-- A directory behind a revision is one behind the same revision of a tree
that has the directories there were: it is old, or a new file lies below it. -/
theorem Leads.directory_twin {t₁ t₁' : FileTree} (h : u.Leads t t') (h₁ : u.Leads t₁ t₁')
    {l : Location} (hold : t.node? l = some .directory → t₁.node? l = some .directory)
    (hl : t'.node? l = some .directory) : t₁'.node? l = some .directory := by
  cases hu : u l with
  | none =>
    rcases h.kept l hu with hsame | ⟨_, _, k, ⟨bytes, mode⟩, hk, hsuffix⟩
    · exact h₁.directory (hold (hsame.symm.trans hl))
    · have hne : l ≠ k := by
        rintro rfl
        rw [hu] at hk
        cases hk
      exact directory_of_suffix hsuffix hne (h₁.added k bytes mode hk).2
  | some edit =>
    cases edit with
    | none =>
      rw [(h.removed l hu).2] at hl
      cases hl
    | some file =>
      rw [(h.added l _ _ hu).2] at hl
      cases hl

/-- A revision away from a file whose directory is there leaves it writable. -/
theorem Leads.writable {d : Disk} {paths : List Path} (h : u.Leads d.tree t)
    (haway : u.Away d.here paths) {p : Path} (hp : p ∈ paths) (hwritable : d.Writable p)
    (hdir : d.tree.isDirectory (p.place d.here).tail = true) : (d.withTree t).Writable p := by
  rw [isDirectory_iff] at hdir
  refine ⟨⟨hwritable.fits, hwritable.temporaryFits, fun m hm => ?_, ?_, ?_⟩, ?_⟩
  · exact Or.inr (h.directory (directory_above hm hdir))
  · show t.node? (p.place d.here) ≠ some .directory
    rw [h.same fun k hk => (haway k hk p hp).1]
    exact hwritable.free
  · show t.node? ((Disk.temporary p).place d.here) ≠ some .directory
    rw [h.same fun k hk => (haway k hk p hp).2]
    exact hwritable.temporaryFree
  · exact isDirectory_iff.mpr (h.directory (isDirectory_iff.mp hwritable.start))

/-- One file is added, or edited if it was there. -/
def adding (l : Location) (bytes : ByteArray) (mode : Nat) : Revision :=
  fun k => if k = l then some (some (bytes, mode)) else none

theorem leads_put {l : Location} (hput : t.CanPut l) (bytes : ByteArray) (mode : Nat) :
    (adding l bytes mode).Leads t (t.put l (.file bytes mode)) := by
  have hnodes := node?_put t l (.file bytes mode) hput
  refine ⟨fun k hk => ?_, fun k hk => ?_, fun k bytes' mode' hk => ?_⟩
  · unfold adding at hk
    split at hk
    · cases hk
    · next hne => exact Or.inl ((hnodes k).trans (if_neg hne))
  · unfold adding at hk
    split at hk <;> cases hk
  · unfold adding at hk
    split at hk
    · next heq =>
      cases hk
      subst heq
      refine ⟨fun hdir => ?_, (hnodes k).trans (if_pos rfl)⟩
      cases k with
      | nil => exact hput
      | cons name up => exact hput.2.2 hdir
    · cases hk

theorem away_adding {l : Location} {bytes : ByteArray} {mode : Nat} {here : Location}
    {paths : List Path} (h : ∀ p ∈ paths,
      ¬p.place here <:+ l ∧ ¬(Disk.temporary p).place here <:+ l) :
    (adding l bytes mode).Away here paths := by
  intro k hk
  unfold adding at hk
  split at hk
  · next heq => exact heq ▸ h
  · exact absurd rfl hk

end Revision

end Vendoring
