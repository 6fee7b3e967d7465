import Vendoring.Proofs.Creating
import Vendoring.Proofs.Looking

/-!
# Putting one file

The single operations that replacing a file is made of, on a disk without
links: writing, copying, removing and moving. A file can be put at a path
that `Receives` it, and each operation either does just one thing to the tree
or fails and leaves it alone (`write_cases`, `copy_cases`, `rename_of_file`).

The temporary file of a path stands beside it, under another name
(`Plain.place_temporary`).
-/

namespace Vendoring

open Vendoring.Path FileTree

namespace FileTree

/-- Below what is no directory nothing stands, so removing it removes one node. -/
theorem node?_erase_of_not_directory {t : FileTree} {l : Location} {n : Node}
    (hl : t.node? l = some n) (hn : n ≠ .directory) (m : Location) :
    (t.erase l).node? m = if m = l then none else t.node? m := by
  have hroot : l ≠ [] := by
    rintro rfl
    rw [node?_root] at hl
    exact hn (Option.some.inj hl).symm
  rw [node?_erase t l hroot]
  by_cases hm : m = l
  · rw [if_pos hm, if_pos (hm ▸ List.suffix_refl m)]
  · rw [if_neg hm]
    split
    · next hsuffix =>
      cases hnode : t.node? m with
      | none => rfl
      | some n' =>
        rw [directory_of_suffix hsuffix (Ne.symm hm) hnode] at hl
        exact absurd (Option.some.inj hl).symm hn
    · rfl

theorem LinkFree.erase {t : FileTree} (h : t.LinkFree) {l : Location} {n : Node}
    (hl : t.node? l = some n) (hn : n ≠ .directory) : (t.erase l).LinkFree := by
  intro m target hm
  rw [node?_erase_of_not_directory hl hn] at hm
  split at hm
  · cases hm
  · exact h m target hm

end FileTree

namespace Path

theorem spot_slash (p : Path) (here : Location) : (p.spot here).slash = false := rfl

theorem Plain.temporary {p : Path} (hp : p.Plain) : (Disk.temporary p).Plain := by
  obtain ⟨front, last, hsplit⟩ := hp.splits
  have h := isSibling_temporary hsplit.segments hsplit.silent hsplit.up
  exact ⟨h.inward hp.inward, h.endsInName⟩

theorem Plain.startOf_temporary {p : Path} (hp : p.Plain) (here : Location) :
    startOf here (Disk.temporary p) = startOf here p := by
  obtain ⟨front, last, hsplit⟩ := hp.splits
  have h := isSibling_temporary hsplit.segments hsplit.silent hsplit.up
  rw [startOf, startOf, h.absolute]

/-- The temporary file stands beside the file that it is for. -/
theorem Plain.place_temporary {p : Path} (hp : p.Plain) (here : Location) :
    ((Disk.temporary p).place here).tail = (p.place here).tail
      ∧ (Disk.temporary p).place here ≠ p.place here := by
  obtain ⟨front, last, hsplit⟩ := hp.splits
  have h := isSibling_temporary hsplit.segments hsplit.silent hsplit.up
  have htmp : (Disk.temporary p).place here =
      String.ofList (last ++ ".carve.tmp".toList) ::
        ((spoken front).reverse ++ startOf here p) := by
    rw [place, hp.startOf_temporary, h.names, hsplit.names, List.dropLast_concat,
      List.reverse_append]
    rfl
  rw [htmp, hsplit.place]
  refine ⟨rfl, fun heq => ?_⟩
  have hname := String.ofList_injective (List.cons.inj heq).1
  have := congrArg List.length hname
  rw [List.length_append] at this
  simp at this

end Path

namespace Disk

variable {d : Disk} {p q source : Path} {l : Location}

/-! ## Putting a file -/

/-- A file can be put at the place of a path. -/
structure Receives (d : Disk) (p : Path) : Prop where
  fits : p.Fits
  directory : d.tree.isDirectory (p.place d.here).tail = true
  free : d.tree.node? (p.place d.here) ≠ some .directory

theorem Receives.approached (h : d.Receives p) : d.Approached p :=
  Approached.of_fits h.fits h.directory

theorem Receives.canPut (h : d.Receives p) (hp : p.Plain) : d.tree.CanPut (p.place d.here) :=
  canPut_of_approached hp h.approached h.free

theorem Receives.clear (h : d.Receives p) : d.Clear p :=
  clear_of_directory h.directory

theorem fits_of_nodeAt? (hp : p.Plain) (happ : d.Approached p) {r : Option Node}
    (h : nodeAt? d.tree (p.spot d.here) = .ok r) :
    p.Fits ∧ r = d.tree.node? (p.place d.here) := by
  obtain ⟨front, last, hsplit⟩ := hp.splits
  unfold nodeAt? at h
  split at h
  · cases h
  · next hlast =>
    rw [spot_location hp] at h
    refine ⟨⟨happ.text, fun name hname => ?_⟩, (Except.ok.inj h).symm⟩
    have hnames := happ.names
    rw [hsplit.names] at hname hnames
    rw [List.dropLast_concat] at hnames
    rw [hsplit.spot] at hlast
    rcases List.mem_append.mp hname with h | h
    · exact hnames name h
    · rw [List.mem_singleton.mp h]
      exact Nat.le_of_not_lt hlast

theorem writeTarget_eq_ok_iff (hfree : d.tree.LinkFree) (hp : p.Plain) {links : Nat} :
    writeTarget d.tree links (d.spot? p) = .ok l ↔ d.Receives p ∧ l = p.place d.here := by
  constructor
  · intro h
    cases hspot : d.spot? p with
    | error f => rw [hspot] at h; cases links <;> cases h
    | ok r =>
      obtain ⟨happ, rfl⟩ := (spot?_eq_ok_iff hfree hp).mp hspot
      rw [hspot] at h
      unfold writeTarget at h
      rw [if_neg (by rw [Path.spot_slash]; exact Bool.false_ne_true)] at h
      split at h
      · cases h
      · cases h
      · next target hnode =>
        obtain ⟨_, hlink⟩ := fits_of_nodeAt? hp happ hnode
        exact absurd hlink.symm (hfree _ _)
      · next r hdir hlink hnode =>
        obtain ⟨hfits, rfl⟩ := fits_of_nodeAt? hp happ hnode
        rw [spot_location hp] at h
        exact ⟨⟨hfits, happ.directory, hdir⟩, (Except.ok.inj h).symm⟩
  · rintro ⟨hrec, rfl⟩
    rw [(spot?_eq_ok_iff hfree hp).mpr ⟨hrec.approached, rfl⟩]
    unfold writeTarget
    rw [if_neg (by rw [Path.spot_slash]; exact Bool.false_ne_true), nodeAt?_spot hp hrec.fits,
      spot_location hp]
    cases hnode : d.tree.node? (p.place d.here) with
    | none => rfl
    | some n =>
      cases n with
      | file bytes mode => rfl
      | directory => exact absurd hnode hrec.free
      | link target => exact absurd hnode (hfree _ _)

/-- The disk with a file at the place of a path. -/
def withFile (d : Disk) (p : Path) (bytes : ByteArray) (mode : Nat) : Disk :=
  d.withTree (d.tree.put (p.place d.here) (.file bytes mode))

@[simp] theorem withFile_here (d : Disk) (p : Path) (bytes : ByteArray) (mode : Nat) :
    (d.withFile p bytes mode).here = d.here := rfl

theorem Receives.node?_withFile (h : d.Receives p) (hp : p.Plain) (bytes : ByteArray) (mode : Nat)
    (m : Location) : (d.withFile p bytes mode).tree.node? m =
      if m = p.place d.here then some (.file bytes mode) else d.tree.node? m :=
  node?_put _ _ _ (h.canPut hp) m

theorem write_cases (hfree : d.tree.LinkFree) (hp : p.Plain) (bytes : ByteArray) :
    (d.Receives p ∧ d.write p bytes
        = (.ok (), d.withFile p bytes (modeAt d.tree (p.place d.here))))
      ∨ ¬d.Receives p ∧ ∃ f, d.write p bytes = (.error f, d) := by
  unfold write
  split
  · next f hf =>
    refine Or.inr ⟨fun hrec => ?_, f, rfl⟩
    rw [(writeTarget_eq_ok_iff hfree hp).mpr ⟨hrec, rfl⟩] at hf
    cases hf
  · next l hl =>
    obtain ⟨hrec, rfl⟩ := (writeTarget_eq_ok_iff hfree hp).mp hl
    exact Or.inl ⟨hrec, rfl⟩

/-- A copy succeeds when the source is a file and the target can be put. The source is read
behind the emptying of the target. -/
theorem copy_cases (hfree : d.tree.LinkFree) (hs : source.Plain) (hp : p.Plain) :
    (d.Receives p ∧ ∃ bytes mode, d.node? source = .ok (.file bytes mode)
      ∧ d.copy source p = (.ok (), d.withFile p
        (if p.place d.here = source.place d.here then ByteArray.empty else bytes) mode))
      ∨ ¬(d.Receives p ∧ d.isFile? source = .ok true) ∧ ∃ f, d.copy source p = (.error f, d) := by
  unfold copy
  split
  · next f hf =>
    refine Or.inr ⟨fun ⟨_, hfile⟩ => ?_, f, rfl⟩
    obtain ⟨bytes, mode, hnode⟩ := isFile?_eq_true_iff.mp hfile
    rw [node?, hf] at hnode
    cases hnode
  · next origin horigin =>
    obtain ⟨rfl, hfits⟩ := locate?_eq_ok hfree hs.inward horigin
    split
    · next bytes mode hfile =>
      have hnode := (node?_eq_ok_iff hfree hs).mpr ⟨hfits, hfile⟩
      split
      · next f hf =>
        refine Or.inr ⟨fun ⟨hrec, _⟩ => ?_, f, rfl⟩
        rw [(writeTarget_eq_ok_iff hfree hp).mpr ⟨hrec, rfl⟩] at hf
        cases hf
      · next l hl =>
        obtain ⟨hrec, rfl⟩ := (writeTarget_eq_ok_iff hfree hp).mp hl
        exact Or.inl ⟨hrec, bytes, mode, hnode, rfl⟩
    · next hnot =>
      refine Or.inr ⟨fun ⟨_, hfile⟩ => ?_, _, rfl⟩
      obtain ⟨bytes, mode, hnode⟩ := isFile?_eq_true_iff.mp hfile
      exact hnot bytes mode ((node?_eq_ok_iff hfree hs).mp hnode).2

/-! ## Removing and moving -/

theorem unlink_of_file (hfree : d.tree.LinkFree) (hp : p.Plain) (hfits : p.Fits) {bytes : ByteArray}
    {mode : Nat} (hfile : d.tree.node? (p.place d.here) = some (.file bytes mode)) :
    d.discard p = d.withTree (d.tree.erase (p.place d.here)) := by
  have happ := Approached.of_fits hfits (directory_of_node? hp hfile)
  unfold discard unlink
  rw [(spot?_eq_ok_iff hfree hp).mpr ⟨happ, rfl⟩]
  simp only
  rw [nodeAt?_spot hp hfits, hfile]
  simp only [Path.spot_slash, Bool.false_eq_true, if_false]
  rw [spot_location hp]

/-- Discarding a name removes what stands there or nothing, and no
directory. -/
theorem discard_nodes (hfree : d.tree.LinkFree) (hp : p.Plain) :
    (d.discard p).here = d.here
      ∧ ∀ m, (d.discard p).tree.node? m = d.tree.node? m
        ∨ m = p.place d.here ∧ d.tree.node? m ≠ some .directory
          ∧ (d.discard p).tree.node? m = none := by
  unfold discard unlink
  split
  · exact ⟨rfl, fun _ => Or.inl rfl⟩
  · exact ⟨rfl, fun _ => Or.inl rfl⟩
  · next s hs =>
    obtain ⟨happ, hspot⟩ := (spot?_eq_ok_iff hfree hp).mp hs
    obtain rfl := Option.some.inj hspot
    split
    · exact ⟨rfl, fun _ => Or.inl rfl⟩
    · exact ⟨rfl, fun _ => Or.inl rfl⟩
    · exact ⟨rfl, fun _ => Or.inl rfl⟩
    · next n hdir hnode =>
      obtain ⟨_, hn⟩ := fits_of_nodeAt? hp happ hnode
      split
      · exact ⟨rfl, fun _ => Or.inl rfl⟩
      · rw [spot_location hp]
        refine ⟨rfl, fun m => ?_⟩
        have hne : n ≠ .directory := fun h => hdir (by rw [h])
        have herase := node?_erase_of_not_directory hn.symm hne m
        by_cases hm : m = p.place d.here
        · refine Or.inr ⟨hm, fun hd => ?_, herase.trans (if_pos hm)⟩
          rw [hm, ← hn] at hd
          exact hne (Option.some.inj hd)
        · exact Or.inl (herase.trans (if_neg hm))

/-- A file is moved onto another name unless a directory stands there. -/
theorem rename_of_file (hfree : d.tree.LinkFree) (hq : q.Plain) (hp : p.Plain) (hfits : q.Fits)
    {bytes : ByteArray} {mode : Nat}
    (hfile : d.tree.node? (q.place d.here) = some (.file bytes mode))
    (hne : q.place d.here ≠ p.place d.here) :
    (d.Receives p ∧ d.rename q p = (.ok (), d.withTree
        ((d.tree.erase (q.place d.here)).put (p.place d.here) (.file bytes mode))))
      ∨ ¬d.Receives p ∧ ∃ f, d.rename q p = (.error f, d) := by
  have happq : d.Approached q := Approached.of_fits hfits (directory_of_node? hq hfile)
  unfold rename
  rw [(spot?_eq_ok_iff hfree hq).mpr ⟨happq, rfl⟩]
  cases hspot : d.spot? p with
  | error f =>
    refine Or.inr ⟨fun hrec => ?_, f, rfl⟩
    rw [(spot?_eq_ok_iff hfree hp).mpr ⟨hrec.approached, rfl⟩] at hspot
    cases hspot
  | ok r =>
    obtain ⟨happ, rfl⟩ := (spot?_eq_ok_iff hfree hp).mp hspot
    simp only
    rw [nodeAt?_spot hq hfits, hfile]
    cases hnode : nodeAt? d.tree (p.spot d.here) with
    | error f =>
      refine Or.inr ⟨fun hrec => ?_, f, rfl⟩
      rw [nodeAt?_spot hp hrec.fits] at hnode
      cases hnode
    | ok there =>
      obtain ⟨hpfits, rfl⟩ := fits_of_nodeAt? hp happ hnode
      simp only [Node.isDirectory, Path.spot_slash, spot_location hq, spot_location hp, hne,
        Bool.or_self, Bool.false_eq_true, if_false]
      split
      · next hdir =>
        refine Or.inr ⟨fun hrec => ?_, _, rfl⟩
        exact hrec.free (isDirectory_iff.mp hdir)
      · next hdir =>
        refine Or.inl ⟨⟨hpfits, happ.directory, fun h => ?_⟩, rfl⟩
        exact hdir (isDirectory_iff.mpr h)

end Disk

end Vendoring
