import Vendoring.Proofs.Stopping
import Vendoring.Proofs.Paving

/-!
# Putting a file in the place of another

What replacing a file does on any tree, when nothing stands at its temporary
name. The directories around the path are made first, and what the tree holds
then is all that counts: the new contents go to a name that is free
(`spot?_of_writeTarget`), so no link leads them elsewhere, and taking them away
again leaves the tree as it was.

`Exchange` has the two ways in which it can end. Either everything that stood
somewhere stands there still, or the file stands at the last name of the path
and everything else is as before. The path leads to the file then, unless it led
through its own last name: where `m` is a link to a directory, `m/../m` leads
nowhere once a file has taken its place (`Replaced.spot?_iff`).
-/

namespace Vendoring

open Vendoring.Path FileTree

namespace Disk

variable {d d₁ d' : Disk} {p q up source : Path} {l : Location} {s : Spot} {node : Node}
  {front : List Segment} {last : Segment} {bytes : ByteArray} {mode : Nat}

/-! ## A name that is free -/

theorem Extends.spot? (h : d.Extends d₁) (hspot : d.spot? q = .ok (some s))
    (hslash : s.slash = false) : d₁.spot? q = .ok (some s) := by
  obtain ⟨htext, front, last, happroach, hname⟩ := approach_of_spot? hspot hslash
  have happroach' := h.approach happroach
  rw [← h.here] at happroach'
  rw [happroach'.spot? htext, ← hname, ← hslash]

/-- A name that is free is free where there is less. -/
theorem Extends.vacant (h : d.Extends d₁) (hends : q.EndsInName) (hvacant : d₁.Vacant q) :
    d.Vacant q := by
  intro s hspot
  have hnone := hvacant s (h.spot? hspot (slash_of_spot? hends hspot))
  cases hnode : d.tree.node? s.location with
  | none => rfl
  | some node =>
    rw [h.kept _ node hnode] at hnone
    cases hnone

/-- There is nothing to remove. -/
theorem discard_of_vacant (hvacant : d.Vacant q) : d.discard q = d := by
  unfold discard unlink
  cases hspot : d.spot? q with
  | error f => rfl
  | ok name =>
    cases name with
    | none => rfl
    | some s =>
      simp only [nodeAt?, hvacant s hspot]
      split
      · rfl
      · rfl
      · next hnode =>
        split at hnode
        · cases hnode
        · cases hnode
      · next hnode =>
        split at hnode
        · cases hnode
        · cases hnode

/-- No link leads on from a free name. -/
theorem spot?_of_writeTarget (hvacant : d.Vacant q) {links : Nat}
    (h : writeTarget d.tree links (d.spot? q) = .ok l) : ∃ s, d.spot? q = .ok (some s)
      ∧ s.slash = false ∧ s.name.utf8ByteSize ≤ maxNameBytes ∧ l = s.location := by
  obtain ⟨s, hspot, -⟩ := writesTo_of_writeTarget h
  rw [hspot] at h
  obtain ⟨hslash, hfits, ⟨hl, -⟩ | ⟨target, _, -, hlink, -⟩⟩ := writeTarget_cases h
  · exact ⟨s, hspot, hslash, hfits, hl⟩
  · rw [hvacant s hspot] at hlink
    cases hlink

/-! ## Taking a place -/

/-- The path leads through its own last name, which is at `s`: it does not lead
there without what stands there. -/
def Loops (d : Disk) (p : Path) (s : Spot) : Prop :=
  (d.withTree (d.tree.erase s.location)).spot? p ≠ .ok (some s)

theorem node?_of_node?_erase {t : FileTree} {m : Location} (hl : l ≠ [])
    (h : (t.erase l).node? m = some node) : m ≠ l ∧ t.node? m = some node := by
  rw [node?_erase t l hl] at h
  split at h
  · cases h
  · next hnot => exact ⟨fun heq => hnot (heq ▸ List.suffix_rfl), h⟩

/-- A path leads through a link to a directory or not at all. -/
theorem not_loops_of_not_directoryLink (hspot : d.spot? p = .ok (some s))
    (hslash : s.slash = false) (hfree : d.tree.node? s.location ≠ some .directory)
    (hlink : ¬d.IsDirectoryLink p) : ¬d.Loops p s := by
  refine not_not_intro (spot?_keep hspot hslash fun m node hm hkind => ?_)
  rw [node?_erase d.tree s.location (List.cons_ne_nil _ _), if_neg, hm]
  intro hsuffix
  by_cases heq : s.location = m
  · subst heq
    rcases hkind with rfl | hkind
    · exact hfree hm
    · exact hlink ⟨s, hspot, hkind⟩
  · exact hfree (directory_of_suffix hsuffix heq hm)

/-- On `d'` a file stands at the last name of the path, which is at `s`, in the
place of what stood there on `d`. -/
structure Replaced (d : Disk) (p : Path) (s : Spot) (bytes : ByteArray) (mode : Nat)
    (d' : Disk) : Prop where
  here : d'.here = d.here
  spot : d.spot? p = .ok (some s)
  slash : s.slash = false
  fits : s.name.utf8ByteSize ≤ maxNameBytes
  free : d.tree.node? s.location ≠ some .directory
  nodes : ∀ m, d'.tree.node? m =
    if m = s.location then some (.file bytes mode) else d.tree.node? m

namespace Replaced

theorem arrived (h : d.Replaced p s bytes mode d') :
    d'.tree.node? s.location = some (.file bytes mode) := by
  rw [h.nodes, if_pos rfl]

theorem spot?_iff (h : d.Replaced p s bytes mode d') :
    d'.spot? p = .ok (some s) ↔ ¬d.Loops p s := by
  constructor
  · intro hspot
    refine not_not_intro ?_
    have hways : d'.tree.SameWays (d.tree.erase s.location) := by
      intro m node hm hkind
      have hne : s.location ≠ m := by
        rintro rfl
        rw [h.arrived] at hm
        obtain rfl := Option.some.inj hm
        rcases hkind with hnot | ⟨target, _, _, hlink, -⟩
        · cases hnot
        · rw [h.arrived] at hlink
          cases hlink
      rw [node?_erase d.tree s.location (List.cons_ne_nil _ _), if_neg, ← hm, h.nodes,
        if_neg hne.symm]
      intro hsuffix
      have hdir := directory_of_suffix hsuffix hne hm
      rw [h.arrived] at hdir
      cases hdir
    have hkept := spot?_keep hspot h.slash hways
    rwa [withTree, h.here] at hkept
  · intro hnot
    have hmore : (d.withTree (d.tree.erase s.location)).Extends d' := by
      refine ⟨h.here, fun m node hm => ?_⟩
      obtain ⟨hne, hnode⟩ := node?_of_node?_erase (l := s.location) (List.cons_ne_nil _ _) hm
      rw [h.nodes, if_neg hne, hnode]
    exact hmore.spot? (not_not.mp hnot) h.slash

/-- A path that does not lead through itself leads to the new file. -/
theorem node? (h : d.Replaced p s bytes mode d') (hnot : ¬d.Loops p s) :
    d'.node? p = .ok (.file bytes mode) := by
  obtain ⟨htext, front, last, happroach, hname⟩ := approach_of_spot? (h.spot?_iff.mpr hnot) h.slash
  refine happroach.node? htext (hname ▸ h.fits) ?_ rfl
  rw [← hname, ← Spot.location, h.arrived]

/-- The new file is removed again, and nothing takes its place. -/
theorem node?_discard (h : d.Replaced p s bytes mode d') (hnot : ¬d.Loops p s) (m : Location) :
    (d'.discard p).tree.node? m = if m = s.location then none else d.tree.node? m := by
  have hfile : Node.file bytes mode ≠ .directory := by
    intro heq
    cases heq
  unfold discard unlink
  rw [h.spot?_iff.mpr hnot]
  simp only [nodeAt?, Nat.not_lt.mpr h.fits, if_false, withTree, h.arrived, h.slash]
  rw [if_neg Bool.false_ne_true, node?_erase_of_not_directory h.arrived hfile, h.nodes]
  split <;> rfl

end Replaced

theorem rename_error_disk {f : FileFault} (h : d.rename q p = (.error f, d')) : d' = d := by
  unfold rename at h
  repeat' split at h
  all_goals first
    | exact (Prod.mk.inj h).2.symm
    | exact nomatch (Prod.mk.inj h).1

section Commit

variable (bytes : ByteArray) (mode : Nat) (hvacant : d.Vacant (temporary p))
  (hspot : d.spot? (temporary p) = .ok (some s)) (hslash : s.slash = false)

include hvacant hspot hslash

theorem node?_put_vacant (m : Location) :
    (d.tree.put s.location (.file bytes mode)).node? m
      = if m = s.location then some (.file bytes mode) else d.tree.node? m :=
  node?_put _ _ _ (canPut_of_spot? hspot hslash (by rw [hvacant s hspot]; exact nofun)) m

theorem extends_put_vacant : d.Extends (d.withTree (d.tree.put s.location (.file bytes mode))) := by
  refine ⟨rfl, fun m node hm => ?_⟩
  rw [withTree, node?_put_vacant bytes mode hvacant hspot hslash, if_neg, hm]
  rintro rfl
  rw [hvacant s hspot] at hm
  cases hm

/-- A new file at a free name is removed again. -/
theorem node?_discard (hfits : s.name.utf8ByteSize ≤ maxNameBytes) (m : Location) :
    ((d.withTree (d.tree.put s.location (.file bytes mode))).discard (temporary p)).tree.node? m
      = d.tree.node? m := by
  have hnone := hvacant s hspot
  have hold : d.tree.node? s.location ≠ some .directory := by simp [hnone]
  have hreplaced : d.Replaced (temporary p) s bytes mode
      (d.withTree (d.tree.put s.location (.file bytes mode))) :=
    ⟨rfl, hspot, hslash, hfits, hold, node?_put_vacant bytes mode hvacant hspot hslash⟩
  have hnot : ¬d.Loops (temporary p) s := by
    refine not_loops_of_not_directoryLink hspot hslash hold ?_
    rintro ⟨s', hspot', target, _, _, hlink, -⟩
    rw [hvacant s' hspot'] at hlink
    cases hlink
  rw [hreplaced.node?_discard hnot]
  split
  · next hm => rw [hm, hnone]
  · rfl

end Commit

theorem discard_here (d : Disk) (q : Path) : (d.discard q).here = d.here := by
  unfold discard unlink
  repeat' split
  all_goals rfl

/-- Two names beside each other are different, so what was moved away leaves a
free name behind. -/
theorem Renamed.vacant {a b : Spot} (hends : p.EndsIn front last)
    (h : d.Renamed d₁ (temporary p) p a b (.file bytes mode)) : d₁.Vacant (temporary p) := by
  intro s hspot
  have hhere : d₁.here = d.here := by rw [h.tree]; rfl
  obtain ⟨front', hends', -⟩ := endsIn_temporary hends
  have hsilent : (temporary p).EndsInName := ⟨front', _, hends'.segments, hends'.silent⟩
  obtain ⟨-, front₁, last₁, happroach, hname⟩ := approach_of_spot? hspot
    (slash_of_spot? hsilent hspot)
  obtain ⟨-, front₂, last₂, happroach', hname'⟩ := approach_of_spot? h.source h.sourceSlash
  obtain ⟨-, front₃, last₃, happroach'', hname''⟩ := approach_of_spot? h.target h.targetSlash
  obtain ⟨rfl, hlast₁⟩ := List.append_inj' (happroach.split.symm.trans hends'.segments) rfl
  obtain ⟨rfl, hlast₂⟩ := List.append_inj' (happroach'.split.symm.trans hends'.segments) rfl
  obtain ⟨-, hlast₃⟩ := List.append_inj' (happroach''.split.symm.trans hends.segments) rfl
  obtain rfl := (List.cons.inj hlast₁).1
  obtain rfl := (List.cons.inj hlast₂).1
  obtain rfl := (List.cons.inj hlast₃).1
  -- the directory of the name is the one that it was
  obtain ⟨n, -, hwalk⟩ := happroach.walks
  obtain ⟨n', -, hwalk'⟩ := happroach'.walks
  rw [hhere] at hwalk
  have hdir : s.directory = a.directory := by
    rcases h.moved_file.walks hwalk with hsame | hr
    · exact Except.ok.inj (hsame.det hwalk')
    · have hclosed := h.moved_file.closed _ hr
      rw [happroach.isDirectory] at hclosed
      cases hclosed
  have hlocation : s.location = a.location := by
    rw [Spot.location, Spot.location, hdir, hname, hname']
  have hne : a.location ≠ b.location := by
    intro heq
    have hsame := (List.cons.inj heq).1
    rw [hname', hname''] at hsame
    have hlength := congrArg List.length (String.ofList_injective hsame)
    rw [List.length_append] at hlength
    simp at hlength
  rw [h.nodes, hlocation, if_neg hne, if_pos rfl]

/-- How a new file at the temporary name gets to its place, or is removed. -/
theorem commit_of_vacant (hends : p.EndsIn front last) (hvacant : d.Vacant (temporary p))
    (hspot : d.spot? (temporary p) = .ok (some s)) (hslash : s.slash = false)
    (hfits : s.name.utf8ByteSize ≤ maxNameBytes) {r : Except SyncError Unit}
    (h : (d.withTree (d.tree.put s.location (.file bytes mode))).commit (temporary p) p
      = (r, d')) :
    d'.Vacant (temporary p)
      ∧ ((∃ f, r = .error (.io p f)) ∧ d'.here = d.here
          ∧ (∀ m, d'.tree.node? m = d.tree.node? m)
        ∨ r = .ok () ∧ ∃ b, d.Replaced p b bytes mode d') := by
  have hnodes := node?_put_vacant bytes mode hvacant hspot hslash
  have hextends := extends_put_vacant bytes mode hvacant hspot hslash
  have hdiscard := node?_discard bytes mode hvacant hspot hslash hfits
  have hwritten : Written d.tree (d.tree.put s.location (.file bytes mode)) s.location bytes :=
    written_put (fun node hnode => by rw [hvacant s hspot] at hnode; cases hnode) mode
  have hback := sameWays_of_files hwritten.back
  obtain ⟨front', hends', -⟩ := endsIn_temporary hends
  generalize ht : d.tree.put s.location (.file bytes mode) = t
    at h hnodes hextends hdiscard hback
  unfold commit at h
  split at h
  · next d₂ hrename =>
    obtain ⟨rfl, rfl⟩ := Prod.mk.inj h
    obtain ⟨a, b, node, hrenamed⟩ := renamed_of_rename hrename
    obtain rfl : a = s := Option.some.inj (Except.ok.inj
      (hrenamed.source.symm.trans (hextends.spot? hspot hslash)))
    obtain rfl : node = .file bytes mode := Option.some.inj
      (hrenamed.there.symm.trans ((hnodes a.location).trans (if_pos rfl)))
    have hspot' : d.spot? p = .ok (some b) :=
      spot?_keep (d := d.withTree t) hrenamed.target hrenamed.targetSlash hback
    refine ⟨hrenamed.vacant hends, Or.inr ⟨rfl, b, ?_, hspot', hrenamed.targetSlash,
      hrenamed.targetFits, ?_, ?_⟩⟩
    · rw [hrenamed.tree]
      rfl
    · exact fun hdir => hrenamed.free (hextends.kept _ _ hdir)
    · intro m
      rw [hrenamed.nodes]
      split
      · rfl
      split
      · next hm => rw [hm, hvacant a hspot]
      · next hm => exact (hnodes m).trans (if_neg hm)
  · next f d₂ hrename =>
    obtain rfl := rename_error_disk hrename
    obtain ⟨rfl, rfl⟩ := Prod.mk.inj h
    have hhere := discard_here (d.withTree t) (temporary p)
    have hless : ((d.withTree t).discard (temporary p)).Extends d :=
      ⟨hhere.symm, fun m node hm => by rwa [hdiscard] at hm⟩
    exact ⟨hless.vacant ⟨front', _, hends'.segments, hends'.silent⟩ hvacant,
      Or.inl ⟨⟨f, rfl⟩, hhere, hdiscard⟩⟩

/-! ## Making way twice -/

theorem isDirectory_of_locate? (h : d.locate? p = .ok l) (hl : d.tree.isDirectory l = true) :
    d.isDirectory p = true := by
  rw [Disk.isDirectory, Disk.node?, h]
  simp only [bind, Except.bind, isDirectory_iff.mp hl]
  rfl

theorem locate?_of_isDirectory (h : d.isDirectory p = true) :
    ∃ l, d.locate? p = .ok l ∧ d.tree.isDirectory l = true := by
  unfold Disk.isDirectory at h
  cases hnode : d.node? p with
  | error f =>
    rw [hnode] at h
    cases h
  | ok node =>
    obtain ⟨l, hl, hthere⟩ := locate?_of_node? hnode
    rw [hnode] at h
    refine ⟨l, hl, ?_⟩
    rw [FileTree.isDirectory, hthere]
    exact h

theorem isDirectory_of_createDirectory (hp : p.Tidy) (h : d.createDirectory p = (.ok (), d')) :
    d'.isDirectory p = true := by
  rcases createDirectory_cases (d := d) hp with ⟨f, hf⟩ | ⟨l, d₁, hd₁, -, -, hl, hnodes⟩
  · rw [h] at hf
    cases hf
  · rw [h] at hd₁
    obtain rfl := (Prod.mk.inj hd₁).2
    exact isDirectory_of_locate? hl (isDirectory_iff.mpr ((hnodes l).trans (if_pos rfl)))

theorem isDirectory_of_ensureDirectory (hp : p.Tidy) (h : d.ensureDirectory p = (.ok (), d')) :
    d'.isDirectory p = true := by
  unfold ensureDirectory at h
  split at h
  · next hcreate =>
    obtain rfl := (Prod.mk.inj h).2
    exact isDirectory_of_createDirectory hp hcreate
  · split at h
    · next hdir =>
      rwa [← (Prod.mk.inj h).2]
    · cases h

/-- Behind the directories that were made stands a directory. -/
theorem isDirectory_of_createDirectoriesUpTo (hp : p.Tidy) {n : Nat}
    (h : createDirectoriesUpTo n d p = (.ok (), d')) : p.text = "" ∨ d'.isDirectory p = true := by
  cases n with
  | zero => cases h
  | succ n =>
    rw [createDirectoriesUpTo] at h
    split at h
    · exact Or.inl ‹_›
    right
    split at h
    · split at h
      · cases h
      split at h
      · cases h
      · exact isDirectory_of_ensureDirectory hp h
    · next hcreate =>
      obtain rfl := (Prod.mk.inj h).2
      exact isDirectory_of_createDirectory hp hcreate
    · split at h
      · next hdir => rwa [← (Prod.mk.inj h).2]
      · cases h

theorem createDirectoriesUpTo_of_fault {f : FileFault} (h : pathFault? p = some f) (n : Nat) :
    p.text = "" ∨ (createDirectoriesUpTo n d p).2 = d := by
  by_cases hne : p.text = ""
  · exact Or.inl hne
  right
  cases n with
  | zero => rfl
  | succ n =>
    have hcreate : d.createDirectory p = (.error f, d) := by
      unfold createDirectory Disk.spot?
      simp only [h]
    have hf : f ≠ .notFound := by
      unfold pathFault? at h
      rw [if_neg hne] at h
      rintro rfl
      split at h
      · cases h
      split at h
      · cases h
      · cases h
    rw [createDirectoriesUpTo, if_neg hne, hcreate]
    cases f <;> first | exact absurd rfl hf | (simp only; split <;> rfl)

/-- The temporary file has the directory of its path. -/
theorem createParent_temporary (hends : p.EndsIn front last)
    (h : d.createParent p = (.ok (), d₁)) : (d₁.createParent (temporary p)).2 = d₁ := by
  have hsibling := isSibling_temporary hends.segments hends.silent hends.up
  obtain ⟨up, hup⟩ := parent?_isSome (p := p) (by rw [hends.names]; simp)
  obtain ⟨up', hup'⟩ := parent?_isSome (p := temporary p) (by rw [hsibling.names]; simp)
  have hparent := isParent_of_parent? hup
  have hparent' := isParent_of_parent? hup'
  have hnames : up'.names = up.names := by
    rw [hparent'.names, hsibling.names, List.dropLast_concat, hparent.names]
  have hmade : createDirectoriesUpTo (up.segments.length + 1) d up = (.ok (), d₁) := by
    unfold createParent at h
    rw [hup] at h
    simp only [createDirectories] at h
    obtain ⟨hr, hd⟩ := Prod.mk.inj h
    refine Prod.ext ?_ hd
    unfold failAt at hr
    cases hresult : (createDirectoriesUpTo (up.segments.length + 1) d up).1 with
    | error f =>
      rw [hresult] at hr
      cases hr
    | ok _ => rfl
  rw [createParent_disk hup']
  rcases isDirectory_of_createDirectoriesUpTo hparent.tidy hmade with hempty | hdir
  · refine createDirectoriesUpTo_of_no_names _ (hnames.trans ?_)
    rw [Path.names, Path.segments, hempty]
    rfl
  cases hfault : pathFault? up' with
  | some f =>
    refine (createDirectoriesUpTo_of_fault hfault _).elim (fun hempty => ?_) id
    rw [createDirectoriesUpTo, if_pos hempty]
  | none =>
    obtain ⟨l, hlocate, hl⟩ := locate?_of_isDirectory hdir
    obtain ⟨-, n, hn, hwalk⟩ := walks_of_locate? hlocate
    have hlocate' : d₁.locate? up' = .ok l := by
      have hstart : startOf d₁.here up' = startOf d₁.here up := by
        rw [startOf, startOf, hparent'.absolute, hsibling.absolute, hparent.absolute]
      rw [locate?_eq hfault, hstart]
      exact (hwalk.respell hl hnames).walk hn
    exact congrArg Prod.snd (createDirectories_of_located hlocate' hl)

/-! ## The whole exchange -/

/-- A disk on which the file at a path should have been replaced and was not.
There may be new directories around the path. -/
structure Spared (d : Disk) (p : Path) (d' : Disk) : Prop
    extends d.Paved (·.Around p) d' where
  temporary : d'.Vacant (Disk.temporary p)
  absent : p.Inward → d.Vacant p → d'.Vacant p

/-- The two ends of an exchange. -/
inductive Exchange (d : Disk) (p : Path) (bytes : ByteArray) (mode : Nat) :
    Except SyncError Unit × Disk → Prop
  | failed {d' : Disk} (q : Path) (f : FileFault) (h : d.Spared p d') :
      Exchange d p bytes mode (.error (.io q f), d')
  | replaced {d₁ d' : Disk} {s : Spot} (hpaved : d.Paved (·.Around p) d₁)
      (h : d₁.Replaced p s bytes mode d') (htemporary : d'.Vacant (temporary p)) :
      Exchange d p bytes mode (.ok (), d')

theorem spared_createParent (hends : p.EndsIn front last)
    (hvacant : (d.createParent p).2.Vacant (temporary p)) : d.Spared p (d.createParent p).2 where
  toPaved := createParent_paved d p
  temporary := hvacant
  absent hin hp := vacant_createParent hends hin hp

theorem Spared.of_same (h : d.Spared p d₁) (hends : p.EndsIn front last) (hhere : d'.here = d₁.here)
    (hnodes : ∀ m, d'.tree.node? m = d₁.tree.node? m) (htemporary : d'.Vacant (Disk.temporary p)) :
    d.Spared p d' := by
  have hmore : d₁.Extends d' := ⟨hhere, fun m node hm => (hnodes m).trans hm⟩
  have hless : d'.Extends d₁ := ⟨hhere.symm, fun m node hm => (hnodes m).symm.trans hm⟩
  refine ⟨⟨h.toExtends.trans hmore, fun m node hm hnode => ?_⟩, htemporary, fun hin hp => ?_⟩
  · obtain ⟨hdir, q, hq, hlocate⟩ := h.made m node hm ((hnodes m).symm.trans hnode)
    exact ⟨hdir, q, hq, hmore.locate? hlocate⟩
  · exact hless.vacant ⟨front, last, hends.segments, hends.silent⟩ (h.absent hin hp)

/-- An exchange from a new file at the temporary name on. -/
theorem exchange_of_commit (hends : p.EndsIn front last)
    (hspared : d.Spared p d₁) (hspot : d₁.spot? (temporary p) = .ok (some s))
    (hslash : s.slash = false) (hfits : s.name.utf8ByteSize ≤ maxNameBytes) :
    d.Exchange p bytes mode
      ((d₁.withTree (d₁.tree.put s.location (.file bytes mode))).commit (temporary p) p) := by
  cases hcommit : (d₁.withTree (d₁.tree.put s.location (.file bytes mode))).commit (temporary p) p
    with
  | mk r d' =>
    obtain ⟨htemporary, ⟨⟨f, rfl⟩, hhere, hnodes⟩ | ⟨rfl, b, hreplaced⟩⟩ :=
      commit_of_vacant hends hspared.temporary hspot hslash hfits hcommit
    · exact .failed p f (hspared.of_same hends hhere hnodes htemporary)
    · exact .replaced hspared.toPaved hreplaced htemporary

theorem replaceByCopy_exchange (hends : p.EndsIn front last)
    (hvacant : (d.createParent p).2.Vacant (temporary p))
    (hsource : d.node? source = .ok (.file bytes mode)) :
    d.Exchange p bytes mode (d.replaceByCopy source p) := by
  have hspared := spared_createParent hends hvacant
  obtain ⟨front', hends', -⟩ := endsIn_temporary hends
  unfold replaceByCopy
  cases hparent : d.createParent p with
  | mk r d₁ =>
    rw [hparent] at hspared
    cases r with
    | error x =>
      obtain ⟨q, f, rfl⟩ := createParent_eq_error (congrArg Prod.fst hparent)
      exact .failed q f hspared
    | ok _ =>
      simp only at hspared ⊢
      -- the file that is copied is the one that was there
      obtain ⟨origin, hlocate, hthere⟩ :=
        locate?_of_node? (hspared.toExtends.node? hsource)
      unfold copy
      rw [hlocate]
      simp only [hthere]
      cases htarget : writeTarget d₁.tree maxLinks (d₁.spot? (temporary p)) with
      | error f =>
        simp only
        rw [discard_of_vacant hspared.temporary]
        exact .failed source f hspared
      | ok l =>
        obtain ⟨s, hspot, hslash, hfits, rfl⟩ := spot?_of_writeTarget hspared.temporary htarget
        have hne : s.location ≠ origin := by
          rintro rfl
          rw [hspared.temporary s hspot] at hthere
          cases hthere
        simp only [if_neg hne]
        exact exchange_of_commit hends hspared hspot hslash hfits

theorem replaceByText_exchange (hends : p.EndsIn front last)
    (hvacant : (d.createParent p).2.Vacant (temporary p)) :
    d.Exchange p bytes newFileMode (d.replaceByText p bytes) := by
  have hspared := spared_createParent hends hvacant
  unfold replaceByText
  cases hparent : d.createParent p with
  | mk r d₁ =>
    rw [hparent] at hspared
    cases r with
    | error x =>
      obtain ⟨q, f, rfl⟩ := createParent_eq_error (congrArg Prod.fst hparent)
      exact .failed q f hspared
    | ok _ =>
      have hagain := createParent_temporary hends hparent
      simp only at hspared ⊢
      cases hparent' : d₁.createParent (temporary p) with
      | mk r' d₂ =>
        rw [hparent'] at hagain
        obtain rfl : d₂ = d₁ := hagain
        cases r' with
        | error x =>
          obtain ⟨q, f, rfl⟩ := createParent_eq_error (congrArg Prod.fst hparent')
          exact .failed q f hspared
        | ok _ =>
          simp only
          unfold write
          cases htarget : writeTarget d₂.tree maxLinks (d₂.spot? (temporary p)) with
          | error f => exact .failed (temporary p) f hspared
          | ok l =>
            obtain ⟨s, hspot, hslash, hfits, rfl⟩ := spot?_of_writeTarget hspared.temporary htarget
            have hmode : modeAt d₂.tree s.location = newFileMode := by
              rw [modeAt, hspared.temporary s hspot]
            simp only [hmode]
            exact exchange_of_commit hends hspared hspot hslash hfits

end Disk

end Vendoring
