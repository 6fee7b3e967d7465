import Vendoring.Proofs.Refreshing

/-!
# Writing beside a file and moving into its place

A file is written under another name and moved onto its own, on any tree. The
other name may be a link: then the file is written where the link leads
(`written_of_write`) and it is the link that is moved. What was moved is found
along a path where the path led before, or else it leads to what was written
(`Moved.walks`). So a path along which something is found reads what was written
(`Renamed.file_of_node?`).

Nothing is found in two cases only. The other name is a link, or the path itself
is a link to a directory and may lead through it. Otherwise the way to the path
is still open (`Renamed.node?`): on the way to a directory a walk sees
directories and links to directories and nothing else (`Walks.keep`), so it does
not notice the files that come and go.
-/

namespace Vendoring

open Vendoring.Path

namespace FileTree

variable {t t' : FileTree} {l m next : Location} {s : Segment} {segments : List Segment}
  {r : Except FileFault Location} {n : Nat} {bytes : ByteArray}

/-! ## The end of a walk -/

/-- A walk starts in a directory unless it is over. -/
theorem Walks.start (h : Walks t n l segments (.ok m)) (hm : t.isDirectory m = true) :
    t.isDirectory l = true := by
  cases h with
  | done => exact hm
  | step hl => exact hl
  | link hl => exact hl

/-- From what is no directory a walk does not get anywhere. -/
theorem Walks.eq_of_not_directory (h : Walks t n l segments (.ok m))
    (hl : t.isDirectory l = false) : m = l := by
  cases h with
  | done => rfl
  | step hdir =>
    rw [hl] at hdir
    cases hdir
  | link hdir =>
    rw [hl] at hdir
    cases hdir

theorem isDirectory_startOf (hl : t.isDirectory l = true) (p : Path) :
    t.isDirectory (startOf l p) = true := by
  unfold startOf
  split
  · exact isDirectory_iff.mpr t.node?_root
  · exact hl

/-- The links on the way are followed. -/
theorem Walks.not_link (h : Walks t n l segments (.ok m))
    (hl : ∀ target, t.node? l ≠ some (.link target)) :
    ∀ target, t.node? m ≠ some (.link target) := by
  generalize hr : Except.ok m = r at h
  induction h with
  | done l =>
    obtain rfl := Except.ok.inj hr
    exact hl
  | blocked hl => cases hr
  | failed hl hstep => cases hr
  | step hdir hstep hnext h ih => exact ih hnext hr
  | @link n l next s rest r target hdir hstep hnext h ih =>
    refine ih (fun target' htarget => ?_) hr
    rw [isDirectory_iff.mp (isDirectory_startOf hdir ⟨target⟩)] at htarget
    cases htarget

/-! ## The ways on two trees -/

/-- At this name stands a link that leads to a directory, through however many
links. -/
def IsDirectoryLink (t : FileTree) (l : Location) : Prop :=
  ∃ target n dir, t.node? l = some (.link target)
    ∧ Walks t n (startOf l.tail ⟨target⟩) (Path.segments ⟨target⟩) (.ok dir)
    ∧ t.isDirectory dir = true

/-- The directories and the links to directories of `t` are in `t'` too. -/
def SameWays (t t' : FileTree) : Prop :=
  ∀ m node, t.node? m = some node → node = .directory ∨ t.IsDirectoryLink m →
    t'.node? m = some node

theorem SameWays.isDirectory (h : t.SameWays t') (hl : t.isDirectory l = true) :
    t'.isDirectory l = true :=
  isDirectory_iff.mpr (h l _ (isDirectory_iff.mp hl) (Or.inl rfl))

theorem Walks.keep (hways : t.SameWays t') (h : Walks t n l segments (.ok m))
    (hm : t.isDirectory m = true) : Walks t' n l segments (.ok m) := by
  generalize hr : Except.ok m = r at h
  induction h with
  | done l => exact .done l
  | blocked hl => cases hr
  | failed hl hstep => cases hr
  | @step n l next s rest r hl hstep hnext h ih =>
    subst hr
    have hdir := isDirectory_iff.mp (h.start hm)
    have hkept := hways next _ hdir (Or.inl rfl)
    refine .step (hways.isDirectory hl) (step_of_isSome hstep (by rw [hkept]; rfl))
      (fun target htarget => ?_) (ih rfl)
    rw [hkept] at htarget
    cases htarget
  | @link n l next s rest r target hl hstep hnext h ih =>
    subst hr
    obtain ⟨n₁, n₂, dir, -, hlink, hrest⟩ := h.split
    have htail : next.tail = l := tail_of_step hl hstep (by rw [hnext]; exact nofun)
    have hway : t.IsDirectoryLink next :=
      ⟨target, n₁, dir, hnext, by rw [htail]; exact hlink, hrest.start hm⟩
    have hkept := hways next _ hnext (Or.inr hway)
    exact .link (hways.isDirectory hl) (step_of_isSome hstep (by rw [hkept]; rfl)) hkept (ih rfl)

/-- Where files come and go, a walk gets on to what stays. -/
theorem Walks.keep_to (hkept : ∀ m node, t.node? m = some node → node.isFile = false →
    t'.node? m = some node) (hm : t'.node? m = t.node? m) (h : Walks t n l segments (.ok m)) :
    Walks t' n l segments (.ok m) := by
  have directory {l : Location} (hl : t.isDirectory l = true) : t'.isDirectory l = true :=
    isDirectory_iff.mpr (hkept l _ (isDirectory_iff.mp hl) rfl)
  generalize hr : Except.ok m = r at h
  induction h with
  | done l => exact .done l
  | blocked hl => cases hr
  | failed hl hstep => cases hr
  | @step n l next s rest r hl hstep hnext h ih =>
    subst hr
    obtain ⟨node, hnode⟩ := node?_of_step hl hstep
    have hsame : t'.node? next = some node := by
      cases hfile : node.isFile with
      | false => exact hkept next node hnode hfile
      | true =>
        have hnot : t.isDirectory next = false := by
          rw [FileTree.isDirectory, hnode]
          cases node <;> first | rfl | cases hfile
        rw [h.eq_of_not_directory hnot] at hm
        exact hm.trans hnode
    refine .step (directory hl) (step_of_isSome hstep (by rw [hsame]; rfl))
      (fun target htarget => ?_) (ih rfl)
    exact hnext target (hnode.trans (hsame.symm.trans htarget))
  | @link n l next s rest r target hl hstep hnext h ih =>
    subst hr
    have hsame := hkept next _ hnext rfl
    exact .link (directory hl) (step_of_isSome hstep (by rw [hsame]; rfl)) hsame (ih rfl)

theorem IsDirectoryLink.keep (hways : t.SameWays t') (h : t.IsDirectoryLink l) :
    t'.IsDirectoryLink l := by
  obtain ⟨target, n, dir, hlink, hwalk, hdir⟩ := id h
  exact ⟨target, n, dir, hways l _ hlink (Or.inr h), hwalk.keep hways hdir, hways.isDirectory hdir⟩

/-- Between `t` and `t'` a file was written at `l`. -/
structure Written (t t' : FileTree) (l : Location) (bytes : ByteArray) : Prop where
  kept : ∀ m node, t.node? m = some node → node.isFile = false → t'.node? m = some node
  back : ∀ m node, t'.node? m = some node → node.isFile = false → t.node? m = some node
  content : ∀ node, t'.node? l = some node → ∃ mode, node = .file bytes mode

theorem written_put (hold : ∀ node, t.node? l = some node → node.isFile = true) (mode : Nat) :
    Written t (t.put l (.file bytes mode)) l bytes := by
  by_cases hput : t.CanPut l
  · have hnodes := node?_put t l (.file bytes mode) hput
    refine ⟨fun m node hm hfile => ?_, fun m node hm hfile => ?_, fun node hnode => ⟨mode, ?_⟩⟩
    · rw [hnodes, if_neg, hm]
      rintro rfl
      rw [hold node hm] at hfile
      cases hfile
    · rw [hnodes] at hm
      split at hm
      · obtain rfl := Option.some.inj hm
        cases hfile
      · exact hm
    · rw [hnodes, if_pos rfl] at hnode
      exact (Option.some.inj hnode).symm
  · -- there is no file with an improper name
    rw [put_of_not_canPut t l _ hput]
    refine ⟨fun m node hm _ => hm, fun m node hm _ => hm, fun node hnode => absurd ?_ hput⟩
    have hfile := hold node hnode
    cases l with
    | nil =>
      rw [node?_root] at hnode
      obtain rfl := Option.some.inj hnode
      cases hfile
    | cons name up =>
      obtain ⟨hname, hup⟩ := up_of_node? hnode
      refine ⟨hname, hup, fun hdir => ?_⟩
      rw [hnode] at hdir
      obtain rfl := Option.some.inj hdir
      cases hfile

theorem sameWays_of_files (h : ∀ m node, t.node? m = some node → node.isFile = false →
    t'.node? m = some node) : t.SameWays t' := by
  intro m node hnode hway
  refine h m node hnode ?_
  rcases hway with rfl | ⟨target, _, _, hlink, _⟩
  · rfl
  · rw [hnode] at hlink
    rw [Option.some.inj hlink]
    rfl

/-! ## Steps to a name -/

/-- The location, if something is there. -/
def there? (t : FileTree) (l : Location) : Except FileFault Location :=
  if (t.node? l).isSome then .ok l else .error .notFound

theorem there?_eq_ok_iff : t.there? l = .ok m ↔ m = l ∧ ∃ node, t.node? l = some node := by
  unfold there?
  split
  · next h =>
    rw [Option.isSome_iff_exists] at h
    exact ⟨fun heq => ⟨(Except.ok.inj heq).symm, h⟩, fun ⟨heq, _⟩ => by rw [heq]⟩
  · next h =>
    rw [Option.isSome_iff_exists] at h
    exact ⟨nofun, fun ⟨_, hnode⟩ => absurd hnode h⟩

theorem eq_of_step (hs : s.isSilent = false) (hup : s ≠ ['.', '.'])
    (hstep : t.step l s = .ok next) :
    next = String.ofList s :: l := by
  rw [step_of_name hs hup] at hstep
  split at hstep
  · cases hstep
  split at hstep
  · exact (Except.ok.inj hstep).symm
  · cases hstep

theorem step_eq_there? (hs : s.isSilent = false) (hup : s ≠ ['.', '.'])
    (hfits : (String.ofList s).utf8ByteSize ≤ maxNameBytes) :
    t.step l s = t.there? (String.ofList s :: l) := by
  rw [step_of_name hs hup, if_neg (Nat.not_lt.mpr hfits), there?]

/-- A walk along one name to a link goes on along the link. -/
theorem Walks.of_last_link {target : String} (hl : t.isDirectory l = true)
    (hstep : t.step l s = .ok next) (hlink : t.node? next = some (.link target))
    (h : Walks t n l [s] r) :
    ∃ n, Walks t n (startOf l ⟨target⟩) (Path.segments ⟨target⟩) r := by
  cases h with
  | blocked hnot =>
    rw [hl] at hnot
    cases hnot
  | failed hl hstep' =>
    rw [hstep] at hstep'
    cases hstep'
  | step hl hstep' hnext =>
    rw [hstep] at hstep'
    obtain rfl := Except.ok.inj hstep'
    exact absurd hlink (hnext target)
  | @link n _ next' _ _ _ target' hl hstep' hnext h =>
    rw [hstep] at hstep'
    obtain rfl := Except.ok.inj hstep'
    rw [hlink] at hnext
    obtain rfl := Node.link.inj (Option.some.inj hnext)
    rw [List.append_nil] at h
    exact ⟨n, h⟩

/-! ## What was moved -/

/-- The tree `t'` has something at `b` that came from elsewhere in `t`: a file,
or a link that led to `r`, and what stands there is no directory. -/
structure Moved (t t' : FileTree) (b : Location) (r : Except FileFault Location) : Prop where
  kept : ∀ m node, t'.node? m = some node → m = b ∨ t.node? m = some node
  moved : (r = .ok b ∧ ∀ target, t'.node? b ≠ some (.link target))
    ∨ ∃ target n, t'.node? b = some (.link target)
      ∧ Walks t n (startOf b.tail ⟨target⟩) (Path.segments ⟨target⟩) r
  closed : ∀ l, r = .ok l → t'.isDirectory l = false

namespace Moved

variable {b : Location}

theorem isDirectory (h : t.Moved t' b r) (hl : t'.isDirectory l = true) :
    t.isDirectory l = true := by
  have hnode := isDirectory_iff.mp hl
  rcases h.kept l _ hnode with rfl | hsame
  · rcases h.moved with ⟨hr, -⟩ | ⟨target, n, hlink, -⟩
    · rw [h.closed l hr] at hl
      cases hl
    · rw [hlink] at hnode
      cases hnode
  · exact isDirectory_iff.mpr hsame

/-- What a path leads to it led to before, or it is what was moved. -/
theorem walks (h : t.Moved t' b r) (hwalk : Walks t' n l segments (.ok m)) :
    Walks t n l segments (.ok m) ∨ r = .ok m := by
  -- over the links, since the link that was moved may lead on through itself
  induction n using Nat.strongRecOn generalizing l m segments with
  | ind n ihLinks =>
  generalize hm : Except.ok m = rm at hwalk
  induction hwalk with
  | done l => exact Or.inl (.done l)
  | blocked hl => cases hm
  | failed hl hstep => cases hm
  | @step n l next s rest rm hl hstep hnext hwalk ih =>
    subst hm
    obtain ⟨node, hnode⟩ := node?_of_step hl hstep
    rcases h.kept next node hnode with rfl | hsame
    · rcases h.moved with ⟨hr, -⟩ | ⟨target, _, hlink, -⟩
      · rw [hwalk.eq_of_not_directory (h.closed next hr)]
        exact Or.inr hr
      · exact absurd hlink (hnext target)
    · refine (ih ihLinks rfl).imp_left fun hwalk => ?_
      exact .step (h.isDirectory hl) (step_of_isSome hstep (by rw [hsame]; rfl))
        (fun target htarget => hnext target (hnode.trans (hsame.symm.trans htarget))) hwalk
  | @link n l next s rest rm target hl hstep hnext hwalk ih =>
    subst hm
    rcases h.kept next _ hnext with rfl | hsame
    · have htail : next.tail = l := tail_of_step hl hstep (by rw [hnext]; exact nofun)
      rcases h.moved with ⟨-, hnot⟩ | ⟨target', k, hlink, hr⟩
      · exact absurd hnext (hnot target)
      obtain rfl : target = target' := by
        rw [hnext] at hlink
        exact Node.link.inj (Option.some.inj hlink)
      rw [htail] at hr
      obtain ⟨n₁, n₂, dir, hn, hfirst, hrest⟩ := hwalk.split
      have hdir : r = .ok dir :=
        (ihLinks n₁ (by omega) hfirst).elim (fun hfirst => hr.det hfirst) id
      rw [hrest.eq_of_not_directory (h.closed dir hdir)]
      exact Or.inr hdir
    · refine (ih (fun k hk => ihLinks k (by omega)) rfl).imp_left fun hwalk => ?_
      exact .link (h.isDirectory hl) (step_of_isSome hstep (by rw [hsame]; rfl)) hsame hwalk

/-- Along the name that it was moved to, a path leads to it. -/
theorem eq_of_walks {start dir : Location} {front : List Segment} {k : Nat}
    (h : t.Moved t' (String.ofList s :: dir) r) (hs : s.isSilent = false) (hup : s ≠ ['.', '.'])
    (hfront : Walks t k start front (.ok dir)) (hwalk : Walks t' n start (front ++ [s]) (.ok m)) :
    r = .ok m ∧ ∀ target, t'.node? m ≠ some (.link target) := by
  obtain ⟨n₁, n₂, dir', -, hfirst, hlast⟩ := hwalk.split
  have hdir : t'.isDirectory dir' = true := by
    cases hlast <;> assumption
  obtain rfl : dir' = dir := by
    rcases h.walks hfirst with hsame | hr
    · exact Except.ok.inj (hsame.det hfront)
    · rw [h.closed dir' hr] at hdir
      cases hdir
  refine ⟨?_, hlast.not_link fun target htarget => ?_⟩
  · cases hlast with
    | step _ hstep hnext hdone =>
      obtain rfl := eq_of_step hs hup hstep
      cases hdone
      rcases h.moved with ⟨hr, -⟩ | ⟨target, _, hlink, -⟩
      · exact hr
      · exact absurd hlink (hnext target)
    | @link _ _ _ _ _ _ target _ hstep hnext hlink =>
      obtain rfl := eq_of_step hs hup hstep
      rw [List.append_nil] at hlink
      rcases h.moved with ⟨-, hnot⟩ | ⟨target', _, hlink', hr⟩
      · exact absurd hnext (hnot target)
      · rw [hnext] at hlink'
        obtain rfl := Node.link.inj (Option.some.inj hlink')
        exact (h.walks hlink).elim (fun hsame => hr.det hsame) id
  · rw [isDirectory_iff.mp hdir] at htarget
    cases htarget

end Moved

end FileTree

namespace Disk

open FileTree

variable {d d₁ d₂ : Disk} {t t' : FileTree} {p q : Path} {s a b : Spot} {node : Node}
  {start l directory : Location} {segments front : List Segment} {last : Segment}
  {bytes : ByteArray} {n : Nat}

/-! ## The last name of a path -/

/-- The last name of the path is a link. -/
def IsLink (d : Disk) (p : Path) : Prop :=
  ∃ s target, d.spot? p = .ok (some s) ∧ d.tree.node? s.location = some (.link target)

/-- The last name of the path is a link that leads to a directory. -/
def IsDirectoryLink (d : Disk) (p : Path) : Prop :=
  ∃ s, d.spot? p = .ok (some s) ∧ d.tree.IsDirectoryLink s.location

theorem not_isDirectoryLink (hfree : d.tree.LinkFree) (p : Path) : ¬d.IsDirectoryLink p :=
  fun ⟨_, _, target, _, _, hlink, _⟩ => hfree _ target hlink

/-- How segments lead to the last of them. -/
structure Approach (t : FileTree) (start : Location) (segments front : List Segment)
    (last : Segment) (directory : Location) : Prop where
  split : segments = front ++ [last]
  silent : last.isSilent = false
  up : last ≠ ['.', '.']
  walks : ∃ n ≤ maxLinks, Walks t n start front (.ok directory)
  isDirectory : t.isDirectory directory = true

theorem splitLast_of_not_slash (hne : segments ≠ []) (h : (splitLast segments).2.2 = false) :
    segments = (splitLast segments).1 ++ [(splitLast segments).2.1] := by
  unfold splitLast at h ⊢
  simp only [decide_eq_false_iff_not, Nat.not_lt] at h
  have hsuffix := List.dropWhile_suffix (· == ([] : Segment)) (l := segments.reverse)
  have hall : segments.reverse.dropWhile (· == []) = segments.reverse :=
    hsuffix.eq_of_length_le (by rwa [List.length_reverse])
  obtain ⟨s, rest, hs⟩ := List.exists_cons_of_ne_nil (List.reverse_eq_nil_iff.not.mpr hne)
  have hsegments : segments = rest.reverse ++ [s] := by
    rw [← List.reverse_cons, ← hs, List.reverse_reverse]
  simp only [hall]
  rw [hs]
  exact hsegments

theorem approach_of_spotFrom? (hne : segments ≠ [])
    (h : spotFrom? t start segments = .ok (some s)) (hslash : s.slash = false) :
    ∃ front last, Approach t start segments front last s.directory
      ∧ s.name = String.ofList last := by
  simp only [spotFrom?] at h
  cases hwalk : t.walk maxLinks start (splitLast segments).1 with
  | error f =>
    rw [hwalk] at h
    cases h
  | ok l =>
    rw [hwalk] at h
    simp only [bind, Except.bind] at h
    split at h
    · cases h
    next hdir =>
    split at h
    · cases h
    next hname =>
    obtain rfl := Option.some.inj (Except.ok.inj h)
    rw [Bool.or_eq_true, not_or, Bool.not_eq_true] at hname
    exact ⟨_, _, ⟨splitLast_of_not_slash hne hslash, hname.1, by simpa using hname.2,
      walks_of_walk hwalk, by simpa using hdir⟩, rfl⟩

theorem approach_of_spot? (h : d.spot? p = .ok (some s)) (hslash : s.slash = false) :
    pathFault? p = none ∧ ∃ front last,
      Approach d.tree (startOf d.here p) p.segments front last s.directory
        ∧ s.name = String.ofList last := by
  unfold Disk.spot? at h
  split at h
  · cases h
  next htext =>
  exact ⟨htext, approach_of_spotFrom? (List.splitOn_ne_nil '/' p.text.toList) h hslash⟩

theorem locate?_of_node? (h : d.node? p = .ok node) :
    ∃ l, d.locate? p = .ok l ∧ d.tree.node? l = some node := by
  unfold Disk.node? at h
  cases hlocate : d.locate? p with
  | error f =>
    rw [hlocate] at h
    cases h
  | ok l =>
    rw [hlocate] at h
    simp only [bind, Except.bind] at h
    split at h
    · next node' hnode =>
      rw [Except.ok.inj h] at hnode
      exact ⟨l, rfl, hnode⟩
    · cases h

namespace Approach

theorem endsIn (h : Approach t start p.segments front last directory) : p.EndsIn front last :=
  ⟨h.split, h.silent, h.up⟩

theorem keep (h : Approach t start segments front last directory) (hways : t.SameWays t') :
    Approach t' start segments front last directory where
  split := h.split
  silent := h.silent
  up := h.up
  walks := by
    obtain ⟨n, hn, hwalk⟩ := h.walks
    exact ⟨n, hn, hwalk.keep hways h.isDirectory⟩
  isDirectory := hways.isDirectory h.isDirectory

theorem spot? (h : Approach d.tree (startOf d.here p) p.segments front last directory)
    (htext : pathFault? p = none) :
    d.spot? p = .ok (some ⟨directory, String.ofList last, false⟩) := by
  obtain ⟨n, hn, hwalk⟩ := h.walks
  exact spot?_of_walks h.endsIn htext hn hwalk h.isDirectory

/-- What is no link is where a path to its name ends. -/
theorem locate?_eq_there? (h : Approach d.tree (startOf d.here p) p.segments front last directory)
    (htext : pathFault? p = none) (hfits : (String.ofList last).utf8ByteSize ≤ maxNameBytes)
    (hlink : ∀ target, d.tree.node? (String.ofList last :: directory) ≠ some (.link target)) :
    d.locate? p = d.tree.there? (String.ofList last :: directory) := by
  obtain ⟨n, hn, hwalk⟩ := h.walks
  have hstep := step_eq_there? (t := d.tree) (l := directory) h.silent h.up hfits
  have hlast : Walks d.tree 0 directory [last]
      (d.tree.there? (String.ofList last :: directory)) := by
    unfold there? at hstep ⊢
    split
    · next hsome =>
      rw [if_pos hsome] at hstep
      exact .step h.isDirectory hstep hlink (.done _)
    · next hnone =>
      rw [if_neg hnone] at hstep
      exact .failed h.isDirectory hstep
  rw [locate?_eq htext, h.split]
  exact (hwalk.append hlast).walk hn

/-- A file at the last name is what the path leads to. -/
theorem node? (h : Approach d.tree (startOf d.here p) p.segments front last directory)
    (htext : pathFault? p = none) (hfits : (String.ofList last).utf8ByteSize ≤ maxNameBytes)
    (hnode : d.tree.node? (String.ofList last :: directory) = some node)
    (hfile : node.isFile = true) : d.node? p = .ok node := by
  have hlink : ∀ target, d.tree.node? (String.ofList last :: directory) ≠ some (.link target) := by
    intro target htarget
    rw [hnode] at htarget
    obtain rfl := Option.some.inj htarget
    cases hfile
  rw [Disk.node?, h.locate?_eq_there? htext hfits hlink, there?, hnode, Option.isSome_some,
    if_pos rfl]
  simp only [bind, Except.bind, hnode]

/-- Where nothing stands at the last name the path leads nowhere. -/
theorem missing (h : Approach d.tree (startOf d.here p) p.segments front last directory)
    (htext : pathFault? p = none) (hfits : (String.ofList last).utf8ByteSize ≤ maxNameBytes)
    (hnone : d.tree.node? (String.ofList last :: directory) = none) :
    d.node? p = .error .notFound := by
  rw [Disk.node?, h.locate?_eq_there? htext hfits (by simp [hnone]), there?, hnone]
  rfl

end Approach

theorem spot?_keep (hspot : d.spot? p = .ok (some s)) (hslash : s.slash = false)
    (hways : d.tree.SameWays t') : (d.withTree t').spot? p = .ok (some s) := by
  obtain ⟨htext, front, last, happroach, hname⟩ := approach_of_spot? hspot hslash
  have hkept : (d.withTree t').spot? p = _ := Approach.spot? (happroach.keep hways) htext
  rw [hkept, ← hname, ← hslash]

/-- Where files come and go, a path leads to what stays. -/
theorem node?_keep (hhere : d₁.here = d.here)
    (hkept : ∀ m node, d.tree.node? m = some node → node.isFile = false →
      d₁.tree.node? m = some node)
    (hsame : ∀ l, d.locate? p = .ok l → d₁.tree.node? l = d.tree.node? l)
    (h : d.node? p = .ok node) : d₁.node? p = .ok node := by
  obtain ⟨l, hl, hnode⟩ := locate?_of_node? h
  obtain ⟨htext, n, hn, hwalk⟩ := walks_of_locate? hl
  have hlocate : d₁.locate? p = .ok l := by
    rw [locate?_eq htext, hhere]
    exact (hwalk.keep_to hkept (hsame l hl)).walk hn
  rw [Disk.node?, hlocate]
  simp only [bind, Except.bind, hsame l hl, hnode]

theorem IsDirectoryLink.keep (h : d.IsDirectoryLink p) (hspot : d.spot? p = .ok (some s))
    (hslash : s.slash = false) (hways : d.tree.SameWays t') :
    (d.withTree t').IsDirectoryLink p := by
  obtain ⟨s', hspot', hlink⟩ := h
  obtain rfl := Option.some.inj (Except.ok.inj (hspot.symm.trans hspot'))
  exact ⟨s, spot?_keep hspot hslash hways, FileTree.IsDirectoryLink.keep hways hlink⟩

/-! ## Writing -/

theorem node?_of_nodeAt? {there : Option Node} (h : nodeAt? t s = .ok there) :
    s.name.utf8ByteSize ≤ maxNameBytes ∧ t.node? s.location = there := by
  unfold nodeAt? at h
  split at h
  · cases h
  · next hfits => exact ⟨Nat.le_of_not_lt hfits, Except.ok.inj h⟩

/-- A file opened at `s` for writing is the one at `l`: no link stands at `s`, or
one that leads on. -/
inductive WritesTo (t : FileTree) (l : Location) : Spot → Prop
  | here {s : Spot} (hslash : s.slash = false) (hfits : s.name.utf8ByteSize ≤ maxNameBytes)
      (hl : l = s.location) (hfile : ∀ node, t.node? l = some node → node.isFile = true) :
      WritesTo t l s
  | link {s s' : Spot} {target : String} (hslash : s.slash = false)
      (hfits : s.name.utf8ByteSize ≤ maxNameBytes)
      (hlink : t.node? s.location = some (.link target))
      (hspot : spotFrom? t (startOf s.directory ⟨target⟩) (Path.segments ⟨target⟩)
        = .ok (some s')) (h : WritesTo t l s') : WritesTo t l s

theorem writeTarget_cases {links : Nat} (h : writeTarget t links (.ok (some s)) = .ok l) :
    s.slash = false ∧ s.name.utf8ByteSize ≤ maxNameBytes
    ∧ ((l = s.location ∧ ∀ node, t.node? l = some node → node.isFile = true)
      ∨ ∃ target links', links = links' + 1 ∧ t.node? s.location = some (.link target)
        ∧ writeTarget t links' (spotFrom? t (startOf s.directory ⟨target⟩)
            (Path.segments ⟨target⟩)) = .ok l) := by
  unfold writeTarget at h
  split at h
  · cases h
  next hslash =>
  refine ⟨eq_false_of_ne_true hslash, ?_⟩
  split at h
  · cases h
  · cases h
  · next target hnode =>
    obtain ⟨hfits, hthere⟩ := node?_of_nodeAt? hnode
    cases links with
    | zero => cases h
    | succ links => exact ⟨hfits, Or.inr ⟨target, links, rfl, hthere, h⟩⟩
  · next node hdirectory hlink hnode =>
    obtain ⟨hfits, hthere⟩ := node?_of_nodeAt? hnode
    obtain rfl := Except.ok.inj h
    refine ⟨hfits, Or.inl ⟨rfl, fun node' hnode' => ?_⟩⟩
    rw [hthere] at hnode'
    subst hnode'
    cases node' with
    | file bytes mode => rfl
    | directory => exact absurd rfl hdirectory
    | link target => exact absurd rfl (hlink target)

theorem writesTo_of_writeTarget {links : Nat} {spot : Except FileFault LastName}
    (h : writeTarget t links spot = .ok l) : ∃ s, spot = .ok (some s) ∧ WritesTo t l s := by
  match spot with
  | .error f => cases links <;> cases h
  | .ok none => cases links <;> cases h
  | .ok (some s) =>
    obtain ⟨hslash, hfits, ⟨hl, hfile⟩ | ⟨target, links', rfl, hlink, hrest⟩⟩ := writeTarget_cases h
    · exact ⟨s, rfl, .here hslash hfits hl hfile⟩
    · obtain ⟨s', hspot, hwrites⟩ := writesTo_of_writeTarget hrest
      exact ⟨s, rfl, .link hslash hfits hlink hspot hwrites⟩

namespace WritesTo

theorem slash (h : WritesTo t l s) : s.slash = false := by
  cases h <;> assumption

theorem isFile (h : WritesTo t l s) : ∀ node, t.node? l = some node → node.isFile = true := by
  induction h with
  | here _ _ _ hfile => exact hfile
  | link _ _ _ _ _ ih => exact ih

/-- With the file in the tree the name leads to it. -/
theorem walks (h : WritesTo t l s) (hwritten : Written t t' l bytes)
    (hdir : t.isDirectory s.directory = true) (hname : s.name = String.ofList last)
    (hsilent : last.isSilent = false) (hup : last ≠ ['.', '.']) :
    ∃ n, Walks t' n s.directory [last] (t'.there? l) := by
  have hways := sameWays_of_files hwritten.kept
  induction h generalizing last with
  | @here s hslash hfits hl hfile =>
    rw [hname] at hfits
    have hstep := step_eq_there? (t := t') (l := s.directory) hsilent hup hfits
    rw [← hname, ← Spot.location, ← hl] at hstep
    refine ⟨0, ?_⟩
    cases hnode : t'.node? l with
    | none =>
      have hthere : t'.there? l = .error .notFound := by rw [there?, hnode]; rfl
      rw [hthere] at hstep ⊢
      exact .failed (hways.isDirectory hdir) hstep
    | some node =>
      have hthere : t'.there? l = .ok l := there?_eq_ok_iff.mpr ⟨rfl, node, hnode⟩
      rw [hthere] at hstep ⊢
      refine .step (hways.isDirectory hdir) hstep (fun target htarget => ?_) (.done l)
      obtain ⟨mode, hcontent⟩ := hwritten.content _ htarget
      cases hcontent
  | @link s s' target hslash hfits hlink hspot h ih =>
    obtain ⟨front, last', happroach, hname'⟩ :=
      approach_of_spotFrom? (List.splitOn_ne_nil '/' target.toList) hspot h.slash
    obtain ⟨n₂, hlast⟩ := ih happroach.isDirectory hname' happroach.silent happroach.up
    obtain ⟨n₁, -, hfront⟩ := (happroach.keep hways).walks
    have hwalk := hfront.append hlast
    rw [← happroach.split] at hwalk
    have hkept := hwritten.kept _ _ hlink rfl
    have hstep : t'.step s.directory last = .ok s.location := by
      rw [step_eq_there? hsilent hup (hname ▸ hfits), ← hname]
      exact there?_eq_ok_iff.mpr ⟨rfl, _, hkept⟩
    exact ⟨_, .link (hways.isDirectory hdir) hstep hkept (by rwa [List.append_nil])⟩

end WritesTo

/-- The path leads to the file that was written, if it is there. -/
theorem written_of_write (h : d.write q bytes = (.ok (), d₁)) :
    ∃ s t₁ l n, d.spot? q = .ok (some s) ∧ s.slash = false ∧ d₁ = d.withTree t₁
      ∧ Written d.tree t₁ l bytes ∧ Walks t₁ n s.directory [s.name.toList] (t₁.there? l) := by
  unfold write at h
  split at h
  · cases h
  next l htarget =>
  obtain rfl := (Prod.mk.inj h).2
  obtain ⟨s, hspot, hwrites⟩ := writesTo_of_writeTarget htarget
  obtain ⟨-, front, last, happroach, hname⟩ := approach_of_spot? hspot hwrites.slash
  have hwritten : Written d.tree (d.tree.put l (.file bytes (modeAt d.tree l))) l bytes :=
    written_put hwrites.isFile _
  obtain ⟨n, hwalk⟩ := hwrites.walks hwritten happroach.isDirectory hname happroach.silent
    happroach.up
  refine ⟨s, _, l, n, hspot, hwrites.slash, rfl, hwritten, ?_⟩
  rw [hname, String.toList_ofList]
  exact hwalk

/-! ## Moving -/

/-- What stood at the spot `a` of `q` was moved to the spot `b` of `p`. -/
structure Renamed (d d₁ : Disk) (q p : Path) (a b : Spot) (node : Node) : Prop where
  source : d.spot? q = .ok (some a)
  target : d.spot? p = .ok (some b)
  sourceSlash : a.slash = false
  targetSlash : b.slash = false
  sourceFits : a.name.utf8ByteSize ≤ maxNameBytes
  targetFits : b.name.utf8ByteSize ≤ maxNameBytes
  there : d.tree.node? a.location = some node
  movable : node ≠ .directory
  free : d.tree.node? b.location ≠ some .directory
  tree : d₁ = d.withTree d₁.tree
  nodes : ∀ m, d₁.tree.node? m = if m = b.location then some node
    else if m = a.location then none else d.tree.node? m

/-- What stands at `l` is put at a spot that holds no directory. -/
theorem node?_put_erase (hb : d.spot? p = .ok (some b)) (hslash : b.slash = false)
    (hnode : d.tree.node? l = some node) (hmovable : node ≠ .directory)
    (hfree : d.tree.node? b.location ≠ some .directory) (m : Location) :
    ((d.tree.erase l).put b.location node).node? m
      = if m = b.location then some node else if m = l then none else d.tree.node? m := by
  obtain ⟨htext, front, last, happroach, hname⟩ := approach_of_spot? hb hslash
  have herase := node?_erase_of_not_directory hnode hmovable
  have hlocation : b.location = String.ofList last :: b.directory := by rw [Spot.location, hname]
  have hput : (d.tree.erase l).CanPut b.location := by
    rw [hlocation]
    refine ⟨happroach.endsIn.fileName htext, ?_, fun hdir => ?_⟩
    · have hdirectory := isDirectory_iff.mp happroach.isDirectory
      rw [herase, if_neg, hdirectory]
      rintro rfl
      rw [hnode] at hdirectory
      exact hmovable (Option.some.inj hdirectory)
    · rw [← hlocation, herase] at hdir
      split at hdir
      · cases hdir
      · exact hfree hdir
  rw [node?_put _ _ node hput, herase]

theorem renamed_of_rename (h : d.rename q p = (.ok (), d₁)) :
    ∃ a b node, d.Renamed d₁ q p a b node := by
  unfold rename at h
  split at h
  · cases h
  · cases h
  · cases h
  · cases h
  next a b ha hb =>
  split at h
  · cases h
  · cases h
  · cases h
  next node there hnode hthere =>
  obtain ⟨hsource, hnode⟩ := node?_of_nodeAt? hnode
  obtain ⟨htarget, hthere⟩ := node?_of_nodeAt? hthere
  split at h
  · cases h
  next hnot =>
  split at h
  · cases h
  next hslash =>
  rw [Bool.or_eq_true, not_or, Bool.not_eq_true, Bool.not_eq_true] at hslash
  have hmovable : node ≠ .directory := by
    rintro rfl
    exact hnot rfl
  split at h
  · next hsame =>
    obtain rfl := (Prod.mk.inj h).2
    have hfree : d.tree.node? b.location ≠ some .directory := by
      rw [← hsame, hnode]
      exact fun heq => hmovable (Option.some.inj heq)
    refine ⟨a, b, node, ha, hb, hslash.1, hslash.2, hsource, htarget, hnode, hmovable, hfree, rfl,
      fun m => ?_⟩
    rw [hsame] at hnode ⊢
    split
    · next hm => rw [hm, hnode]
    · rfl
  next hne =>
  split at h
  · cases h
  next hfree =>
  obtain rfl := (Prod.mk.inj h).2
  have hfree : d.tree.node? b.location ≠ some .directory := by
    rw [hthere]
    rintro rfl
    exact hfree rfl
  refine ⟨a, b, node, ha, hb, hslash.1, hslash.2, hsource, htarget, hnode, hmovable, hfree, rfl,
    fun m => node?_put_erase hb hslash.2 hnode hmovable hfree m⟩

namespace Renamed

variable {target : String}

theorem arrived (h : d.Renamed d₁ q p a b node) : d₁.tree.node? b.location = some node := by
  rw [h.nodes, if_pos rfl]

theorem kept (h : d.Renamed d₁ q p a b node) {m : Location} {node' : Node}
    (hm : d₁.tree.node? m = some node') : m = b.location ∨ d.tree.node? m = some node' := by
  rw [h.nodes] at hm
  split at hm
  · exact Or.inl ‹_›
  split at hm
  · cases hm
  · exact Or.inr hm

/-- The source is one step from its directory. -/
theorem step (h : d.Renamed d₁ q p a b node) : d.tree.isDirectory a.directory = true
    ∧ d.tree.step a.directory a.name.toList = .ok a.location := by
  obtain ⟨-, front, last, happroach, hname⟩ := approach_of_spot? h.source h.sourceSlash
  have hfits := h.sourceFits
  rw [hname] at hfits
  refine ⟨happroach.isDirectory, ?_⟩
  rw [hname, String.toList_ofList, step_eq_there? happroach.silent happroach.up hfits, ← hname]
  exact there?_eq_ok_iff.mpr ⟨rfl, _, h.there⟩

theorem moved_file (h : d.Renamed d₁ q p a b (.file bytes mode)) :
    d.tree.Moved d₁.tree b.location (.ok b.location) := by
  refine ⟨fun _ _ hm => h.kept hm, Or.inl ⟨rfl, fun target htarget => ?_⟩, fun m hm => ?_⟩
  · rw [h.arrived] at htarget
    cases htarget
  · obtain rfl := Except.ok.inj hm
    rw [FileTree.isDirectory, h.arrived]
    rfl

/-- No link was written through to the file that is moved. -/
theorem eq_of_walks (h : d.Renamed d₁ q p a b (.file bytes mode))
    (hwalk : Walks d.tree n a.directory [a.name.toList] (d.tree.there? l)) : l = a.location := by
  obtain ⟨hdirectory, hstep⟩ := h.step
  have hlast : Walks d.tree 0 a.directory [a.name.toList] (.ok a.location) := by
    refine .step hdirectory hstep (fun target htarget => ?_) (.done _)
    rw [h.there] at htarget
    cases htarget
  exact (there?_eq_ok_iff.mp (hwalk.det hlast)).1.symm

/-- Where a moved link leads, what was written stands, or the link itself. -/
theorem found (h : d.Renamed d₁ q p a b (.link target))
    (hcontent : ∀ node, d.tree.node? l = some node → ∃ mode, node = .file bytes mode)
    {m : Location} {node' : Node} (hm : d.tree.there? l = .ok m)
    (hnode' : d₁.tree.node? m = some node') :
    (∃ mode, node' = .file bytes mode) ∨ ∃ target, node' = .link target := by
  obtain ⟨rfl, -⟩ := there?_eq_ok_iff.mp hm
  rcases h.kept hnode' with rfl | hsame
  · rw [h.arrived] at hnode'
    exact Or.inr ⟨target, (Option.some.inj hnode').symm⟩
  · exact Or.inl (hcontent node' hsame)

/-- A link is moved within its directory, so it leads where it led. -/
theorem moved_link (h : d.Renamed d₁ q p a b (.link target)) (hbeside : a.directory = b.directory)
    (hwalk : Walks d.tree n a.directory [a.name.toList] (d.tree.there? l))
    (hcontent : ∀ node, d.tree.node? l = some node → ∃ mode, node = .file bytes mode) :
    d.tree.Moved d₁.tree b.location (d.tree.there? l) := by
  obtain ⟨hdirectory, hstep⟩ := h.step
  obtain ⟨k, hlink⟩ := hwalk.of_last_link hdirectory hstep h.there
  refine ⟨fun _ _ hm => h.kept hm, Or.inr ⟨target, k, h.arrived, ?_⟩,
    fun m hm => eq_false_of_ne_true fun hdir => ?_⟩
  · rw [Spot.location, List.tail_cons, ← hbeside]
    exact hlink
  · rcases h.found hcontent hm (isDirectory_iff.mp hdir) with ⟨_, hnot⟩ | ⟨_, hnot⟩ <;> cases hnot

theorem moved (h : d.Renamed d₁ q p a b node) (hbeside : a.directory = b.directory)
    (hwalk : Walks d.tree n a.directory [a.name.toList] (d.tree.there? l))
    (hcontent : ∀ node, d.tree.node? l = some node → ∃ mode, node = .file bytes mode) :
    ∃ r, d.tree.Moved d₁.tree b.location r ∧ ∀ m node, r = .ok m → d₁.tree.node? m = some node →
      (∃ mode, node = .file bytes mode) ∨ ∃ target, node = .link target := by
  cases node with
  | directory => exact absurd rfl h.movable
  | file bytes' mode =>
    obtain rfl := h.eq_of_walks hwalk
    refine ⟨_, h.moved_file, fun m node' hm hnode' => Or.inl (hcontent node' ?_)⟩
    obtain rfl := Except.ok.inj hm
    rw [h.there, ← h.arrived, hnode']
  | link target => exact ⟨_, h.moved_link hbeside hwalk hcontent, fun _ _ => h.found hcontent⟩

/-- A path along which something is found reads what was written. -/
theorem file_of_node? (h : d.Renamed d₁ q p a b node) (hbeside : a.directory = b.directory)
    (hwalk : Walks d.tree n a.directory [a.name.toList] (d.tree.there? l))
    (hcontent : ∀ node, d.tree.node? l = some node → ∃ mode, node = .file bytes mode)
    {found : Node} (hfound : d₁.node? p = .ok found) : ∃ mode, found = .file bytes mode := by
  obtain ⟨r, hmoved, hfile⟩ := h.moved hbeside hwalk hcontent
  obtain ⟨-, front, last, happroach, hname⟩ := approach_of_spot? h.target h.targetSlash
  obtain ⟨k, -, hfront⟩ := happroach.walks
  have hhere : d₁.here = d.here := by rw [h.tree]; rfl
  obtain ⟨m, hlocate, hnode⟩ := locate?_of_node? hfound
  obtain ⟨-, n', -, hway⟩ := walks_of_locate? hlocate
  rw [happroach.split, hhere] at hway
  rw [Spot.location, hname] at hmoved
  obtain ⟨hr, hnot⟩ := hmoved.eq_of_walks happroach.silent happroach.up hfront hway
  rcases hfile m found hr hnode with hfile | ⟨target, rfl⟩
  · exact hfile
  · exact absurd hnode (hnot target)

/-- Unless the path may lead through itself, the way to it is still open. -/
theorem node? (h : d.Renamed d₁ q p a b node) (hfile : node.isFile = true)
    (hway : ¬d.IsDirectoryLink p) : d₁.node? p = .ok node := by
  obtain ⟨htext, front, last, happroach, hname⟩ := approach_of_spot? h.target h.targetSlash
  have hhere : d₁.here = d.here := by rw [h.tree]; rfl
  have hways : d.tree.SameWays d₁.tree := by
    intro m there hm hkind
    have hpath : m ≠ b.location := by
      rintro rfl
      rcases hkind with rfl | hlink
      · exact h.free hm
      · exact hway ⟨b, h.target, hlink⟩
    have hother : m ≠ a.location := by
      rintro rfl
      obtain rfl := Option.some.inj (h.there.symm.trans hm)
      rcases hkind with rfl | ⟨target, _, _, hlink, _⟩
      · cases hfile
      · rw [hm] at hlink
        obtain rfl := Option.some.inj hlink
        cases hfile
    rw [h.nodes, if_neg hpath, if_neg hother, hm]
  have happroach' := happroach.keep hways
  rw [← hhere] at happroach'
  refine happroach'.node? htext (hname ▸ h.targetFits) ?_ hfile
  rw [← hname, ← Spot.location, h.arrived]

end Renamed

/-! ## Writing beside a file -/

/-- A sibling has its last name in the same directory. -/
theorem directory_sibling {suffix : String} (hsuffix : '/' ∉ suffix.toList)
    (hlong : 2 ≤ suffix.toList.length) (ha : d.spot? (p.sibling suffix) = .ok (some a))
    (hb : d.spot? p = .ok (some b)) (haslash : a.slash = false) (hbslash : b.slash = false) :
    a.directory = b.directory := by
  obtain ⟨-, front, last, happroach, -⟩ := approach_of_spot? hb hbslash
  obtain ⟨-, front', last', happroach', -⟩ := approach_of_spot? ha haslash
  obtain ⟨k, -, hwalk⟩ := happroach.walks
  obtain ⟨k', -, hwalk'⟩ := happroach'.walks
  obtain ⟨front'', hends, hspoken⟩ := endsIn_sibling happroach.endsIn hsuffix hlong
  obtain ⟨rfl, -⟩ := List.append_inj' (happroach'.split.symm.trans hends.segments) rfl
  have hstart : startOf d.here (p.sibling suffix) = startOf d.here p := by
    rw [startOf, startOf, (isSibling_sibling happroach.split happroach.silent happroach.up hsuffix
      hlong).absolute]
  rw [hstart] at hwalk'
  exact Except.ok.inj (hwalk'.det (hwalk.respell happroach.isDirectory hspoken))

/-- What was written beside a path and moved onto it is what the path leads to.
Only links can make it lead nowhere. -/
theorem node?_of_write_of_rename {suffix : String} (hsuffix : '/' ∉ suffix.toList)
    (hlong : 2 ≤ suffix.toList.length) (hwrite : d.write (p.sibling suffix) bytes = (.ok (), d₁))
    (hrename : d₁.rename (p.sibling suffix) p = (.ok (), d₂)) :
    (∃ mode, d₂.node? p = .ok (.file bytes mode))
      ∨ d₂.exists? p = false ∧ (d.IsLink (p.sibling suffix) ∨ d.IsDirectoryLink p) := by
  obtain ⟨s, t₁, l, n, hspot, hslash, rfl, hwritten, hwalk⟩ := written_of_write hwrite
  obtain ⟨a, b, node, hrenamed⟩ := renamed_of_rename hrename
  have hways := sameWays_of_files hwritten.kept
  have hback := sameWays_of_files hwritten.back
  obtain rfl : a = s :=
    Option.some.inj (Except.ok.inj (hrenamed.source.symm.trans (spot?_keep hspot hslash hways)))
  have hbeside := directory_sibling hsuffix hlong hrenamed.source hrenamed.target
    hrenamed.sourceSlash hrenamed.targetSlash
  cases hfound : d₂.node? p with
  | ok found =>
    left
    obtain ⟨mode, rfl⟩ := hrenamed.file_of_node? hbeside hwalk hwritten.content hfound
    exact ⟨mode, rfl⟩
  | error f =>
    refine Or.inr ⟨by rw [exists?, hfound]; rfl, ?_⟩
    by_contra hno
    obtain ⟨hlink, hway⟩ := not_or.mp hno
    have hfile : node.isFile = true := by
      cases node with
      | file => rfl
      | directory => exact absurd rfl hrenamed.movable
      | link target => exact absurd ⟨a, target, hspot, hwritten.back _ _ hrenamed.there rfl⟩ hlink
    rw [hrenamed.node? hfile fun h => hway
      (h.keep hrenamed.target hrenamed.targetSlash hback)] at hfound
    cases hfound

end Disk

end Vendoring
