import Vendoring.Proofs.Following
import Vendoring.Proofs.Parents

/-!
# Creating directories

Creating the directories around a path makes directories and nothing else,
even when it fails on the way (`createParent_grown`), and it succeeds where
nothing but directories stands on the way (`createParent_of_clear`). Both are
inductions over the parents of a path, which the operation tries from the
path outwards until one can be created.

A path without names, such as `.` or the root, stays where it starts. It can
not be created, but it is a directory already.
-/

namespace Vendoring

open Vendoring.Path FileTree

namespace Path

/-- The path ends in a name, unless it stays where it starts. -/
def Tidy (p : Path) : Prop := p.names = [] ∨ p.EndsInName

/-- The last name of a path is a proper name of a file. -/
theorem EndsIn.fileName {p : Path} {front : List Segment} {last : Segment} (h : p.EndsIn front last)
    (htext : Disk.pathFault? p = none) : isFileName (String.ofList last) = true := by
  have hlast : last ∈ p.segments := by
    rw [h.segments]
    exact List.mem_append_right _ (List.mem_singleton.mpr rfl)
  have hnul : '\x00' ∉ last := by
    intro hc
    have := (mem_splitOn hlast hc).1
    unfold Disk.pathFault? at htext
    rw [if_pos this] at htext
    cases htext
  have hne (s : String) (hs : last ≠ s.toList) : String.ofList last ≠ s := by
    rintro rfl
    exact hs (String.toList_ofList).symm
  have hsilent := h.silent
  rw [Segment.isSilent, Bool.or_eq_false_iff, beq_eq_false_iff_ne, beq_eq_false_iff_ne] at hsilent
  have hslash : '/' ∉ last := slash_not_mem hlast
  simp only [isFileName, Bool.and_eq_true, bne_iff_ne, Bool.not_eq_true', String.toList_ofList,
    List.contains_eq_mem, decide_eq_false_iff_not]
  exact ⟨⟨⟨⟨hne "" hsilent.1, hne "." hsilent.2⟩, hne ".." h.up⟩, hslash⟩, hnul⟩

end Path

namespace Disk

variable {d d' d'' : Disk} {p : Path} {start l l' : Location}

/-- The disk has grown by nothing but directories on the way from `start` to
`l`. -/
structure Grown (d : Disk) (start l : Location) (d' : Disk) : Prop where
  here : d'.here = d.here
  nodes : ∀ m, d'.tree.node? m = d.tree.node? m
    ∨ (m <:+ l ∧ ¬m <:+ start) ∧ d.tree.node? m = none ∧ d'.tree.node? m = some .directory

theorem Grown.refl (d : Disk) (start l : Location) : d.Grown start l d :=
  ⟨rfl, fun _ => Or.inl rfl⟩

theorem Grown.trans (h : d.Grown start l d') (h' : d'.Grown start l d'') :
    d.Grown start l d'' := by
  refine ⟨h'.here.trans h.here, fun m => ?_⟩
  rcases h.nodes m with hm | ⟨hml, hnone, hdir⟩
  · rcases h'.nodes m with hm' | ⟨hml, hnone, hdir⟩
    · exact Or.inl (hm'.trans hm)
    · exact Or.inr ⟨hml, hm ▸ hnone, hdir⟩
  · rcases h'.nodes m with hm' | ⟨_, hnone', _⟩
    · exact Or.inr ⟨hml, hnone, hm'.trans hdir⟩
    · rw [hdir] at hnone'
      cases hnone'

theorem Grown.mono (h : d.Grown start l d') (hl : l <:+ l') : d.Grown start l' d' := by
  refine ⟨h.here, fun m => (h.nodes m).imp_right ?_⟩
  rintro ⟨⟨hm, hstart⟩, hnodes⟩
  exact ⟨⟨hm.trans hl, hstart⟩, hnodes⟩

theorem Grown.linkFree (h : d.Grown start l d') (hfree : d.tree.LinkFree) : d'.tree.LinkFree := by
  intro m target hm
  rcases h.nodes m with hsame | ⟨_, _, hdir⟩
  · exact hfree m target (hsame ▸ hm)
  · rw [hdir] at hm
    cases hm

/-- What stood before stands there still. -/
theorem Grown.node? (h : d.Grown start l d') {m : Location} {n : Node}
    (hm : d.tree.node? m = some n) : d'.tree.node? m = some n := by
  rcases h.nodes m with hsame | ⟨_, hnone, _⟩
  · exact hsame.trans hm
  · rw [hm] at hnone
    cases hnone

theorem Grown.node?_of_not_suffix (h : d.Grown start l d') {m : Location} (hm : ¬m <:+ l) :
    d'.tree.node? m = d.tree.node? m :=
  (h.nodes m).resolve_right fun ⟨hsuffix, _⟩ => hm hsuffix.1

theorem Grown.node?_start (h : d.Grown start l d') : d'.tree.node? start = d.tree.node? start :=
  (h.nodes start).resolve_right fun ⟨hstart, _⟩ => hstart.2 (List.suffix_refl _)

theorem grown_put (hstart : ¬l <:+ start) (hl : d.tree.node? l = none) :
    d.Grown start l (d.withTree (d.tree.put l .directory)) := by
  by_cases hput : d.tree.CanPut l
  · refine ⟨rfl, fun m => ?_⟩
    show (d.tree.put l .directory).node? m = _ ∨ _ ∧ _ ∧ (d.tree.put l .directory).node? m = _
    rw [node?_put d.tree l .directory hput]
    by_cases hm : m = l
    · subst hm
      rw [if_pos rfl]
      exact Or.inr ⟨⟨List.suffix_refl m, hstart⟩, hl, rfl⟩
    · rw [if_neg hm]
      exact Or.inl rfl
  · rw [put_of_not_canPut _ _ _ hput]
    exact Grown.refl d start l

/-! ## One directory -/

theorem silent_of_spoken_eq_nil {segments : List Segment} (h : spoken segments = []) {s : Segment}
    (hs : s ∈ segments) : s.isSilent = true := by
  rw [spoken, List.map_eq_nil_iff, List.filter_eq_nil_iff] at h
  simpa using h s hs

theorem splitLast_silent {segments : List Segment} (h : spoken segments = []) :
    spoken (splitLast segments).1 = [] ∧ Segment.isSilent (splitLast segments).2.1 = true
      ∧ (splitLast segments).1 ⊆ segments := by
  have hback : segments.reverse.dropWhile (· == []) ⊆ segments := fun s hs =>
    List.mem_reverse.mp ((List.dropWhile_sublist _).subset hs)
  have hfront : (splitLast segments).1 ⊆ segments := fun s hs =>
    hback (List.mem_of_mem_tail (List.mem_reverse.mp hs))
  refine ⟨?_, ?_, hfront⟩
  · rw [spoken, List.map_eq_nil_iff, List.filter_eq_nil_iff]
    intro s hs
    simp [silent_of_spoken_eq_nil h (hfront hs)]
  · show Segment.isSilent ((segments.reverse.dropWhile (· == [])).headD []) = true
    cases hcases : segments.reverse.dropWhile (· == []) with
    | nil => rfl
    | cons s rest =>
      exact silent_of_spoken_eq_nil (s := s) h (hback (hcases ▸ List.mem_cons_self ..))

theorem spot?_of_no_names (hp : p.names = []) {s : Spot} : d.spot? p ≠ .ok (some s) := by
  intro h
  unfold spot? at h
  split at h
  · cases h
  · unfold spotFrom? at h
    obtain ⟨_, hlast, _⟩ := splitLast_silent hp
    simp only [hlast, Bool.true_or, if_true] at h
    cases hwalk : d.tree.walk maxLinks (startOf d.here p) (splitLast p.segments).1 with
    | error f => rw [hwalk] at h; cases h
    | ok l =>
      rw [hwalk] at h
      simp only [bind, Except.bind] at h
      split at h <;> cases h

/-- A path without names stays where it starts. -/
theorem walk_of_no_names (hfree : d.tree.LinkFree) {segments : List Segment}
    (h : spoken segments = []) (hin : ['.', '.'] ∉ segments) (hl : d.tree.isDirectory l = true)
    (links : Nat) : d.tree.walk links l segments = .ok l := by
  obtain ⟨follow, hwalk⟩ := d.tree.walk_eq_walkWith links
  rw [hwalk, walkWith_of_open hfree hin (by rw [h]; exact fun _ hn => nomatch hn) hl, h]
  · simp [hl]
  · intro m hm hm'
    rw [h] at hm'
    obtain rfl : m = l := hm'.eq_of_length_le hm.length_le
    exact Or.inr (isDirectory_iff.mp hl)

theorem createDirectory_of_no_names (hfree : d.tree.LinkFree) (hin : p.Inward)
    (hp : p.names = []) (htext : pathFault? p = none)
    (hstart : d.tree.isDirectory (startOf d.here p) = true) :
    d.createDirectory p = (.error .exists, d) ∧ d.isDirectory p = true := by
  constructor
  · obtain ⟨hfront, hlast, hsub⟩ := splitLast_silent hp
    have hspot : d.spot? p = .ok none := by
      unfold spot?
      simp only [htext, spotFrom?]
      rw [walk_of_no_names hfree hfront (fun h => hin (hsub h)) hstart]
      simp [bind, Except.bind, hstart, hlast]
    rw [createDirectory, hspot]
  · have hlocate : d.locate? p = .ok (startOf d.here p) := by
      unfold locate?
      simp only [htext]
      exact walk_of_no_names hfree hp hin hstart maxLinks
    rw [isDirectory, Disk.node?, hlocate]
    simp [bind, Except.bind, isDirectory_iff.mp hstart, Except.toOption, Node.isDirectory]

theorem spot_location (hp : p.Plain) (here : Location) : (p.spot here).location = p.place here := by
  obtain ⟨front, last, hsplit⟩ := hp.splits
  rw [hsplit.spot, hsplit.place]
  rfl

theorem createDirectory_grown (hfree : d.tree.LinkFree) (hin : p.Inward) (hp : p.Tidy) :
    d.Grown (startOf d.here p) (p.place d.here) (d.createDirectory p).2 := by
  unfold createDirectory
  split
  · exact Grown.refl ..
  · exact Grown.refl ..
  · next s hs =>
    rcases hp with hp | hp
    · exact absurd hs (spot?_of_no_names hp)
    · have hplain : p.Plain := ⟨hin, hp⟩
      obtain ⟨_, hspot⟩ := (spot?_eq_ok_iff hfree hplain).mp hs
      obtain rfl := Option.some.inj hspot
      split
      · exact Grown.refl ..
      · exact Grown.refl ..
      · next hnode =>
        unfold nodeAt? at hnode
        split at hnode
        · cases hnode
        · rw [spot_location hplain] at hnode ⊢
          exact grown_put (not_suffix_start p hplain d.here) (Except.ok.inj hnode)

theorem ensureDirectory_grown (hfree : d.tree.LinkFree) (hin : p.Inward) (hp : p.Tidy) :
    d.Grown (startOf d.here p) (p.place d.here) (d.ensureDirectory p).2 := by
  have h := createDirectory_grown hfree hin hp
  unfold ensureDirectory
  split
  · next hcreate => rwa [hcreate] at h
  · next hcreate =>
    rw [hcreate] at h
    split <;> exact h

theorem startOf_of_isParent {up : Path} (hup : IsParent up p) (here : Location) :
    startOf here up = startOf here p := by
  rw [startOf, startOf, hup.absolute]

theorem place_of_isParent {up : Path} (hup : IsParent up p) (hne : p.names ≠ []) (here : Location) :
    up.place here = (p.place here).tail := by
  rw [place, place, hup.names, startOf_of_isParent hup]
  rw [List.tail_append_of_ne_nil (by simpa using hne)]
  rw [List.tail_reverse]

theorem place_of_isParent_suffix {up : Path} (hup : IsParent up p) (here : Location) :
    up.place here <:+ p.place here := by
  by_cases hne : p.names = []
  · rw [place, place, hup.names, startOf_of_isParent hup, hne]
    exact List.suffix_refl _
  · rw [place_of_isParent hup hne]
    exact List.tail_suffix _

/-! ## One directory after the other -/

theorem createDirectoriesUpTo_grown (n : Nat) (hfree : d.tree.LinkFree) (hin : p.Inward)
    (hp : p.Tidy) :
    d.Grown (startOf d.here p) (p.place d.here) (createDirectoriesUpTo n d p).2 := by
  induction n generalizing d p with
  | zero => exact Grown.refl ..
  | succ n ih =>
    have h := createDirectory_grown hfree hin hp
    rw [createDirectoriesUpTo]
    split
    · exact Grown.refl ..
    · split
      · next d₁ hcreate =>
        rw [hcreate] at h
        split
        · exact h
        · next up hup =>
          have hparent := isParent_of_parent? hup
          have hrec := ih (h.linkFree hfree) (hparent.inward hin) hparent.tidy
          rw [startOf_of_isParent hparent] at hrec
          replace hrec := hrec.mono (place_of_isParent_suffix hparent _)
          split
          · next hrest =>
            rw [hrest] at hrec
            rw [h.here] at hrec
            exact h.trans hrec
          · next d₂ hrest =>
            rw [hrest, h.here] at hrec
            have h₂ := h.trans hrec
            have hlast := ensureDirectory_grown (h₂.linkFree hfree) hin hp
            rw [h₂.here] at hlast
            exact h₂.trans hlast
      · next hcreate => rwa [hcreate] at h
      · next hcreate =>
        rw [hcreate] at h
        split <;> exact h

/-! ## Where nothing is in the way -/

theorem canPut_of_approached (hp : p.Plain) (h : d.Approached p)
    (hnode : d.tree.node? (p.place d.here) ≠ some .directory) :
    d.tree.CanPut (p.place d.here) := by
  obtain ⟨front, last, hsplit⟩ := hp.splits
  obtain ⟨htext, _, hdir⟩ := h
  rw [hsplit.place] at hnode hdir ⊢
  exact ⟨hsplit.fileName htext, isDirectory_iff.mp hdir, hnode⟩

theorem isDirectory_of_node? (hfree : d.tree.LinkFree) (hp : p.Plain) (hfits : p.Fits)
    (h : d.tree.node? (p.place d.here) = some .directory) : d.isDirectory p = true := by
  rw [isDirectory, (node?_eq_ok_iff hfree hp).mpr ⟨hfits, h⟩]
  rfl

theorem nodeAt?_spot (hp : p.Plain) (hfits : p.Fits) (here : Location) (t : FileTree) :
    nodeAt? t (p.spot here) = .ok (t.node? (p.place here)) := by
  obtain ⟨front, last, hsplit⟩ := hp.splits
  have hlast : (String.ofList last).utf8ByteSize ≤ maxNameBytes :=
    hfits.names _ (by rw [hsplit.names]; simp)
  rw [nodeAt?, spot_location hp, hsplit.spot, if_neg (Nat.not_lt.mpr hlast)]

theorem createDirectory_of_none (hfree : d.tree.LinkFree) (hp : p.Plain) (hfits : p.Fits)
    (happ : d.Approached p) (hnone : d.tree.node? (p.place d.here) = none) :
    d.createDirectory p = (.ok (), d.withTree (d.tree.put (p.place d.here) .directory)) := by
  rw [createDirectory, (spot?_eq_ok_iff hfree hp).mpr ⟨happ, rfl⟩]
  simp only
  rw [nodeAt?_spot hp hfits, hnone]
  simp only [spot_location hp]

theorem createDirectory_of_directory (hfree : d.tree.LinkFree) (hp : p.Plain) (hfits : p.Fits)
    (happ : d.Approached p) (hdir : d.tree.node? (p.place d.here) = some .directory) :
    d.createDirectory p = (.error .exists, d) := by
  rw [createDirectory, (spot?_eq_ok_iff hfree hp).mpr ⟨happ, rfl⟩]
  simp only
  rw [nodeAt?_spot hp hfits, hdir]

theorem Approached.of_fits (hfits : p.Fits)
    (hdir : d.tree.isDirectory (p.place d.here).tail = true) : d.Approached p :=
  ⟨hfits.text, fun name hname => hfits.names name (List.dropLast_subset _ hname), hdir⟩

theorem put_directory (hp : p.Plain) (happ : d.Approached p)
    (hnone : d.tree.node? (p.place d.here) = none) :
    (d.tree.put (p.place d.here) .directory).isDirectory (p.place d.here) = true := by
  rw [isDirectory_iff, node?_put _ _ _ (canPut_of_approached hp happ (by rw [hnone]; simp)),
    if_pos rfl]

theorem pathFault?_of_beginning {up : Path} (h : up.text.toList <+: p.text.toList)
    (htext : pathFault? p = none) : up.text = "" ∨ pathFault? up = none := by
  obtain ⟨rest, hrest⟩ := h
  have happend : p.text = up.text ++ String.ofList rest := by
    rw [← String.ofList_toList (s := p.text), ← hrest, String.ofList_append, String.ofList_toList]
  unfold pathFault? at htext ⊢
  split at htext
  · cases htext
  next hnul =>
  split at htext
  · cases htext
  split at htext
  · cases htext
  next hlength =>
  by_cases hempty : up.text = ""
  · exact Or.inl hempty
  · right
    rw [if_neg, if_neg hempty, if_neg]
    · rw [happend, String.utf8ByteSize_append] at hlength
      omega
    · rw [← hrest, List.mem_append, not_or] at hnul
      exact hnul.1

theorem ensureDirectory_of_none (hfree : d.tree.LinkFree) (hp : p.Plain) (hfits : p.Fits)
    (hdir : d.tree.isDirectory (p.place d.here).tail = true)
    (hnone : d.tree.node? (p.place d.here) = none) :
    (d.ensureDirectory p).1 = .ok ()
      ∧ (d.ensureDirectory p).2.tree.isDirectory (p.place d.here) = true := by
  have happ := Approached.of_fits hfits hdir
  rw [ensureDirectory, createDirectory_of_none hfree hp hfits happ hnone]
  exact ⟨rfl, put_directory hp happ hnone⟩

/-- Nothing is in the way of a directory at this path. -/
structure Creatable (d : Disk) (p : Path) : Prop where
  inward : p.Inward
  tidy : p.Tidy
  text : p.text = "" ∨ pathFault? p = none
  names : ∀ name ∈ p.names, name.utf8ByteSize ≤ maxNameBytes
  start : d.tree.isDirectory (startOf d.here p) = true
  above : ∀ m, startOf d.here p <:+ m → m <:+ p.place d.here → d.tree.Open m

theorem Creatable.clear (h : d.Creatable p) : d.Clear p :=
  fun m hm hm' => h.above m hm (hm'.trans (List.tail_suffix _))

/-- Where the way to a path is clear and can be begun, the directory around
it can be created. -/
theorem Clear.creatable {up : Path} (h : d.Clear p)
    (hbegun : d.tree.isDirectory (startOf d.here p) = true) (hin : p.Inward) (hfits : p.Fits)
    (hne : p.names ≠ []) (hup : IsParent up p) : d.Creatable up := by
  have hstart := startOf_of_isParent hup d.here
  have hplace := place_of_isParent hup hne d.here
  refine ⟨hup.inward hin, hup.tidy, pathFault?_of_beginning hup.beginning hfits.text, ?_,
    hstart ▸ hbegun, ?_⟩
  · intro name hname
    exact hfits.names name (List.dropLast_subset _ (hup.names ▸ hname))
  · intro m hm hm'
    exact h m (hstart ▸ hm) (hplace ▸ hm')

/-- The directory around it is missing and has been created: then so is the
one at the path. -/
theorem createDirectoriesUpTo_of_parent {n : Nat} {up : Path} (hfree : d.tree.LinkFree)
    (h : d.Creatable p) (hnames : p.names ≠ []) (hfits : p.Fits) (hup : p.parent? = some up)
    (htail : ¬d.tree.isDirectory (p.place d.here).tail = true)
    (hnone : d.tree.node? (p.place d.here) = none)
    (hparents : (createDirectoriesUpTo n d up).1 = .ok ()
      ∧ (createDirectoriesUpTo n d up).2.tree.isDirectory (up.place d.here) = true) :
    (createDirectoriesUpTo (n + 1) d p).1 = .ok ()
      ∧ (createDirectoriesUpTo (n + 1) d p).2.tree.isDirectory (p.place d.here) = true := by
  have hplain : p.Plain := ⟨h.inward, h.tidy.resolve_left hnames⟩
  have hne : p.text ≠ "" := by
    intro hempty
    apply hnames
    rw [names, segments, hempty]
    rfl
  have hcreate : d.createDirectory p = (.error .notFound, d) := by
    rw [createDirectory, spot?_of_clear hfree hplain hfits.text (fun name hname =>
      h.names name (List.dropLast_subset _ hname)) h.start h.clear, if_neg htail]
  have hparent := isParent_of_parent? hup
  have hcreatable := h.clear.creatable h.start h.inward hfits hnames hparent
  have hgrown := createDirectoriesUpTo_grown n hfree hcreatable.inward hcreatable.tidy
  rw [place_of_isParent hparent hnames d.here] at hparents hgrown
  obtain ⟨hok, hdir⟩ := hparents
  rw [createDirectoriesUpTo, if_neg hne, hcreate]
  cases hrest : createDirectoriesUpTo n d up with
  | mk r d₁ =>
    rw [hrest] at hok hdir hgrown
    simp only at hok hdir hgrown
    subst hok
    simp only [hup, hrest]
    rw [← hgrown.here] at hdir ⊢
    refine ensureDirectory_of_none (hgrown.linkFree hfree) hplain hfits hdir ?_
    rw [hgrown.here, hgrown.node?_of_not_suffix (not_suffix_tail p hplain d.here)]
    exact hnone

/-- Directories can be created where nothing else stands in the way. -/
theorem createDirectoriesUpTo_of_creatable (n : Nat) (hn : p.names.length < n)
    (hfree : d.tree.LinkFree) (h : d.Creatable p) :
    (createDirectoriesUpTo n d p).1 = .ok ()
      ∧ (createDirectoriesUpTo n d p).2.tree.isDirectory (p.place d.here) = true := by
  induction n generalizing p with
  | zero => exact absurd hn (Nat.not_lt_zero _)
  | succ n ih =>
    by_cases hempty : p.text = ""
    · have hplace : p.place d.here = startOf d.here p := by
        have : p.names = [] := by rw [names, segments, hempty]; rfl
        rw [place, this]
        rfl
      rw [createDirectoriesUpTo, if_pos hempty, hplace]
      exact ⟨rfl, h.start⟩
    have htext := h.text.resolve_left hempty
    by_cases hnames : p.names = []
    · obtain ⟨hcreate, hdir⟩ := createDirectory_of_no_names hfree h.inward hnames htext h.start
      rw [createDirectoriesUpTo, if_neg hempty, hcreate]
      simp only [hdir, if_true]
      rw [place, hnames]
      exact ⟨trivial, h.start⟩
    have hplain : p.Plain := ⟨h.inward, h.tidy.resolve_left hnames⟩
    have hfits : p.Fits := ⟨htext, h.names⟩
    rcases h.above _ (List.suffix_append ..) (List.suffix_refl _) with hnone | hdir
    · by_cases htail : d.tree.isDirectory (p.place d.here).tail = true
      · have happ := Approached.of_fits hfits htail
        rw [createDirectoriesUpTo, if_neg hempty,
          createDirectory_of_none hfree hplain hfits happ hnone]
        exact ⟨rfl, put_directory hplain happ hnone⟩
      · -- the directory around it has to be created first
        obtain ⟨up, hup⟩ := parent?_isSome hnames
        have hparent := isParent_of_parent? hup
        have hlength : up.names.length < n := by
          have := List.length_pos_iff.mpr hnames
          rw [hparent.names, List.length_dropLast]
          omega
        exact createDirectoriesUpTo_of_parent hfree h hnames hfits hup htail hnone
          (ih hlength (h.clear.creatable h.start h.inward hfits hnames hparent))
    · have happ := Approached.of_fits hfits (directory_of_node? hplain hdir)
      rw [createDirectoriesUpTo, if_neg hempty,
        createDirectory_of_directory hfree hplain hfits happ hdir]
      simp only [isDirectory_of_node? hfree hplain hfits hdir, if_true]
      exact ⟨trivial, isDirectory_iff.mpr hdir⟩

/-! ## The directory around a path -/

theorem createParent_grown (hfree : d.tree.LinkFree) (hp : p.Plain) :
    d.Grown (startOf d.here p) (p.place d.here).tail (d.createParent p).2 := by
  unfold createParent
  split
  · exact Grown.refl ..
  · next up hup =>
    have hparent := isParent_of_parent? hup
    have h := createDirectoriesUpTo_grown (up.segments.length + 1) hfree
      (hparent.inward hp.inward) hparent.tidy
    obtain ⟨front, last, hsplit⟩ := hp.splits
    rwa [startOf_of_isParent hparent,
      place_of_isParent hparent (by rw [hsplit.names]; simp)] at h

theorem createParent_of_clear (hfree : d.tree.LinkFree) (hp : p.Plain) (hfits : p.Fits)
    (hstart : d.tree.isDirectory (startOf d.here p) = true) (hclear : d.Clear p) :
    (d.createParent p).1 = .ok ()
      ∧ (d.createParent p).2.tree.isDirectory (p.place d.here).tail = true := by
  obtain ⟨front, last, hsplit⟩ := hp.splits
  have hne : p.names ≠ [] := by rw [hsplit.names]; simp
  obtain ⟨up, hup⟩ := parent?_isSome hne
  have hparent := isParent_of_parent? hup
  have hlength : up.names.length < up.segments.length + 1 := by
    rw [names, spoken, List.length_map]
    exact Nat.lt_succ_of_le (List.length_filter_le ..)
  obtain ⟨hok, hdir⟩ := createDirectoriesUpTo_of_creatable _ hlength hfree
    (hclear.creatable hstart hp.inward hfits hne hparent)
  rw [place_of_isParent hparent hne d.here] at hdir
  unfold createParent
  rw [hup]
  simp only
  exact ⟨by rw [createDirectories, hok]; rfl, hdir⟩

end Disk

end Vendoring
