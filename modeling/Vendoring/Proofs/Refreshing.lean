import Mathlib.Data.List.TakeWhile
import Vendoring.Proofs.Replacing
import Vendoring.Proofs.Walking

/-!
# Writing again what is there

Replacing a file by the text that it holds already, on any tree: there may be
links on the way to the file, the file may be one itself, and the path may
lead outwards. The directory around the last name is found by one walk, and
everything that replacing asks for is found from there: its parent is there
already (`createParent_of_walks`), the temporary name is beside it
(`endsIn_temporary`), and taking its place cannot fail. What is left behind is
a `Refreshed` tree.
-/

namespace Vendoring

open Vendoring.Path FileTree

namespace Path

/-- A sibling has its last name in the same directory. -/
theorem endsIn_sibling {p : Path} {front : List Segment} {last : Segment} (h : p.EndsIn front last)
    {suffix : String} (hsuffix : '/' ∉ suffix.toList) (hlong : 2 ≤ suffix.toList.length) :
    ∃ front', (p.sibling suffix).EndsIn front' (last ++ suffix.toList)
      ∧ spoken front' = spoken front := by
  have hsibling := isSibling_sibling h.segments h.silent h.up hsuffix hlong
  obtain ⟨front', last', hsegments, hsilent⟩ := hsibling.endsInName
  have hnames := hsibling.names
  rw [h.names, List.dropLast_concat, names, hsegments, spoken_append,
    spoken_cons_of_name hsilent, spoken_nil] at hnames
  obtain ⟨hfront, hlast⟩ := List.append_inj' hnames rfl
  obtain rfl := String.ofList_injective (List.cons.inj hlast).1
  refine ⟨front', ⟨hsegments, hsilent, fun hup => ?_⟩, hfront⟩
  have hpos : 0 < last.length := List.length_pos_iff.mpr fun hnil => by
    have := h.silent
    rw [hnil] at this
    cases this
  have hlength := congrArg List.length hup
  rw [List.length_append] at hlength
  simp only [List.length_cons, List.length_nil] at hlength
  omega

/-- The temporary file has its last name in the same directory. -/
theorem endsIn_temporary {p : Path} {front : List Segment} {last : Segment}
    (h : p.EndsIn front last) : ∃ front', (Disk.temporary p).EndsIn front'
      (last ++ ".carve.tmp".toList) ∧ spoken front' = spoken front := by
  unfold Disk.temporary
  exact endsIn_sibling h (by decide) (by decide)

theorem startOf_temporary {p : Path} {front : List Segment} {last : Segment}
    (h : p.EndsIn front last) (here : Location) :
    startOf here (Disk.temporary p) = startOf here p := by
  rw [startOf, startOf, (isSibling_temporary h.segments h.silent h.up).absolute]

end Path

namespace Disk

variable {d : Disk} {p q : Path} {front : List Segment} {last : Segment} {l dir : Location}
  {n : Nat}

/-! ## Directories that are there -/

theorem walks_of_locate? (h : d.locate? p = .ok l) : pathFault? p = none
    ∧ ∃ n ≤ maxLinks, Walks d.tree n (startOf d.here p) p.segments (.ok l) := by
  cases htext : pathFault? p with
  | some f =>
    unfold locate? at h
    simp only [htext] at h
    cases h
  | none => exact ⟨rfl, walks_of_walk ((locate?_eq htext).symm.trans h)⟩

/-- A list of segments ends in its last one and empty ones, or has only
these. -/
theorem splitLast_cases (segments : List Segment) :
    (∃ slashes, spoken slashes = []
        ∧ segments = (splitLast segments).1 ++ (splitLast segments).2.1 :: slashes)
      ∨ (splitLast segments).1 = [] ∧ (splitLast segments).2.1 = [] := by
  unfold splitLast
  cases hback : segments.reverse.dropWhile (· == []) with
  | nil => exact Or.inr ⟨rfl, rfl⟩
  | cons s rest =>
    left
    have hsplit := List.takeWhile_append_dropWhile (p := (· == [])) (l := segments.reverse)
    rw [hback] at hsplit
    have hsegments := congrArg List.reverse hsplit
    rw [List.reverse_reverse, List.reverse_append, List.reverse_cons,
      List.append_assoc] at hsegments
    refine ⟨_, ?_, hsegments.symm⟩
    rw [spoken, List.map_eq_nil_iff, List.filter_eq_nil_iff]
    intro s hs
    have hempty := (List.mem_takeWhile_imp (List.mem_reverse.mp hs))
    rw [show s = [] by simpa using hempty]
    decide

/-- Creating a directory that is there fails, and not for want of another
one. -/
theorem createDirectory_of_located (h : d.locate? q = .ok l) :
    ∃ f, f ≠ .notFound ∧ d.createDirectory q = (.error f, d) := by
  obtain ⟨htext, n, hn, hwalk⟩ := walks_of_locate? h
  suffices hfront : ∃ n ≤ maxLinks, ∃ l₁,
      Walks d.tree n (startOf d.here q) (splitLast q.segments).1 (.ok l₁)
      ∧ d.tree.isDirectory l₁ = true
      ∧ ((splitLast q.segments).2.1.isSilent = true
        ∨ ∃ n slashes, Walks d.tree n l₁ ((splitLast q.segments).2.1 :: slashes) (.ok l)) by
    obtain ⟨n, hn, l₁, hwalk, hdir, hlast⟩ := hfront
    unfold createDirectory spot?
    simp only [htext, spotFrom?, hwalk.walk hn, bind, Except.bind]
    by_cases hsilent : (Segment.isSilent (splitLast q.segments).2.1
        || (splitLast q.segments).2.1 == ['.', '.']) = true
    · exact ⟨.exists, by decide, by simp [hdir, hsilent]⟩
    · rw [Bool.or_eq_true, not_or, Bool.not_eq_true] at hsilent
      obtain ⟨n, slashes, hlast⟩ := hlast.resolve_left fun h => by
        rw [hsilent.1] at h
        cases h
      have hstep := step_of_name (t := d.tree) (l := l₁) hsilent.1 (by simpa using hsilent.2)
      have hthere : ∃ next, d.tree.step l₁ (splitLast q.segments).2.1 = .ok next := by
        cases hlast with
        | step _ hstep _ _ => exact ⟨_, hstep⟩
        | link _ hstep _ _ => exact ⟨_, hstep⟩
      obtain ⟨next, hnext⟩ := hthere
      rw [hstep] at hnext
      split at hnext
      · cases hnext
      next hfits =>
      split at hnext
      · next hsome =>
        obtain ⟨node, hnode⟩ := Option.isSome_iff_exists.mp hsome
        refine ⟨.exists, by decide, ?_⟩
        simp [hdir, hsilent, nodeAt?, Spot.location, hfits, hnode]
      · cases hnext
  rcases splitLast_cases q.segments with ⟨slashes, -, hsegments⟩ | ⟨hfront, hlast⟩
  · rw [hsegments] at hwalk
    obtain ⟨n₁, n₂, l₁, hsum, hwalk₁, hwalk₂⟩ := hwalk.split
    exact ⟨n₁, by omega, l₁, hwalk₁, hwalk₂.begins, Or.inr ⟨n₂, slashes, hwalk₂⟩⟩
  · rw [hfront, hlast]
    obtain ⟨s, rest, hsegments⟩ := q.segments_eq_cons
    rw [hsegments] at hwalk
    exact ⟨0, Nat.zero_le _, _, .done _, hwalk.begins, Or.inl rfl⟩

theorem createDirectories_of_located (h : d.locate? q = .ok l)
    (hl : d.tree.isDirectory l = true) : d.createDirectories q = (.ok (), d) := by
  have hempty : q.text ≠ "" := by
    intro hempty
    have htext := (walks_of_locate? h).1
    unfold pathFault? at htext
    simp [hempty] at htext
  have hdir : d.isDirectory q = true := by
    rw [isDirectory, node?, h]
    simp only [bind, Except.bind, isDirectory_iff.mp hl]
    rfl
  obtain ⟨f, hf, hcreate⟩ := createDirectory_of_located h
  rw [createDirectories, createDirectoriesUpTo, if_neg hempty, hcreate]
  cases f <;> first | exact absurd rfl hf | simp [hdir]

/-! ## The last name -/

section Last

variable (hends : p.EndsIn front last) (htext : pathFault? p = none) (hn : n ≤ maxLinks)
  (hwalk : Walks d.tree n (startOf d.here p) front (.ok dir))
  (hdir : d.tree.isDirectory dir = true)

include hends htext hn hwalk hdir

theorem spot?_of_walks : d.spot? p = .ok (some ⟨dir, String.ofList last, false⟩) := by
  have hlast : (Segment.isSilent last || last == ['.', '.']) = false := by
    rw [hends.silent, Bool.false_or]
    exact beq_false_of_ne hends.up
  unfold spot?
  simp only [htext, spotFrom?, hends.splitLast, hwalk.walk hn, hlast, bind, Except.bind, hdir]
  rfl

/-- Nothing has to be made around a path whose directory is there. -/
theorem createParent_of_walks : d.createParent p = (.ok (), d) := by
  obtain ⟨up, hup⟩ := parent?_isSome (p := p) (by rw [hends.names]; simp)
  have hparent := isParent_of_parent? hup
  have hspoken : spoken up.segments = spoken front := by
    have := hparent.names
    rwa [hends.names, List.dropLast_concat] at this
  unfold createParent
  rw [hup]
  simp only
  rcases pathFault?_of_beginning hparent.beginning htext with hempty | htext'
  · rw [createDirectories, createDirectoriesUpTo, if_pos hempty]
    rfl
  · have hlocate : d.locate? up = .ok dir := by
      rw [locate?_eq htext', startOf_of_isParent hparent]
      exact (hwalk.respell hdir hspoken).walk hn
    rw [createDirectories_of_located hlocate hdir]
    rfl

end Last

/-- A path that leads to a file leads through the directory of its last name,
where the file stands or a link to it. -/
theorem walks_to_file (hends : p.EndsIn front last) {bytes : ByteArray} {mode : Nat}
    (hfile : d.node? p = .ok (.file bytes mode)) :
    pathFault? p = none ∧ ∃ n ≤ maxLinks, ∃ dir,
      Walks d.tree n (startOf d.here p) front (.ok dir) ∧ d.tree.isDirectory dir = true
      ∧ (String.ofList last).utf8ByteSize ≤ maxNameBytes
      ∧ ((∃ mode, d.tree.node? (String.ofList last :: dir) = some (.file bytes mode))
        ∨ ∃ target n f mode, d.tree.node? (String.ofList last :: dir) = some (.link target)
          ∧ Walks d.tree n (startOf dir ⟨target⟩) (Path.segments ⟨target⟩) (.ok f)
          ∧ d.tree.node? f = some (.file bytes mode)) := by
  cases hlocate : d.locate? p with
  | error f =>
    rw [node?, hlocate] at hfile
    cases hfile
  | ok f =>
    have hnode : d.tree.node? f = some (.file bytes mode) := by
      rw [node?, hlocate] at hfile
      simp only [bind, Except.bind] at hfile
      split at hfile
      · next node hnode => rw [hnode, Except.ok.inj hfile]
      · cases hfile
    obtain ⟨htext, n, hn, hwalk⟩ := walks_of_locate? hlocate
    rw [hends.segments] at hwalk
    obtain ⟨n₁, n₂, dir, hsum, hwalk₁, hwalk₂⟩ := hwalk.split
    have hname {next : Location} (hstep : d.tree.step dir last = .ok next) :
        next = String.ofList last :: dir ∧ (String.ofList last).utf8ByteSize ≤ maxNameBytes := by
      rw [step_of_name hends.silent hends.up] at hstep
      split at hstep
      · cases hstep
      · next hfits =>
        split at hstep
        · exact ⟨(Except.ok.inj hstep).symm, Nat.le_of_not_lt hfits⟩
        · cases hstep
    refine ⟨htext, n₁, by omega, dir, hwalk₁, ?_⟩
    cases hwalk₂ with
    | step hdir hstep _ hlast =>
      cases hlast
      obtain ⟨rfl, hfits⟩ := hname hstep
      exact ⟨hdir, hfits, Or.inl ⟨mode, hnode⟩⟩
    | @link k _ _ _ _ _ target hdir hstep hlink hlast =>
      obtain ⟨rfl, hfits⟩ := hname hstep
      rw [List.append_nil] at hlast
      exact ⟨hdir, hfits, Or.inr ⟨target, k, f, mode, hlink, hlast, hnode⟩⟩

/-! ## Replacing -/

/-- Nothing stands at the last name of a path, not even a link to nowhere. -/
def Vacant (d : Disk) (p : Path) : Prop :=
  ∀ s, d.spot? p = .ok (some s) → d.tree.node? s.location = none

theorem write_of_vacant {s : Spot} {bytes : ByteArray} (hspot : d.spot? p = .ok (some s))
    (hslash : s.slash = false) (hname : s.name.utf8ByteSize ≤ maxNameBytes)
    (hnone : d.tree.node? s.location = none) :
    d.write p bytes = (.ok (), d.withTree (d.tree.put s.location (.file bytes newFileMode))) := by
  have htarget : writeTarget d.tree maxLinks (d.spot? p) = .ok s.location := by
    rw [hspot]
    unfold writeTarget nodeAt?
    simp [hslash, Nat.not_lt.mpr hname, hnone]
  rw [write, htarget]
  simp only [modeAt, hnone]

/-- A file or link in a directory takes the place of another one beside it. -/
theorem rename_of_spots {a b : Spot} {node there : Node} (ha : d.spot? q = .ok (some a))
    (hb : d.spot? p = .ok (some b)) (hslash : a.slash = false ∧ b.slash = false)
    (hname : a.name.utf8ByteSize ≤ maxNameBytes ∧ b.name.utf8ByteSize ≤ maxNameBytes)
    (hnode : d.tree.node? a.location = some node) (hthere : d.tree.node? b.location = some there)
    (hne : a.location ≠ b.location) (hnot : node ≠ .directory ∧ there ≠ .directory) :
    d.rename q p
      = (.ok (), d.withTree ((d.tree.erase a.location).put b.location node)) := by
  have hnode' : node.isDirectory = false := by
    cases node with
    | directory => exact absurd rfl hnot.1
    | file => rfl
    | link => rfl
  have hthere' : there.isDirectory = false := by
    cases there with
    | directory => exact absurd rfl hnot.2
    | file => rfl
    | link => rfl
  rw [rename, ha, hb]
  simp [nodeAt?, Nat.not_lt.mpr hname.1, Nat.not_lt.mpr hname.2, hnode, hthere, hnode', hthere',
    hslash, hne]

/-- A file that is replaced by the text it holds is replaced whenever its
temporary name is free and not too long, and nothing but the file is
different. -/
theorem replaceByText_refreshes (hends : p.EndsIn front last) {text : ByteArray} {mode : Nat}
    (hfile : d.node? p = .ok (.file text mode)) (hfits : (temporary p).Fits)
    (hvacant : d.Vacant (temporary p)) :
    ∃ u t', d.replaceByText p text = (.ok (), d.withTree t') ∧ d.tree.Refreshed u text t' := by
  obtain ⟨htext, n, hn, dir, hwalk, hdir, hname, hold⟩ := walks_to_file hends hfile
  obtain ⟨front', hends', hfront⟩ := endsIn_temporary hends
  have hwalk' : Walks d.tree n (startOf d.here (temporary p)) front' (.ok dir) := by
    rw [startOf_temporary hends]
    exact hwalk.respell hdir hfront
  have hname' : (String.ofList (last ++ ".carve.tmp".toList)).utf8ByteSize ≤ maxNameBytes :=
    hfits.names _ (by rw [hends'.names]; simp)
  have hspot' := spot?_of_walks hends' hfits.text hn hwalk' hdir
  have hnone : d.tree.node? (String.ofList (last ++ ".carve.tmp".toList) :: dir) = none :=
    hvacant _ hspot'
  have hdirectory := isDirectory_iff.mp hdir
  have hput : d.tree.CanPut (String.ofList (last ++ ".carve.tmp".toList) :: dir) :=
    ⟨hends'.fileName hfits.text, hdirectory, by rw [hnone]; exact nofun⟩
  -- the disk with the temporary file
  obtain ⟨t₁, ht₁⟩ : ∃ t₁, d.tree.put (String.ofList (last ++ ".carve.tmp".toList) :: dir)
      (.file text newFileMode) = t₁ := ⟨_, rfl⟩
  have hnodes := node?_put d.tree _ (.file text newFileMode) hput
  rw [ht₁] at hnodes
  have hmore : ∀ m node, d.tree.node? m = some node → t₁.node? m = some node := by
    intro m node hm
    rw [hnodes, if_neg, hm]
    rintro rfl
    rw [hnone] at hm
    cases hm
  have hdir₁ : t₁.isDirectory dir = true := isDirectory_iff.mpr (hmore _ _ hdirectory)
  have hspot₁ : (d.withTree t₁).spot? p = .ok (some ⟨dir, String.ofList last, false⟩) :=
    spot?_of_walks hends htext hn (hwalk.extend hmore) hdir₁
  have hspot₁' := spot?_of_walks (d := d.withTree t₁) hends' hfits.text hn (hwalk'.extend hmore)
    hdir₁
  have hne : String.ofList (last ++ ".carve.tmp".toList) :: dir ≠ String.ofList last :: dir := by
    intro heq
    have := congrArg List.length (String.ofList_injective (List.cons.inj heq).1)
    rw [List.length_append] at this
    simp at this
  obtain ⟨there, hthere, hnot⟩ : ∃ there, d.tree.node? (String.ofList last :: dir) = some there
      ∧ there ≠ .directory := by
    rcases hold with ⟨mode, h⟩ | ⟨target, _, _, _, h, _⟩
    · exact ⟨_, h, nofun⟩
    · exact ⟨_, h, nofun⟩
  have hrename := rename_of_spots hspot₁' hspot₁ ⟨rfl, rfl⟩ ⟨hname', hname⟩
    ((hnodes _).trans (if_pos rfl)) (hmore _ _ hthere) hne ⟨nofun, hnot⟩
  refine ⟨String.ofList last :: dir,
    (t₁.erase (String.ofList (last ++ ".carve.tmp".toList) :: dir)).put (String.ofList last :: dir)
      (.file text newFileMode), ?_, ?_⟩
  · unfold replaceByText
    rw [createParent_of_walks hends htext hn hwalk hdir]
    simp only
    rw [createParent_of_walks hends' hfits.text hn hwalk' hdir]
    simp only
    rw [write_of_vacant hspot' rfl hname' hnone]
    simp only [Spot.location, ht₁, commit, hrename]
    rfl
  · -- the temporary file is gone again, and it was not there before
    have herase (m : Location) :
        (t₁.erase (String.ofList (last ++ ".carve.tmp".toList) :: dir)).node? m
          = d.tree.node? m := by
      rw [node?_erase_of_not_directory ((hnodes _).trans (if_pos rfl)) nofun]
      split
      · next hm => rw [hm, hnone]
      · next hm => rw [hnodes, if_neg hm]
    have hput' : (t₁.erase (String.ofList (last ++ ".carve.tmp".toList) :: dir)).CanPut
        (String.ofList last :: dir) := by
      refine ⟨(up_of_node? hthere).1, ?_, ?_⟩
      · rw [herase, hdirectory]
      · rw [herase, hthere]
        exact fun h => hnot (Option.some.inj h)
    have hfinal := node?_put _ _ (.file text newFileMode) hput'
    refine ⟨fun m hm => ?_, ⟨_, (hfinal _).trans (if_pos rfl)⟩, hold⟩
    rw [hfinal, if_neg hm, herase]

end Disk

end Vendoring
