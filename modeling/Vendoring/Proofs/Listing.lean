import Mathlib.Data.List.Nodup
import Mathlib.Data.List.Perm.Basic
import Vendoring.Proofs.Differing
import Vendoring.Proofs.Ordering
import Vendoring.Proofs.Refreshing

/-!
# Listing the files below a directory

What there is to find below a directory is read off the list of nodes itself.
What stands below a directory stands below one of its members
(`nodesBelow_perm`), so reading a directory splits what is left to be found
over its members, and each member is found once.
-/

namespace Vendoring

open Vendoring.Path

namespace FileTree

variable {t : FileTree} {l : Location} {name : String} {n : Node}

def isFile (t : FileTree) (l : Location) : Bool :=
  (t.node? l).any Node.isFile

/-! ## Nodes below a location -/

theorem mem_nodes_iff : (l, n) ∈ t.nodes ↔ l ≠ [] ∧ t.node? l = some n := by
  constructor
  · intro h
    obtain ⟨name, up, rfl, -⟩ := t.sound.inDirectory l (List.mem_map_of_mem h)
    refine ⟨List.cons_ne_nil _ _, ?_⟩
    simp only [node?, find, reduceCtorEq, if_false]
    obtain ⟨before, after, hsplit⟩ := List.append_of_mem h
    refine List.lookup_eq_some_iff.mpr ⟨before, after, hsplit, fun m hm => ?_⟩
    have hnodup := t.sound.nodup
    rw [hsplit, List.map_append, List.map_cons, List.nodup_append] at hnodup
    exact bne_iff_ne.mpr
      (hnodup.2.2 _ (List.mem_map_of_mem hm) _ (List.mem_cons_self ..)).symm
  · rintro ⟨hl, h⟩
    rw [node?, find, if_neg hl] at h
    obtain ⟨before, after, hsplit, -⟩ := List.lookup_eq_some_iff.mp h
    rw [hsplit]
    exact List.mem_append_right _ (List.mem_cons_self ..)

theorem mem_members : (name, n) ∈ t.members l ↔ t.node? (name :: l) = some n := by
  have hmem : (name, n) ∈ t.members l ↔ (name :: l, n) ∈ t.nodes := by
    rw [members, List.mem_filterMap]
    constructor
    · rintro ⟨⟨m, n'⟩, hm, hsome⟩
      cases m with
      | nil => cases hsome
      | cons name' up =>
        simp only at hsome
        split at hsome
        · next hup =>
          cases hsome
          rwa [← hup]
        · cases hsome
    · exact fun h => ⟨_, h, by simp⟩
  rw [hmem, mem_nodes_iff]
  exact and_iff_right (List.cons_ne_nil _ _)

theorem nodup_nodes (t : FileTree) : t.nodes.Nodup :=
  List.Nodup.of_map _ t.sound.nodup

/-- What stands strictly below a location. -/
def nodesBelow (t : FileTree) (l : Location) : List (Location × Node) :=
  t.nodes.filter fun n => l.isSuffixOf n.1 && n.1 != l

theorem mem_nodesBelow {m : Location} : (m, n) ∈ t.nodesBelow l ↔
    t.node? m = some n ∧ l <:+ m ∧ m ≠ l := by
  rw [nodesBelow, List.mem_filter, mem_nodes_iff, Bool.and_eq_true, List.isSuffixOf_iff_suffix,
    bne_iff_ne]
  constructor
  · exact fun ⟨⟨_, hn⟩, hm⟩ => ⟨hn, hm⟩
  · rintro ⟨hn, hm, hne⟩
    refine ⟨⟨?_, hn⟩, hm, hne⟩
    rintro rfl
    exact hne (List.suffix_nil.mp hm).symm

/-- Nothing stands below what is no directory. -/
theorem nodesBelow_eq_nil (h : t.node? l ≠ some .directory) : t.nodesBelow l = [] := by
  refine List.eq_nil_iff_forall_not_mem.mpr fun ⟨m, n⟩ hn => ?_
  obtain ⟨hn, hm, hne⟩ := mem_nodesBelow.mp hn
  exact h (directory_of_suffix hm hne.symm hn)

/-- What is below a location is below one of its members, or the member
itself. -/
theorem suffix_cases {m : Location} (h : l <:+ m) (hne : m ≠ l) :
    ∃ name, name :: l <:+ m := by
  obtain ⟨front, rfl⟩ := h
  rcases List.eq_nil_or_concat front with rfl | ⟨front, name, rfl⟩
  · exact absurd rfl hne
  · exact ⟨name, front, by simp⟩

theorem cons_suffix_inj {m : Location} {name' : String} (h : name :: l <:+ m)
    (h' : name' :: l <:+ m) : name = name' := by
  have := List.suffix_of_suffix_length_le h h' (by simp)
  have := this.eq_of_length (by simp)
  exact (List.cons.inj this).1

theorem nodup_members (t : FileTree) (l : Location) : (t.members l).Nodup := by
  refine t.nodup_nodes.filterMap ?_
  rintro ⟨m, n⟩ ⟨m', n'⟩ ⟨name, node⟩ h h'
  cases m <;> cases m' <;> simp_all

theorem nodesBelow_perm (t : FileTree) (l : Location) : (t.nodesBelow l).Perm
    ((t.members l).flatMap fun m => (m.1 :: l, m.2) :: t.nodesBelow (m.1 :: l)) := by
  refine (List.perm_ext_iff_of_nodup (t.nodup_nodes.filter _) ?_).mpr fun ⟨m, n⟩ => ?_
  · have hsuffix {m : String × Node} {x : Location × Node}
        (hx : x ∈ (m.1 :: l, m.2) :: t.nodesBelow (m.1 :: l)) : m.1 :: l <:+ x.1 := by
      rcases List.mem_cons.mp hx with rfl | hx
      · exact List.suffix_refl _
      · exact (mem_nodesBelow.mp hx).2.1
    refine List.nodup_flatMap.mpr ⟨fun m _ => ?_, ?_⟩
    · refine List.nodup_cons.mpr ⟨fun h => ?_, t.nodup_nodes.filter _⟩
      exact (mem_nodesBelow.mp h).2.2 rfl
    · refine (t.nodup_members l).imp_of_mem fun {m m'} hm hm' hne x hx hx' => hne ?_
      -- members of one directory that have a node below both have one name, and are one node
      have hname := cons_suffix_inj (hsuffix hx) (hsuffix hx')
      have hnode := mem_members.mp hm'
      rw [← hname, mem_members.mp hm] at hnode
      exact Prod.ext hname (Option.some.inj hnode)
  · change (m, n) ∈ t.nodesBelow l ↔ _
    rw [mem_nodesBelow, List.mem_flatMap]
    constructor
    · rintro ⟨hn, hm, hne⟩
      obtain ⟨name, hname⟩ := suffix_cases hm hne
      by_cases heq : m = name :: l
      · subst heq
        exact ⟨(name, n), mem_members.mpr hn, List.mem_cons_self ..⟩
      · have hdir := directory_of_suffix hname (Ne.symm heq) hn
        exact ⟨(name, .directory), mem_members.mpr hdir,
          List.mem_cons_of_mem _ (mem_nodesBelow.mpr ⟨hn, hname, heq⟩)⟩
    · rintro ⟨⟨name, n'⟩, hmember, h⟩
      have hproper {m : Location} (h : name :: l <:+ m) : m ≠ l := by
        rintro rfl
        exact absurd h.length_le (by simp)
      rcases List.mem_cons.mp h with heq | h
      · cases heq
        exact ⟨mem_members.mp hmember, List.suffix_cons .., hproper (List.suffix_refl _)⟩
      · obtain ⟨hn, hm, -⟩ := mem_nodesBelow.mp h
        exact ⟨hn, (List.suffix_cons ..).trans hm, hproper hm⟩

/-- The names on the way down from a location to one below it. -/
def namesFrom (l m : Location) : List String :=
  (m.take (m.length - l.length)).reverse

@[simp] theorem namesFrom_append (front l : Location) :
    namesFrom l (front ++ l) = front.reverse := by
  simp [namesFrom]

@[simp] theorem namesFrom_self (l : Location) : namesFrom l l = [] := by
  simp [namesFrom]

/-- The way to what stands below a member goes through it. -/
theorem namesFrom_of_member {m : Location} (h : name :: l <:+ m) :
    namesFrom l m = name :: namesFrom (name :: l) m := by
  obtain ⟨front, rfl⟩ := h
  rw [namesFrom_append, List.append_cons, namesFrom_append]
  simp

end FileTree

/-! ## Members of a directory -/

section FileName

variable {name : String} (h : isFileName name = true)

include h

theorem segment_of_isFileName : Segment.isSilent name.toList = false ∧ name.toList ≠ ['.', '.']
    ∧ '/' ∉ name.toList ∧ '\x00' ∉ name.toList := by
  simp only [isFileName, Bool.and_eq_true, bne_iff_ne, Bool.not_eq_true', List.contains_eq_mem,
    decide_eq_false_iff_not] at h
  obtain ⟨⟨⟨⟨hempty, hdot⟩, hup⟩, hslash⟩, hnul⟩ := h
  have key (s : List Char) (hs : name ≠ String.ofList s) : name.toList ≠ s := by
    rintro rfl
    exact hs String.ofList_toList.symm
  refine ⟨?_, key _ hup, hslash, hnul⟩
  rw [Segment.isSilent, Bool.or_eq_false_iff]
  exact ⟨beq_false_of_ne (key [] hempty), beq_false_of_ne (key ['.'] hdot)⟩

theorem isAbsolute_of_isFileName : Path.isAbsolute ⟨name⟩ = false := by
  have := isAbsolute_of_name (segment_of_isFileName h).2.2.1
  rwa [String.ofList_toList] at this

theorem segments_of_isFileName : Path.segments ⟨name⟩ = [name.toList] := by
  have := segments_of_name (segment_of_isFileName h).2.2.1
  rwa [String.ofList_toList] at this

theorem components_member {p : Path} (hp : p.text ≠ "") :
    (p.join ⟨name⟩).components = p.components ++ [.name name] := by
  obtain ⟨hsilent, hup, -, -⟩ := segment_of_isFileName h
  rw [components_join hp (isAbsolute_of_isFileName h), segments_of_isFileName h,
    Path.inner, List.filterMap_cons, Segment.component?, if_neg (by simp [hsilent]),
    if_neg (by simpa using hup), String.ofList_toList]
  rfl

end FileName

/-! ## Paths among others -/

section Among

variable {paths : List Path} {p q : Path}

theorem isAmong_iff_exists : isAmong paths p = true ↔ ∃ q ∈ paths, q.Same p := by
  simp only [isAmong, List.any_eq_true, decide_eq_true_eq]

theorem isAmong_iff_mem : isAmong paths p = true ↔ p.components ∈ paths.map components :=
  isAmong_iff_exists.trans List.mem_map.symm

theorem Path.Same.isAmong (h : p.Same q) (paths : List Path) :
    isAmong paths p = isAmong paths q := by
  rw [Bool.eq_iff_iff, isAmong_iff_mem, isAmong_iff_mem, h]

end Among

namespace Disk

open FileTree

variable {d : Disk} {p : Path} {l : Location} {name : String}

theorem text_ne_empty (h : d.locate? p = .ok l) : p.text ≠ "" := by
  intro hempty
  have htext := (walks_of_locate? h).1
  unfold pathFault? at htext
  simp [hempty] at htext

/-- A proper name puts nothing into a path that is wrong whatever the tree
holds, unless it makes it too long. -/
theorem pathFault?_member (h : pathFault? p = none) (hname : isFileName name = true) :
    pathFault? (p.join ⟨name⟩) = none ∨ pathFault? (p.join ⟨name⟩) = some .nameTooLong := by
  unfold pathFault? at h
  split at h
  · cases h
  next hnul =>
  split at h
  · cases h
  next hempty =>
  have hjoin : '\x00' ∉ (p.join ⟨name⟩).text.toList ∧ (p.join ⟨name⟩).text ≠ "" := by
    have hname' := (segment_of_isFileName hname).2.2.2
    unfold join
    rw [if_neg (by simp [isAbsolute_of_isFileName hname])]
    split
    · exact ⟨by simp [hnul, hname'], by simp [hempty]⟩
    · exact ⟨by simp [hnul, hname'], by simp [hempty]⟩
  unfold pathFault?
  rw [if_neg hjoin.1, if_neg hjoin.2]
  split
  · exact Or.inr rfl
  · exact Or.inl rfl

/-- A path that leads to a directory, unless it is too long. -/
structure Stands (d : Disk) (w : Path × Location) : Prop where
  directory : d.tree.isDirectory w.2 = true
  located : d.locate? w.1 = .ok w.2 ∨ d.locate? w.1 = .error .nameTooLong

theorem locate?_member (h : d.locate? p = .ok l) (hl : d.tree.isDirectory l = true)
    (hname : isFileName name = true) {n : Node} (hn : d.tree.node? (name :: l) = some n)
    (hlink : ∀ target, n ≠ .link target) :
    d.locate? (p.join ⟨name⟩) = .ok (name :: l)
      ∨ d.locate? (p.join ⟨name⟩) = .error .nameTooLong := by
  obtain ⟨htext, links, hlinks, hwalk⟩ := walks_of_locate? h
  rcases pathFault?_member htext hname with htext' | htext'
  · have hstem : Walks d.tree links (startOf d.here (p.join ⟨name⟩)) p.stem (.ok l) := by
      rw [startOf, isAbsolute_join p (isAbsolute_of_isFileName hname)]
      exact hwalk.respell hl (spoken_stem p)
    obtain ⟨hsilent, hup, -, -⟩ := segment_of_isFileName hname
    have hstep := step_of_name (t := d.tree) (l := l) hsilent hup
    rw [String.ofList_toList, hn, Option.isSome_some, if_pos rfl] at hstep
    rw [locate?_eq htext', segments_join p (isAbsolute_of_isFileName hname),
      segments_of_isFileName hname]
    split at hstep
    · exact Or.inr ((hstem.append (.failed hl hstep)).walk hlinks)
    · refine Or.inl ((hstem.append (.step hl hstep (fun target h => ?_) (.done _))).walk hlinks)
      rw [hn] at h
      exact hlink target (Option.some.inj h)
  · refine Or.inr ?_
    unfold locate?
    simp only [htext']

theorem stands_member (h : d.locate? p = .ok l) (hl : d.tree.isDirectory l = true)
    (hn : d.tree.node? (name :: l) = some .directory) : d.Stands (p.join ⟨name⟩, name :: l) where
  directory := isDirectory_iff.mpr hn
  located := locate?_member h hl (up_of_node? hn).1 hn nofun

/-- The files among the members of a directory. -/
def filesIn (t : FileTree) (w : Path × Location) : List Path :=
  ((t.members w.2).filter (·.2.isFile)).map fun m => w.1.join ⟨m.1⟩

/-- The directories among the members of a directory. -/
def directoriesIn (t : FileTree) (w : Path × Location) : List (Path × Location) :=
  ((t.members w.2).filter (·.2.isDirectory)).map fun m => (w.1.join ⟨m.1⟩, m.1 :: w.2)

/-- The components of the paths to files among some nodes below a
directory. -/
def componentsOf (w : Path × Location) (nodes : List (Location × Node)) :
    List (List Component) :=
  (nodes.filter (·.2.isFile)).map fun n => w.1.components ++ (namesFrom w.2 n.1).map .name

/-- The components of the paths to all files below a directory. -/
def componentsBelow (t : FileTree) (w : Path × Location) : List (List Component) :=
  componentsOf w (t.nodesBelow w.2)

def directoriesBelow (t : FileTree) (l : Location) : Nat :=
  (t.nodesBelow l).countP (·.2.isDirectory)

variable {t : FileTree}

theorem componentsOf_member (hp : p.text ≠ "") (hname : isFileName name = true) :
    componentsOf (p, l) (t.nodesBelow (name :: l))
      = componentsBelow t (p.join ⟨name⟩, name :: l) := by
  refine List.map_congr_left fun n hn => ?_
  have hbelow := (mem_nodesBelow.mp (List.mem_of_mem_filter hn)).2.1
  rw [components_member hname hp, namesFrom_of_member hbelow, List.map_cons, List.append_assoc]
  rfl

/-- Members that are files come first, then what stands below directories;
links bring nothing. -/
theorem componentsOf_members (hp : p.text ≠ "") {members : List (String × Node)}
    (hmembers : ∀ m ∈ members, t.node? (m.1 :: l) = some m.2) :
    (componentsOf (p, l)
      (members.flatMap fun m => (m.1 :: l, m.2) :: t.nodesBelow (m.1 :: l))).Perm
    ((members.filter (·.2.isFile)).map (fun m => (p.join ⟨m.1⟩).components)
      ++ (members.filter (·.2.isDirectory)).flatMap fun m =>
        componentsBelow t (p.join ⟨m.1⟩, m.1 :: l)) := by
  induction members with
  | nil => exact List.Perm.refl _
  | cons m rest ih =>
    obtain ⟨name, n⟩ := m
    have hn : t.node? (name :: l) = some n := hmembers _ (List.mem_cons_self ..)
    have hname := (up_of_node? hn).1
    have ih := ih fun m' hm' => hmembers m' (List.mem_cons_of_mem _ hm')
    have hcons : componentsOf (p, l) (((name, n) :: rest).flatMap fun m =>
          (m.1 :: l, m.2) :: t.nodesBelow (m.1 :: l))
        = componentsOf (p, l) [(name :: l, n)] ++ (componentsBelow t (p.join ⟨name⟩, name :: l)
          ++ componentsOf (p, l) (rest.flatMap fun m =>
            (m.1 :: l, m.2) :: t.nodesBelow (m.1 :: l))) := by
      rw [← componentsOf_member hp hname]
      simp only [componentsOf, ← List.map_append, ← List.filter_append, List.flatMap_cons]
      rfl
    rw [hcons]
    have hbelow (hdir : n ≠ .directory) :
        componentsBelow t (p.join ⟨name⟩, name :: l) = [] := by
      rw [componentsBelow, nodesBelow_eq_nil (by simpa [hn] using hdir)]
      rfl
    cases n with
    | file bytes mode =>
      rw [hbelow nofun]
      have hself : componentsOf (p, l) [(name :: l, .file bytes mode)]
          = [(p.join ⟨name⟩).components] := by
        rw [components_member hname hp]
        show [p.components ++ (namesFrom l (name :: l)).map .name] = _
        rw [namesFrom_of_member (List.suffix_refl _), namesFrom_self]
        rfl
      rw [hself]
      exact ih.cons _
    | directory =>
      exact (ih.append_left _).trans (List.perm_append_comm_assoc ..)
    | link target =>
      rw [hbelow nofun]
      exact ih

/-- The files below a directory are those among its members and those below
its directories. -/
theorem componentsBelow_perm (hp : p.text ≠ "") : (componentsBelow t (p, l)).Perm
    ((filesIn t (p, l)).map components
      ++ (directoriesIn t (p, l)).flatMap (componentsBelow t)) := by
  have hsplit : (componentsBelow t (p, l)).Perm (componentsOf (p, l)
      ((t.members l).flatMap fun m => (m.1 :: l, m.2) :: t.nodesBelow (m.1 :: l))) :=
    ((t.nodesBelow_perm l).filter _).map _
  rw [filesIn, directoriesIn, List.map_map, List.flatMap_map]
  exact hsplit.trans (componentsOf_members hp fun m hm => mem_members.mp hm)

/-- A directory accounts for the directories in it and for those below them. -/
theorem directoriesBelow_eq (t : FileTree) (w : Path × Location) :
    directoriesBelow t w.2
      = total ((directoriesIn t w).map fun w => 1 + directoriesBelow t w.2) := by
  obtain ⟨p, l⟩ := w
  rw [directoriesBelow, (t.nodesBelow_perm l).countP_eq, directoriesIn, List.map_map]
  simp only [Function.comp_def]
  have hmembers : ∀ m ∈ t.members l, t.node? (m.1 :: l) = some m.2 :=
    fun m hm => mem_members.mp hm
  generalize t.members l = members at hmembers
  induction members with
  | nil => rfl
  | cons m rest ih =>
    obtain ⟨name, n⟩ := m
    have hn : t.node? (name :: l) = some n := hmembers _ (List.mem_cons_self ..)
    have ih := ih fun m' hm' => hmembers m' (List.mem_cons_of_mem _ hm')
    have hbelow (hdir : n ≠ .directory) : t.nodesBelow (name :: l) = [] :=
      nodesBelow_eq_nil (by simpa [hn] using hdir)
    rw [List.flatMap_cons, List.countP_append, ih, List.countP_cons]
    cases n with
    | file bytes mode => simp [hbelow (by simp), Node.isDirectory]
    | directory => simp [Node.isDirectory, directoriesBelow, Nat.add_comm]
    | link target => simp [hbelow (by simp), Node.isDirectory]

theorem stands_directoriesIn (h : d.locate? p = .ok l) (hl : d.tree.isDirectory l = true)
    {w : Path × Location} (hw : w ∈ directoriesIn d.tree (p, l)) : d.Stands w := by
  obtain ⟨⟨name, n⟩, hm, rfl⟩ := List.mem_map.mp hw
  obtain ⟨hm, hn⟩ := List.mem_filter.mp hm
  refine stands_member h hl ((mem_members.mp hm).trans ?_)
  cases n with
  | directory => rfl
  | file _ _ => cases hn
  | link _ => cases hn

/-! ## All files below a root -/

/-- A path leads from a directory down to a file. -/
def Contains (d : Disk) (root p : Path) : Prop :=
  ∃ (l : Location) (names : List String), d.locate? root = .ok l
    ∧ d.tree.isDirectory l = true ∧ p.components = root.components ++ names.map .name
    ∧ d.tree.isFile (names.reverse ++ l) = true

/-- The root can be read, or is not there at all. -/
def Readable (d : Disk) (root : Path) : Prop :=
  ∀ f, d.list? root = .error f → f = .notFound

theorem list?_of_directory (h : d.locate? p = .ok l) (hl : d.tree.isDirectory l = true) :
    d.list? p = .ok (d.tree.members l) := by
  rw [list?, h]
  simp only [bind, Except.bind, hl, if_true]

theorem list?_of_error {f : FileFault} (h : d.locate? p = .error f) : d.list? p = .error f := by
  rw [list?, h]
  rfl

/-- A path that can be read leads to a directory or to nothing. -/
theorem Readable.fault (h : d.Readable p) {f : FileFault} (hf : d.locate? p = .error f) :
    f = .notFound :=
  h f (list?_of_error hf)

theorem Readable.isDirectory (h : d.Readable p) (hl : d.locate? p = .ok l) :
    d.tree.isDirectory l = true := by
  cases hdir : d.tree.isDirectory l with
  | true => rfl
  | false =>
    have hlist : d.list? p = .error .notDirectory := by
      rw [list?, hl]
      simp [bind, Except.bind, hdir]
    cases h _ hlist

/-- The files below a root in the order of their paths, each one once. -/
structure Lists (d : Disk) (root : Path) (files : List Path) : Prop where
  readable : d.Readable root
  sorted : files.Pairwise fun p q => p.compare q = .lt
  isAmong_iff : ∀ p, isAmong files p = true ↔ d.Contains root p

theorem eq_of_namesFrom {m : Location} (h : l <:+ m) : m = (namesFrom l m).reverse ++ l := by
  obtain ⟨front, rfl⟩ := h
  rw [namesFrom_append, List.reverse_reverse]

theorem nodup_componentsBelow (t : FileTree) (w : Path × Location) :
    (componentsBelow t w).Nodup := by
  refine List.Nodup.map_on ?_ ((t.nodup_nodes.filter _).filter _)
  rintro ⟨m, n⟩ hn ⟨m', n'⟩ hn' heq
  obtain ⟨hn, hm, -⟩ := mem_nodesBelow.mp (List.mem_of_mem_filter hn)
  obtain ⟨hn', hm', -⟩ := mem_nodesBelow.mp (List.mem_of_mem_filter hn')
  have hnames : namesFrom w.2 m = namesFrom w.2 m' :=
    List.map_injective_iff.mpr (fun _ _ => Component.name.inj) (List.append_cancel_left heq)
  have hlocation : m = m' := by
    rw [eq_of_namesFrom hm, eq_of_namesFrom hm', hnames]
  subst hlocation
  rw [hn] at hn'
  rw [Option.some.inj hn']

theorem mem_componentsBelow {c : List Component} (hl : t.isDirectory l = true) :
    c ∈ componentsBelow t (p, l) ↔ ∃ names : List String,
      c = p.components ++ names.map .name ∧ t.isFile (names.reverse ++ l) = true := by
  rw [componentsBelow, componentsOf, List.mem_map]
  constructor
  · rintro ⟨⟨m, n⟩, hn, rfl⟩
    obtain ⟨hn, hfile⟩ := List.mem_filter.mp hn
    obtain ⟨hn, hm, -⟩ := mem_nodesBelow.mp hn
    refine ⟨namesFrom l m, rfl, ?_⟩
    rw [← eq_of_namesFrom hm, FileTree.isFile, hn]
    exact hfile
  · rintro ⟨names, rfl, hfile⟩
    obtain ⟨n, hn, hfile⟩ := (Option.any_eq_true ..).mp hfile
    have hproper : names.reverse ++ l ≠ l := by
      intro heq
      rw [heq, isDirectory_iff.mp hl] at hn
      cases hn
      cases hfile
    refine ⟨(names.reverse ++ l, n), List.mem_filter.mpr
      ⟨mem_nodesBelow.mpr ⟨hn, List.suffix_append .., hproper⟩, hfile⟩, ?_⟩
    simp only [namesFrom_append, List.reverse_reverse]

/-- Another spelling of a path to a directory leads there too. -/
theorem locate?_respell {q : Path} (h : d.locate? p = .ok l) (hl : d.tree.isDirectory l = true)
    (hsame : p.Same q) (hq : d.Readable q) : d.locate? q = .ok l := by
  obtain ⟨-, n, hn, hwalk⟩ := walks_of_locate? h
  cases htext : pathFault? q with
  | none =>
    have hnames : spoken q.segments = spoken p.segments := hsame.names.symm
    rw [locate?_eq htext, startOf, ← hsame.isAbsolute]
    exact (hwalk.respell hl hnames).walk hn
  | some f =>
    -- only the empty path leads nowhere by itself, and it has no other spelling
    have hlocate : d.locate? q = .error f := by
      unfold locate?
      simp only [htext]
    obtain rfl := hq.fault hlocate
    have hempty : q.text = "" := by
      unfold pathFault? at htext
      split at htext
      · cases htext
      split at htext
      · assumption
      split at htext <;> cases htext
    refine absurd ?_ (components_ne_nil (text_ne_empty h))
    rw [show p.components = q.components from hsame, show q = ⟨""⟩ by rw [← hempty]]
    rfl

theorem Contains.respell {root root' : Path} (h : d.Contains root p) (hsame : root.Same root')
    (hroot : d.Readable root') : d.Contains root' p := by
  obtain ⟨l, names, hl, hdir, hp, hfile⟩ := h
  exact ⟨l, names, locate?_respell hl hdir hsame hroot, hdir, hp.trans (by rw [hsame]), hfile⟩

end Disk

end Vendoring
