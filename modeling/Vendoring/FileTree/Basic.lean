/-!
# File trees

A file tree is a finite set of named nodes. A node stands at a `Location`,
the names from the node itself outwards to the root, so the directory that
holds it is the tail of its location. The root is always there and is a
directory. No node stands at two locations, and there are no kinds of nodes
but files, directories and links.

That every node stands in a directory is part of the type. The order in
which the nodes are kept is the order in which a directory lists its
members, and nothing else depends on it: a tree is looked at through
`FileTree.node?`, and `node?_put` and `node?_erase` say what the two ways of
changing it do to that view.
-/

namespace Vendoring

/-- What a member of a directory may be called. -/
def isFileName (s : String) : Bool :=
  s != "" && s != "." && s != ".." && !s.toList.contains '/' && !s.toList.contains '\x00'

/-- The names from a node outwards to the root. -/
abbrev Location := List String

/-- Wherever contents are compared, they are compared by this instance. -/
instance (priority := 2000) decidableEqContents : DecidableEq ByteArray := ByteArray.decEq

inductive Node
  | file (bytes : ByteArray) (mode : Nat)
  | directory
  | link (target : String)
  deriving DecidableEq

namespace Node

def isFile : Node → Bool
  | .file _ _ => true
  | _ => false

def isDirectory : Node → Bool
  | .directory => true
  | _ => false

end Node

namespace FileTree

/-- The node at a location of a list of nodes. -/
def find (nodes : List (Location × Node)) (l : Location) : Option Node :=
  if l = [] then some .directory else nodes.lookup l

/-- Every location occurs once, is not the root, has a proper name, and
stands in a directory. -/
structure Sound (nodes : List (Location × Node)) : Prop where
  nodup : (nodes.map Prod.fst).Nodup
  inDirectory : ∀ l ∈ nodes.map Prod.fst,
    ∃ name up, l = name :: up ∧ isFileName name = true ∧ find nodes up = some .directory

theorem sound_nil : Sound [] where
  nodup := by simp
  inDirectory := by simp

theorem lookup_filter_of_pos (nodes : List (Location × Node)) (keep : Location → Bool)
    {l : Location} (h : keep l = true) :
    (nodes.filter fun n => keep n.1).lookup l = nodes.lookup l := by
  induction nodes with
  | nil => rfl
  | cons n rest ih =>
    obtain ⟨k, node⟩ := n
    by_cases hk : l = k
    · subst hk; simp [h]
    · have hk' : (l == k) = false := by simpa using hk
      by_cases hkeep : keep k = true <;> simp [hkeep, List.lookup_cons, hk', ih]

theorem lookup_filter_of_neg (nodes : List (Location × Node)) (keep : Location → Bool)
    {l : Location} (h : keep l = false) :
    (nodes.filter fun n => keep n.1).lookup l = none := by
  induction nodes with
  | nil => rfl
  | cons n rest ih =>
    obtain ⟨k, node⟩ := n
    by_cases hkeep : keep k = true
    · have hk : (l == k) = false := by
        simp only [beq_eq_false_iff_ne, ne_eq]
        rintro rfl
        simp [h] at hkeep
      simp [hkeep, List.lookup_cons, hk, ih]
    · simp [hkeep, ih]

/-- Keeping some of the nodes keeps a list sound if the directory of every
node that stays stays too. -/
theorem Sound.filter {nodes : List (Location × Node)} (hs : Sound nodes)
    (keep : Location → Bool)
    (up : ∀ name up, keep (name :: up) = true → up = [] ∨ keep up = true) :
    Sound (nodes.filter fun n => keep n.1) where
  nodup := hs.nodup.sublist (List.filter_sublist.map _)
  inDirectory l hl := by
    simp only [List.mem_map, List.mem_filter] at hl
    obtain ⟨n, ⟨hn, hk⟩, rfl⟩ := hl
    obtain ⟨name, outer, he, hname, hdir⟩ := hs.inDirectory n.1 (List.mem_map_of_mem hn)
    refine ⟨name, outer, he, hname, ?_⟩
    rw [he] at hk
    rcases up name outer hk with rfl | hkeep
    · simp [find]
    · by_cases ho : outer = []
      · simp [find, ho]
      · simpa [find, ho, lookup_filter_of_pos nodes keep hkeep] using hdir

/-- A new node in a directory, under a name that no node has. -/
theorem Sound.cons {nodes : List (Location × Node)} (hs : Sound nodes) {name : String}
    {up : Location} {node : Node} (hname : isFileName name = true)
    (hup : find nodes up = some .directory) (hnew : (name :: up) ∉ nodes.map Prod.fst) :
    Sound ((name :: up, node) :: nodes) where
  nodup := by simpa using ⟨by simpa using hnew, hs.nodup⟩
  inDirectory l hl := by
    have other : ∀ m : Location, find nodes m = some .directory →
        m ≠ name :: up → find ((name :: up, node) :: nodes) m = some .directory := by
      intro m hm hne
      by_cases h : m = []
      · simp [find, h]
      · have : (m == name :: up) = false := by simpa using hne
        simpa [find, h, List.lookup_cons, this] using hm
    simp only [List.map_cons, List.mem_cons] at hl
    rcases hl with rfl | hl
    · exact ⟨name, up, rfl, hname, other up hup (by simp)⟩
    · obtain ⟨name', up', rfl, hname', hdir⟩ := hs.inDirectory l hl
      refine ⟨name', up', rfl, hname', other up' hdir ?_⟩
      rintro rfl
      apply hnew
      simp only [find, reduceCtorEq, if_false] at hdir
      rw [List.lookup_eq_some_iff] at hdir
      obtain ⟨l₁, l₂, h, _⟩ := hdir
      simp [h]

end FileTree

/-- A finite set of nodes, each in a directory. -/
structure FileTree where
  nodes : List (Location × Node)
  sound : FileTree.Sound nodes

namespace FileTree

/-- Nothing but the root. -/
def empty : FileTree := ⟨[], sound_nil⟩

/-- What stands at a location. -/
def node? (t : FileTree) (l : Location) : Option Node :=
  find t.nodes l

def isDirectory (t : FileTree) (l : Location) : Bool :=
  (t.node? l).any Node.isDirectory

/-- The names in a directory with their nodes, in listing order. -/
def members (t : FileTree) (l : Location) : List (String × Node) :=
  t.nodes.filterMap fun
    | (name :: up, node) => if up = l then some (name, node) else none
    | ([], _) => none

/-- Removes what stands at `l` and everything below it. -/
def erase (t : FileTree) (l : Location) : FileTree where
  nodes := t.nodes.filter fun n => !l.isSuffixOf n.1
  sound := t.sound.filter (fun m => !l.isSuffixOf m) fun name up h => by
    refine Or.inr ?_
    simp only [Bool.not_eq_true', ← Bool.not_eq_true, List.isSuffixOf_iff_suffix] at h ⊢
    exact fun hu => h (hu.trans (List.suffix_cons name up))

/-- A node may be put under a proper name into a directory, where it does
not replace a directory. -/
def CanPut (t : FileTree) (l : Location) : Prop :=
  match l with
  | [] => False
  | name :: up => isFileName name = true ∧ t.node? up = some .directory ∧
      t.node? (name :: up) ≠ some .directory

instance (t : FileTree) (l : Location) : Decidable (t.CanPut l) := by
  unfold CanPut
  split <;> infer_instance

theorem Sound.put {nodes : List (Location × Node)} (hs : Sound nodes) {name : String}
    {up : Location} {node : Node} (hname : isFileName name = true)
    (hup : find nodes up = some .directory)
    (hold : find nodes (name :: up) ≠ some .directory) :
    Sound ((name :: up, node) :: nodes.filter fun n => n.1 != name :: up) := by
  have keepUp : ∀ m : Location, m ∈ nodes.map Prod.fst → m ≠ name :: up →
      ∃ name' up', m = name' :: up' ∧ isFileName name' = true ∧
        find (nodes.filter fun n => n.1 != name :: up) up' = some .directory := by
    intro m hm _
    obtain ⟨name', up', rfl, hn, hd⟩ := hs.inDirectory m hm
    refine ⟨name', up', rfl, hn, ?_⟩
    have hne : up' ≠ name :: up := by
      rintro rfl
      exact hold hd
    by_cases ho : up' = []
    · simp [find, ho]
    · have := lookup_filter_of_pos nodes (fun m => m != name :: up)
        (l := up') (by simpa using hne)
      simpa [find, ho, this] using hd
  have hfilter : Sound (nodes.filter fun n => n.1 != name :: up) :=
    { nodup := hs.nodup.sublist (List.filter_sublist.map _)
      inDirectory := by
        intro m hm
        simp only [List.mem_map, List.mem_filter] at hm
        obtain ⟨n, ⟨hn, hne⟩, rfl⟩ := hm
        exact keepUp n.1 (List.mem_map_of_mem hn) (by simpa using hne) }
  refine hfilter.cons hname ?_ ?_
  · by_cases ho : up = []
    · simp [find, ho]
    · have := lookup_filter_of_pos nodes (fun m => m != name :: up)
        (l := up) (by simp)
      simpa [find, ho, this] using hup
  · simp

/-- Puts a node at a location, in the place of what was there. Where a node
cannot be put the tree stays as it is. -/
def put (t : FileTree) (l : Location) (node : Node) : FileTree :=
  match l with
  | [] => t
  | name :: up =>
    if h : t.CanPut (name :: up) then
      ⟨(name :: up, node) :: t.nodes.filter fun n => n.1 != name :: up,
        t.sound.put h.1 h.2.1 h.2.2⟩
    else t

@[simp] theorem node?_root (t : FileTree) : t.node? [] = some .directory := by
  simp [node?, find]

theorem node?_put (t : FileTree) (l : Location) (node : Node) (h : t.CanPut l)
    (m : Location) : (t.put l node).node? m = if m = l then some node else t.node? m := by
  match l, h with
  | name :: up, h =>
    simp only [put, h, dif_pos, node?, find]
    by_cases hm : m = []
    · simp [hm]
    · by_cases he : m = name :: up
      · simp [he]
      · have h1 : (m == name :: up) = false := by simpa using he
        have h2 := lookup_filter_of_pos t.nodes
          (fun m => m != name :: up) (l := m) (by simpa using he)
        simp [hm, he, List.lookup_cons, h1, h2]

theorem put_of_not_canPut (t : FileTree) (l : Location) (node : Node) (h : ¬t.CanPut l) :
    t.put l node = t := by
  match l with
  | [] => rfl
  | name :: up => simp [put, h]

theorem node?_erase (t : FileTree) (l : Location) (hl : l ≠ []) (m : Location) :
    (t.erase l).node? m = if l <:+ m then none else t.node? m := by
  by_cases hm : m = []
  · subst hm
    have : ¬l <:+ [] := by simpa using hl
    simp [this]
  · by_cases hs : l <:+ m
    · have := lookup_filter_of_neg t.nodes (fun m => !l.isSuffixOf m)
        (l := m) (by simpa [List.isSuffixOf_iff_suffix] using hs)
      simp [node?, erase, find, hm, hs, this]
    · have := lookup_filter_of_pos t.nodes (fun m => !l.isSuffixOf m)
        (l := m) (by simpa [← Bool.not_eq_true, List.isSuffixOf_iff_suffix] using hs)
      simp [node?, erase, find, hm, hs, this]

end FileTree

end Vendoring
