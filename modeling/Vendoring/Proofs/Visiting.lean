import Vendoring.Proofs.Listing

/-!
# Visiting the directories below a root

A directory may list its members in any order, and a walk takes the directories
that it comes upon in the order in which they are listed. `Turn` is one round of
a walk with that freedom, and a walk is a chain of rounds without a bound on
their number (`Visits`). Every round uses up a directory (`Turn.cost_lt`), so all
walks end. What there is to find, and whether all of it can be reached, is the
same in front of a round and behind it (`Turn.keeps`). So what a walk comes to
does not depend on the orders, and `filesBelow`, which reads the members as the
tree keeps them, is one of these walks (`visits_filesBelow`).
-/

namespace Vendoring

open Vendoring.Path FileTree

/-! ## Files below a directory -/

/-- The path that goes down from `p` by names. -/
def Path.joinNames (p : Path) (names : List String) : Path :=
  names.foldl (fun p name => p.join ⟨name⟩) p

/-- Names that lead from a directory down to a regular file, through nothing
but directories. -/
inductive FileTree.Descent (t : FileTree) : Location → List String → Prop
  | file {l : Location} {name : String} {bytes : ByteArray} {mode : Nat}
      (h : t.node? (name :: l) = some (.file bytes mode)) : Descent t l [name]
  | inside {l : Location} {name : String} {names : List String}
      (h : t.node? (name :: l) = some .directory) (hrest : Descent t (name :: l) names) :
      Descent t l (name :: names)

/-- The paths of some of the members of a directory, as they are listed. -/
def named (kind : Node → Bool) (dir : Path) (listed : List (String × Node)) : List Path :=
  (listed.filter fun m => kind m.2).map fun m => dir.join ⟨m.1⟩

/-- How far a walk is. -/
structure Round where
  found : List Path
  waiting : List Path

/-- The root waits. -/
def Round.start (root : Path) : Round := ⟨[], [root]⟩

namespace Disk

variable {d : Disk} {root dir p q : Path} {l : Location} {name : String}
  {members listed : List (String × Node)} {s s' s'' : Round} {k : Nat}

/-- What a path leads to has a regular file below it, with this path. -/
def FileBelow (d : Disk) (root p : Path) : Prop :=
  ∃ l names, d.locate? root = .ok l ∧ Descent d.tree l names ∧ p = root.joinNames names

/-- The components of the paths to all files below what a path leads to. -/
def filePaths (d : Disk) (root : Path) : List (List Component) :=
  match d.locate? root with
  | .ok l => componentsBelow d.tree (root, l)
  | .error _ => []

/-- A root that is not there, or a directory from which every one below it is
reached by its path. -/
structure Accessible (d : Disk) (root : Path) : Prop where
  readable : d.Readable root
  located : ∀ l names, d.locate? root = .ok l →
    d.tree.node? (names.reverse ++ l) = some .directory →
    d.locate? (root.joinNames names) = .ok (names.reverse ++ l)

/-! ## The walk in rounds -/

/-- One round: the directory in front is read, and lists its members in any
order. -/
inductive Turn (d : Disk) : Round → Round → Prop
  | missing {found waiting : List Path} {dir : Path} (h : d.list? dir = .error .notFound) :
      Turn d ⟨found, dir :: waiting⟩ ⟨found, waiting⟩
  | read {found waiting : List Path} {dir : Path} {members listed : List (String × Node)}
      (h : d.list? dir = .ok members) (hlisted : listed.Perm members) :
      Turn d ⟨found, dir :: waiting⟩ ⟨named Node.isFile dir listed ++ found,
        (named Node.isDirectory dir listed).reverse ++ waiting⟩

/-- There is no further round, and the result is this one. -/
inductive Ends (d : Disk) : Round → Except SyncError (List Path) → Prop
  | done {found : List Path} : Ends d ⟨found, []⟩ (.ok (found.mergeSort Path.le))
  | failed {found waiting : List Path} {dir : Path} {f : FileFault}
      (h : d.list? dir = .error f) (hf : f ≠ .notFound) :
      Ends d ⟨found, dir :: waiting⟩ (.error (.io dir f))

/-- A number of rounds. -/
inductive Turns (d : Disk) : Nat → Round → Round → Prop
  | rest (s : Round) : Turns d 0 s s
  | turn {k : Nat} {s s' s'' : Round} (h : Turn d s s') (hrest : Turns d k s' s'') :
      Turns d (k + 1) s s''

/-- Some walk from the root comes to this result. -/
def Visits (d : Disk) (root : Path) (r : Except SyncError (List Path)) : Prop :=
  ∃ k s, Turns d k (.start root) s ∧ Ends d s r

theorem ends_or_turns (d : Disk) (s : Round) : (∃ r, Ends d s r) ∨ ∃ s', Turn d s s' := by
  obtain ⟨found, waiting⟩ := s
  cases waiting with
  | nil => exact Or.inl ⟨_, .done⟩
  | cons dir waiting =>
    cases hlist : d.list? dir with
    | ok members => exact Or.inr ⟨_, .read hlist (List.Perm.refl _)⟩
    | error f =>
      by_cases hf : f = .notFound
      · subst hf
        exact Or.inr ⟨_, .missing hlist⟩
      · exact Or.inl ⟨_, .failed hlist hf⟩

/-! ## Reading one directory -/

/-- A directory, and its members as it lists them. -/
structure Listing (d : Disk) (dir : Path) (l : Location) (listed : List (String × Node)) :
    Prop where
  located : d.locate? dir = .ok l
  directory : d.tree.isDirectory l = true
  perm : listed.Perm (d.tree.members l)

theorem listing_of_list? (h : d.list? dir = .ok members) (hlisted : listed.Perm members) :
    ∃ l, d.Listing dir l listed := by
  obtain ⟨l, hl, h⟩ := bind_eq_ok h
  split at h
  · next hdir =>
    obtain rfl := Except.ok.inj h
    exact ⟨l, hl, hdir, hlisted⟩
  · cases h

/-- Of a directory that can be read it is known where it is. -/
theorem Stands.located_of_readable {w : Path × Location} (h : d.Stands w)
    (hread : d.Readable w.1) : d.locate? w.1 = .ok w.2 := by
  refine h.located.resolve_right fun hlong => ?_
  cases hread.fault hlong

namespace Listing

variable (h : d.Listing dir l listed)

include h

theorem mem_files : p ∈ named Node.isFile dir listed ↔
    ∃ name bytes mode, d.tree.node? (name :: l) = some (.file bytes mode)
      ∧ p = dir.join ⟨name⟩ := by
  simp only [named, List.mem_map, List.mem_filter, h.perm.mem_iff]
  constructor
  · rintro ⟨⟨name, n⟩, ⟨hm, hn⟩, rfl⟩
    cases n with
    | file bytes mode => exact ⟨name, bytes, mode, mem_members.mp hm, rfl⟩
    | directory => cases hn
    | link _ => cases hn
  · rintro ⟨name, bytes, mode, hn, rfl⟩
    exact ⟨(name, .file bytes mode), ⟨mem_members.mpr hn, rfl⟩, rfl⟩

theorem mem_directories : p ∈ named Node.isDirectory dir listed ↔
    ∃ name, d.tree.node? (name :: l) = some .directory ∧ p = dir.join ⟨name⟩ := by
  simp only [named, List.mem_map, List.mem_filter, h.perm.mem_iff]
  constructor
  · rintro ⟨⟨name, n⟩, ⟨hm, hn⟩, rfl⟩
    cases n with
    | directory => exact ⟨name, mem_members.mp hm, rfl⟩
    | file _ _ => cases hn
    | link _ => cases hn
  · rintro ⟨name, hn, rfl⟩
    exact ⟨(name, .directory), ⟨mem_members.mpr hn, rfl⟩, rfl⟩

theorem directories_perm : (named Node.isDirectory dir listed).Perm
    ((directoriesIn d.tree (dir, l)).map Prod.fst) := by
  rw [directoriesIn, List.map_map]
  exact (h.perm.filter _).map _

theorem stands (hn : d.tree.node? (name :: l) = some .directory) :
    d.Stands (dir.join ⟨name⟩, name :: l) :=
  stands_member h.located h.directory hn

theorem locate?_unique {l' : Location} (hl' : d.locate? dir = .ok l') : l' = l :=
  Except.ok.inj (hl'.symm.trans h.located)

/-- A directory is accessible just when those in it are. -/
theorem accessible_iff :
    d.Accessible dir ↔ ∀ p ∈ named Node.isDirectory dir listed, d.Accessible p := by
  constructor
  · intro hdir p hp
    obtain ⟨name, hn, rfl⟩ := h.mem_directories.mp hp
    have hlocated : d.locate? (dir.join ⟨name⟩) = .ok (name :: l) :=
      hdir.located l [name] h.located hn
    refine ⟨fun f hf => ?_, fun l' names hl' hnames => ?_⟩
    · rw [list?_of_directory hlocated (isDirectory_iff.mpr hn)] at hf
      cases hf
    · rw [hlocated] at hl'
      obtain rfl := Except.ok.inj hl'
      have := hdir.located l (name :: names) h.located
      rw [List.reverse_cons, List.append_assoc] at this
      exact this hnames
  · intro hdirs
    refine ⟨fun f hf => ?_, fun l' names hl' hnames => ?_⟩
    · rw [list?_of_directory h.located h.directory] at hf
      cases hf
    · obtain rfl := h.locate?_unique hl'
      cases names with
      | nil => exact h.located
      | cons name names =>
        rw [List.reverse_cons, List.append_assoc] at hnames ⊢
        have hn := directory_above (List.suffix_append names.reverse (name :: l')) hnames
        have hinner := hdirs _ (h.mem_directories.mpr ⟨name, hn, rfl⟩)
        -- by itself the path of a member leads there only if it is not too long
        have hlocated := (h.stands hn).located_of_readable hinner.readable
        exact hinner.located (name :: l') names hlocated hnames

variable (hopen : ∀ p ∈ named Node.isDirectory dir listed, d.Accessible p)

include hopen

theorem locate?_directory (hn : d.tree.node? (name :: l) = some .directory) :
    d.locate? (dir.join ⟨name⟩) = .ok (name :: l) :=
  (h.stands hn).located_of_readable
    (hopen _ (h.mem_directories.mpr ⟨name, hn, rfl⟩)).readable

/-- A file below a directory is one of its members, or below one of them. -/
theorem fileBelow_iff : d.FileBelow dir q ↔ q ∈ named Node.isFile dir listed
    ∨ ∃ p ∈ named Node.isDirectory dir listed, d.FileBelow p q := by
  constructor
  · rintro ⟨l', names, hl', hdescent, rfl⟩
    obtain rfl := h.locate?_unique hl'
    cases hdescent with
    | file hn => exact Or.inl (h.mem_files.mpr ⟨_, _, _, hn, rfl⟩)
    | inside hn hrest =>
      exact Or.inr ⟨_, h.mem_directories.mpr ⟨_, hn, rfl⟩, _, _,
        h.locate?_directory hopen hn, hrest, rfl⟩
  · rintro (hfile | ⟨p, hp, l', names, hl', hdescent, rfl⟩)
    · obtain ⟨name, bytes, mode, hn, rfl⟩ := h.mem_files.mp hfile
      exact ⟨l, [name], h.located, .file hn, rfl⟩
    · obtain ⟨name, hn, rfl⟩ := h.mem_directories.mp hp
      rw [h.locate?_directory hopen hn] at hl'
      obtain rfl := Except.ok.inj hl'
      exact ⟨l, name :: names, h.located, .inside hn hdescent, rfl⟩

theorem filePaths_perm : (d.filePaths dir).Perm ((named Node.isFile dir listed).map components
    ++ (named Node.isDirectory dir listed).flatMap d.filePaths) := by
  have hfiles : (named Node.isFile dir listed).Perm (filesIn d.tree (dir, l)) :=
    (h.perm.filter _).map _
  have hdirectories := h.directories_perm
  have hbelow : ((directoriesIn d.tree (dir, l)).map Prod.fst).flatMap d.filePaths
      = (directoriesIn d.tree (dir, l)).flatMap (componentsBelow d.tree) := by
    rw [List.flatMap_map]
    refine List.flatMap_congr fun w hw => ?_
    have hread := (hopen w.1 (hdirectories.mem_iff.mpr (List.mem_map_of_mem hw))).readable
    rw [filePaths, (stands_directoriesIn h.located h.directory hw).located_of_readable hread]
  rw [filePaths, h.located]
  refine (componentsBelow_perm (text_ne_empty h.located)).trans ?_
  rw [← hbelow]
  exact (hfiles.symm.map _).append (hdirectories.symm.flatMap_right _)

end Listing

/-! ## What rounds keep -/

/-- Every directory that waits is accessible. -/
def Passable (d : Disk) (s : Round) : Prop :=
  ∀ dir ∈ s.waiting, d.Accessible dir

/-- The path is found, or is still to be found. -/
def Finds (d : Disk) (s : Round) (p : Path) : Prop :=
  p ∈ s.found ∨ ∃ dir ∈ s.waiting, d.FileBelow dir p

/-- The paths that are found and those still to be found, by their
components. -/
def account (d : Disk) (s : Round) : List (List Component) :=
  s.found.map components ++ s.waiting.flatMap d.filePaths

/-- What is the same in two rounds of one walk. -/
structure Keeps (d : Disk) (s s' : Round) : Prop where
  passable_iff : d.Passable s ↔ d.Passable s'
  finds_iff : d.Passable s → ∀ p, d.Finds s p ↔ d.Finds s' p
  account : d.Passable s → (d.account s).Perm (d.account s')

theorem Keeps.trans (h : d.Keeps s s') (h' : d.Keeps s' s'') : d.Keeps s s'' where
  passable_iff := h.passable_iff.trans h'.passable_iff
  finds_iff hopen p := (h.finds_iff hopen p).trans (h'.finds_iff (h.passable_iff.mp hopen) p)
  account hopen := (h.account hopen).trans (h'.account (h.passable_iff.mp hopen))

/-- What reads as not there leads nowhere. -/
theorem locate?_of_missing (h : d.list? dir = .error .notFound) :
    d.locate? dir = .error .notFound := by
  unfold list? at h
  cases hl : d.locate? dir with
  | error f =>
    rw [hl] at h
    exact congrArg Except.error (Except.error.inj h)
  | ok l =>
    rw [hl] at h
    simp only [bind, Except.bind] at h
    split at h <;> cases h

theorem accessible_of_missing (h : d.list? dir = .error .notFound) : d.Accessible dir where
  readable f hf := by rw [h] at hf; exact (Except.error.inj hf).symm
  located l names hl := by rw [locate?_of_missing h] at hl; cases hl

/-- A directory that is not there is dropped. -/
theorem keeps_of_missing (h : d.list? dir = .error .notFound) (found waiting : List Path) :
    d.Keeps ⟨found, dir :: waiting⟩ ⟨found, waiting⟩ := by
  have hlocate := locate?_of_missing h
  refine ⟨?_, fun _ p => ?_, fun _ => ?_⟩
  · simp only [Passable, List.forall_mem_cons, accessible_of_missing h, true_and]
  · have hnone : ¬d.FileBelow dir p := by
      rintro ⟨l, _, hl, -⟩
      rw [hlocate] at hl
      cases hl
    simp [Finds, hnone]
  · simp only [Disk.account, List.flatMap_cons, filePaths, hlocate, List.nil_append]
    exact List.Perm.refl _

/-- Members take the place of their directory. -/
theorem Listing.keeps (h : d.Listing dir l listed) (found waiting : List Path) :
    d.Keeps ⟨found, dir :: waiting⟩ ⟨named Node.isFile dir listed ++ found,
      (named Node.isDirectory dir listed).reverse ++ waiting⟩ := by
  refine ⟨?_, fun hpassable p => ?_, fun hpassable => ?_⟩
  · simp only [Passable, List.forall_mem_cons, List.forall_mem_append, List.mem_reverse,
      h.accessible_iff]
  · have hopen := h.accessible_iff.mp (hpassable dir (List.mem_cons_self ..))
    simp only [Finds, List.mem_append, List.mem_cons, List.mem_reverse, or_and_right, exists_or,
      exists_eq_left, h.fileBelow_iff hopen, or_assoc]
    exact or_left_comm
  · have hopen := h.accessible_iff.mp (hpassable dir (List.mem_cons_self ..))
    have hreverse := (List.reverse_perm (named Node.isDirectory dir listed)).flatMap_right
      d.filePaths
    have hdir := (h.filePaths_perm hopen).trans (hreverse.symm.append_left _)
    simp only [Disk.account, List.flatMap_cons, List.flatMap_append, List.map_append,
      List.append_assoc]
    refine ((hdir.append_right _).append_left _).trans ?_
    rw [List.append_assoc]
    exact List.perm_append_comm_assoc ..

theorem Turn.keeps (h : d.Turn s s') : d.Keeps s s' := by
  cases h with
  | missing hlist => exact keeps_of_missing hlist ..
  | read hlist hlisted =>
    obtain ⟨l, hlisting⟩ := listing_of_list? hlist hlisted
    exact hlisting.keeps ..

theorem Turns.keeps (h : d.Turns k s s') : d.Keeps s s' := by
  induction h with
  | rest s => exact ⟨Iff.rfl, fun _ _ => Iff.rfl, fun _ => List.Perm.refl _⟩
  | turn h _ ih => exact h.keeps.trans ih

/-! ## The end of a walk -/

/-- The rounds that a waiting directory takes: its own, and those of the
directories below it. -/
def rounds (d : Disk) (dir : Path) : Nat :=
  match d.locate? dir with
  | .ok l => 1 + directoriesBelow d.tree l
  | .error _ => 1

/-- The rounds that are left. -/
def cost (d : Disk) (s : Round) : Nat :=
  total (s.waiting.map d.rounds)

theorem rounds_pos (d : Disk) (dir : Path) : 0 < d.rounds dir := by
  unfold rounds
  split <;> omega

theorem total_append (xs ys : List Nat) : total (xs ++ ys) = total xs + total ys := by
  induction xs with
  | nil => rw [List.nil_append, total_nil, Nat.zero_add]
  | cons x rest ih => rw [List.cons_append, total_cons, total_cons, ih, Nat.add_assoc]

theorem total_perm {xs ys : List Nat} (h : xs.Perm ys) : total xs = total ys :=
  h.foldr_eq 0

theorem total_map_le {α : Type} {xs : List α} {f g : α → Nat} (h : ∀ x ∈ xs, f x ≤ g x) :
    total (xs.map f) ≤ total (xs.map g) := by
  induction xs with
  | nil => exact Nat.le_refl _
  | cons x rest ih =>
    rw [List.forall_mem_cons] at h
    exact Nat.add_le_add h.1 (ih h.2)

theorem Stands.rounds_le {w : Path × Location} (h : d.Stands w) :
    d.rounds w.1 ≤ 1 + directoriesBelow d.tree w.2 := by
  unfold rounds
  rcases h.located with hl | hl <;> rw [hl]
  exact Nat.le_add_right 1 _

theorem Listing.rounds_le (h : d.Listing dir l listed) :
    total ((named Node.isDirectory dir listed).map d.rounds) + 1 ≤ d.rounds dir := by
  rw [total_perm (h.directories_perm.map d.rounds), List.map_map, rounds, h.located]
  have hsum := directoriesBelow_eq d.tree (dir, l)
  have hle : total ((directoriesIn d.tree (dir, l)).map (d.rounds ∘ Prod.fst))
      ≤ total ((directoriesIn d.tree (dir, l)).map fun w => 1 + directoriesBelow d.tree w.2) :=
    total_map_le fun w hw => (stands_directoriesIn h.located h.directory hw).rounds_le
  simp only at hsum ⊢
  omega

/-- Every round leaves fewer of them. -/
theorem Turn.cost_lt (h : d.Turn s s') : d.cost s' < d.cost s := by
  cases h with
  | @missing found waiting dir hlist =>
    have := d.rounds_pos dir
    simp only [cost, List.map_cons, total_cons]
    omega
  | @read found waiting dir members listed hlist hlisted =>
    obtain ⟨l, hlisting⟩ := listing_of_list? hlist hlisted
    have := hlisting.rounds_le
    simp only [cost, List.map_cons, total_cons, List.map_append, List.map_reverse, total_append,
      total_perm (List.reverse_perm _)]
    omega

theorem Turns.length_le (h : d.Turns k s s') : k + d.cost s' ≤ d.cost s := by
  induction h with
  | rest s => omega
  | turn h _ ih =>
    have := h.cost_lt
    omega

/-- No walk takes more rounds than there are nodes, and the root. -/
theorem cost_start (d : Disk) (root : Path) : d.cost (.start root) ≤ d.tree.nodes.length + 1 := by
  simp only [cost, Round.start, List.map_cons, List.map_nil, total_cons, total_nil, rounds]
  split
  · next l _ =>
    have hcount : directoriesBelow d.tree l ≤ d.tree.nodes.length :=
      Nat.le_trans List.countP_le_length (List.length_filter_le ..)
    omega
  · omega

/-- The walk that takes the members as they are listed. -/
theorem turns_walkWaiting {steps : Nat} {found waiting : List Path}
    (hsteps : d.cost ⟨found, waiting⟩ ≤ steps) :
    ∃ k s, d.Turns k ⟨found, waiting⟩ s
      ∧ d.Ends s ((walkWaiting d steps found waiting).map (·.mergeSort Path.le)) := by
  -- the steps that are left are at least the rounds that are left
  induction steps generalizing found waiting with
  | zero =>
    cases waiting with
    | nil => exact ⟨0, _, .rest _, .done⟩
    | cons dir waiting =>
      have := d.rounds_pos dir
      simp only [cost, List.map_cons, total_cons] at hsteps
      omega
  | succ steps ih =>
    cases waiting with
    | nil => exact ⟨0, _, .rest _, .done⟩
    | cons dir waiting =>
      have hnext {s : Round} (h : d.Turn ⟨found, dir :: waiting⟩ s) : d.cost s ≤ steps := by
        have := h.cost_lt
        omega
      rw [walkWaiting]
      cases hlist : d.list? dir with
      | ok members =>
        have hturn : d.Turn ⟨found, dir :: waiting⟩ _ := .read hlist (List.Perm.refl _)
        obtain ⟨k, s, hturns, hends⟩ := ih (hnext hturn)
        exact ⟨k + 1, s, .turn hturn hturns, hends⟩
      | error f =>
        by_cases hf : f = .notFound
        · subst hf
          have hturn : d.Turn ⟨found, dir :: waiting⟩ _ := .missing hlist
          obtain ⟨k, s, hturns, hends⟩ := ih (hnext hturn)
          exact ⟨k + 1, s, .turn hturn hturns, hends⟩
        · refine ⟨0, _, .rest _, ?_⟩
          cases f <;> first | exact absurd rfl hf | exact .failed hlist hf

theorem visits_filesBelow (d : Disk) (root : Path) : d.Visits root (filesBelow d root) := by
  have hcost : d.cost (.start root) ≤ d.tree.nodes.length + 2 :=
    Nat.le_succ_of_le (d.cost_start root)
  obtain ⟨k, s, hturns, hends⟩ := turns_walkWaiting hcost
  refine ⟨k, s, hturns, ?_⟩
  rw [filesBelow]
  cases hwalk : walkWaiting d (d.tree.nodes.length + 2) [] [root] with
  | error x => rwa [hwalk] at hends
  | ok found => rwa [hwalk] at hends

/-! ## What a walk comes to -/

theorem finds_start : d.Finds (.start root) p ↔ d.FileBelow root p := by
  simp [Finds, Round.start]

theorem passable_start : d.Passable (.start root) ↔ d.Accessible root :=
  List.forall_mem_singleton

theorem account_start : d.account (.start root) = d.filePaths root := by
  simp [account, Round.start]

/-- A walk succeeds just when nothing is in its way. -/
theorem Visits.ok_iff {r : Except SyncError (List Path)} (h : d.Visits root r) :
    (∃ files, r = .ok files) ↔ d.Accessible root := by
  obtain ⟨k, s, hturns, hends⟩ := h
  rw [← passable_start, hturns.keeps.passable_iff]
  cases hends with
  | done => exact ⟨fun _ _ hdir => absurd hdir List.not_mem_nil, fun _ => ⟨_, rfl⟩⟩
  | failed hlist hf =>
    refine ⟨nofun, fun hpassable => ?_⟩
    exact absurd ((hpassable _ (List.mem_cons_self ..)).readable _ hlist) hf

theorem nodup_filePaths (d : Disk) (root : Path) : (d.filePaths root).Nodup := by
  unfold filePaths
  split
  · exact nodup_componentsBelow ..
  · exact List.nodup_nil

section Files

variable {files : List Path} (h : d.Visits root (.ok files))

include h

theorem Visits.accessible : d.Accessible root :=
  h.ok_iff.mp ⟨files, rfl⟩

theorem Visits.perm : (files.map components).Perm (d.filePaths root) := by
  have hpassable := passable_start.mpr h.accessible
  obtain ⟨k, s, hturns, hends⟩ := h
  cases hends with
  | @done found =>
    have hperm := hturns.keeps.account hpassable
    rw [account_start, account, List.flatMap_nil, List.append_nil] at hperm
    exact ((List.mergeSort_perm found Path.le).map _).trans hperm.symm

theorem Visits.mem_iff : p ∈ files ↔ d.FileBelow root p := by
  have hpassable := passable_start.mpr h.accessible
  obtain ⟨k, s, hturns, hends⟩ := h
  cases hends with
  | @done found =>
    rw [(List.mergeSort_perm found Path.le).mem_iff, ← finds_start,
      hturns.keeps.finds_iff hpassable]
    simp [Finds]

theorem Visits.sorted : files.Pairwise fun p q => p.compare q = .lt := by
  have hnodup : (files.map components).Nodup := h.perm.nodup_iff.mpr (d.nodup_filePaths root)
  obtain ⟨k, s, hturns, hends⟩ := h
  cases hends with
  | @done found =>
    have hperm := ((List.mergeSort_perm found Path.le).map components).nodup_iff
    exact sorted_mergeSort (List.pairwise_map.mp (hperm.mp hnodup))

end Files

theorem mem_filePaths (hread : d.Readable root) {c : List Component} : c ∈ d.filePaths root ↔
    ∃ (l : Location) (names : List String), d.locate? root = .ok l
      ∧ d.tree.isDirectory l = true ∧ c = root.components ++ names.map .name
      ∧ d.tree.isFile (names.reverse ++ l) = true := by
  unfold filePaths
  cases hl : d.locate? root with
  | error f => simp
  | ok l =>
    have hdir := hread.isDirectory hl
    simp [mem_componentsBelow hdir, hdir]

/-- A root that leads nowhere holds nothing; of one that leads to a directory
everything is found. -/
theorem filesBelow_lists {files : List Path} (h : filesBelow d root = .ok files) :
    d.Lists root files := by
  have hvisits : d.Visits root (.ok files) := h ▸ d.visits_filesBelow root
  refine ⟨hvisits.accessible.readable, hvisits.sorted, fun p => ?_⟩
  rw [isAmong_iff_mem, hvisits.perm.mem_iff, mem_filePaths hvisits.accessible.readable]
  rfl

end Disk

end Vendoring
