import Vendoring.Proofs.Moving

/-!
# Making way to a path on any tree

What creating the directories around a path does where links may stand on the
way and the path may lead outwards. Everything that stood before stands there
still, and what is new is a directory to which one of the paths around leads
(`createParent_paved`).

A path along which nothing is found may yet lead to something once a directory
is made: `m/../f` leads nowhere until there is an `m`. Without `..` that cannot
be, because the directory that was made last is empty
(`createDirectoriesUpTo_empty`), so a name that is free stays free
(`vacant_createParent`, `vacant_temporary_createParent`).
-/

namespace Vendoring

open Vendoring.Path FileTree

/-- One of the paths around `p`: its parent, or one around that. -/
inductive Path.Around : Path → Path → Prop
  | parent {up p : Path} (h : p.parent? = some up) : Around up p
  | further {q up p : Path} (h : p.parent? = some up) (hq : Around q up) : Around q p

namespace Disk

variable {d d₁ d₂ : Disk} {p q up : Path} {l dir : Location} {s : Spot} {node : Node}
  {front : List Segment} {last : Segment}

/-! ## The last name -/

/-- No separators follow the last name of a path that ends in it. -/
theorem slash_of_spot? (hp : p.EndsInName) (h : d.spot? p = .ok (some s)) : s.slash = false := by
  obtain ⟨front, last, hsegments, hsilent⟩ := hp
  have hlast : last ≠ [] := by
    rintro rfl
    cases hsilent
  unfold spot? at h
  split at h
  · cases h
  simp only [spotFrom?, hsegments, splitLast_concat front hlast] at h
  cases hwalk : d.tree.walk maxLinks (startOf d.here p) front with
  | error f =>
    rw [hwalk] at h
    cases h
  | ok l =>
    rw [hwalk] at h
    simp only [bind, Except.bind] at h
    split at h
    · cases h
    split at h
    · cases h
    · rw [← Option.some.inj (Except.ok.inj h)]

/-- At the last name of a path something can be put that replaces no
directory. -/
theorem canPut_of_spot? (hspot : d.spot? p = .ok (some s)) (hslash : s.slash = false)
    (hold : d.tree.node? s.location ≠ some .directory) : d.tree.CanPut s.location := by
  obtain ⟨htext, front, last, happroach, hname⟩ := approach_of_spot? hspot hslash
  have hlocation : s.location = String.ofList last :: s.directory := by rw [Spot.location, hname]
  rw [hlocation] at hold ⊢
  exact ⟨happroach.endsIn.fileName htext, isDirectory_iff.mp happroach.isDirectory, hold⟩

/-- What is no link is what a path to its name leads to. -/
theorem Approach.locate? {directory : Location}
    (h : Approach d.tree (startOf d.here p) p.segments front last directory)
    (htext : pathFault? p = none) (hfits : (String.ofList last).utf8ByteSize ≤ maxNameBytes)
    (hnode : d.tree.node? (String.ofList last :: directory) = some node)
    (hlink : ∀ target, node ≠ .link target) :
    d.locate? p = .ok (String.ofList last :: directory) := by
  rw [h.locate?_eq_there? htext hfits (by simpa [hnode] using hlink)]
  exact there?_eq_ok_iff.mpr ⟨rfl, node, hnode⟩

/-! ## More on a disk -/

/-- The second disk has all that the first one has. -/
structure Extends (d d' : Disk) : Prop where
  here : d'.here = d.here
  kept : ∀ l node, d.tree.node? l = some node → d'.tree.node? l = some node

theorem Extends.refl (d : Disk) : d.Extends d := ⟨rfl, fun _ _ h => h⟩

theorem Extends.trans (h : d.Extends d₁) (h' : d₁.Extends d₂) : d.Extends d₂ :=
  ⟨h'.here.trans h.here, fun l node hl => h'.kept l node (h.kept l node hl)⟩

theorem Extends.isDirectory (h : d.Extends d₁) (hl : d.tree.isDirectory l = true) :
    d₁.tree.isDirectory l = true :=
  isDirectory_iff.mpr (h.kept l _ (isDirectory_iff.mp hl))

theorem Extends.locate? (h : d.Extends d₁) (hp : d.locate? p = .ok l) : d₁.locate? p = .ok l := by
  obtain ⟨htext, n, hn, hwalk⟩ := walks_of_locate? hp
  rw [locate?_eq htext, h.here]
  exact (hwalk.extend h.kept).walk hn

theorem Extends.node? (h : d.Extends d₁) (hp : d.node? p = .ok node) : d₁.node? p = .ok node := by
  obtain ⟨l, hl, hnode⟩ := locate?_of_node? hp
  rw [Disk.node?, h.locate? hl]
  simp only [bind, Except.bind, h.kept l node hnode]

theorem Extends.approach {start directory : Location} {segments : List Segment}
    (h : d.Extends d₁) (happroach : Approach d.tree start segments front last directory) :
    Approach d₁.tree start segments front last directory where
  split := happroach.split
  silent := happroach.silent
  up := happroach.up
  walks := by
    obtain ⟨n, hn, hwalk⟩ := happroach.walks
    exact ⟨n, hn, hwalk.extend h.kept⟩
  isDirectory := h.isDirectory happroach.isDirectory

/-! ## Directories and nothing else -/

/-- The disk has grown by directories, and one of the paths leads to each. -/
structure Paved (d : Disk) (along : Path → Prop) (d' : Disk) : Prop extends d.Extends d' where
  made : ∀ l node, d.tree.node? l = none → d'.tree.node? l = some node →
    node = .directory ∧ ∃ q, along q ∧ d'.locate? q = .ok l

variable {along along' : Path → Prop}

theorem Paved.refl (d : Disk) (along : Path → Prop) : d.Paved along d where
  toExtends := Extends.refl d
  made l node hnone hnode := by
    rw [hnone] at hnode
    cases hnode

theorem Paved.mono (h : d.Paved along d₁) (hsub : ∀ q, along q → along' q) :
    d.Paved along' d₁ where
  toExtends := h.toExtends
  made l node hnone hnode := by
    obtain ⟨hdir, q, hq, hlocate⟩ := h.made l node hnone hnode
    exact ⟨hdir, q, hsub q hq, hlocate⟩

theorem Paved.trans (h : d.Paved along d₁) (h' : d₁.Paved along d₂) : d.Paved along d₂ where
  toExtends := h.toExtends.trans h'.toExtends
  made l node hnone hnode := by
    cases hmid : d₁.tree.node? l with
    | none => exact h'.made l node hmid hnode
    | some node' =>
      obtain ⟨hdir, q, hq, hlocate⟩ := h.made l node' hnone hmid
      obtain rfl : node' = node := Option.some.inj ((h'.kept l node' hmid).symm.trans hnode)
      exact ⟨hdir, q, hq, h'.toExtends.locate? hlocate⟩

theorem Paved.linkFree (h : d.Paved along d₁) (hfree : d.tree.LinkFree) : d₁.tree.LinkFree := by
  intro l target hl
  cases hnode : d.tree.node? l with
  | none => cases (h.made l _ hnode hl).1
  | some node =>
    rw [h.kept l node hnode] at hl
    exact hfree l target (hl ▸ hnode)

/-! ## One directory -/

/-- Creating a directory does nothing, or makes one where there was nothing. -/
theorem createDirectory_cases (hp : p.Tidy) :
    (∃ f, d.createDirectory p = (.error f, d))
      ∨ ∃ l d', d.createDirectory p = (.ok (), d') ∧ d.Paved (· = p) d'
        ∧ d.tree.node? l = none ∧ d'.locate? p = .ok l
        ∧ ∀ m, d'.tree.node? m = if m = l then some .directory else d.tree.node? m := by
  unfold createDirectory
  split
  · exact Or.inl ⟨_, rfl⟩
  · exact Or.inl ⟨_, rfl⟩
  next s hspot =>
  split
  · exact Or.inl ⟨_, rfl⟩
  · exact Or.inl ⟨_, rfl⟩
  next hnode =>
  right
  obtain ⟨hfits, hnone⟩ := node?_of_nodeAt? hnode
  have hslash := slash_of_spot? (hp.resolve_left fun h => spot?_of_no_names h hspot) hspot
  obtain ⟨htext, front, last, happroach, hname⟩ := approach_of_spot? hspot hslash
  have hlocation : s.location = String.ofList last :: s.directory := by rw [Spot.location, hname]
  have hput := canPut_of_spot? hspot hslash (by rw [hnone]; intro heq; cases heq)
  have hnodes := node?_put d.tree s.location .directory hput
  have hextends : d.Extends (d.withTree (d.tree.put s.location .directory)) := by
    refine ⟨rfl, fun m node hm => ?_⟩
    rw [withTree, hnodes, if_neg, hm]
    rintro rfl
    rw [hnone] at hm
    cases hm
  have hlocate : (d.withTree (d.tree.put s.location .directory)).locate? p = .ok s.location := by
    have hthere := (hnodes s.location).trans (if_pos rfl)
    generalize d.tree.put s.location .directory = t at hextends hthere ⊢
    rw [hlocation] at hthere ⊢
    refine Approach.locate? (hextends.approach happroach) htext (hname ▸ hfits) hthere ?_
    intro target heq
    cases heq
  refine ⟨s.location, _, rfl, ⟨hextends, fun m node hm hnode => ?_⟩, hnone, hlocate, hnodes⟩
  rw [withTree, hnodes] at hnode
  split at hnode
  · next hm => exact ⟨(Option.some.inj hnode).symm, p, rfl, hm ▸ hlocate⟩
  · rw [hm] at hnode
    cases hnode

theorem createDirectory_paved (hp : p.Tidy) : d.Paved (· = p) (d.createDirectory p).2 := by
  rcases createDirectory_cases (d := d) hp with ⟨f, hcreate⟩ | ⟨l, d', hcreate, hpaved, -⟩
  · rw [hcreate]
    exact Paved.refl d _
  · rw [hcreate]
    exact hpaved

theorem ensureDirectory_disk (d : Disk) (p : Path) :
    (d.ensureDirectory p).2 = (d.createDirectory p).2 := by
  unfold ensureDirectory
  split
  · next hcreate => rw [hcreate]
  · next hcreate =>
    rw [hcreate]
    split <;> rfl

/-! ## All directories around a path -/

/-- The ways of creating directories: nothing can be done or there is nothing
to do, or one is made, or those around it are made before it is tried again. -/
inductive Creates (n : Nat) (d : Disk) (p : Path) (r : Change Unit) : Prop
  | left (hr : r.2 = d)
  | made (hr : r.2 = (d.createDirectory p).2)
  | stopped (up : Path) (hup : p.parent? = some up) (hr : r.2 = (createDirectoriesUpTo n d up).2)
  | reached (up : Path) (hup : p.parent? = some up)
      (hr : r.2 = ((createDirectoriesUpTo n d up).2.createDirectory p).2)

theorem creates (n : Nat) (hp : p.Tidy) : Creates n d p (createDirectoriesUpTo (n + 1) d p) := by
  rw [createDirectoriesUpTo]
  split
  · exact .left rfl
  split
  · next d₁ hcreate =>
    obtain rfl : d₁ = d := by
      rcases createDirectory_cases (d := d) hp with ⟨f, h⟩ | ⟨_, _, h, -⟩
      · exact (Prod.mk.inj (hcreate.symm.trans h)).2
      · cases (Prod.mk.inj (hcreate.symm.trans h)).1
    split
    · exact .left rfl
    next up hup =>
    split
    · next hrest => exact .stopped up hup (by rw [hrest])
    · next hrest => exact .reached up hup (by rw [ensureDirectory_disk, hrest])
  · next hcreate => exact .made (by rw [hcreate])
  · next hcreate =>
    refine .made ?_
    rw [hcreate]
    split <;> rfl

theorem createDirectoriesUpTo_paved (n : Nat) (hp : p.Tidy) :
    d.Paved (fun q => q = p ∨ q.Around p) (createDirectoriesUpTo n d p).2 := by
  induction n generalizing p with
  | zero => exact Paved.refl d _
  | succ n ih =>
    have around {up : Path} (hup : p.parent? = some up) :
        d.Paved (fun q => q = p ∨ q.Around p) (createDirectoriesUpTo n d up).2 := by
      refine (ih (isParent_of_parent? hup).tidy).mono fun q hq => Or.inr ?_
      rcases hq with rfl | hq
      · exact .parent hup
      · exact .further hup hq
    cases creates (d := d) n hp with
    | left hr =>
      rw [hr]
      exact Paved.refl d _
    | made hr =>
      rw [hr]
      exact (createDirectory_paved hp).mono fun q hq => Or.inl hq
    | stopped up hup hr =>
      rw [hr]
      exact around hup
    | reached up hup hr =>
      rw [hr]
      exact (around hup).trans ((createDirectory_paved hp).mono fun q hq => Or.inl hq)

theorem createDirectories_paved (hup : p.parent? = some up) :
    d.Paved (·.Around p) (d.createDirectories up).2 := by
  refine (createDirectoriesUpTo_paved _ (isParent_of_parent? hup).tidy).mono fun q hq => ?_
  rcases hq with rfl | hq
  · exact .parent hup
  · exact .further hup hq

theorem createParent_paved (d : Disk) (p : Path) : d.Paved (·.Around p) (d.createParent p).2 := by
  unfold createParent
  split
  · exact Paved.refl d _
  · next up hup => exact createDirectories_paved hup

/-! ## The directory that was made last -/

theorem createDirectory_of_no_names_disk (hp : p.names = []) : (d.createDirectory p).2 = d := by
  unfold createDirectory
  split
  · rfl
  · rfl
  · next hspot => exact absurd hspot (spot?_of_no_names hp)

/-- A path without names leads to what is there, or nowhere. -/
theorem createDirectoriesUpTo_of_no_names (n : Nat) (hp : p.names = []) :
    (createDirectoriesUpTo n d p).2 = d := by
  induction n generalizing p with
  | zero => rfl
  | succ n ih =>
    have around {up : Path} (hup : p.parent? = some up) : (createDirectoriesUpTo n d up).2 = d :=
      ih (by rw [(isParent_of_parent? hup).names, hp]; rfl)
    cases creates (d := d) n (Or.inl hp) with
    | left hr => exact hr
    | made hr => exact hr.trans (createDirectory_of_no_names_disk hp)
    | stopped up hup hr => exact hr.trans (around hup)
    | reached up hup hr => rw [hr, around hup, createDirectory_of_no_names_disk hp]

/-- A path that leads somewhere leads through the directory around it. -/
theorem locate?_parent (hup : IsParent up p) (hne : up.text ≠ "") (hends : p.EndsIn front last)
    (h : d.locate? p = .ok l) :
    ∃ dir, d.locate? up = .ok dir ∧ (d.tree.node? (String.ofList last :: dir)).isSome = true := by
  obtain ⟨htext, n, hn, hwalk⟩ := walks_of_locate? h
  rw [hends.segments] at hwalk
  obtain ⟨n₁, n₂, dir, hsum, hfirst, hlast⟩ := hwalk.split
  obtain ⟨hdir, next, hstep⟩ : d.tree.isDirectory dir = true
      ∧ ∃ next, d.tree.step dir last = .ok next := by
    cases hlast with
    | step hdir hstep => exact ⟨hdir, _, hstep⟩
    | link hdir hstep => exact ⟨hdir, _, hstep⟩
  have hspoken : spoken up.segments = spoken front := by
    have hnames := hup.names
    rwa [hends.names, List.dropLast_concat] at hnames
  refine ⟨dir, ?_, ?_⟩
  · rw [locate?_eq ((pathFault?_of_beginning hup.beginning htext).resolve_left hne),
      startOf_of_isParent hup]
    exact (hfirst.respell hdir hspoken).walk (by omega)
  · obtain ⟨node, hnode⟩ := node?_of_step hdir hstep
    rw [eq_of_step hends.silent hends.up hstep] at hnode
    rw [hnode]
    rfl

/-- When directories were made on an inward path, it leads to an empty one, or
nowhere. -/
theorem createDirectoriesUpTo_empty (n : Nat) (hin : p.Inward) (hp : p.Tidy) :
    (createDirectoriesUpTo n d p).2 = d
      ∨ ∀ l, (createDirectoriesUpTo n d p).2.locate? p = .ok l →
          ∀ name, (createDirectoriesUpTo n d p).2.tree.node? (name :: l) = none := by
  induction n generalizing p with
  | zero => exact Or.inl rfl
  | succ n ih =>
    by_cases hnames : p.names = []
    · exact Or.inl (createDirectoriesUpTo_of_no_names _ hnames)
    obtain ⟨front, last, hsegments, hsilent⟩ := hp.resolve_left hnames
    have hends : p.EndsIn front last := by
      refine ⟨hsegments, hsilent, ?_⟩
      rintro rfl
      exact hin (by rw [hsegments]; simp)
    -- a directory that is made holds nothing
    have made (d : Disk) : (d.createDirectory p).2 = d
        ∨ ∀ l, (d.createDirectory p).2.locate? p = .ok l →
            ∀ name, (d.createDirectory p).2.tree.node? (name :: l) = none := by
      rcases createDirectory_cases (d := d) hp with ⟨f, h⟩ | ⟨l, d', h, -, hnone, hlocate, hnodes⟩
      · rw [h]
        exact Or.inl rfl
      · rw [h]
        refine Or.inr fun l' hl' name => ?_
        obtain rfl := Except.ok.inj (hlocate.symm.trans hl')
        rw [hnodes, if_neg (by simp)]
        exact none_of_suffix (List.suffix_cons name l) hnone
    -- an empty directory around the path, and the path leads nowhere
    have stopped {up : Path} (hup : p.parent? = some up) :
        (createDirectoriesUpTo n d up).2 = d
          ∨ ∀ l, (createDirectoriesUpTo n d up).2.locate? p ≠ .ok l := by
      have hparent := isParent_of_parent? hup
      by_cases hne : up.text = ""
      · left
        cases n with
        | zero => rfl
        | succ n => rw [createDirectoriesUpTo, if_pos hne]
      · refine (ih (hparent.inward hin) hparent.tidy).imp_right fun hempty l hl => ?_
        obtain ⟨dir, hdir, hthere⟩ := locate?_parent hparent hne hends hl
        rw [hempty dir hdir] at hthere
        cases hthere
    cases creates (d := d) n hp with
    | left hr => exact Or.inl hr
    | made hr =>
      rw [hr]
      exact made d
    | stopped up hup hr =>
      rw [hr]
      exact (stopped hup).imp_right fun hnot l hl => absurd hl (hnot l)
    | reached up hup hr =>
      rw [hr]
      rcases made (createDirectoriesUpTo n d up).2 with hsame | hempty
      · rw [hsame]
        exact (stopped hup).imp_right fun hnot l hl => absurd hl (hnot l)
      · exact Or.inr hempty

theorem beginning_join (up : Path) {q : Path} (hq : q.isAbsolute = false) :
    up.text.toList <+: (up.join q).text.toList := by
  unfold join
  rw [if_neg (by simp [hq])]
  split
  · rw [String.toList_append]
    exact List.prefix_append ..
  · rw [String.toList_append, String.toList_append, List.append_assoc]
    exact List.prefix_append ..

theorem createParent_disk (hup : p.parent? = some up) :
    (d.createParent p).2 = (createDirectoriesUpTo (up.segments.length + 1) d up).2 := by
  unfold createParent
  rw [hup]
  rfl

section Vacant

variable {q : Path} {front' : List Segment} {last' : Segment}

/-- The directory of a free name may have to be made. The name is free then too,
unless the path leads outwards. -/
theorem vacant_of_beside (hends : p.EndsIn front last) (hin : p.Inward)
    (hends' : q.EndsIn front' last') (hfront : spoken front' = spoken front)
    (hstart : ∀ here, startOf here q = startOf here p)
    (hbeginning : ∀ up, p.parent? = some up → up.text.toList <+: q.text.toList)
    (hvacant : d.Vacant q) : (d.createParent p).2.Vacant q := by
  obtain ⟨up, hup⟩ := parent?_isSome (p := p) (by rw [hends.names]; simp)
  have hparent := isParent_of_parent? hup
  rw [createParent_disk hup]
  by_cases hne : up.text = ""
  · rw [createDirectoriesUpTo, if_pos hne]
    exact hvacant
  rcases createDirectoriesUpTo_empty (d := d) (up.segments.length + 1) (hparent.inward hin)
    hparent.tidy with hsame | hempty
  · rw [hsame]
    exact hvacant
  -- the directory of the free name is the one around the path
  generalize (createDirectoriesUpTo (up.segments.length + 1) d up).2 = d₁ at hempty ⊢
  intro s hspot
  obtain ⟨htext, front'', last'', happroach, -⟩ := approach_of_spot? hspot
    (slash_of_spot? ⟨front', _, hends'.segments, hends'.silent⟩ hspot)
  obtain ⟨rfl, -⟩ := List.append_inj' (happroach.split.symm.trans hends'.segments) rfl
  have hspoken : spoken up.segments = spoken front'' := by
    have hnames := hparent.names
    rw [hends.names, List.dropLast_concat] at hnames
    exact hnames.trans hfront.symm
  have hfault := (pathFault?_of_beginning (hbeginning up hup) htext).resolve_left hne
  obtain ⟨n, hn, hwalk⟩ := happroach.walks
  refine hempty s.directory ?_ s.name
  rw [locate?_eq hfault, startOf_of_isParent hparent, ← hstart]
  exact (hwalk.respell happroach.isDirectory hspoken).walk hn

theorem vacant_createParent (hends : p.EndsIn front last) (hin : p.Inward)
    (hvacant : d.Vacant p) : (d.createParent p).2.Vacant p :=
  vacant_of_beside hends hin hends rfl (fun _ => rfl)
    (fun _ hup => (isParent_of_parent? hup).beginning) hvacant

theorem vacant_temporary_createParent (hends : p.EndsIn front last) (hin : p.Inward)
    (hvacant : d.Vacant (temporary p)) : (d.createParent p).2.Vacant (temporary p) := by
  obtain ⟨front', hends', hfront⟩ := endsIn_temporary hends
  refine vacant_of_beside hends hin hends' hfront (fun _ => startOf_temporary hends _)
    (fun up hup => ?_) hvacant
  have hbeside : temporary p = up.join ⟨String.ofList last ++ ".carve.tmp"⟩ := by
    unfold temporary
    exact sibling_eq_join (fileName?_eq hends.segments hends.silent hends.up) hup _
  have hname : Path.isAbsolute ⟨String.ofList last ++ ".carve.tmp"⟩ = false := by
    have hslash : '/' ∉ last ++ ".carve.tmp".toList := by
      rw [List.mem_append, not_or]
      exact ⟨slash_not_mem (p := p) (by rw [hends.segments]; simp), by decide⟩
    have hrel := isAbsolute_of_name hslash
    rwa [String.ofList_append, String.ofList_toList] at hrel
  rw [hbeside]
  exact beginning_join up hname

end Vacant

end Disk

end Vendoring
