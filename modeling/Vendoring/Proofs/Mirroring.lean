import Vendoring.Proofs.Lasting

/-!
# Two runs side by side

The same steps are followed on two disks, `X` and `Y`. Where all of them
succeed on `X` they succeed on `Y` too, and both come to hold the same files,
if only `Y` mirrors `X` at the beginning: it has the sources of `X`, and at
each target it either holds the file of `X` or can be written. The runs need
not do the same; one may skip an entry that the other one copies.

`Mirrors` is that relation, with what is left to do as an index;
`mirrors_entry` is one step of the simulation, and `mirrors_follow` all of
it. A target that several steps share is looked at when the first of them
comes, since that step settles it for the others.
-/

namespace Vendoring

open Vendoring.Path FileTree

/-! ## Places that do not lie in each other's way -/

/-- No path lies below another one, or below a temporary file. -/
structure Flat (here : Location) (paths : List Path) : Prop where
  nested : ∀ p ∈ paths, ∀ q ∈ paths, ¬p.place here <:+ (q.place here).tail
  temporaries : ∀ p ∈ paths, ∀ q ∈ paths, ¬(Disk.temporary p).place here <:+ q.place here

namespace Disk

variable {d d' : Disk} {p q : Path} {here : Location} {paths : List Path}

/-- A directory stays where it is. -/
theorem Touched.directory (h : d.Touched q d') {m : Location}
    (hm : d.tree.node? m = some .directory) : d'.tree.node? m = some .directory := by
  cases h.nodes m with
  | same hsame => rw [hsame, hm]
  | written _ hold _ _ _ => exact absurd hm hold
  | cleared _ hold _ => exact absurd hm hold
  | grown _ hold _ => rw [hm] at hold; cases hold

/-- A new directory stands above the file that was replaced. -/
theorem Touched.directory_before (h : d.Touched q d') {m : Location}
    (hm : d'.tree.node? m = some .directory) :
    d.tree.node? m = some .directory ∨ m <:+ (q.place d.here).tail := by
  cases h.nodes m with
  | same hsame => exact Or.inl (hsame.symm.trans hm)
  | written _ _ bytes mode hnew => rw [hnew] at hm; cases hm
  | cleared _ _ hnew => rw [hnew] at hm; cases hm
  | grown habove _ _ => exact Or.inr habove

/-- The way to other files stays clear. -/
theorem Touched.open (h : d.Touched q d') {m : Location} (hm : m ≠ q.place d.here)
    (hopen : d.tree.Open m) : d'.tree.Open m := by
  cases h.nodes m with
  | same hsame => exact hopen.imp hsame.trans hsame.trans
  | written heq _ _ _ _ => exact absurd heq hm
  | cleared _ _ hnew => exact Or.inl hnew
  | grown _ _ hnew => exact Or.inr hnew

section Room

variable (hflat : Flat d.here paths) (hp : p ∈ paths) (hq : q ∈ paths) (h : d.Touched q d')

include hflat hp hq h

/-- Replacing one file leaves the room for the others. -/
theorem Touched.roomy (hroomy : d.Roomy p) : d'.Roomy p := by
  refine ⟨hroomy.fits, hroomy.temporaryFits, fun m hm => ?_, ?_, ?_⟩
  · rw [h.here] at hm
    refine h.open ?_ (hroomy.above m hm)
    rintro rfl
    exact hflat.nested q hq p hp hm
  · rw [h.here]
    exact h.not_directory (hflat.nested p hp q hq) hroomy.free
  · rw [h.here]
    refine h.not_directory (fun hsuffix => ?_) hroomy.temporaryFree
    exact hflat.temporaries p hp q hq (hsuffix.trans (List.tail_suffix _))

theorem Touched.writable (hwritable : d.Writable p) : d'.Writable p := by
  refine ⟨h.roomy hflat hp hq hwritable.toRoomy, ?_⟩
  rw [isDirectory_iff, h.here]
  exact h.directory (isDirectory_iff.mp hwritable.start)

/-- Room behind a replacement was there before. -/
theorem Touched.roomy_before (hroomy : d'.Roomy p) : d.Roomy p := by
  obtain ⟨hfits, htmpFits, habove, hfree, htmpFree⟩ := hroomy
  rw [h.here] at habove hfree htmpFree
  refine ⟨hfits, htmpFits, fun m hm => ?_, fun hdir => hfree (h.directory hdir),
    fun hdir => htmpFree (h.directory hdir)⟩
  have hopen := habove m hm
  cases h.nodes m with
  | same hsame => rwa [Open, hsame] at hopen
  | written _ _ bytes mode hnew =>
    rcases hopen with hnone | hdir
    · rw [hnew] at hnone
      cases hnone
    · rw [hnew] at hdir
      cases hdir
  | cleared heq _ _ =>
    subst heq
    exact absurd (hm.trans (List.tail_suffix _)) (hflat.temporaries q hq p hp)
  | grown _ hold _ => exact Or.inl hold

end Room

end Disk

/-! ## Along a run -/

/-- The targets of a list of steps are among some paths. -/
def TargetsIn (steps : List Step) (paths : List Path) : Prop :=
  ∀ s ∈ steps, ∀ p, s.target? = some p → p ∈ paths

theorem targetsIn_filterMap (steps : List Step) : TargetsIn steps (steps.filterMap Step.target?) :=
  fun s hs _ hp => List.mem_filterMap.mpr ⟨s, hs, hp⟩

section Along

variable {here : Location} {steps : List Step} {paths : List Path}
  (hsteps : ∀ s ∈ steps, s.Plain) (htargets : TargetsIn steps paths) {d : Disk}
  (hd : d.Simple here)

include hsteps htargets hd

omit htargets in
theorem follow_directory {m : Location} (hm : d.tree.node? m = some .directory) :
    (follow false steps d).disk.tree.node? m = some .directory :=
  follow_frame (P := fun d' => d'.tree.node? m = some .directory) hsteps
    (fun _ _ _ _ _ _ _ htouched => htouched.directory) hd hm

theorem follow_open {m : Location} (hm : ∀ q ∈ paths, q.place here ≠ m) (hopen : d.tree.Open m) :
    (follow false steps d).disk.tree.Open m := by
  refine follow_frame (P := fun d' => d'.tree.Open m) hsteps ?_ hd hopen
  rintro s hs q hq d₁ d₂ ⟨-, rfl⟩ htouched
  exact htouched.open (hm q (htargets s hs q hq)).symm

theorem follow_not_directory {m : Location} (hm : ∀ q ∈ paths, ¬m <:+ (q.place here).tail)
    (hold : d.tree.node? m ≠ some .directory) :
    (follow false steps d).disk.tree.node? m ≠ some .directory := by
  refine follow_frame (P := fun d' => d'.tree.node? m ≠ some .directory) hsteps ?_ hd hold
  rintro s hs q hq d₁ d₂ ⟨-, rfl⟩ htouched
  exact htouched.not_directory (hm q (htargets s hs q hq))

theorem follow_writable (hflat : Flat here paths) {p : Path} (hp : p ∈ paths)
    (hwritable : d.Writable p) : (follow false steps d).disk.Writable p := by
  refine follow_frame (P := fun d' => d'.Writable p) hsteps ?_ hd hwritable
  rintro s hs q hq d₁ d₂ ⟨-, rfl⟩ htouched
  exact Disk.Touched.writable hflat hp (htargets s hs q hq) htouched

/-- No file comes or goes apart from the targets and their temporary files. -/
theorem follow_file {m : Location} (hm : ∀ q ∈ paths, q.place here ≠ m)
    (htmp : ∀ q ∈ paths, (Disk.temporary q).place here ≠ m) {bytes : ByteArray} {mode : Nat} :
    (follow false steps d).disk.tree.node? m = some (.file bytes mode)
      ↔ d.tree.node? m = some (.file bytes mode) := by
  refine follow_frame (P := fun d' => d'.tree.node? m = some (.file bytes mode)
      ↔ d.tree.node? m = some (.file bytes mode)) hsteps ?_ hd Iff.rfl
  rintro s hs q hq d₁ d₂ ⟨-, rfl⟩ htouched hsame
  have hq := htargets s hs q hq
  exact (htouched.file_iff (hm q hq).symm (htmp q hq).symm).trans hsame

end Along

/-! ## The simulation -/

/-- A file of the one disk is a file with the same bytes on the other one. -/
def SameFile (X Y : Disk) (m : Location) : Prop :=
  ∀ bytes mode, X.tree.node? m = some (.file bytes mode) →
    ∃ mode', Y.tree.node? m = some (.file bytes mode')

theorem SameFile.node? {X Y : Disk} {here : Location} {p : Path} (hX : X.Simple here)
    (hY : Y.Simple here) (hp : p.Plain) (h : SameFile X Y (p.place here)) {bytes : ByteArray}
    {mode : Nat} (hfile : X.node? p = .ok (.file bytes mode)) :
    ∃ mode', Y.node? p = .ok (.file bytes mode') := by
  obtain ⟨hfits, hnode⟩ := (hX.node?_iff hp).mp hfile
  obtain ⟨mode', hnode'⟩ := h bytes mode hnode
  exact ⟨mode', (hY.node?_iff hp).mpr ⟨hfits, hnode'⟩⟩

/-- Some step writes to the place. -/
def WritesTo (steps : List Step) (here m : Location) : Prop :=
  ∃ s ∈ steps, ∃ p, s.target? = some p ∧ p.place here = m

theorem writesTo_concat {steps : List Step} {s : Step} {here m : Location} :
    WritesTo (steps ++ [s]) here m ↔
      WritesTo steps here m ∨ ∃ p, s.target? = some p ∧ p.place here = m := by
  simp only [WritesTo, List.mem_append, List.mem_singleton, or_and_right, exists_or,
    exists_eq_left]

/-- Steps that do not write to a destination keep the file that stands there,
and bring none. -/
theorem follow_unwritten {here : Location} {all steps : List Step} (hall : Orderly here all)
    (hsub : steps ⊆ all) {d : Disk} (hd : d.Simple here) {c : Category} {e : Entry}
    (he : .entry c e ∈ all) (hnot : ¬WritesTo steps here ((c.destinationPath e).place here))
    {bytes : ByteArray} {mode : Nat} :
    (follow false steps d).disk.tree.node? ((c.destinationPath e).place here)
        = some (.file bytes mode)
      ↔ d.tree.node? ((c.destinationPath e).place here) = some (.file bytes mode) := by
  refine follow_file (fun s hs => hall.plain s (hsub hs)) (targetsIn_filterMap steps) hd
    (fun q hq heq => ?_) fun q hq => ?_
  · obtain ⟨s, hs, hp⟩ := List.mem_filterMap.mp hq
    exact hnot ⟨s, hs, q, hp, heq⟩
  · obtain ⟨s, hs, hp⟩ := List.mem_filterMap.mp hq
    exact hall.temporaryTarget s (hsub hs) q hp _ he _ rfl

/-- `Y` mirrors `X`, with the steps `rest` of `all` still to be done. -/
structure Mirrors (here : Location) (paths : List Path) (all rest : List Step) (X Y : Disk) :
    Prop where
  left : X.Simple here
  right : Y.Simple here
  begun : X.tree.node? here = some .directory → Y.tree.node? here = some .directory
  sources : ∀ c e, .entry c e ∈ all → ∀ bytes mode,
    X.node? (c.sourcePath e) = .ok (.file bytes mode) →
    Y.node? (c.sourcePath e) = .ok (.file bytes mode)
  roomy : ∀ p ∈ paths, X.Roomy p → Y.Roomy p
  ready : ∀ pre c e post, rest = pre ++ .entry c e :: post →
    WritesTo pre here ((c.destinationPath e).place here)
      ∨ SameFile X Y ((c.destinationPath e).place here) ∨ Y.Writable (c.destinationPath e)
  done : ∀ c e, .entry c e ∈ all →
    WritesTo rest here ((c.destinationPath e).place here)
      ∨ SameFile X Y ((c.destinationPath e).place here)

/-- Behind all steps every destination is settled. -/
theorem Mirrors.sameFile {here : Location} {paths : List Path} {all : List Step} {X Y : Disk}
    (h : Mirrors here paths all [] X Y) {c : Category} {e : Entry} (he : .entry c e ∈ all) :
    SameFile X Y ((c.destinationPath e).place here) :=
  (h.done c e he).resolve_left fun ⟨_, hmem, _⟩ => nomatch hmem

/-- What can be written on `X` can be written on `Y`. -/
theorem Mirrors.writable {here : Location} {paths : List Path} {all rest : List Step} {X Y : Disk}
    (h : Mirrors here paths all rest X Y) {p : Path} (hp : p ∈ paths) (hwritable : X.Writable p) :
    Y.Writable p := by
  refine ⟨h.roomy p hp hwritable.toRoomy, ?_⟩
  have hstart := hwritable.start
  rw [isDirectory_iff, h.left.here, startOf] at hstart
  rw [isDirectory_iff, h.right.here, startOf]
  split
  · exact node?_root _
  · next habs =>
    rw [if_neg habs] at hstart
    exact h.begun hstart

section Simulation

variable {here : Location} {paths : List Path} {all rest : List Step} {X Y : Disk}
  {c : Category} {e : Entry}

theorem perform_sameFile {s : Step} (hs : s.Plain) (hX : X.Simple here) (hY : Y.Simple here)
    {m : Location} (hm : ∀ p, s.target? = some p → p.place here ≠ m)
    (htmp : ∀ p, s.target? = some p → (Disk.temporary p).place here ≠ m) (h : SameFile X Y m) :
    SameFile (s.perform false X).disk (s.perform false Y).disk m := by
  intro bytes mode hfile
  obtain ⟨mode', hfile'⟩ := h bytes mode ((Step.perform_file hs hX hm htmp).mp hfile)
  exact ⟨mode', (Step.perform_file hs hY hm htmp).mpr hfile'⟩

theorem writesTo_cons {s : Step} {m : Location} (h : WritesTo (s :: rest) here m) :
    (∃ p, s.target? = some p ∧ p.place here = m) ∨ WritesTo rest here m := by
  obtain ⟨s', hs', hp⟩ := h
  rcases List.mem_cons.mp hs' with rfl | hs'
  · exact Or.inl hp
  · exact Or.inr ⟨s', hs', hp⟩

/-- Beginning a category is no event for the disks. -/
theorem mirrors_start (h : Mirrors here paths all (.start c :: rest) X Y) :
    Mirrors here paths all rest X Y := by
  have skip {steps : List Step} {m : Location} (hw : WritesTo (.start c :: steps) here m) :
      WritesTo steps here m :=
    (writesTo_cons hw).resolve_left fun ⟨_, hp, _⟩ => nomatch hp
  refine ⟨h.left, h.right, h.begun, h.sources, h.roomy, fun pre c' e post hrest => ?_,
    fun c' e he => (h.done c' e he).imp_left skip⟩
  exact (h.ready (.start c :: pre) c' e post (by rw [hrest, List.cons_append])).imp_left skip

variable (hall : Orderly here all) (htargets : TargetsIn all paths) (hflat : Flat here paths)

include hall htargets in
/-- An entry that succeeds on `X` succeeds on `Y`. -/
theorem mirrors_entry_ok (hs : .entry c e ∈ all)
    (h : Mirrors here paths all (.entry c e :: rest) X Y) {w : WriteResult}
    (hok : (syncEntry c e false X).result = .ok w) :
    ∃ w', (syncEntry c e false Y).result = .ok w' := by
  obtain ⟨hsource, hdest⟩ := hall.plain _ hs
  have hapart := hall.temporarySource _ hs _ rfl c e hs
  obtain ⟨bytes, mode, _, hfile, _⟩ := perform_entry_brings hall hs h.left hok
  have hfileY := h.sources c e hs _ _ hfile
  by_cases hwritable : Y.Writable (c.destinationPath e)
  · exact syncEntry_of_writable h.right.linkFree hsource hdest (Disk.isFile?_of_file hfileY)
      hwritable
  · -- a destination that cannot be written holds the file of `X`, where it is current
    have hready := (h.ready [] c e rest rfl).resolve_left fun ⟨_, hmem, _⟩ => nomatch hmem
    have hsame := hready.resolve_right hwritable
    rcases syncEntry_ok h.left.linkFree hsource hdest (h.left.here ▸ hapart) hok with
      ⟨_, bytes', mode₁, mode₂, hsource', hdest'⟩ | ⟨hprepared, _⟩
    · obtain ⟨mode₃, hdestY⟩ := hsame.node? h.left h.right hdest hdest'
      have hsynced : Y.Synced (c.sourcePath e) (c.destinationPath e) :=
        ⟨bytes', mode₁, mode₃, h.sources c e hs _ _ hsource', hdestY⟩
      exact ⟨_, congrArg Outcome.result (syncEntry_of_synced false hsynced)⟩
    · exact absurd (h.writable (htargets _ hs _ rfl) (hprepared.writable hdest)) hwritable

include hall in
/-- Behind an entry both sides hold the bytes of its source. -/
theorem mirrors_entry_sameFile (hs : .entry c e ∈ all)
    (h : Mirrors here paths all (.entry c e :: rest) X Y) {w w' : WriteResult}
    (hok : (syncEntry c e false X).result = .ok w)
    (hok' : (syncEntry c e false Y).result = .ok w') :
    SameFile (syncEntry c e false X).disk (syncEntry c e false Y).disk
      ((c.destinationPath e).place here) := by
  obtain ⟨bytes, mode, mode₁, hfile, hnode⟩ := perform_entry_brings hall hs h.left hok
  obtain ⟨bytesY, modeY, mode₂, hfileY, hnodeY⟩ := perform_entry_brings hall hs h.right hok'
  rw [h.sources c e hs _ _ hfile] at hfileY
  cases hfileY
  intro bytes' mode' hfile'
  rw [hnode] at hfile'
  cases hfile'
  exact ⟨mode₂, hnodeY⟩

include hall in
/-- A destination is settled by an entry, or stays as settled as it was. -/
theorem mirrors_entry_keeps (hs : .entry c e ∈ all)
    (h : Mirrors here paths all (.entry c e :: rest) X Y) {w w' : WriteResult}
    (hok : (syncEntry c e false X).result = .ok w)
    (hok' : (syncEntry c e false Y).result = .ok w') {c' : Category} {e' : Entry}
    (he' : .entry c' e' ∈ all)
    (hold : (c.destinationPath e).place here = (c'.destinationPath e').place here
      ∨ SameFile X Y ((c'.destinationPath e').place here)) :
    SameFile (syncEntry c e false X).disk (syncEntry c e false Y).disk
      ((c'.destinationPath e').place here) := by
  by_cases heq : (c.destinationPath e).place here = (c'.destinationPath e').place here
  · exact heq ▸ mirrors_entry_sameFile hall hs h hok hok'
  · refine perform_sameFile (hall.plain _ hs) h.left h.right (fun p hp => ?_) (fun p hp => ?_)
      (hold.resolve_left heq)
    · exact Option.some.inj hp ▸ heq
    · exact hall.temporaryTarget _ hs p hp _ he' _ rfl

include hall in
/-- Where a copy on `X` makes the working directory, the copy on `Y` has a
file below it and so makes it too. -/
theorem mirrors_entry_begun (hs : .entry c e ∈ all)
    (h : Mirrors here paths all (.entry c e :: rest) X Y) {w : WriteResult}
    (hok : (syncEntry c e false Y).result = .ok w)
    (hdir : (syncEntry c e false X).disk.tree.node? here = some .directory) :
    (syncEntry c e false Y).disk.tree.node? here = some .directory := by
  obtain ⟨hsource, hdest⟩ := hall.plain _ hs
  have htouchedX := syncEntry_touched h.left.linkFree hsource hdest
  have htouchedY := syncEntry_touched h.right.linkFree hsource hdest
  rcases htouchedX.directory_before hdir with hdir | habove
  · exact htouchedY.directory (h.begun hdir)
  · obtain ⟨_, _, _, _, hnode⟩ := perform_entry_brings hall hs h.right hok
    rw [h.left.here] at habove
    have hne : here ≠ (c.destinationPath e).place here := by
      intro heq
      refine not_suffix_tail _ hdest here ?_
      rw [← heq] at habove ⊢
      exact habove
    exact directory_of_suffix (habove.trans (List.tail_suffix _)) hne hnode

include hall htargets hflat in
/-- Behind an entry `Y` mirrors `X` as before, with one step less to do. -/
theorem mirrors_entry (hsub : .entry c e :: rest ⊆ all)
    (h : Mirrors here paths all (.entry c e :: rest) X Y) {w w' : WriteResult}
    (hok : (syncEntry c e false X).result = .ok w)
    (hok' : (syncEntry c e false Y).result = .ok w') :
    Mirrors here paths all rest (syncEntry c e false X).disk (syncEntry c e false Y).disk := by
  have hs : .entry c e ∈ all := hsub (List.mem_cons_self ..)
  have hp := htargets _ hs _ rfl
  obtain ⟨hsource, hdest⟩ := hall.plain _ hs
  have hX := h.left
  have hY := h.right
  have htouchedX := syncEntry_touched hX.linkFree hsource hdest
  have htouchedY := syncEntry_touched hY.linkFree hsource hdest
  have hflatX : Flat X.here paths := hX.here ▸ hflat
  have hflatY : Flat Y.here paths := hY.here ▸ hflat
  refine ⟨Step.perform_simple (hall.plain _ hs) hX, Step.perform_simple (hall.plain _ hs) hY,
    mirrors_entry_begun hall hs h hok', ?_, ?_, ?_, ?_⟩
  · intro c' e' he' bytes mode hfile
    refine (perform_source hall hs he' hY).mpr (h.sources c' e' he' _ _ ?_)
    exact (perform_source hall hs he' hX).mp hfile
  · intro p hp' hroomy
    have hroomyX := Disk.Touched.roomy_before hflatX hp' hp htouchedX hroomy
    exact Disk.Touched.roomy hflatY hp' hp htouchedY (h.roomy p hp' hroomyX)
  · intro pre c' e' post hrest
    have he' : .entry c' e' ∈ all := hsub (by rw [hrest]; simp)
    have hp' := htargets _ he' _ rfl
    rcases h.ready (.entry c e :: pre) c' e' post (by rw [hrest, List.cons_append]) with
      hwrites | hsame | hwritable
    · rcases writesTo_cons hwrites with ⟨p, hp, heq⟩ | hwrites
      · obtain rfl := Option.some.inj hp
        exact Or.inr (Or.inl (mirrors_entry_keeps hall hs h hok hok' he' (Or.inl heq)))
      · exact Or.inl hwrites
    · exact Or.inr (Or.inl (mirrors_entry_keeps hall hs h hok hok' he' (Or.inr hsame)))
    · exact Or.inr (Or.inr (Disk.Touched.writable hflatY hp' hp htouchedY hwritable))
  · intro c' e' he'
    rcases h.done c' e' he' with hwrites | hsame
    · rcases writesTo_cons hwrites with ⟨p, hp, heq⟩ | hwrites
      · obtain rfl := Option.some.inj hp
        exact Or.inr (mirrors_entry_keeps hall hs h hok hok' he' (Or.inl heq))
      · exact Or.inl hwrites
    · exact Or.inr (mirrors_entry_keeps hall hs h hok hok' he' (Or.inr hsame))

include hall htargets hflat in
/-- Steps that succeed on `X` succeed on `Y`, and `Y` mirrors `X` to the end. -/
theorem mirrors_follow (hunit : ∀ sources settings, .unit sources settings ∉ all)
    (hsub : rest ⊆ all) (h : Mirrors here paths all rest X Y)
    (hok : (follow false rest X).failure = none) :
    (follow false rest Y).failure = none
      ∧ Mirrors here paths all [] (follow false rest X).disk (follow false rest Y).disk := by
  induction rest generalizing X Y with
  | nil => exact ⟨rfl, h⟩
  | cons s rest ih =>
    have hrest : rest ⊆ all := fun t ht => hsub (List.mem_cons_of_mem _ ht)
    cases s with
    | start c =>
      have hX : ((Step.start c).perform false X).result = .ok (.started c) := rfl
      have hY : ((Step.start c).perform false Y).result = .ok (.started c) := rfl
      rw [follow_cons_ok hX] at hok ⊢
      rw [follow_cons_ok hY]
      exact ih hrest (mirrors_start h) hok
    | unit sources settings => exact absurd (hsub (List.mem_cons_self ..)) (hunit sources settings)
    | entry c e =>
      cases hX : (syncEntry c e false X).result with
      | error x =>
        rw [follow_cons_error (Step.perform_entry_error.mpr hX)] at hok
        cases hok
      | ok w =>
        have hs : .entry c e ∈ all := hsub (List.mem_cons_self ..)
        obtain ⟨w', hY⟩ := mirrors_entry_ok hall htargets hs h hX
        have hnext := mirrors_entry hall htargets hflat hsub h hX hY
        rw [follow_cons_ok (Step.perform_entry_ok hX)] at hok ⊢
        rw [follow_cons_ok (Step.perform_entry_ok hY)]
        exact ih hrest hnext hok

include hall in
/-- Behind all entries a unit that succeeds on `X` succeeds on `Y`. -/
theorem mirrors_unit {sources : Category} {settings : AggregateSettings}
    (h : Mirrors here paths all [] X Y) (hplain : (sources.aggregatePath settings).Plain)
    (hp : sources.aggregatePath settings ∈ paths)
    (hentries : ∀ e ∈ sources.entries, .entry sources e ∈ all) {r : AggregateResult}
    (hok : (amalgamate sources settings false X).result = .ok r) :
    ∃ r', (amalgamate sources settings false Y).result = .ok r' := by
  obtain ⟨hcheck, hprepared, _⟩ := amalgamate_ok h.left.linkFree hplain hok
  refine amalgamate_of_writable h.right.linkFree hplain ?_
    (h.writable hp (hprepared.writable hplain))
  refine requireSynchronized_eq_ok_iff.mpr fun e he => ?_
  have hfile := requireSynchronized_eq_ok_iff.mp hcheck e he
  obtain ⟨bytes, mode, hnode⟩ := Disk.isFile?_eq_true_iff.mp hfile
  obtain ⟨mode', hnode'⟩ := (h.sameFile (hentries e he)).node? h.left h.right
    (hall.plain _ (hentries e he)).2 hnode
  exact Disk.isFile?_of_file hnode'

end Simulation

end Vendoring
