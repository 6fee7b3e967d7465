import Vendoring.Proofs.Placing

/-!
# Replacing a file

A file is replaced by creating the directories around it, putting the new
contents at its temporary name, and moving that into place. `Touched` bounds
what this can do to a disk, whether it gets through or stops on the way, and
`Attempt` is all that is known about one try: what it touched, that a failure
leaves the old file, what a success brings, and when it must succeed.
`replaceByCopy_attempt` and `replaceByText_attempt` are the lemmas about the
two ways of replacing that runs are followed with.
-/

namespace Vendoring

open Vendoring.Path FileTree

namespace Disk

variable {d d₁ d' : Disk} {p q source : Path} {l : Location}

/-! ## What replacing can touch -/

/-- What replacing a file can do at one location. -/
inductive TouchedAt (d : Disk) (p : Path) (d' : Disk) (m : Location) : Prop
  | same (h : d'.tree.node? m = d.tree.node? m)
  | written (hm : m = p.place d.here) (hold : d.tree.node? m ≠ some .directory)
      (bytes : ByteArray) (mode : Nat) (hnew : d'.tree.node? m = some (.file bytes mode))
  | cleared (hm : m = (temporary p).place d.here) (hold : d.tree.node? m ≠ some .directory)
      (hnew : d'.tree.node? m = none)
  | grown (hm : m <:+ (p.place d.here).tail) (hold : d.tree.node? m = none)
      (hnew : d'.tree.node? m = some .directory)

/-- All that replacing the file at a path can do, whether it succeeds or
fails. -/
structure Touched (d : Disk) (p : Path) (d' : Disk) : Prop where
  here : d'.here = d.here
  nodes : ∀ m, d.TouchedAt p d' m

theorem Touched.refl (d : Disk) (p : Path) : d.Touched p d :=
  ⟨rfl, fun _ => .same rfl⟩

theorem Grown.touched (h : d.Grown (startOf d.here p) (p.place d.here).tail d') :
    d.Touched p d' := by
  refine ⟨h.here, fun m => ?_⟩
  rcases h.nodes m with hsame | ⟨⟨hm, _⟩, hold, hnew⟩
  · exact .same hsame
  · exact .grown hm hold hnew

/-- First the directories around a file, then the file. -/
theorem Touched.after_grown (h : d.Grown (startOf d.here p) (p.place d.here).tail d₁)
    (h' : d₁.Touched p d') :
    d.Touched p d' := by
  refine ⟨h'.here.trans h.here, fun m => ?_⟩
  have free (hold : d₁.tree.node? m ≠ some .directory) : d.tree.node? m ≠ some .directory :=
    fun hdir => hold (h.node? hdir)
  cases h'.nodes m with
  | same hm =>
    rcases h.nodes m with hsame | ⟨⟨hmem, _⟩, hold, hnew⟩
    · exact .same (hm.trans hsame)
    · exact .grown hmem hold (hm.trans hnew)
  | written hm hold bytes mode hnew => exact .written (h.here ▸ hm) (free hold) bytes mode hnew
  | cleared hm hold hnew => exact .cleared (h.here ▸ hm) (free hold) hnew
  | grown hm hold hnew =>
    rcases h.nodes m with hsame | ⟨_, _, hdir⟩
    · exact .grown (h.here ▸ hm) (hsame ▸ hold) hnew
    · rw [hdir] at hold
      cases hold

theorem Touched.linkFree (h : d.Touched p d') (hfree : d.tree.LinkFree) : d'.tree.LinkFree := by
  intro m target hm
  cases h.nodes m with
  | same hsame => exact hfree m target (hsame ▸ hm)
  | written _ _ bytes mode hnew => rw [hnew] at hm; cases hm
  | cleared _ _ hnew => rw [hnew] at hm; cases hm
  | grown _ _ hnew => rw [hnew] at hm; cases hm

/-- What stands apart from the path and its temporary file stays. -/
theorem Touched.node?_of_ne (h : d.Touched p d') {m : Location} (hne : m ≠ p.place d.here)
    (htmp : m ≠ (temporary p).place d.here) {n : Node} (hm : d.tree.node? m = some n) :
    d'.tree.node? m = some n := by
  cases h.nodes m with
  | same hsame => exact hsame.trans hm
  | written heq => exact absurd heq hne
  | cleared heq => exact absurd heq htmp
  | grown _ hold _ =>
    rw [hm] at hold
    cases hold

/-- Apart from the path, its temporary file and the directories above,
nothing is different. -/
theorem Touched.node?_of_apart (h : d.Touched p d') {m : Location} (hne : m ≠ p.place d.here)
    (htmp : m ≠ (temporary p).place d.here) (habove : ¬m <:+ (p.place d.here).tail) :
    d'.tree.node? m = d.tree.node? m := by
  cases h.nodes m with
  | same hsame => exact hsame
  | written heq => exact absurd heq hne
  | cleared heq => exact absurd heq htmp
  | grown hsuffix => exact absurd hsuffix habove

/-- No file comes or goes apart from the path and its temporary file. -/
theorem Touched.file_iff (h : d.Touched p d') {m : Location} (hne : m ≠ p.place d.here)
    (htmp : m ≠ (temporary p).place d.here) {bytes : ByteArray} {mode : Nat} :
    d'.tree.node? m = some (.file bytes mode) ↔ d.tree.node? m = some (.file bytes mode) := by
  cases h.nodes m with
  | same hsame => rw [hsame]
  | written heq => exact absurd heq hne
  | cleared heq => exact absurd heq htmp
  | grown _ hold hnew => simp [hold, hnew]

/-- A directory comes to be only above the path. -/
theorem Touched.not_directory (h : d.Touched p d') {m : Location}
    (hm : ¬m <:+ (p.place d.here).tail) (hold : d.tree.node? m ≠ some .directory) :
    d'.tree.node? m ≠ some .directory := by
  cases h.nodes m with
  | same hsame => rwa [hsame]
  | written _ _ bytes mode hnew => rw [hnew]; exact fun h => nomatch h
  | cleared _ _ hnew => rw [hnew]; exact fun h => nomatch h
  | grown hsuffix _ _ => exact absurd hsuffix hm

theorem discard_touched (hfree : d.tree.LinkFree) (hp : p.Plain) :
    d.Touched p (d.discard (temporary p)) := by
  obtain ⟨hhere, hnodes⟩ := discard_nodes hfree hp.temporary
  refine ⟨hhere, fun m => ?_⟩
  rcases hnodes m with hsame | ⟨hm, hold, hnew⟩
  · exact .same hsame
  · exact .cleared hm hold hnew

/-! ## Taking its place -/

/-- A path does not stand around the path beside it. -/
theorem tail_ne_place (hq : q.Plain) (htail : (q.place d.here).tail = (p.place d.here).tail) :
    (p.place d.here).tail ≠ q.place d.here := by
  intro h
  rw [← htail] at h
  exact not_suffix_tail q hq d.here (h.symm ▸ List.suffix_refl _)

theorem linkFree_withFile (hfree : d.tree.LinkFree) (q : Path) (bytes : ByteArray) (mode : Nat) :
    (d.withFile q bytes mode).tree.LinkFree :=
  hfree.put fun _ => nofun

section Commit

variable (hrec : d.Receives q) (hq : q.Plain) (bytes : ByteArray) (mode : Nat)

include hrec hq

/-- The tree when a new file has been removed again. -/
theorem node?_removed (m : Location) :
    ((d.withFile q bytes mode).tree.erase (q.place d.here)).node? m =
      if m = q.place d.here then none else d.tree.node? m := by
  have hfile : (d.withFile q bytes mode).tree.node? (q.place d.here)
      = some (.file bytes mode) := by
    rw [hrec.node?_withFile hq, if_pos rfl]
  rw [node?_erase_of_not_directory hfile fun h => nomatch h]
  split
  · rfl
  · next hm => rw [hrec.node?_withFile hq, if_neg hm]

variable (htail : (q.place d.here).tail = (p.place d.here).tail)
  (hne : q.place d.here ≠ p.place d.here)

include htail hne

/-- A file beside a path does not change whether the path can be put. -/
theorem receives_withFile_iff : (d.withFile q bytes mode).Receives p ↔ d.Receives p := by
  have hdir : (d.withFile q bytes mode).tree.node? (p.place d.here).tail
      = d.tree.node? (p.place d.here).tail := by
    rw [hrec.node?_withFile hq, if_neg (tail_ne_place hq htail)]
  have hplace : (d.withFile q bytes mode).tree.node? (p.place d.here)
      = d.tree.node? (p.place d.here) := by
    rw [hrec.node?_withFile hq, if_neg hne.symm]
  constructor
  · rintro ⟨hfits, hdirectory, hfree⟩
    rw [isDirectory_iff, withFile_here, hdir, ← isDirectory_iff] at hdirectory
    rw [withFile_here, hplace] at hfree
    exact ⟨hfits, hdirectory, hfree⟩
  · rintro ⟨hfits, hdirectory, hfree⟩
    rw [isDirectory_iff, ← hdir, ← isDirectory_iff] at hdirectory
    rw [← hplace] at hfree
    exact ⟨hfits, hdirectory, hfree⟩

/-- The tree when a new file has been moved to a path. -/
theorem node?_moved (hp : p.Plain) (hrec' : d.Receives p) (m : Location) :
    (((d.withFile q bytes mode).tree.erase (q.place d.here)).put (p.place d.here)
        (.file bytes mode)).node? m =
      if m = p.place d.here then some (.file bytes mode)
      else if m = q.place d.here then none else d.tree.node? m := by
  have hput : ((d.withFile q bytes mode).tree.erase (q.place d.here)).CanPut (p.place d.here) := by
    obtain ⟨front, last, hsplit⟩ := hp.splits
    have hname := hsplit.fileName hrec'.fits.text
    have hdir := isDirectory_iff.mp hrec'.directory
    have hfree := hrec'.free
    have htail' := tail_ne_place hq htail
    rw [hsplit.place] at hdir hfree htail' hne ⊢
    refine ⟨hname, ?_, ?_⟩
    · rw [node?_removed hrec hq bytes mode]
      exact (if_neg htail').trans hdir
    · rwa [node?_removed hrec hq bytes mode, if_neg hne.symm]
  rw [node?_put _ _ _ hput, node?_removed hrec hq bytes mode]

end Commit

/-- Where a path can be put, the file at its temporary name takes its place. -/
theorem commit_of_receives (hfree : d.tree.LinkFree) (hp : p.Plain)
    (htmp : d.Receives (temporary p)) (hrec : d.Receives p) (bytes : ByteArray) (mode : Nat) :
    (d.withFile (temporary p) bytes mode).commit (temporary p) p =
      (.ok (), d.withTree (((d.withFile (temporary p) bytes mode).tree.erase
        ((temporary p).place d.here)).put (p.place d.here) (.file bytes mode))) := by
  obtain ⟨htail, hne⟩ := hp.place_temporary d.here
  have hfile := (htmp.node?_withFile hp.temporary bytes mode _).trans (if_pos rfl)
  unfold commit
  rcases rename_of_file (linkFree_withFile hfree (temporary p) bytes mode) hp.temporary hp
    htmp.fits hfile hne with ⟨_, hrename⟩ | ⟨hnot, _⟩
  · rw [hrename]
    rfl
  · exact absurd ((receives_withFile_iff htmp hp.temporary bytes mode htail hne).mpr hrec) hnot

/-- Where it cannot, the temporary file is removed again. -/
theorem commit_of_not_receives (hfree : d.tree.LinkFree) (hp : p.Plain)
    (htmp : d.Receives (temporary p)) (hrec : ¬d.Receives p) (bytes : ByteArray) (mode : Nat) :
    ∃ f, (d.withFile (temporary p) bytes mode).commit (temporary p) p =
      (.error (.io p f), d.withTree ((d.withFile (temporary p) bytes mode).tree.erase
        ((temporary p).place d.here))) := by
  obtain ⟨htail, hne⟩ := hp.place_temporary d.here
  have hfile := (htmp.node?_withFile hp.temporary bytes mode _).trans (if_pos rfl)
  have hfree' := linkFree_withFile hfree (temporary p) bytes mode
  unfold commit
  rcases rename_of_file hfree' hp.temporary hp htmp.fits hfile hne with
    ⟨hrec', _⟩ | ⟨_, f, hrename⟩
  · exact absurd ((receives_withFile_iff htmp hp.temporary bytes mode htail hne).mp hrec') hrec
  · refine ⟨f, ?_⟩
    rw [hrename]
    simp only
    rw [unlink_of_file hfree' hp.temporary htmp.fits hfile]
    rfl

/-! ## Room for a file -/

/-- There is room for a file at a path, and for its temporary file: nothing
but a directory stands around them, and none at their places. -/
structure Roomy (d : Disk) (p : Path) : Prop where
  fits : p.Fits
  temporaryFits : (temporary p).Fits
  above : ∀ m, m <:+ (p.place d.here).tail → d.tree.Open m
  free : d.tree.node? (p.place d.here) ≠ some .directory
  temporaryFree : d.tree.node? ((temporary p).place d.here) ≠ some .directory

/-- There is room at a path, and the way there can be begun. -/
structure Writable (d : Disk) (p : Path) : Prop extends d.Roomy p where
  start : d.tree.isDirectory (startOf d.here p) = true

theorem Writable.clear (h : d.Writable p) : d.Clear p :=
  fun m _ hm => h.above m hm

/-- The directories around a path came to be, and then it and its temporary
file could be put. -/
def Prepared (d : Disk) (p : Path) : Prop :=
  ∃ d₁, d.Grown (startOf d.here p) (p.place d.here).tail d₁
    ∧ d₁.Receives p ∧ d₁.Receives (temporary p)

theorem Prepared.writable (h : d.Prepared p) (hp : p.Plain) : d.Writable p := by
  obtain ⟨d₁, hgrown, hrec, htmp⟩ := h
  have hdir := isDirectory_iff.mp hrec.directory
  have hfree := hrec.free
  have htmpFree := htmp.free
  rw [hgrown.here] at hdir hfree htmpFree
  refine ⟨⟨hrec.fits, htmp.fits, fun m hm => ?_, fun h => hfree (hgrown.node? h),
    fun h => htmpFree (hgrown.node? h)⟩, ?_⟩
  · have hm₁ := directory_above hm hdir
    rcases hgrown.nodes m with hsame | ⟨_, hnone, _⟩
    · exact Or.inr (hsame ▸ hm₁)
    · exact Or.inl hnone
  · rw [isDirectory_iff, ← hgrown.node?_start]
    exact directory_above (startOf_suffix p hp d.here) hdir

/-- A file that was replaced can be replaced again. -/
theorem Prepared.writable_again (h : d.Prepared p) (hp : p.Plain) (htouched : d.Touched p d')
    {bytes : ByteArray} {mode : Nat}
    (hfile : d'.tree.node? (p.place d.here) = some (.file bytes mode)) : d'.Writable p := by
  obtain ⟨d₁, hgrown, hrec, htmp⟩ := h
  rw [← htouched.here] at hfile
  have hdir := directory_of_node? hp hfile
  refine ⟨⟨hrec.fits, htmp.fits, fun m hm => ?_, ?_, ?_⟩, start_of_directory hp hdir⟩
  · exact Or.inr (directory_above hm (isDirectory_iff.mp hdir))
  · rw [hfile]
    exact fun h => nomatch h
  · rw [htouched.here]
    refine htouched.not_directory ?_ fun hdir => ?_
    · rw [← (hp.place_temporary d.here).1]
      exact not_suffix_tail _ hp.temporary d.here
    · have hfree₁ := htmp.free
      rw [hgrown.here] at hfree₁
      exact hfree₁ (hgrown.node? hdir)

/-- A path whose way is clear can be looked at. -/
theorem Clear.isFile? (h : d.Clear p) (hfree : d.tree.LinkFree) (hp : p.Plain) (hfits : p.Fits) :
    ∃ there, d.isFile? p = .ok there := by
  cases hnode : d.tree.node? (p.place d.here) with
  | none =>
    rw [Disk.isFile?, node?_of_clear hfree hp hfits h hnode]
    exact ⟨false, rfl⟩
  | some n =>
    rw [Disk.isFile?, (node?_eq_ok_iff hfree hp).mpr ⟨hfits, hnode⟩]
    exact ⟨n.isFile, rfl⟩

/-- A path that can be written can be looked at. -/
theorem Writable.isFile? (h : d.Writable p) (hfree : d.tree.LinkFree) (hp : p.Plain) :
    ∃ there, d.isFile? p = .ok there :=
  h.clear.isFile? hfree hp h.fits

/-- When the directories around it are made, the file can be put. -/
theorem Writable.receives (h : d.Writable p) (hp : p.Plain)
    (hgrown : d.Grown (startOf d.here p) (p.place d.here).tail d₁)
    (hdir : d₁.tree.isDirectory (p.place d.here).tail = true) :
    d₁.Receives p ∧ d₁.Receives (temporary p) := by
  obtain ⟨htail, hne⟩ := hp.place_temporary d.here
  refine ⟨⟨h.fits, ?_, ?_⟩, ⟨h.temporaryFits, ?_, ?_⟩⟩
  · rw [hgrown.here]
    exact hdir
  · rw [hgrown.here, hgrown.node?_of_not_suffix (not_suffix_tail p hp d.here)]
    exact h.free
  · rw [hgrown.here, htail]
    exact hdir
  · rw [hgrown.here, hgrown.node?_of_not_suffix]
    · exact h.temporaryFree
    · rw [← htail]
      exact not_suffix_tail _ hp.temporary d.here

/-- Making directories makes and removes no file. -/
theorem Grown.node?_file_iff {start : Location} (h : d.Grown start l d₁)
    (hfree : d.tree.LinkFree) (hs : source.Plain) {bytes : ByteArray} {mode : Nat} :
    d₁.node? source = .ok (.file bytes mode) ↔ d.node? source = .ok (.file bytes mode) := by
  rw [node?_eq_ok_iff (h.linkFree hfree) hs, node?_eq_ok_iff hfree hs, h.here]
  refine and_congr_right fun _ => ⟨fun hfile => ?_, h.node?⟩
  rcases h.nodes (source.place d.here) with hsame | ⟨_, _, hdir⟩
  · exact hsame ▸ hfile
  · rw [hdir] at hfile
    cases hfile

/-! ## Trying to replace a file -/

/-- All that is known about one try `r` to replace the file at a path: what
it touched, that it leaves the old file when it fails and one of those that
it `brings` when it does not, and that it succeeds where the path can be
written if it is `able` to. -/
structure Attempt (d : Disk) (p : Path) (able : Prop) (brings : ByteArray → Nat → Prop)
    (r : Except SyncError Unit × Disk) : Prop where
  touched : d.Touched p r.2
  error : ∀ x, r.1 = .error x → r.2.tree.node? (p.place d.here) = d.tree.node? (p.place d.here)
  ok : r.1 = .ok () → d.Prepared p ∧ ∃ bytes mode, brings bytes mode
    ∧ r.2.tree.node? (p.place d.here) = some (.file bytes mode)
  succeeds : able → d.Writable p → r.1 = .ok ()

section Attempts

variable {able : Prop} {brings : ByteArray → Nat → Prop} (hp : p.Plain)
  (hgrown : d.Grown (startOf d.here p) (p.place d.here).tail d₁)

include hp hgrown

theorem attempt_stopped {x : SyncError} (hnot : able → ¬d.Writable p) :
    d.Attempt p able brings (.error x, d₁) where
  touched := hgrown.touched
  error _ _ := hgrown.node?_of_not_suffix (not_suffix_tail p hp d.here)
  ok h := nomatch h
  succeeds ha hw := absurd hw (hnot ha)

theorem attempt_discarded (hfree : d.tree.LinkFree) {x : SyncError}
    (hnot : able → ¬d.Writable p) :
    d.Attempt p able brings (.error x, d₁.discard (temporary p)) where
  touched := Touched.after_grown hgrown (discard_touched (hgrown.linkFree hfree) hp)
  error _ _ := by
    rw [← hgrown.node?_of_not_suffix (not_suffix_tail p hp d.here), ← hgrown.here]
    rcases (discard_nodes (hgrown.linkFree hfree) hp.temporary).2 (p.place d₁.here) with
      hsame | ⟨hm, _⟩
    · exact hsame
    · exact absurd hm.symm (hp.place_temporary d₁.here).2
  ok h := nomatch h
  succeeds ha hw := absurd hw (hnot ha)

/-- Once the temporary file is written, only taking its place can fail. -/
theorem attempt_committed (hfree : d.tree.LinkFree) (htmp : d₁.Receives (temporary p))
    {bytes : ByteArray} {mode : Nat} (hbrings : brings bytes mode)
    (hdir : d.Writable p → d₁.tree.isDirectory (p.place d.here).tail = true) :
    d.Attempt p able brings ((d₁.withFile (temporary p) bytes mode).commit (temporary p) p) := by
  have hfree₁ := hgrown.linkFree hfree
  have htmpFree := htmp.free
  obtain ⟨htail, hne⟩ := hp.place_temporary d₁.here
  by_cases hrec : d₁.Receives p
  · have hnodes := node?_moved htmp hp.temporary bytes mode htail hne hp hrec
    rw [commit_of_receives hfree₁ hp htmp hrec]
    refine ⟨Touched.after_grown hgrown ⟨rfl, fun m => ?_⟩, (fun x hx => nomatch hx),
      (fun _ => ?_), fun _ _ => rfl⟩
    · have hm := hnodes m
      split at hm
      · next hpm => exact .written hpm (hpm ▸ hrec.free) bytes mode hm
      · split at hm
        · next hqm => exact .cleared hqm (hqm ▸ htmpFree) hm
        · exact .same hm
    · refine ⟨⟨d₁, hgrown, hrec, htmp⟩, bytes, mode, hbrings, ?_⟩
      rw [← hgrown.here]
      exact (hnodes _).trans (if_pos rfl)
  · have hnodes := node?_removed htmp hp.temporary bytes mode
    obtain ⟨f, hcommit⟩ := commit_of_not_receives hfree₁ hp htmp hrec bytes mode
    rw [hcommit]
    refine ⟨Touched.after_grown hgrown ⟨rfl, fun m => ?_⟩, (fun x _ => ?_), (fun h => nomatch h),
      fun _ hw => absurd (hw.receives hp hgrown (hdir hw)).1 hrec⟩
    · have hm := hnodes m
      split at hm
      · next hqm => exact .cleared hqm (hqm ▸ htmpFree) hm
      · exact .same hm
    · rw [← hgrown.node?_of_not_suffix (not_suffix_tail p hp d.here), ← hgrown.here]
      exact (hnodes _).trans (if_neg hne.symm)

end Attempts

/-- A copy brings the bytes and the mode of the source. Only a source that is
its own temporary file is lost. -/
theorem replaceByCopy_attempt (hfree : d.tree.LinkFree) (hs : source.Plain) (hp : p.Plain) :
    d.Attempt p (d.isFile? source = .ok true)
      (fun bytes mode => ∃ held, d.node? source = .ok (.file held mode) ∧ bytes =
        if (temporary p).place d.here = source.place d.here then ByteArray.empty else held)
      (d.replaceByCopy source p) := by
  have hgrown := createParent_grown hfree hp
  have hparent := fun hw : d.Writable p => createParent_of_clear hfree hp hw.fits hw.start hw.clear
  unfold replaceByCopy
  cases hr : d.createParent p with
  | mk r d₁ =>
    rw [hr] at hgrown hparent
    cases r with
    | error x => exact attempt_stopped hp hgrown fun _ hw => nomatch (hparent hw).1
    | ok _ =>
      simp only at hgrown hparent ⊢
      rcases copy_cases (hgrown.linkFree hfree) hs hp.temporary with
        ⟨htmp, held, mode, hsource, hcopy⟩ | ⟨hnot, f, hcopy⟩
      · rw [hcopy]
        refine attempt_committed hp hgrown hfree htmp ⟨held, ?_, ?_⟩ fun hw => (hparent hw).2
        · exact (hgrown.node?_file_iff hfree hs).mp hsource
        · rw [hgrown.here]
      · rw [hcopy]
        refine attempt_discarded hp hgrown hfree fun hfile hw => hnot ⟨?_, ?_⟩
        · exact (hw.receives hp hgrown (hparent hw).2).2
        · obtain ⟨bytes, mode, hnode⟩ := isFile?_eq_true_iff.mp hfile
          exact isFile?_of_file ((hgrown.node?_file_iff hfree hs).mpr hnode)

/-- Making directories makes and removes no file, so a new file at a path that
is not above gets the mode that it would have had before. -/
theorem Grown.modeAt {start m : Location} (h : d.Grown start l d₁) (hm : ¬m <:+ l) :
    modeAt d₁.tree m = modeAt d.tree m := by
  rw [Disk.modeAt, Disk.modeAt, h.node?_of_not_suffix hm]

/-- The text brings the mode of what stood at the temporary name. -/
theorem replaceByText_attempt (hfree : d.tree.LinkFree) (hp : p.Plain) (text : ByteArray) :
    d.Attempt p True
      (fun bytes mode => bytes = text ∧ mode = modeAt d.tree ((temporary p).place d.here))
      (d.replaceByText p text) := by
  have hgrown := createParent_grown hfree hp
  have hparent := fun hw : d.Writable p => createParent_of_clear hfree hp hw.fits hw.start hw.clear
  unfold replaceByText
  cases hr : d.createParent p with
  | mk r d₁ =>
    rw [hr] at hgrown hparent
    cases r with
    | error x => exact attempt_stopped hp hgrown fun _ hw => nomatch (hparent hw).1
    | ok _ =>
      simp only at hgrown hparent ⊢
      -- the parent of the temporary file is the same directory again
      have hfree₁ := hgrown.linkFree hfree
      have hgrown' := createParent_grown hfree₁ hp.temporary
      rw [hp.startOf_temporary, (hp.place_temporary d₁.here).1, hgrown.here] at hgrown'
      have hparent' := fun hw : d.Writable p =>
        have htmp := (hw.receives hp hgrown (hparent hw).2).2
        createParent_of_clear hfree₁ hp.temporary htmp.fits
          (start_of_directory hp.temporary htmp.directory) htmp.clear
      cases hr' : d₁.createParent (temporary p) with
      | mk r' d₂ =>
        rw [hr'] at hgrown' hparent'
        rw [(hp.place_temporary d₁.here).1, hgrown.here] at hparent'
        replace hgrown := hgrown.trans hgrown'
        cases r' with
        | error x => exact attempt_stopped hp hgrown fun _ hw => nomatch (hparent' hw).1
        | ok _ =>
          simp only at hgrown hparent' ⊢
          rcases write_cases (hgrown.linkFree hfree) hp.temporary text with
            ⟨htmp, hwrite⟩ | ⟨hnot, f, hwrite⟩
          · rw [hwrite]
            refine attempt_committed hp hgrown hfree htmp ⟨rfl, ?_⟩ fun hw => (hparent' hw).2
            rw [hgrown.here]
            refine hgrown.modeAt ?_
            rw [← (hp.place_temporary d.here).1]
            exact not_suffix_tail _ hp.temporary d.here
          · rw [hwrite]
            exact attempt_stopped hp hgrown fun _ hw =>
              hnot (hw.receives hp hgrown (hparent' hw).2).2

end Disk

end Vendoring
