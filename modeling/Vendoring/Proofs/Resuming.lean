import Vendoring.Proofs.Revising
import Vendoring.Proofs.Synchronized

/-!
# Resuming

A run that failed has done a part of its work, on sources that may not be
those of the next run. Neither blocks the next run: whenever a run succeeds
on a revision of the sources, it also succeeds on what the failed run left of
the tree, and comes to the same files (`resumed_run_agrees`).

What the failed run left is compared with what it started from at the first
step for each place (`follow_first`): either the file there is the old one,
or the run has replaced it, and what was replaced can be replaced again. This
is what `Mirrors` asks for.
-/

namespace Vendoring

open Vendoring.Path FileTree

/-! ## What a failed run leaves -/

section First

variable {here : Location} {all : List Step} {paths : List Path} (hall : Orderly here all)
  (htargets : TargetsIn all paths) (hflat : Flat here paths) {d : Disk} (hd : d.Simple here)
  {pre post : List Step} {c : Category} {e : Entry}

include hall hd in
/-- An entry that is current stays synchronized, so its bytes stay. -/
theorem follow_current (hpost : post ⊆ all) (hs : .entry c e ∈ all)
    (hsynced : d.Synced (c.sourcePath e) (c.destinationPath e)) :
    SameFile d (follow false post d).disk ((c.destinationPath e).place here) := by
  have hdest := (hall.plain _ hs).2
  obtain ⟨bytes₂, mode₂, mode₂', hs₂, hd₂⟩ := follow_keeps_synced hall hpost hd hs hsynced
  obtain ⟨bytes₁, mode₁, mode₁', hs₁, hd₁⟩ := hsynced
  have hs₂' := (follow_source hall hpost hd hs).mp hs₂
  rw [hs₁] at hs₂'
  cases hs₂'
  have hfinal := follow_simple hall hpost hd
  have hnode₁ := ((hd.node?_iff hdest).mp hd₁).2
  have hnode₂ := ((hfinal.node?_iff hdest).mp hd₂).2
  intro bytes mode hfile
  rw [hnode₁] at hfile
  cases hfile
  exact ⟨mode₂', hnode₂⟩

include hall htargets hflat hd

/-- From the step of an entry on: the file stays, or it is replaced and can
be replaced again. -/
theorem follow_entry (hsub : .entry c e :: post ⊆ all) :
    SameFile d (follow false (.entry c e :: post) d).disk ((c.destinationPath e).place here)
      ∨ (follow false (.entry c e :: post) d).disk.Writable (c.destinationPath e)
        ∧ (follow false (.entry c e :: post) d).disk.tree.isDirectory
            ((c.destinationPath e).place here).tail = true := by
  have hs : .entry c e ∈ all := hsub (List.mem_cons_self ..)
  have hpost : post ⊆ all := fun s hs => hsub (List.mem_cons_of_mem _ hs)
  obtain ⟨hsource, hdest⟩ := hall.plain _ hs
  have hapart := hall.temporarySource _ hs _ rfl c e hs
  have hd' := Step.perform_simple (hall.plain _ hs) hd
  have htouched := syncEntry_touched hd.linkFree hsource hdest
  cases hr : (syncEntry c e false d).result with
  | error x =>
    rw [follow_cons_error (Step.perform_entry_error.mpr hr)]
    left
    intro bytes mode hfile
    refine ⟨mode, ?_⟩
    have := syncEntry_error hd.linkFree hsource hdest hr
    rw [hd.here] at this
    exact this.trans hfile
  | ok w =>
    rw [follow_cons_ok (Step.perform_entry_ok hr)]
    show SameFile d (follow false post (syncEntry c e false d).disk).disk _
      ∨ (follow false post (syncEntry c e false d).disk).disk.Writable _ ∧ _
    rcases syncEntry_ok hd.linkFree hsource hdest (hd.here ▸ hapart) hr with
      ⟨hdisk, hsynced⟩ | ⟨hprepared, bytes, mode, _, hfile⟩
    · left
      rw [hdisk]
      exact follow_current hall hd hpost hs hsynced
    · right
      have hplain : ∀ s ∈ post, s.Plain := fun s hs => hall.plain s (hpost hs)
      have hin : TargetsIn post paths := fun s hs => htargets s (hpost hs)
      have hwritable := hprepared.writable_again hdest htouched hfile
      refine ⟨follow_writable hplain hin hd' hflat (htargets _ hs _ rfl) hwritable, ?_⟩
      rw [← htouched.here] at hfile
      have hdir := Disk.directory_of_node? hdest hfile
      rw [htouched.here, hd.here, isDirectory_iff] at hdir
      exact isDirectory_iff.mpr (follow_directory hplain hd' hdir)

/-- Where the first step for a place has not replaced the file, it is the
old one, wherever the run stopped. -/
theorem follow_first (hsplit : all = pre ++ .entry c e :: post)
    (hfirst : ¬WritesTo pre here ((c.destinationPath e).place here)) :
    SameFile d (follow false all d).disk ((c.destinationPath e).place here)
      ∨ (follow false all d).disk.Writable (c.destinationPath e)
        ∧ (follow false all d).disk.tree.isDirectory ((c.destinationPath e).place here).tail
          = true := by
  have hpre : pre ⊆ all := fun s hs => hsplit ▸ List.mem_append_left _ hs
  have hrest : .entry c e :: post ⊆ all := fun s hs => hsplit ▸ List.mem_append_right _ hs
  -- the steps in front of it keep out of its way
  have hbefore : SameFile d (follow false pre d).disk ((c.destinationPath e).place here) := by
    intro bytes mode hfile
    exact ⟨mode, (follow_unwritten hall hpre hd (hrest (List.mem_cons_self ..)) hfirst).mpr hfile⟩
  rw [hsplit]
  cases hr : (follow false pre d).failure with
  | some x =>
    rw [follow_append_of_failure hr]
    exact Or.inl hbefore
  | none =>
    rw [(follow_append_of_none hr _).2]
    refine (follow_entry hall htargets hflat (follow_simple hall hpre hd) hrest).imp_left ?_
    intro hafter bytes mode hfile
    obtain ⟨mode', hfile'⟩ := hbefore bytes mode hfile
    exact hafter bytes mode' hfile'

end First

/-! ## Behind a revision -/

section Revised

variable {here : Location} {paths : List Path} {all : List Step} {u : Revision} {d : Disk}
  {t t₁ : FileTree} (hall : Orderly here all) (htargets : TargetsIn all paths)
  (hflat : Flat here paths) (haway : u.Away here paths)
  (hd : d.Simple here) (h : u.Leads d.tree t)
  (h₁ : u.Leads (follow false all d).disk.tree t₁)

include hall htargets hflat haway hd h h₁

/-- Where there is room in the revised tree, there is room in the revision of
what a run left. -/
theorem roomy_revised {p : Path} (hp : p ∈ paths) (hroomy : (d.withTree t).Roomy p) :
    ((follow false all d).disk.withTree t₁).Roomy p := by
  have hd₁ := follow_simple hall (List.Subset.refl _) hd
  have hsteps : ∀ s ∈ all, s.Plain := hall.plain
  have hhere : ((follow false all d).disk.withTree t₁).here = here := hd₁.here
  have hnotDirectory {m : Location} (hm : ∀ k, u k ≠ none → ¬m <:+ k)
      (hbelow : ∀ q ∈ paths, ¬m <:+ (q.place here).tail) (hold : t.node? m ≠ some .directory) :
      t₁.node? m ≠ some .directory := by
    rw [h.same hm] at hold
    rw [h₁.same hm]
    exact follow_not_directory hsteps htargets hd hbelow hold
  obtain ⟨hfits, htmpFits, habove, hfree, htmpFree⟩ := hroomy
  refine ⟨hfits, htmpFits, fun m hm => ?_, ?_, ?_⟩
  · rw [hhere] at hm
    refine h.open h₁ (fun hopen => follow_open hsteps htargets hd ?_ hopen)
      (habove m (hd.here ▸ hm))
    rintro q hq rfl
    exact hflat.nested q hq p hp hm
  · rw [hhere]
    refine hnotDirectory (fun k hk => (haway k hk p hp).1) (hflat.nested p hp) ?_
    rw [← hd.here]
    exact hfree
  · rw [hhere]
    refine hnotDirectory (fun k hk => (haway k hk p hp).2) (fun q hq hsuffix => ?_) ?_
    · exact hflat.temporaries p hp q hq (hsuffix.trans (List.tail_suffix _))
    · rw [← hd.here]
      exact htmpFree

/-- Behind a revision, what a run left mirrors what it started from, for the
steps `xs` that come first. -/
theorem mirrors_revised {xs last : List Step} (hxs : all = xs ++ last) :
    Mirrors here paths xs xs (d.withTree t) ((follow false all d).disk.withTree t₁) := by
  have hd₁ := follow_simple hall (List.Subset.refl _) hd
  have hin : xs ⊆ all := fun s hs => hxs ▸ List.mem_append_left _ hs
  have hX : (d.withTree t).Simple here := ⟨h.linkFree hd.linkFree, hd.here⟩
  have hY : ((follow false all d).disk.withTree t₁).Simple here :=
    ⟨h₁.linkFree hd₁.linkFree, hd₁.here⟩
  refine ⟨hX, hY, ?_, ?_, ?_, ?_, ?_⟩
  · exact h.directory_twin h₁ (follow_directory hall.plain hd)
  · intro c e he bytes mode hfile
    have he' := hin he
    have hsource := (hall.plain _ he').1
    obtain ⟨hfits, hnode⟩ := (hX.node?_iff hsource).mp hfile
    refine (hY.node?_iff hsource).mpr ⟨hfits, h.file h₁ (fun hold => ?_) hnode⟩
    have hold' := (hd.node?_iff hsource).mpr ⟨hfits, hold⟩
    exact ((hd₁.node?_iff hsource).mp
      ((follow_source hall (List.Subset.refl _) hd he').mpr hold')).2
  · exact fun p hp => roomy_revised hall htargets hflat haway hd h h₁ hp
  · intro pre c e post hsplit
    by_cases hfirst : WritesTo pre here ((c.destinationPath e).place here)
    · exact Or.inl hfirst
    · right
      have he : .entry c e ∈ all := hin (by rw [hsplit]; simp)
      have hp := htargets _ he _ rfl
      have hplace : ∀ k, u k ≠ none → ¬(c.destinationPath e).place here <:+ k :=
        fun k hk => (haway k hk _ hp).1
      have hsplit' : all = pre ++ .entry c e :: (post ++ last) := by
        rw [hxs, hsplit, List.append_assoc, List.cons_append]
      rcases follow_first hall htargets hflat hd hsplit' hfirst with hsame | ⟨hwritable, hdir⟩
      · left
        intro bytes mode hfile
        obtain ⟨mode', hfile'⟩ := hsame bytes mode ((h.same hplace).symm.trans hfile)
        exact ⟨mode', (h₁.same hplace).trans hfile'⟩
      · right
        rw [← hd₁.here] at haway hdir
        exact h₁.writable haway hp hwritable hdir
  · exact fun c e he => Or.inl ⟨_, he, _, rfl, rfl⟩

end Revised

/-! ## The next run -/

/-- Two disks read alike where the same files stand on them. -/
theorem read?_congr {X Y : Disk} {here : Location} {p : Path} (hX : X.Simple here)
    (hY : Y.Simple here) (hp : p.Plain)
    (h : ∀ bytes mode, X.tree.node? (p.place here) = some (.file bytes mode)
      ↔ Y.tree.node? (p.place here) = some (.file bytes mode)) :
    (X.read? p).toOption = (Y.read? p).toOption := by
  have hnode (bytes : ByteArray) (mode : Nat) :
      X.node? p = .ok (.file bytes mode) ↔ Y.node? p = .ok (.file bytes mode) := by
    rw [hX.node?_iff hp, hY.node?_iff hp, h bytes mode]
  have hread (bytes : ByteArray) : X.read? p = .ok bytes ↔ Y.read? p = .ok bytes := by
    rw [Disk.read?_eq_ok_iff, Disk.read?_eq_ok_iff]
    exact exists_congr (hnode bytes)
  cases hx : X.read? p with
  | ok bytes => rw [(hread bytes).mp hx]
  | error f =>
    cases hy : Y.read? p with
    | error f' => rfl
    | ok bytes =>
      rw [(hread bytes).mpr hy] at hx
      cases hx

/-- Where the one disk has a file, the other one reads alike. -/
theorem SameFile.read? {X Y : Disk} {here : Location} {p : Path} (hX : X.Simple here)
    (hY : Y.Simple here) (hp : p.Plain) (h : SameFile X Y (p.place here)) {bytes : ByteArray}
    {mode : Nat} (hfile : X.node? p = .ok (.file bytes mode)) :
    (X.read? p).toOption = (Y.read? p).toOption := by
  obtain ⟨mode', hfile'⟩ := h.node? hX hY hp hfile
  rw [Disk.read?_of_file hfile, Disk.read?_of_file hfile']

namespace Manifest

variable {m : Manifest} {source destination : Path} {d : Disk}

/-- Two disks hold the same bytes wherever a run writes. -/
def SameTargets (m : Manifest) (source destination : Path) (X Y : Disk) : Prop :=
  ∀ p ∈ m.targets source destination, (X.read? p).toOption = (Y.read? p).toOption

/-- Behind a run that succeeds a file stands at each target. -/
theorem targets_are_files (hvalid : m.invalid? = none) (hin : m.Inward source destination)
    (hfree : d.tree.LinkFree) (hapart : m.Apart source destination d.here)
    (htmp : m.TemporariesApart source destination d.here) {amalgamate : Bool}
    (hok : (follow false (m.agenda source destination amalgamate) d).failure = none)
    {s : Step} (hs : s ∈ m.agenda source destination amalgamate) {p : Path}
    (hp : s.target? = some p) : ∃ bytes mode,
      (follow false (m.agenda source destination amalgamate) d).disk.node? p
        = .ok (.file bytes mode) := by
  have hall := orderly_agenda hvalid hin hapart htmp amalgamate
  have hd : d.Simple d.here := ⟨hfree, rfl⟩
  cases s with
  | start c => cases hp
  | entry c e =>
    obtain rfl := Option.some.inj hp
    obtain ⟨bytes, _, mode, _, hfile⟩ := follow_synced hall (List.Subset.refl _) hd hok hs
    exact ⟨bytes, mode, hfile⟩
  | unit sources settings =>
    obtain rfl := Option.some.inj hp
    rcases mem_agenda.mp hs with ⟨_, _, h⟩ | ⟨_, _, _, _, h⟩ | ⟨rfl, h⟩
    · cases h
    · cases h
    · cases h
      obtain ⟨mode, hunit⟩ := (inSync_of_run hvalid hin hfree hapart htmp hok).1.unit
      exact ⟨_, mode, hunit⟩

/-- The targets of a run that succeeds do not lie in each other's way. -/
theorem flat_of_run (hvalid : m.invalid? = none) (hin : m.Inward source destination)
    (hfree : d.tree.LinkFree) (hapart : m.Apart source destination d.here)
    (htmp : m.TemporariesClear source destination d.here) {amalgamate : Bool}
    (hok : (follow false (m.agenda source destination amalgamate) d).failure = none) :
    Flat d.here ((m.agenda source destination amalgamate).filterMap Step.target?) := by
  have hall := orderly_agenda hvalid hin hapart htmp.apart amalgamate
  have hd' := follow_simple hall (List.Subset.refl _) (d := d) ⟨hfree, rfl⟩
  have hfile {s : Step} (hs : s ∈ m.agenda source destination amalgamate) {p : Path}
      (hp : s.target? = some p) : ∃ bytes mode,
      (follow false (m.agenda source destination amalgamate) d).disk.tree.node? (p.place d.here)
        = some (.file bytes mode) := by
    obtain ⟨bytes, mode, h⟩ := targets_are_files hvalid hin hfree hapart htmp.apart hok hs hp
    exact ⟨bytes, mode, ((hd'.node?_iff ((hall.plain s hs).target hp)).mp h).2⟩
  constructor
  · intro p hp q hq hsuffix
    obtain ⟨s, hs, hp⟩ := List.mem_filterMap.mp hp
    obtain ⟨s', hs', hq⟩ := List.mem_filterMap.mp hq
    obtain ⟨bytes, mode, hfileP⟩ := hfile hs hp
    obtain ⟨bytes', mode', hfileQ⟩ := hfile hs' hq
    have hplain := (hall.plain s' hs').target hq
    rw [← hd'.here] at hfileQ
    have hdir := Disk.directory_of_node? hplain hfileQ
    rw [hd'.here, isDirectory_iff] at hdir
    have := directory_above hsuffix hdir
    rw [hfileP] at this
    cases this
  · intro p hp q hq
    obtain ⟨s, hs, hp⟩ := List.mem_filterMap.mp hp
    obtain ⟨s', hs', hq⟩ := List.mem_filterMap.mp hq
    exact htmp p (target_mem hs hp) q (List.mem_append_left _ (target_mem hs' hq))

/-- A run without the unit leaves the place of the unit alone. -/
theorem unit_untouched {here : Location} (hvalid : m.invalid? = none)
    (hin : m.Inward source destination) (hapart : m.Apart source destination here)
    (htmp : m.TemporariesApart source destination here) (hd : d.Simple here) (bytes : ByteArray)
    (mode : Nat) :
    (follow false (m.agenda source destination false) d).disk.tree.node?
        ((m.unitPath source destination).place here) = some (.file bytes mode)
      ↔ d.tree.node? ((m.unitPath source destination).place here) = some (.file bytes mode) := by
  have hall := orderly_agenda hvalid hin hapart htmp false
  refine follow_file hall.plain (targetsIn_filterMap _) hd (fun q hq => ?_) (fun q hq => ?_)
  · obtain ⟨s, hs, hq⟩ := List.mem_filterMap.mp hq
    rcases mem_agenda.mp hs with ⟨c, _, rfl⟩ | ⟨c, hc, e, he, rfl⟩ | ⟨h, _⟩
    · cases hq
    · obtain rfl := Option.some.inj hq
      exact hapart.unitAlone c hc e he
    · cases h
  · obtain ⟨s, hs, hq⟩ := List.mem_filterMap.mp hq
    refine htmp q (target_mem hs hq) _ (List.mem_append_left _ ?_)
    exact mem_targets.mpr (Or.inl rfl)

/-- Behind the entries the unit ends a run. -/
theorem run_of_unit {r : AggregateResult}
    (hentries : (follow false (m.agenda source destination false) d).failure = none)
    (hr : (amalgamate (m.category .sources source destination) m.aggregate false
      (follow false (m.agenda source destination false) d).disk).result = .ok r) :
    (follow false (m.agenda source destination true) d).failure = none
      ∧ (follow false (m.agenda source destination true) d).disk
        = (amalgamate (m.category .sources source destination) m.aggregate false
          (follow false (m.agenda source destination false) d).disk).disk := by
  rw [m.agenda_eq source destination true, if_pos rfl]
  obtain ⟨hfailure, hdisk⟩ := follow_append_of_none hentries
    [.unit (m.category .sources source destination) m.aggregate]
  rw [hfailure, hdisk, follow_cons_ok (Step.perform_unit_ok hr)]
  exact ⟨rfl, rfl⟩

section Resumed

variable {amalgamate : Bool} {u : Revision} {t t₁ : FileTree} {left : Disk}
  (hvalid : m.invalid? = none) (hin : m.Inward source destination) (hfree : d.tree.LinkFree)
  (hapart : m.Apart source destination d.here)
  (htmp : m.TemporariesClear source destination d.here)
  (haway : u.Away d.here (m.targets source destination)) (hu : u.Leads d.tree t)
  (hleft : (follow false (m.agenda source destination amalgamate) d).disk = left)
  (hu₁ : u.Leads left.tree t₁)
  (hok : (follow false (m.agenda source destination amalgamate) (d.withTree t)).failure = none)

include hvalid hin hfree hapart htmp haway hu hleft hu₁ hok

/-- The entries succeed on both sides, and the one side still mirrors the
other one behind them. -/
theorem entries_resumed :
    (follow false (m.agenda source destination false) (left.withTree t₁)).failure = none
      ∧ Mirrors d.here ((m.agenda source destination amalgamate).filterMap Step.target?)
          (m.agenda source destination false) []
          (follow false (m.agenda source destination false) (d.withTree t)).disk
          (follow false (m.agenda source destination false) (left.withTree t₁)).disk := by
  subst hleft
  have hflat := flat_of_run (d := d.withTree t) hvalid hin (hu.linkFree hfree) hapart htmp hok
  have hall := orderly_agenda hvalid hin hapart htmp.apart amalgamate
  have hentries := orderly_agenda hvalid hin hapart htmp.apart false
  have htargets := targetsIn_filterMap (m.agenda source destination amalgamate)
  have haway' : u.Away d.here
      ((m.agenda source destination amalgamate).filterMap Step.target?) := by
    intro l hl p hp
    obtain ⟨s, hs, hp⟩ := List.mem_filterMap.mp hp
    exact haway l hl p (target_mem hs hp)
  have hunit : ∀ sources settings,
      .unit sources settings ∉ m.agenda source destination false := by
    intro sources settings hs
    rcases mem_agenda.mp hs with ⟨_, _, h⟩ | ⟨_, _, _, _, h⟩ | ⟨h, _⟩ <;> cases h
  have hsplit := m.agenda_eq source destination amalgamate
  have hmirrors := mirrors_revised hall htargets hflat haway' ⟨hfree, rfl ⟩ hu hu₁ hsplit
  have htargets' : TargetsIn (m.agenda source destination false) _ :=
    fun s hs => htargets s (hsplit ▸ List.mem_append_left _ hs)
  rw [hsplit] at hok
  exact mirrors_follow hentries htargets' hflat hunit (List.Subset.refl _) hmirrors
    (failure_of_append hok)

/-- Without the unit its place is not touched, and reads as before. -/
theorem resumed_without_unit (ha : amalgamate = false) :
    (follow false (m.agenda source destination amalgamate) (left.withTree t₁)).failure = none
      ∧ m.SameTargets source destination
        (follow false (m.agenda source destination amalgamate) (d.withTree t)).disk
        (follow false (m.agenda source destination amalgamate) (left.withTree t₁)).disk := by
  obtain ⟨hokY, hmirrors⟩ :=
    entries_resumed hvalid hin hfree hapart htmp haway hu hleft hu₁ hok
  subst ha hleft
  refine ⟨hokY, fun p hp => ?_⟩
  have hall := orderly_agenda hvalid hin hapart htmp.apart false
  rcases mem_targets.mp hp with rfl | ⟨c, hc, e, he, rfl⟩
  · have hd : d.Simple d.here := ⟨hfree, rfl⟩
    have hd₁ := follow_simple hall (List.Subset.refl _) hd
    have hX : (d.withTree t).Simple d.here := ⟨hu.linkFree hfree, rfl⟩
    have hY := hd₁.withTree (hu₁.linkFree hd₁.linkFree)
    have haway' : ∀ k, u k ≠ none → ¬(m.unitPath source destination).place d.here <:+ k :=
      fun k hk => (haway k hk _ hp).1
    refine read?_congr hmirrors.left hmirrors.right (plain_unitPath hvalid hin)
      fun bytes mode => ?_
    rw [unit_untouched hvalid hin hapart htmp.apart hX,
      unit_untouched hvalid hin hapart htmp.apart hY]
    show t.node? _ = _ ↔ t₁.node? _ = _
    rw [hu.same haway', hu₁.same haway']
    exact (unit_untouched hvalid hin hapart htmp.apart hd bytes mode).symm
  · have hs : .entry c e ∈ m.agenda source destination false := entry_mem_agenda.mpr ⟨hc, he⟩
    obtain ⟨bytes, mode, hfile⟩ := targets_are_files (d := d.withTree t) hvalid hin
      (hu.linkFree hfree) hapart htmp.apart hok hs rfl
    exact (hmirrors.sameFile hs).read? hmirrors.left hmirrors.right (hall.plain _ hs).2 hfile

/-- With the unit both sides come to its text. -/
theorem resumed_with_unit (ha : amalgamate = true) :
    (follow false (m.agenda source destination amalgamate) (left.withTree t₁)).failure = none
      ∧ m.SameTargets source destination
        (follow false (m.agenda source destination amalgamate) (d.withTree t)).disk
        (follow false (m.agenda source destination amalgamate) (left.withTree t₁)).disk := by
  obtain ⟨hentriesY, hmirrors⟩ :=
    entries_resumed hvalid hin hfree hapart htmp haway hu hleft hu₁ hok
  subst ha
  have hplain := plain_unitPath hvalid hin
  have hentries := orderly_agenda hvalid hin hapart htmp.apart false
  have hall := orderly_agenda hvalid hin hapart htmp.apart true
  have hunit : .unit (m.category .sources source destination) m.aggregate
      ∈ m.agenda source destination true := mem_agenda.mpr (Or.inr (Or.inr ⟨rfl, rfl⟩))
  obtain ⟨r, hr, hdisk⟩ := unit_of_run hok
  obtain ⟨r', hr'⟩ := mirrors_unit hentries hmirrors hplain
    (List.mem_filterMap.mpr ⟨_, hunit, rfl⟩)
    (fun e he => entry_mem_agenda.mpr ⟨category_mem m .sources source destination, he⟩) hr
  obtain ⟨hokY, hdiskY⟩ := run_of_unit hentriesY hr'
  refine ⟨hokY, fun p hp => ?_⟩
  rcases mem_targets.mp hp with rfl | ⟨c, hc, e, he, rfl⟩
  · obtain ⟨_, htext⟩ := (amalgamate_again hmirrors.left.linkFree hplain hr).1
    obtain ⟨_, htextY⟩ := (amalgamate_again hmirrors.right.linkFree hplain hr').1
    rw [hdisk, hdiskY, unitPath, Disk.read?_of_file htext, Disk.read?_of_file htextY]
  · have hs : .entry c e ∈ m.agenda source destination false := entry_mem_agenda.mpr ⟨hc, he⟩
    have hs' : .entry c e ∈ m.agenda source destination true := entry_mem_agenda.mpr ⟨hc, he⟩
    obtain ⟨bytes, mode, hfile⟩ := targets_are_files (d := d.withTree t) hvalid hin
      (hu.linkFree hfree) hapart htmp.apart hok hs' rfl
    -- the unit is written beside the entries
    have hsame := perform_sameFile (hall.plain _ hunit) hmirrors.left hmirrors.right
      (fun q hq => Option.some.inj hq ▸ hall.unitAlone _ _ c e hunit hs')
      (fun q hq => hall.temporaryTarget _ hunit q hq _ hs' _ rfl) (hmirrors.sameFile hs)
    have hX := Step.perform_simple (hall.plain _ hunit) hmirrors.left
    have hY := Step.perform_simple (hall.plain _ hunit) hmirrors.right
    rw [hdisk] at hfile ⊢
    rw [hdiskY]
    exact hsame.read? hX hY (hall.plain _ hs').2 hfile

end Resumed

/-- A run that stopped, wherever it did, can be resumed without loss: on
every revision of the sources on which a run succeeds, it also succeeds on
what the first run left, and both come to the same bytes wherever they write. -/
theorem resumed_run_agrees (m : Manifest) (source destination : Path) (d : Disk)
    (amalgamate : Bool) (u : Revision) (t t₁ : FileTree) (report : RunReport)
    (hvalid : m.invalid? = none) (hin : m.Inward source destination) (hfree : d.tree.LinkFree)
    (hapart : m.Apart source destination d.here)
    (htmp : m.TemporariesClear source destination d.here)
    (haway : u.Away d.here (m.targets source destination)) (hu : u.Leads d.tree t)
    (hu₁ : u.Leads (run m source destination ⟨false, amalgamate⟩ d).disk.tree t₁)
    (hok : (run m source destination ⟨false, amalgamate⟩ (d.withTree t)).result = .ok report) :
    (∃ again, (run m source destination ⟨false, amalgamate⟩
        ((run m source destination ⟨false, amalgamate⟩ d).disk.withTree t₁)).result = .ok again)
      ∧ m.SameTargets source destination
        (run m source destination ⟨false, amalgamate⟩ (d.withTree t)).disk
        (run m source destination ⟨false, amalgamate⟩
          ((run m source destination ⟨false, amalgamate⟩ d).disk.withTree t₁)).disk := by
  have hok' := (run_eq_ok_iff hvalid).mp ⟨report, hok⟩
  rw [run_eq_ok_iff hvalid]
  simp only [run_disk hvalid] at hu₁ ⊢
  cases amalgamate with
  | false => exact resumed_without_unit hvalid hin hfree hapart htmp haway hu rfl hu₁ hok' rfl
  | true => exact resumed_with_unit hvalid hin hfree hapart htmp haway hu rfl hu₁ hok' rfl

/-! A tree in which the source `x.cpp` is missing, so that a run copies the
header and stops there. -/

def shortTree : FileTree :=
  (((((FileTree.empty.put ["up"] .directory).put ["inc", "up"] .directory).put
    ["a.h", "inc", "up"] (.file "h".toUTF8 0o644)).put ["src", "up"] .directory).put
    ["t.inc", "src", "up"] (.file "t".toUTF8 0o600))

theorem sample_resumes :
    (run sample ⟨"up"⟩ ⟨"out"⟩ ⟨false, true⟩ ⟨shortTree, []⟩).result.toOption.isNone = true
      ∧ ∃ again, (run sample ⟨"up"⟩ ⟨"out"⟩ ⟨false, true⟩
          ((run sample ⟨"up"⟩ ⟨"out"⟩ ⟨false, true⟩ ⟨shortTree, []⟩).disk.withTree
            ((run sample ⟨"up"⟩ ⟨"out"⟩ ⟨false, true⟩ ⟨shortTree, []⟩).disk.tree.put
              ["x.cpp", "src", "up"] (.file "x".toUTF8 0o644)))).result = .ok again := by
  refine ⟨by decide +kernel, ?_⟩
  have hsome : (run sample ⟨"up"⟩ ⟨"out"⟩ ⟨false, true⟩ ⟨shortTree.put ["x.cpp", "src", "up"]
      (.file "x".toUTF8 0o644), []⟩).result.toOption.isSome = true := by decide +kernel
  cases hok : (run sample ⟨"up"⟩ ⟨"out"⟩ ⟨false, true⟩ ⟨shortTree.put ["x.cpp", "src", "up"]
      (.file "x".toUTF8 0o644), []⟩).result with
  | error x => rw [hok] at hsome; cases hsome
  | ok report =>
    exact (resumed_run_agrees sample ⟨"up"⟩ ⟨"out"⟩ ⟨shortTree, []⟩ true
      (.adding ["x.cpp", "src", "up"] "x".toUTF8 0o644) _ _ report (by decide +kernel)
      (by decide +kernel) (linkFree_of_nodes (by decide +kernel))
      ⟨by decide +kernel, by decide +kernel, by decide +kernel⟩
      (by unfold TemporariesClear; decide +kernel)
      (Revision.away_adding (by decide +kernel))
      (Revision.leads_put (by decide +kernel) _ _) (Revision.leads_put (by decide +kernel) _ _)
      hok).1

end Manifest

end Vendoring
