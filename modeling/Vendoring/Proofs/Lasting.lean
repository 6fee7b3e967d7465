import Vendoring.Proofs.Performing

/-!
# What lasts along a run

A step replaces the file at one path, its target. Along a list of steps
whose targets, temporary files and sources keep out of each other's way
(`Orderly`), sources stay as they are, and an entry that is synchronized
stays so: later steps either do not touch it or bring the same bytes again.
`follow_induction` carries what one step keeps through a whole list.
-/

namespace Vendoring

open Vendoring.Path FileTree

/-! ## Targets -/

namespace Step

/-- The path whose file a step replaces. -/
def target? : Step → Option Path
  | .start _ => none
  | .entry c e => some (c.destinationPath e)
  | .unit sources settings => some (sources.aggregatePath settings)

/-- The paths of a step end in names and do not lead outwards. -/
def Plain : Step → Prop
  | .start _ => True
  | .entry c e => (c.sourcePath e).Plain ∧ (c.destinationPath e).Plain
  | .unit sources settings => (sources.aggregatePath settings).Plain

theorem Plain.target {s : Step} (h : s.Plain) {p : Path} (hp : s.target? = some p) : p.Plain := by
  cases s with
  | start c => cases hp
  | entry c e => exact Option.some.inj hp ▸ h.2
  | unit sources settings => exact Option.some.inj hp ▸ h

/-- A step changes nothing but by replacing its target. -/
theorem frame {s : Step} {d : Disk} (hfree : d.tree.LinkFree) (hs : s.Plain) :
    (s.perform false d).disk = d
      ∨ ∃ p, s.target? = some p ∧ d.Touched p (s.perform false d).disk := by
  cases s with
  | start c => exact Or.inl rfl
  | entry c e => exact Or.inr ⟨_, rfl, syncEntry_touched hfree hs.1 hs.2⟩
  | unit sources settings => exact Or.inr ⟨_, rfl, amalgamate_touched hfree hs⟩

end Step

/-- What every step of a list keeps, the list keeps. -/
theorem follow_induction {P : Disk → Prop} {dryRun : Bool} {steps : List Step}
    (hstep : ∀ s ∈ steps, ∀ d, P d → P (s.perform dryRun d).disk) {d : Disk} (h : P d) :
    P (follow dryRun steps d).disk := by
  induction steps generalizing d with
  | nil => exact h
  | cons s rest ih =>
    have hs := hstep s (List.mem_cons_self ..) d h
    cases hr : (s.perform dryRun d).result with
    | error x => rwa [follow_cons_error hr]
    | ok p =>
      rw [follow_cons_ok hr]
      exact ih (fun t ht => hstep t (List.mem_cons_of_mem _ ht)) hs

/-- A disk without links, seen from `here`. -/
structure Disk.Simple (d : Disk) (here : Location) : Prop where
  linkFree : d.tree.LinkFree
  here : d.here = here

theorem Disk.Simple.withTree {d : Disk} {here : Location} (h : d.Simple here) {t : FileTree}
    (ht : t.LinkFree) : (d.withTree t).Simple here :=
  ⟨ht, h.here⟩

/-- A path leads to what stands at its place. -/
theorem Disk.Simple.node?_iff {d : Disk} {here : Location} (h : d.Simple here) {p : Path}
    (hp : p.Plain) {n : Node} :
    d.node? p = .ok n ↔ p.Fits ∧ d.tree.node? (p.place here) = some n := by
  rw [Disk.node?_eq_ok_iff h.linkFree hp, h.here]

theorem Step.perform_simple {s : Step} (hs : s.Plain) {d : Disk} {here : Location}
    (h : d.Simple here) : (s.perform false d).disk.Simple here := by
  rcases s.frame h.linkFree hs with hsame | ⟨p, _, htouched⟩
  · rwa [hsame]
  · exact ⟨htouched.linkFree h.linkFree, htouched.here.trans h.here⟩

theorem Disk.Simple.follow {here : Location} {steps : List Step} (hplain : ∀ s ∈ steps, s.Plain)
    {d : Disk} (hd : d.Simple here) : (follow false steps d).disk.Simple here :=
  follow_induction (P := fun d' => d'.Simple here)
    (fun s hs _ h => Step.perform_simple (hplain s hs) h) hd

/-- What no replacement of a target destroys lasts along the steps. -/
theorem follow_frame {P : Disk → Prop} {here : Location} {steps : List Step}
    (hplain : ∀ s ∈ steps, s.Plain)
    (hstep : ∀ s ∈ steps, ∀ p, s.target? = some p → ∀ d d' : Disk, d.Simple here →
      d.Touched p d' → P d → P d') {d : Disk} (hd : d.Simple here) (h : P d) :
    P (follow false steps d).disk := by
  refine (follow_induction (P := fun d' => d'.Simple here ∧ P d') ?_ ⟨hd, h⟩).2
  rintro s hs d' ⟨hd', h'⟩
  refine ⟨Step.perform_simple (hplain s hs) hd', ?_⟩
  rcases s.frame hd'.linkFree (hplain s hs) with hsame | ⟨p, hp, htouched⟩
  · rwa [hsame]
  · exact hstep s hs p hp d' _ hd' htouched h'

/-! ## Steps that keep out of each other's way -/

/-- No step of a list undoes or disturbs another one: steps with one target
have one source, the unit is no entry's target, no target is a source, and
no temporary file is either. -/
structure Orderly (here : Location) (steps : List Step) : Prop where
  plain : ∀ s ∈ steps, s.Plain
  sameSource : ∀ c e c' e', .entry c e ∈ steps → .entry c' e' ∈ steps →
    (c.destinationPath e).place here = (c'.destinationPath e').place here →
    (c.sourcePath e).place here = (c'.sourcePath e').place here
  unitAlone : ∀ sources settings c e, .unit sources settings ∈ steps → .entry c e ∈ steps →
    (sources.aggregatePath settings).place here ≠ (c.destinationPath e).place here
  sourceApart : ∀ s ∈ steps, ∀ p, s.target? = some p → ∀ c e, .entry c e ∈ steps →
    p.place here ≠ (c.sourcePath e).place here
  temporarySource : ∀ s ∈ steps, ∀ p, s.target? = some p → ∀ c e, .entry c e ∈ steps →
    (Disk.temporary p).place here ≠ (c.sourcePath e).place here
  temporaryTarget : ∀ s ∈ steps, ∀ p, s.target? = some p →
    ∀ s' ∈ steps, ∀ q, s'.target? = some q → (Disk.temporary p).place here ≠ q.place here

/-- Apart from its target and temporary file a step neither makes nor
removes a file. -/
theorem Step.perform_file {s : Step} (hs : s.Plain) {d : Disk} {here : Location}
    (hd : d.Simple here) {m : Location} (hm : ∀ p, s.target? = some p → p.place here ≠ m)
    (htmp : ∀ p, s.target? = some p → (Disk.temporary p).place here ≠ m) {bytes : ByteArray}
    {mode : Nat} : (s.perform false d).disk.tree.node? m = some (.file bytes mode)
      ↔ d.tree.node? m = some (.file bytes mode) := by
  rcases s.frame hd.linkFree hs with hsame | ⟨p, hp, htouched⟩
  · rw [hsame]
  · refine htouched.file_iff ?_ ?_
    · rw [hd.here]
      exact (hm p hp).symm
    · rw [hd.here]
      exact (htmp p hp).symm

section Steps

variable {here : Location} {steps : List Step} (hsteps : Orderly here steps)
  {s : Step} (hs : s ∈ steps) {c : Category} {e : Entry} (he : .entry c e ∈ steps)
  {d : Disk} (hd : d.Simple here)

include hsteps hs he hd

/-- A step leaves the source of every entry as it is. -/
theorem perform_source {bytes : ByteArray} {mode : Nat} :
    (s.perform false d).disk.node? (c.sourcePath e) = .ok (.file bytes mode)
      ↔ d.node? (c.sourcePath e) = .ok (.file bytes mode) := by
  have hplain := (hsteps.plain _ he).1
  have hd' := Step.perform_simple (hsteps.plain s hs) hd
  rw [hd'.node?_iff hplain, hd.node?_iff hplain]
  refine and_congr_right fun _ => ?_
  exact Step.perform_file (hsteps.plain s hs) hd (fun p hp => hsteps.sourceApart s hs p hp c e he)
    (fun p hp => hsteps.temporarySource s hs p hp c e he)

omit hs in
/-- An entry that succeeds brings the bytes of its source. -/
theorem perform_entry_brings {w : WriteResult} (hok : (syncEntry c e false d).result = .ok w) :
    ∃ bytes mode mode', d.node? (c.sourcePath e) = .ok (.file bytes mode)
      ∧ (syncEntry c e false d).disk.tree.node? ((c.destinationPath e).place here)
        = some (.file bytes mode') := by
  obtain ⟨hsource, hdest⟩ := hsteps.plain _ he
  have hd' := Step.perform_simple (hsteps.plain _ he) hd
  obtain ⟨bytes, mode, mode', hfile, hcopied⟩ := syncEntry_synced hd.linkFree hsource hdest
    (hd.here ▸ hsteps.sourceApart _ he _ rfl c e he)
    (hd.here ▸ hsteps.temporarySource _ he _ rfl c e he) hok
  exact ⟨bytes, mode, mode', (perform_source hsteps he he hd).mp hfile,
    ((hd'.node?_iff hdest).mp hcopied).2⟩

omit hs in
/-- An entry with the same destination has the same source, so what it brings
is there already. -/
theorem perform_twin {c' : Category} {e' : Entry} (hs : .entry c' e' ∈ steps)
    (heq : (c'.destinationPath e').place here = (c.destinationPath e).place here)
    {bytes : ByteArray} {mode mode' : Nat}
    (hsource : d.node? (c.sourcePath e) = .ok (.file bytes mode))
    (hnode : d.tree.node? ((c.destinationPath e).place here) = some (.file bytes mode')) :
    ∃ mode'', (syncEntry c' e' false d).disk.tree.node? ((c.destinationPath e).place here)
      = some (.file bytes mode'') := by
  have hplain' := hsteps.plain _ hs
  cases hr : (syncEntry c' e' false d).result with
  | error x =>
    have hkept := syncEntry_error hd.linkFree hplain'.1 hplain'.2 hr
    rw [hd.here, heq] at hkept
    exact ⟨mode', hkept.trans hnode⟩
  | ok w =>
    obtain ⟨bytes', mode₁, mode₂, hsource', hnode'⟩ := perform_entry_brings hsteps hs hd hr
    have hs₁ := ((hd.node?_iff hplain'.1).mp hsource').2
    have hs₂ := ((hd.node?_iff (hsteps.plain _ he).1).mp hsource).2
    rw [hsteps.sameSource c' e' c e hs he heq, hs₂] at hs₁
    cases hs₁
    exact ⟨mode₂, heq ▸ hnode'⟩

/-- A step keeps an entry synchronized, whether it succeeds or fails. -/
theorem perform_synced (h : d.Synced (c.sourcePath e) (c.destinationPath e)) :
    (s.perform false d).disk.Synced (c.sourcePath e) (c.destinationPath e) := by
  obtain ⟨bytes, mode, mode', hsource, hfile⟩ := h
  have hplain := (hsteps.plain _ he).2
  have hd' := Step.perform_simple (hsteps.plain s hs) hd
  obtain ⟨hfits, hnode⟩ := (hd.node?_iff hplain).mp hfile
  suffices ∃ mode', (s.perform false d).disk.tree.node? ((c.destinationPath e).place here)
      = some (.file bytes mode') by
    obtain ⟨mode', hnode'⟩ := this
    exact ⟨bytes, mode, mode', (perform_source hsteps hs he hd).mpr hsource,
      (hd'.node?_iff hplain).mpr ⟨hfits, hnode'⟩⟩
  have other (hne : ∀ p, s.target? = some p → p.place here ≠ (c.destinationPath e).place here) :
      ∃ mode', (s.perform false d).disk.tree.node? ((c.destinationPath e).place here)
        = some (.file bytes mode') :=
    ⟨mode', (Step.perform_file (hsteps.plain s hs) hd hne
      (fun p hp => hsteps.temporaryTarget s hs p hp _ he _ rfl)).mpr hnode⟩
  cases s with
  | start c' => exact other fun p hp => nomatch hp
  | unit sources settings =>
    refine other fun p hp => ?_
    obtain rfl := Option.some.inj hp
    exact hsteps.unitAlone sources settings c e hs he
  | entry c' e' =>
    by_cases heq : (c'.destinationPath e').place here = (c.destinationPath e).place here
    · exact perform_twin hsteps he hd hs heq hsource hnode
    · refine other fun p hp => ?_
      obtain rfl := Option.some.inj hp
      exact heq

end Steps

/-! ## Lists of steps -/

section Lists

variable {here : Location} {steps rest : List Step} (hsteps : Orderly here steps)
  (hsub : rest ⊆ steps) {d : Disk} (hd : d.Simple here)

include hsteps hsub hd

theorem follow_simple : (follow false rest d).disk.Simple here :=
  hd.follow fun s hs => hsteps.plain s (hsub hs)

theorem follow_source {c : Category} {e : Entry} (he : .entry c e ∈ steps) {bytes : ByteArray}
    {mode : Nat} : (follow false rest d).disk.node? (c.sourcePath e) = .ok (.file bytes mode)
      ↔ d.node? (c.sourcePath e) = .ok (.file bytes mode) := by
  refine (follow_induction (P := fun d' => d'.Simple here
    ∧ (d'.node? (c.sourcePath e) = .ok (.file bytes mode)
      ↔ d.node? (c.sourcePath e) = .ok (.file bytes mode))) ?_ ⟨hd, Iff.rfl⟩).2
  rintro s hs d' ⟨hd', hsame⟩
  exact ⟨Step.perform_simple (hsteps.plain s (hsub hs)) hd',
    (perform_source hsteps (hsub hs) he hd').trans hsame⟩

theorem follow_keeps_synced {c : Category} {e : Entry} (he : .entry c e ∈ steps)
    (h : d.Synced (c.sourcePath e) (c.destinationPath e)) :
    (follow false rest d).disk.Synced (c.sourcePath e) (c.destinationPath e) := by
  refine (follow_induction (P := fun d' => d'.Simple here
    ∧ d'.Synced (c.sourcePath e) (c.destinationPath e)) ?_ ⟨hd, h⟩).2
  rintro s hs d' ⟨hd', hsynced⟩
  exact ⟨Step.perform_simple (hsteps.plain s (hsub hs)) hd',
    perform_synced hsteps (hsub hs) he hd' hsynced⟩

/-- Steps that all succeed leave every entry among them synchronized. -/
theorem follow_synced (hok : (follow false rest d).failure = none) {c : Category} {e : Entry}
    (he : .entry c e ∈ rest) :
    (follow false rest d).disk.Synced (c.sourcePath e) (c.destinationPath e) := by
  induction rest generalizing d with
  | nil => cases he
  | cons s rest ih =>
    have hs : s ∈ steps := hsub (List.mem_cons_self ..)
    have hrest : rest ⊆ steps := fun t ht => hsub (List.mem_cons_of_mem _ ht)
    cases hr : (s.perform false d).result with
    | error x => rw [follow_cons_error hr] at hok; cases hok
    | ok p =>
      have hd' := Step.perform_simple (hsteps.plain s hs) hd
      rw [follow_cons_ok hr] at hok ⊢
      rcases List.mem_cons.mp he with heq | he
      · -- the entry of this step; what follows keeps it
        subst heq
        refine follow_keeps_synced hsteps hrest hd' hs ?_
        have hplain := hsteps.plain _ hs
        obtain ⟨w, hw, -⟩ := Step.perform_entry_eq_ok hr
        refine syncEntry_synced hd.linkFree hplain.1 hplain.2 ?_ ?_ hw
        · rw [hd.here]
          exact hsteps.sourceApart _ hs _ rfl c e hs
        · rw [hd.here]
          exact hsteps.temporarySource _ hs _ rfl c e hs
      · exact ih hrest hd' hok he

end Lists

end Vendoring
