import Vendoring.Proofs.Reports
import Vendoring.Proofs.Resuming
import Vendoring.Proofs.Stopping

/-!
# A dry run foretells the real one

A dry run decides every entry on the disk as it is at the start, a real run
on what the steps before have made of it. The two decide alike up to one
thing: once an entry has been written, a later one with the same destination
finds it current (`follow_synced_iff`). `carryOut` turns the results of the
one into those of the other, and `follow_carriedOut` says so of whole runs.

That the dry run gets through where the real one does is read backwards from
the files that the real run leaves: nothing that is in the way of a target at
the start would have made room for it (`Manifest.ready_of_run`).
-/

namespace Vendoring

open Vendoring.Path FileTree

/-! ## A dry run changes nothing -/

theorem Step.perform_dryRun_disk (s : Step) (d : Disk) : (s.perform true d).disk = d := by
  cases s with
  | start c => rfl
  | entry c e => exact (syncEntry_dryRun c e d).2
  | unit sources settings => exact amalgamate_dryRun_disk sources settings d

theorem follow_dryRun_disk (steps : List Step) (d : Disk) : (follow true steps d).disk = d :=
  follow_induction (P := fun d' => d' = d)
    (fun s _ d' h => (s.perform_dryRun_disk d').trans h) rfl

theorem runCategories_dryRun_disk (categories : List Category) (d : Disk) :
    (runCategories true categories d).disk = d :=
  (congrArg Course.disk (runCategories_course true categories d)).trans
    (follow_dryRun_disk (categories.flatMap Category.steps) d)

theorem run_dryRun_disk (m : Manifest) (source destination : Path) {options : RunOptions}
    (h : options.dryRun = true) (d : Disk) : (run m source destination options d).disk = d := by
  cases hvalid : m.invalid? with
  | some reason => simp [run, hvalid]
  | none => rw [run_disk hvalid, h, follow_dryRun_disk]

/-! ## From what is foretold to what is done -/

/-- What becomes of a file that a dry run has foretold something of, when the
places `seen` came up before. -/
def WriteResult.carriedOut (here : Location) (seen : List Location) : WriteResult → WriteResult
  | .wouldWrite p => if p.place here ∈ seen then .unchanged p else .written p
  | .written p => .written p
  | .unchanged p => .unchanged p

/-- The results of a real run, from those of a dry run. -/
def carryOut (here : Location) : List Location → List WriteResult → List WriteResult
  | _, [] => []
  | seen, w :: rest => w.carriedOut here seen :: carryOut here (w.path.place here :: seen) rest

theorem carryOut_getElem? {here : Location} {seen : List Location} {ws : List WriteResult}
    {i : Nat} : (carryOut here seen ws)[i]? = ws[i]?.map fun w =>
      w.carriedOut here (((ws.take i).map fun q => q.path.place here).reverse ++ seen) := by
  induction ws generalizing seen i with
  | nil => rfl
  | cons w rest ih =>
    cases i with
    | zero => rfl
    | succ i =>
      rw [carryOut, List.getElem?_cons_succ, List.getElem?_cons_succ, ih]
      simp

/-- What is carried out of a forecast, place by place. -/
theorem carryOut_spec {here : Location} {ws : List WriteResult} {paths : List Path}
    (hpaths : ws.map WriteResult.path = paths) (hnever : ∀ p, .written p ∉ ws) (i : Nat)
    (p : Path) :
    ((carryOut here [] ws)[i]? = some (.written p) ↔ ws[i]? = some (.wouldWrite p)
        ∧ ∀ q ∈ paths.take i, q.place here ≠ p.place here)
      ∧ ((carryOut here [] ws)[i]? = some (.unchanged p) ↔ ws[i]? = some (.unchanged p)
        ∨ ws[i]? = some (.wouldWrite p) ∧ ∃ q ∈ paths.take i, q.place here = p.place here)
      ∧ (carryOut here [] ws)[i]? ≠ some (.wouldWrite p)
      ∧ ws[i]? ≠ some (.written p) := by
  have hseen (m : Location) : m ∈ ((ws.take i).map fun q => q.path.place here).reverse ++ []
      ↔ ∃ q ∈ paths.take i, q.place here = m := by
    rw [List.append_nil, List.mem_reverse, ← hpaths]
    simp only [← List.map_take, List.mem_map, exists_exists_and_eq_and]
  rw [carryOut_getElem?]
  cases hw : ws[i]? with
  | none => simp
  | some w =>
    cases w with
    | written q => exact absurd (List.mem_of_getElem? hw) (hnever q)
    | unchanged q => simp [WriteResult.carriedOut]
    | wouldWrite q =>
      simp only [Option.map_some, WriteResult.carriedOut, hseen]
      by_cases h : ∃ q' ∈ paths.take i, q'.place here = q.place here
      · rw [if_pos h]
        refine ⟨⟨nofun, ?_⟩, ⟨?_, ?_⟩, nofun, nofun⟩
        · rintro ⟨heq, hfirst⟩
          cases heq
          obtain ⟨q', hq', hplace⟩ := h
          exact absurd hplace (hfirst q' hq')
        · rintro heq
          cases heq
          exact Or.inr ⟨rfl, h⟩
        · rintro (heq | ⟨heq, -⟩)
          · cases heq
          · cases heq
            rfl
      · rw [if_neg h]
        refine ⟨⟨?_, ?_⟩, ⟨nofun, ?_⟩, nofun, nofun⟩
        · intro heq
          cases heq
          exact ⟨rfl, fun q' hq' hplace => h ⟨q', hq', hplace⟩⟩
        · rintro ⟨heq, -⟩
          cases heq
          rfl
        · rintro (heq | ⟨heq, hlater⟩)
          · cases heq
          · cases heq
            exact absurd hlater h

/-! ## One entry -/

section Entry

variable {c : Category} {e : Entry} {d : Disk}

theorem not_synced_of_different
    (hid : d.identical? (c.sourcePath e) (c.destinationPath e) = .ok false) :
    ¬d.Synced (c.sourcePath e) (c.destinationPath e) := by
  rintro ⟨bytes, mode, mode', hs, hd⟩
  rw [Disk.identical?_of_files hs hd, decide_eq_true rfl] at hid
  cases hid

/-- A real run writes just the entries that are not synchronized. -/
theorem syncEntry_real_ok {w : WriteResult} (hok : (syncEntry c e false d).result = .ok w) :
    d.Synced (c.sourcePath e) (c.destinationPath e) ∧ w = .unchanged (c.destinationPath e)
      ∨ ¬d.Synced (c.sourcePath e) (c.destinationPath e)
        ∧ w = .written (c.destinationPath e) := by
  cases decision c e d with
  | refused x h _ =>
    rw [h false] at hok
    cases hok
  | current h =>
    rw [syncEntry_of_synced false h] at hok
    exact Or.inl ⟨h, (Except.ok.inj hok).symm⟩
  | different hs hid =>
    exact Or.inr ⟨not_synced_of_different hid, ((syncEntry_of_different_ok_iff hs hid).mp hok).1⟩

/-- A dry run announces just the entries that are not synchronized, if it can
look at both sides. -/
theorem syncEntry_dry_ok (hs : d.isFile? (c.sourcePath e) = .ok true)
    (hd : ∃ there, d.isFile? (c.destinationPath e) = .ok there) :
    d.Synced (c.sourcePath e) (c.destinationPath e)
        ∧ (syncEntry c e true d).result = .ok (.unchanged (c.destinationPath e))
      ∨ ¬d.Synced (c.sourcePath e) (c.destinationPath e)
        ∧ (syncEntry c e true d).result = .ok (.wouldWrite (c.destinationPath e)) := by
  cases decision c e d with
  | refused x _ hwhy =>
    rcases hwhy with h | ⟨y, hy⟩
    · exact absurd hs h
    · obtain ⟨there, hthere⟩ := hd
      rw [hy] at hthere
      cases hthere
  | current h => exact Or.inl ⟨h, by rw [syncEntry_of_synced true h]⟩
  | different hs hid =>
    exact Or.inr ⟨not_synced_of_different hid, by rw [syncEntry_of_different_dry hs hid]⟩

end Entry

/-! ## The unit -/

/-- A text can be compared with what stands at a path whose way is clear, if
that is no directory. -/
theorem Disk.Clear.compareWithText {d : Disk} {p : Path} (h : d.Clear p)
    (hfree : d.tree.LinkFree) (hp : p.Plain) (hfits : p.Fits)
    (hnot : d.tree.node? (p.place d.here) ≠ some .directory) (text : String) :
    ∃ compared, compareWithText d p text = .ok compared := by
  cases hnode : d.tree.node? (p.place d.here) with
  | none =>
    have hread : d.read? p = .error .notFound := by
      rw [Disk.read?, Disk.node?_of_clear hfree hp hfits h hnode]
      rfl
    exact ⟨none, by rw [Vendoring.compareWithText, hread]⟩
  | some n =>
    cases n with
    | directory => exact absurd hnode hnot
    | link target => exact absurd hnode (hfree _ target)
    | file bytes mode =>
      exact ⟨_, Disk.compareWithText_of_file text
        ((Disk.node?_eq_ok_iff hfree hp).mpr ⟨hfits, hnode⟩)⟩

theorem compareWithText_eq_ok {d : Disk} {p : Path} {text : String} {compared : Option Bool}
    (h : compareWithText d p text = .ok compared) :
    compared = some true ↔ (d.read? p).toOption = some text.toUTF8 := by
  unfold compareWithText at h
  split at h
  · next bytes hread =>
    cases h
    rw [hread, Option.some.injEq, bytes_beq_iff]
    exact ⟨fun heq => congrArg some heq, Option.some.inj⟩
  · next hread =>
    cases h
    rw [hread]
    exact ⟨nofun, nofun⟩
  · cases h

section Unit

variable {sources : Category} {settings : AggregateSettings} {d : Disk}

/-- A dry run compares the unit with its text. -/
theorem amalgamate_dry (sources : Category) (settings : AggregateSettings) (d : Disk) :
    (amalgamate sources settings true d).result =
      (compareWithText d (sources.aggregatePath settings)
        (Aggregate.expected sources settings)).map fun compared =>
          ⟨Aggregate.Plan.ofEntries settings sources.entries,
            if compared = some true then .unchanged (sources.aggregatePath settings)
            else .wouldWrite (sources.aggregatePath settings)⟩ := by
  unfold amalgamate Aggregate.expected
  simp only [if_true]
  split
  · next h => rw [h]; rfl
  · next h => rw [h]; rfl
  · next compared hne h =>
    rw [h]
    simp only [Except.map]
    rw [if_neg hne]

theorem amalgamate_dry_ok {r : AggregateResult}
    (hok : (amalgamate sources settings true d).result = .ok r) :
    r = ⟨Aggregate.Plan.ofEntries settings sources.entries,
      if (d.read? (sources.aggregatePath settings)).toOption
          = some (Aggregate.expected sources settings).toUTF8 then
        .unchanged (sources.aggregatePath settings)
      else .wouldWrite (sources.aggregatePath settings)⟩ := by
  rw [amalgamate_dry] at hok
  cases hcompared : compareWithText d (sources.aggregatePath settings)
      (Aggregate.expected sources settings) with
  | error x => rw [hcompared] at hok; cases hok
  | ok compared =>
    rw [hcompared] at hok
    cases hok
    simp only [compareWithText_eq_ok hcompared]

/-- A real run writes the unit whenever it gets that far. -/
theorem amalgamate_real_ok {r : AggregateResult}
    (hok : (amalgamate sources settings false d).result = .ok r) :
    r = ⟨Aggregate.Plan.ofEntries settings sources.entries,
      .written (sources.aggregatePath settings)⟩ := by
  unfold amalgamate at hok
  simp only [Bool.false_eq_true, if_false] at hok
  split at hok
  · cases hok
  · split at hok
    · cases hok
    · cases hok
      rfl

end Unit

/-! ## What earlier steps change for an entry -/

section Steps

variable {here : Location} {all pre : List Step} (hall : Orderly here all) (hsub : pre ⊆ all)
  {d : Disk} (hd : d.Simple here) {c : Category} {e : Entry} (he : .entry c e ∈ all)

include hall hsub hd he

/-- Where no step writes to the destination of an entry, it is synchronized
behind the steps only if it was before. -/
theorem follow_synced_before (hnot : ¬WritesTo pre here ((c.destinationPath e).place here))
    (h : (follow false pre d).disk.Synced (c.sourcePath e) (c.destinationPath e)) :
    d.Synced (c.sourcePath e) (c.destinationPath e) := by
  obtain ⟨bytes, mode, mode', hsource, hfile⟩ := h
  have hdest := (hall.plain _ he).2
  have hX := follow_simple hall hsub hd
  obtain ⟨hfits, hnode⟩ := (hX.node?_iff hdest).mp hfile
  exact ⟨bytes, mode, mode', (follow_source hall hsub hd he).mp hsource,
    (hd.node?_iff hdest).mpr ⟨hfits, (follow_unwritten hall hsub hd he hnot).mp hnode⟩⟩

/-- Behind steps that succeed, an entry to whose destination they write is
synchronized. -/
theorem follow_synced_written (hok : (follow false pre d).failure = none)
    (hfits : (c.destinationPath e).Fits) {bytes : ByteArray} {mode : Nat}
    (hsource : d.node? (c.sourcePath e) = .ok (.file bytes mode))
    (hwrites : WritesTo pre here ((c.destinationPath e).place here)) :
    (follow false pre d).disk.Synced (c.sourcePath e) (c.destinationPath e) := by
  obtain ⟨s, hmem, p, hp, hplace⟩ := hwrites
  cases s with
  | start c' => cases hp
  | unit sources settings =>
    obtain rfl := Option.some.inj hp
    exact absurd hplace (hall.unitAlone sources settings c e (hsub hmem) he)
  | entry c' e' =>
    obtain rfl := Option.some.inj hp
    have hX := follow_simple hall hsub hd
    obtain ⟨hs, hdest⟩ := hall.plain _ he
    obtain ⟨hs', hdest'⟩ := hall.plain _ (hsub hmem)
    have hsourceX := (follow_source hall hsub hd he).mpr hsource
    obtain ⟨bytes', mode', mode'', hsource', hfile⟩ := follow_synced hall hsub hd hok hmem
    -- the other entry has its source at the same place
    have hnode := ((hX.node?_iff hs).mp hsourceX).2
    have hnode' := ((hX.node?_iff hs').mp hsource').2
    rw [hall.sameSource c' e' c e (hsub hmem) he hplace, hnode] at hnode'
    cases hnode'
    have hnew := ((hX.node?_iff hdest').mp hfile).2
    rw [hplace] at hnew
    exact ⟨bytes, mode, mode'', hsourceX, (hX.node?_iff hdest).mpr ⟨hfits, hnew⟩⟩

/-- Steps that succeed synchronize the entries to whose destinations they
write, and no others. -/
theorem follow_synced_iff (hok : (follow false pre d).failure = none)
    (hfits : (c.destinationPath e).Fits) {bytes : ByteArray} {mode : Nat}
    (hsource : d.node? (c.sourcePath e) = .ok (.file bytes mode)) :
    (follow false pre d).disk.Synced (c.sourcePath e) (c.destinationPath e)
      ↔ d.Synced (c.sourcePath e) (c.destinationPath e)
        ∨ WritesTo pre here ((c.destinationPath e).place here) := by
  constructor
  · intro h
    by_cases hwrites : WritesTo pre here ((c.destinationPath e).place here)
    · exact Or.inr hwrites
    · exact Or.inl (follow_synced_before hall hsub hd he hwrites h)
  · rintro (h | hwrites)
    · exact follow_keeps_synced hall hsub hd he h
    · exact follow_synced_written hall hsub hd he hok hfits hsource hwrites

end Steps

/-! ## Runs -/

/-- What the steps of a dry run must find on the disk. -/
structure Ready (steps : List Step) (d : Disk) : Prop where
  source : ∀ c e, .entry c e ∈ steps →
    ∃ bytes mode, d.node? (c.sourcePath e) = .ok (.file bytes mode)
  destination : ∀ c e, .entry c e ∈ steps → ∃ there, d.isFile? (c.destinationPath e) = .ok there
  fits : ∀ c e, .entry c e ∈ steps → (c.destinationPath e).Fits
  unit : ∀ sources settings, .unit sources settings ∈ steps →
    ∃ r, (amalgamate sources settings true d).result = .ok r

/-- `seen` tells to which destinations of entries among `all` the steps `pre`
write. -/
def Tells (here : Location) (all pre : List Step) (seen : List Location) : Prop :=
  ∀ c e, .entry c e ∈ all → ((c.destinationPath e).place here ∈ seen
    ↔ WritesTo pre here ((c.destinationPath e).place here))

section Runs

variable {here : Location} {all : List Step} (hall : Orderly here all) {d : Disk}
  (hd : d.Simple here) (hready : Ready all d)

include hall hd hready

/-- One entry, done and foretold, behind steps that have written to the places
`seen`. -/
theorem syncEntry_carriedOut {pre : List Step} (hpre : pre ⊆ all) {c : Category} {e : Entry}
    (he : .entry c e ∈ all) (hdone : (follow false pre d).failure = none) {w : WriteResult}
    (hok : (syncEntry c e false (follow false pre d).disk).result = .ok w) {seen : List Location}
    (hseen : Tells here all pre seen) :
    ∃ w', (syncEntry c e true d).result = .ok w' ∧ (∀ p, w' ≠ .written p)
      ∧ w'.path = c.destinationPath e ∧ w = w'.carriedOut here seen := by
  obtain ⟨bytes, mode, hsource⟩ := hready.source c e he
  have hiff := follow_synced_iff hall hpre hd he hdone (hready.fits c e he) hsource
  rw [← hseen c e he] at hiff
  have hreal := syncEntry_real_ok hok
  rcases syncEntry_dry_ok (Disk.isFile?_of_file hsource) (hready.destination c e he) with
    ⟨hsynced, hdry⟩ | ⟨hnot, hdry⟩
  · refine ⟨_, hdry, nofun, rfl, ?_⟩
    rcases hreal with ⟨-, rfl⟩ | ⟨hnotX, -⟩
    · rfl
    · exact absurd (hiff.mpr (Or.inl hsynced)) hnotX
  · refine ⟨_, hdry, nofun, rfl, ?_⟩
    rcases hreal with ⟨hX, rfl⟩ | ⟨hnotX, rfl⟩
    · exact (if_pos ((hiff.mp hX).resolve_left hnot)).symm
    · exact (if_neg fun hmem => hnotX (hiff.mpr (Or.inr hmem))).symm

/-- One step, done and foretold. -/
theorem perform_carriedOut {pre : List Step} (hpre : pre ⊆ all) {s : Step} (hs : s ∈ all)
    (hdone : (follow false pre d).failure = none) {r : Progress}
    (hr : (s.perform false (follow false pre d).disk).result = .ok r) {seen : List Location}
    (hseen : Tells here all pre seen) :
    ∃ r' seen', (s.perform true d).result = .ok r' ∧ (∀ p, r'.write? ≠ some (.written p))
      ∧ Tells here all (pre ++ [s]) seen'
      ∧ ∀ ws, r.write?.toList ++ carryOut here seen' ws
        = carryOut here seen (r'.write?.toList ++ ws) := by
  cases s with
  | start c =>
    obtain rfl := Except.ok.inj hr
    refine ⟨_, seen, rfl, nofun, fun c' e' he' => ?_, fun ws => rfl⟩
    rw [hseen c' e' he', writesTo_concat]
    exact (or_iff_left fun ⟨p, hp, _⟩ => nomatch hp).symm
  | unit sources settings =>
    obtain ⟨u, -, rfl⟩ := Step.perform_unit_eq_ok hr
    obtain ⟨u', hu'⟩ := hready.unit sources settings hs
    refine ⟨_, seen, Step.perform_unit_ok hu', nofun, fun c' e' he' => ?_, fun ws => rfl⟩
    rw [hseen c' e' he', writesTo_concat]
    refine (or_iff_left ?_).symm
    rintro ⟨p, hp, hplace⟩
    obtain rfl := Option.some.inj hp
    exact hall.unitAlone sources settings c' e' hs he' hplace
  | entry c e =>
    obtain ⟨w, hw, rfl⟩ := Step.perform_entry_eq_ok hr
    obtain ⟨w', hdry, hnew, hpath, rfl⟩ :=
      syncEntry_carriedOut hall hd hready hpre hs hdone hw hseen
    refine ⟨_, (c.destinationPath e).place here :: seen, Step.perform_entry_ok hdry,
      fun p h => hnew p (Option.some.inj h), fun c' e' he' => ?_, fun ws => ?_⟩
    · rw [List.mem_cons, hseen c' e' he', writesTo_concat, or_comm]
      simp [Step.target?, eq_comm]
    · rw [← hpath]
      rfl

/-- A run gives what a dry run foretells, carried out. -/
theorem follow_carriedOut {pre post : List Step} (hsub : pre ++ post ⊆ all)
    (hok : (follow false (pre ++ post) d).failure = none) {seen : List Location}
    (hseen : Tells here all pre seen) :
    (follow true post d).failure = none
      ∧ (∀ p, .written p ∉ (follow true post d).events.filterMap Progress.write?)
      ∧ (follow false post (follow false pre d).disk).events.filterMap Progress.write?
        = carryOut here seen ((follow true post d).events.filterMap Progress.write?) := by
  induction post generalizing pre seen with
  | nil => exact ⟨rfl, nofun, rfl⟩
  | cons s rest ih =>
    have hdone := failure_of_append hok
    rw [List.append_cons] at hok hsub
    have hs : s ∈ all := hsub (by simp)
    have hpre : pre ⊆ all := fun t ht => hsub (by simp [ht])
    obtain ⟨hsingle, hdisk⟩ := follow_append_of_none hdone [s]
    obtain ⟨⟨r, hr⟩, hone⟩ := follow_singleton_ok (hsingle ▸ failure_of_append hok)
    obtain ⟨r', seen', hr', hnew, hseen', hcarried⟩ :=
      perform_carriedOut hall hd hready hpre hs hdone hr hseen
    obtain ⟨hfailure, hnever, hevents⟩ := ih hsub hok hseen'
    rw [hdisk.trans hone] at hevents
    rw [follow_cons_ok hr, follow_cons_ok hr', s.perform_dryRun_disk]
    simp only [filterMap_write?_cons]
    refine ⟨hfailure, fun p hp => ?_, ?_⟩
    · rcases List.mem_append.mp hp with hp | hp
      · exact hnew p (Option.mem_toList.mp hp)
      · exact hnever p hp
    · rw [hevents, hcarried]

end Runs

/-! ## What a real run finds at the start -/

namespace Manifest

section Start

variable {m : Manifest} {source destination : Path} {d : Disk} {amalgamate : Bool}
  (hvalid : m.invalid? = none) (hin : m.Inward source destination) (hfree : d.tree.LinkFree)
  (hapart : m.Apart source destination d.here)
  (htmp : m.TemporariesClear source destination d.here)
  (hok : (follow false (m.agenda source destination amalgamate) d).failure = none)

include hvalid hin hfree hapart htmp hok

/-- Where a run succeeds, nothing stands in the way of its targets at the
start: a file would still be there at the end, and so would a directory. -/
theorem target_at_start {s : Step} (hs : s ∈ m.agenda source destination amalgamate) {p : Path}
    (hp : s.target? = some p) :
    p.Fits ∧ d.Clear p ∧ d.tree.node? (p.place d.here) ≠ some .directory := by
  have hall := orderly_agenda hvalid hin hapart htmp.apart amalgamate
  have hd : d.Simple d.here := ⟨hfree, rfl⟩
  have hD := follow_simple hall (List.Subset.refl _) hd
  have hflat := flat_of_run hvalid hin hfree hapart htmp hok
  have hplain := (hall.plain s hs).target hp
  have hmem := List.mem_filterMap.mpr ⟨s, hs, hp⟩
  obtain ⟨bytes, mode, hfile⟩ := targets_are_files hvalid hin hfree hapart htmp.apart hok hs hp
  obtain ⟨hfits, hnode⟩ := (hD.node?_iff hplain).mp hfile
  have hdir := isDirectory_iff.mp (Disk.directory_of_node? hplain (hD.here ▸ hnode))
  rw [hD.here] at hdir
  refine ⟨hfits, fun k _ hk => ?_, fun hold => ?_⟩
  · have hend := directory_above hk hdir
    cases hold : d.tree.node? k with
    | none => exact Or.inl hold
    | some n =>
      cases n with
      | directory => exact Or.inr hold
      | link target => exact absurd hold (hfree k target)
      | file bytes mode =>
        have hkept := (follow_file hall.plain (targetsIn_filterMap _) hd (fun q hq heq => ?_)
          fun q hq heq => ?_).mpr hold
        · rw [hend] at hkept
          cases hkept
        · exact hflat.nested q hq p hmem (heq ▸ hk)
        · exact hflat.temporaries q hq p hmem (heq ▸ hk.trans (List.tail_suffix _))
  · rw [follow_directory hall.plain hd hold] at hnode
    cases hnode

/-- Where a run succeeds, a dry run finds what it needs. -/
theorem ready_of_run : Ready (m.agenda source destination amalgamate) d := by
  have hall := orderly_agenda hvalid hin hapart htmp.apart amalgamate
  have hd : d.Simple d.here := ⟨hfree, rfl⟩
  have hstart {s : Step} (hs : s ∈ m.agenda source destination amalgamate) {p : Path}
      (hp : s.target? = some p) :=
    target_at_start hvalid hin hfree hapart htmp hok hs hp
  refine ⟨fun c e he => ?_, fun c e he => ?_, fun c e he => (hstart he rfl).1,
    fun sources settings hu => ?_⟩
  · obtain ⟨bytes, mode, _, hsource, _⟩ := follow_synced hall (List.Subset.refl _) hd hok he
    exact ⟨bytes, mode, (follow_source hall (List.Subset.refl _) hd he).mp hsource⟩
  · obtain ⟨hfits, hclear, _⟩ := hstart he rfl
    exact hclear.isFile? hfree (hall.plain _ he).2 hfits
  · obtain ⟨hfits, hclear, hnot⟩ := hstart hu rfl
    have hplain : (sources.aggregatePath settings).Plain := hall.plain _ hu
    obtain ⟨compared, hcompared⟩ := hclear.compareWithText hfree hplain hfits hnot
      (Aggregate.expected sources settings)
    rw [amalgamate_dry, hcompared]
    exact ⟨_, rfl⟩

end Start

end Manifest

/-! ## The precondition of the unit -/

theorem syncEntry_ne_precondition {c : Category} {e e' : Entry} {d : Disk} {p : Path} :
    (syncEntry c e false d).result ≠ .error (.precondition e' p) := by
  intro herror
  cases decision c e d with
  | refused x h _ =>
    rw [h false] at herror
    -- the refusal is that of a dry run, so of a status
    have hdry := (syncEntry_dryRun c e d).1
    rw [h true, Except.error.inj herror] at hdry
    cases hstate : entryState c e d with
    | error y =>
      obtain ⟨q, f, rfl⟩ := entryState_eq_error hstate
      rw [hstate] at hdry
      cases hdry
    | ok state =>
      rw [hstate] at hdry
      cases state <;> cases hdry
  | current h =>
    rw [syncEntry_of_synced false h] at herror
    cases herror
  | different hs hid =>
    obtain ⟨q, f, h⟩ := replaceByCopy_eq_error ((syncEntry_of_different_error_iff hs hid).mp herror)
    cases h

namespace Manifest

variable {m : Manifest} {source destination : Path} {d : Disk}

/-- Once every entry is done, the unit finds its sources. -/
theorem checkSynchronized_of_follow (hvalid : m.invalid? = none)
    (hin : m.Inward source destination) (hfree : d.tree.LinkFree)
    (hapart : m.Apart source destination d.here)
    (htmp : m.TemporariesApart source destination d.here)
    (hok : (follow false (m.agenda source destination false) d).failure = none) :
    checkSynchronized (m.category .sources source destination)
      (follow false (m.agenda source destination false) d).disk = .ok () := by
  refine requireSynchronized_eq_ok_iff.mpr fun e he => ?_
  have hs : .entry (m.category .sources source destination) e
      ∈ m.agenda source destination false :=
    entry_mem_agenda.mpr ⟨category_mem m .sources source destination, he⟩
  obtain ⟨bytes, _, mode, _, hfile⟩ := follow_synced (orderly_agenda hvalid hin hapart htmp false)
    (List.Subset.refl _) ⟨hfree, rfl⟩ hok hs
  exact Disk.isFile?_of_file hfile

/-- No run stops because a source is not synchronized. -/
theorem run_ne_precondition (hvalid : m.invalid? = none)
    (hin : m.Inward source destination) (hfree : d.tree.LinkFree)
    (hapart : m.Apart source destination d.here)
    (htmp : m.TemporariesApart source destination d.here) (amalgamate : Bool) (e : Entry)
    (p : Path) :
    (run m source destination ⟨false, amalgamate⟩ d).result ≠ .error (.precondition e p) := by
  intro herror
  have hfailure : (follow false (m.agenda source destination amalgamate) d).failure
      = some (.precondition e p) := by
    rw [← run_course hvalid source destination ⟨false, amalgamate⟩ d, Run.course, herror]
  rw [m.agenda_eq source destination amalgamate] at hfailure
  cases hentries : (follow false (m.agenda source destination false) d).failure with
  | some x =>
    -- an entry failed, and no entry fails for this
    rw [follow_append_of_failure hentries] at hfailure
    obtain ⟨k, hk⟩ := stopsAt_follow hfailure
    obtain ⟨s, hs, -, hfailing⟩ := hk.failing
    rcases mem_agenda.mp (List.mem_of_getElem? hs) with
      ⟨c, _, rfl⟩ | ⟨c, _, e', _, rfl⟩ | ⟨h, _⟩
    · cases hfailing
    · exact syncEntry_ne_precondition (Step.perform_entry_error.mp hfailing)
    · cases h
  | none =>
    rw [(follow_append_of_none hentries _).1] at hfailure
    cases amalgamate with
    | false => cases hfailure
    | true =>
      have hcheck := checkSynchronized_of_follow hvalid hin hfree hapart htmp hentries
      cases hu : ((Step.unit (m.category .sources source destination) m.aggregate).perform false
          (follow false (m.agenda source destination false) d).disk).result with
      | ok r =>
        rw [if_pos rfl, follow_cons_ok hu] at hfailure
        cases hfailure
      | error x =>
        rw [if_pos rfl, follow_cons_error hu] at hfailure
        obtain rfl := Option.some.inj hfailure
        obtain ⟨q, f, h⟩ := replaceByText_eq_error ((amalgamate_of_synchronized_error_iff _
          hcheck).mp (Step.perform_unit_error.mp hu))
        cases h

/-- A run that gets through gets through as a dry run, and carries out what
that foretells. -/
theorem run_carriedOut (hvalid : m.invalid? = none) (hin : m.Inward source destination)
    (hfree : d.tree.LinkFree) (hapart : m.Apart source destination d.here)
    (htmp : m.TemporariesClear source destination d.here) {amalgamate : Bool}
    {report : RunReport} (hok : (run m source destination ⟨false, amalgamate⟩ d).result = .ok report) :
    ∃ foretold, (run m source destination ⟨true, amalgamate⟩ d).result = .ok foretold
      ∧ (∀ p, .written p ∉ foretold.results)
      ∧ report.results = carryOut d.here [] foretold.results := by
  have hfailure : (follow false ([] ++ m.agenda source destination amalgamate) d).failure = none :=
    (run_eq_ok_iff hvalid).mp ⟨report, hok⟩
  have hsub : [] ++ m.agenda source destination amalgamate
      ⊆ m.agenda source destination amalgamate := List.Subset.refl _
  have hseen : Tells d.here (m.agenda source destination amalgamate) [] [] :=
    fun c e _ => ⟨nofun, nofun⟩
  obtain ⟨hdry, hnever, hevents⟩ :=
    follow_carriedOut (orderly_agenda hvalid hin hapart htmp.apart amalgamate) ⟨hfree, rfl⟩
      (ready_of_run hvalid hin hfree hapart htmp hfailure) hsub hfailure hseen
  have hsome : ∃ foretold, (run m source destination ⟨true, amalgamate⟩ d).result = .ok foretold :=
    (run_eq_ok_iff hvalid).mpr hdry
  obtain ⟨foretold, hforetold⟩ := hsome
  have hresults {dryRun : Bool} {r : RunReport}
      (hr : (run m source destination ⟨dryRun, amalgamate⟩ d).result = .ok r) :
      (follow dryRun (m.agenda source destination amalgamate) d).events.filterMap Progress.write?
        = r.results := by
    rw [← (run_report hvalid hr).2.1]
    exact congrArg (fun course => course.events.filterMap Progress.write?)
      (run_course hvalid source destination ⟨dryRun, amalgamate⟩ d).symm
  have hevents' := hresults hok
  rw [hresults hforetold] at hnever hevents
  exact ⟨foretold, hforetold, hnever, hevents'.symm.trans hevents⟩

/-- A dry run changes nothing, on any disk and for any manifest. Where paths
keep apart, it foretells the real run: a run that gets through gets through
as a dry run, over the same entries, and writes an entry if the dry run would
write it and no entry before has the same destination; all others it leaves
as they are. The unit is written again even where the dry run finds it
unchanged. No run stops because sources are not synchronized when the unit's
turn comes. -/
theorem dry_run_foretells (m : Manifest) (source destination : Path) (d : Disk) :
    (∀ options, options.dryRun = true → (run m source destination options d).disk = d)
    ∧ (m.invalid? = none → m.Inward source destination → d.tree.LinkFree →
        m.Apart source destination d.here →
        m.TemporariesClear source destination d.here → ∀ amalgamate,
      (∀ report, (run m source destination ⟨false, amalgamate⟩ d).result = .ok report →
        ∃ foretold, (run m source destination ⟨true, amalgamate⟩ d).result = .ok foretold
        ∧ (∀ r ∈ [report, foretold],
            r.categories.map (fun c => (c.kind, c.writes.map Prod.fst))
                = (m.categories source destination).map (fun c => (c.kind, c.entries))
              ∧ r.results.map WriteResult.path = m.destinations source destination)
        ∧ (∀ i p,
          (report.results[i]? = some (.written p) ↔ foretold.results[i]? = some (.wouldWrite p)
            ∧ ∀ q ∈ (m.destinations source destination).take i, q.place d.here ≠ p.place d.here)
          ∧ (report.results[i]? = some (.unchanged p) ↔ foretold.results[i]? = some (.unchanged p)
            ∨ foretold.results[i]? = some (.wouldWrite p)
              ∧ ∃ q ∈ (m.destinations source destination).take i,
                q.place d.here = p.place d.here)
          ∧ report.results[i]? ≠ some (.wouldWrite p)
          ∧ foretold.results[i]? ≠ some (.written p))
        ∧ if amalgamate then
            report.aggregate = some ⟨.ofEntries m.aggregate m.sources.files,
              .written (m.unitPath source destination)⟩
            ∧ foretold.aggregate = some ⟨.ofEntries m.aggregate m.sources.files,
              if (d.read? (m.unitPath source destination)).toOption = some (Aggregate.expected
                  (m.category .sources source destination) m.aggregate).toUTF8 then
                .unchanged (m.unitPath source destination)
              else .wouldWrite (m.unitPath source destination)⟩
          else report.aggregate = none ∧ foretold.aggregate = none)
      ∧ ∀ e p, (run m source destination ⟨false, amalgamate⟩ d).result
          ≠ .error (.precondition e p)) := by
  refine ⟨fun options h => run_dryRun_disk m source destination h d,
    fun hvalid hin hfree hapart htmp amalgamate => ⟨fun report hok => ?_, fun e p =>
      run_ne_precondition hvalid hin hfree hapart htmp.apart amalgamate e p⟩⟩
  obtain ⟨foretold, hforetold, hnever, hcarried⟩ :=
    run_carriedOut hvalid hin hfree hapart htmp hok
  obtain ⟨houtline, -, hpaths, haggregate⟩ := run_report hvalid hok
  obtain ⟨houtline', -, hpaths', haggregate'⟩ := run_report hvalid hforetold
  refine ⟨foretold, hforetold, ?_, fun i p => ?_, ?_⟩
  · intro r hr
    rcases List.mem_cons.mp hr with rfl | hr
    · exact ⟨houtline, hpaths⟩
    · obtain rfl := List.mem_singleton.mp hr
      exact ⟨houtline', hpaths'⟩
  · rw [hcarried]
    exact carryOut_spec hpaths' hnever i p
  · cases amalgamate with
    | false => exact ⟨haggregate, haggregate'⟩
    | true =>
      obtain ⟨u, hu, hreal⟩ := haggregate
      obtain ⟨u', hu', hdry⟩ := haggregate'
      rw [hu, hu', amalgamate_real_ok hreal, amalgamate_dry_ok hdry, runCategories_dryRun_disk]
      exact ⟨rfl, rfl⟩

/-! A manifest that names a header twice, before the other header, which is
vendored already, and after it. -/

def repetitive : Manifest where
  aggregate := {}
  headers := ⟨⟨"inc"⟩, ⟨"include"⟩, [⟨"a.h"⟩, ⟨"b.h"⟩, ⟨"a.h"⟩]⟩
  sources := ⟨⟨"src"⟩, ⟨"lib"⟩, []⟩
  tests := ⟨⟨"t"⟩, ⟨"tests"⟩, []⟩

def repetitiveTree : FileTree :=
  ((((((FileTree.empty.put ["up"] .directory).put ["inc", "up"] .directory).put
    ["a.h", "inc", "up"] (.file "a".toUTF8 0o644)).put ["b.h", "inc", "up"]
    (.file "b".toUTF8 0o644)).put ["out"] .directory).put ["include", "out"] .directory).put
    ["b.h", "include", "out"] (.file "b".toUTF8 0o600)

theorem repetitive_run_is_foretold :
    ∃ report foretold,
      (run repetitive ⟨"up"⟩ ⟨"out"⟩ ⟨false, true⟩ ⟨repetitiveTree, []⟩).result = .ok report
      ∧ (run repetitive ⟨"up"⟩ ⟨"out"⟩ ⟨true, true⟩ ⟨repetitiveTree, []⟩).result = .ok foretold
      ∧ foretold.results = [.wouldWrite ⟨"out/include/a.h"⟩, .unchanged ⟨"out/include/b.h"⟩,
        .wouldWrite ⟨"out/include/a.h"⟩]
      ∧ report.results[0]? = some (.written ⟨"out/include/a.h"⟩)
      ∧ report.results[1]? = some (.unchanged ⟨"out/include/b.h"⟩)
      ∧ report.results[2]? = some (.unchanged ⟨"out/include/a.h"⟩) := by
  have hsome : (run repetitive ⟨"up"⟩ ⟨"out"⟩ ⟨false, true⟩ ⟨repetitiveTree, []⟩).result.toOption.isSome
      = true := by decide +kernel
  have hdry : (run repetitive ⟨"up"⟩ ⟨"out"⟩ ⟨true, true⟩ ⟨repetitiveTree, []⟩).result.toOption.map
      RunReport.results = some [.wouldWrite ⟨"out/include/a.h"⟩, .unchanged ⟨"out/include/b.h"⟩,
        .wouldWrite ⟨"out/include/a.h"⟩] := by decide +kernel
  cases hok : (run repetitive ⟨"up"⟩ ⟨"out"⟩ ⟨false, true⟩ ⟨repetitiveTree, []⟩).result with
  | error x => rw [hok] at hsome; cases hsome
  | ok report =>
    obtain ⟨foretold, hforetold, -, hresults, -⟩ :=
      ((dry_run_foretells repetitive ⟨"up"⟩ ⟨"out"⟩ ⟨repetitiveTree, []⟩).2 (by decide +kernel)
        (by decide +kernel) (linkFree_of_nodes (by decide +kernel))
        ⟨by decide +kernel, by decide +kernel, by decide +kernel⟩
        (by unfold TemporariesClear; decide +kernel) true).1 report hok
    rw [hforetold] at hdry
    have hlist := Option.some.inj hdry
    rw [hlist] at hresults
    refine ⟨report, foretold, rfl, hforetold, hlist, ?_, ?_, ?_⟩
    · exact (hresults 0 _).1.mpr ⟨rfl, fun q hq => nomatch hq⟩
    · exact (hresults 1 _).2.1.mpr (Or.inl rfl)
    · exact (hresults 2 _).2.1.mpr (Or.inr ⟨rfl, ⟨"out/include/a.h"⟩, by decide +kernel, rfl⟩)

end Manifest

end Vendoring
