import Vendoring.Proofs.Mirroring
import Vendoring.Proofs.Foretelling

/-!
# What a run can change at all

The frame of a whole run, whatever its result is and at whatever step it
stopped. `Alteration` lists how a location may differ behind steps that
replace the files at given paths: the list is closed under one more step
(`Alteration.touched`), so it holds of every run by induction over the agenda.
`Confined` says what that means for a manifest, and where below the
destination roots all of it lies.
-/

namespace Vendoring

open Vendoring.Path FileTree

/-! ## One location -/

/-- How what stands at a location may differ behind the replacement of the
files at some paths. Links do not come up, so a node that is no directory is
a file with its bytes and its mode. -/
inductive Alteration (here : Location) (paths : List Path) (l : Location) (old new : Option Node) :
    Prop
  | kept (hnew : new = old)
  | replaced (hl : ∃ p ∈ paths, l = p.place here) (hold : old ≠ some .directory)
  | cleared (hl : ∃ p ∈ paths, l = (Disk.temporary p).place here) (hold : old ≠ some .directory)
      (hnew : new = none)
  | opened (hl : ∃ p ∈ paths, l <:+ (p.place here).tail)
      (hold : old = none
        ∨ old ≠ some .directory ∧ ∃ p ∈ paths, l = (Disk.temporary p).place here)
      (hnew : new = some .directory)

namespace Alteration

variable {here : Location} {paths : List Path} {l : Location} {old new : Option Node}

/-- No directory is removed or replaced. -/
theorem directory (h : Alteration here paths l old new) (hold : old = some .directory) :
    new = some .directory := by
  cases h with
  | kept hnew => rw [hnew, hold]
  | replaced _ hne => exact absurd hold hne
  | cleared _ hne _ => exact absurd hold hne
  | opened _ _ hnew => exact hnew

/-- What a file was altered to or from stands at one of the paths or at its
temporary name. -/
theorem file (h : Alteration here paths l old new) (hne : new ≠ old)
    (hfile : old.any Node.isFile = true ∨ new.any Node.isFile = true) :
    ∃ p ∈ paths, l = p.place here ∨ l = (Disk.temporary p).place here := by
  cases h with
  | kept hnew => exact absurd hnew hne
  | replaced hl _ =>
    obtain ⟨p, hp, rfl⟩ := hl
    exact ⟨p, hp, Or.inl rfl⟩
  | cleared hl _ _ =>
    obtain ⟨p, hp, rfl⟩ := hl
    exact ⟨p, hp, Or.inr rfl⟩
  | opened _ hold hnew =>
    rw [hnew] at hfile
    rcases hold with rfl | ⟨_, p, hp, rfl⟩
    · rcases hfile with h | h <;> cases h
    · exact ⟨p, hp, Or.inr rfl⟩

/-- What stands apart from the paths and their temporary names stays. -/
theorem apart (h : Alteration here paths l old new)
    (hl : ∀ p ∈ paths, l ≠ p.place here ∧ l ≠ (Disk.temporary p).place here) {n : Node}
    (hold : old = some n) : new = some n := by
  cases h with
  | kept hnew => rw [hnew, hold]
  | replaced hp _ =>
    obtain ⟨p, hp, heq⟩ := hp
    exact absurd heq (hl p hp).1
  | cleared hp _ _ =>
    obtain ⟨p, hp, heq⟩ := hp
    exact absurd heq (hl p hp).2
  | opened _ hfree _ =>
    rcases hfree with hnone | ⟨_, p, hp, heq⟩
    · rw [hold] at hnone
      cases hnone
    · exact absurd heq (hl p hp).2

/-- One more replacement alters a location in no new way. -/
theorem touched {d d' : Disk} {p : Path} (hp : p ∈ paths)
    (h : Alteration d.here paths l old (d.tree.node? l)) (htouched : d.Touched p d') :
    Alteration d'.here paths l old (d'.tree.node? l) := by
  rw [htouched.here]
  have before (hmid : d.tree.node? l ≠ some .directory) : old ≠ some .directory :=
    fun hold => hmid (h.directory hold)
  cases htouched.nodes l with
  | same hsame => rwa [hsame]
  | written hl hmid _ _ _ => exact .replaced ⟨p, hp, hl⟩ (before hmid)
  | cleared hl hmid hnew => exact .cleared ⟨p, hp, hl⟩ (before hmid) hnew
  | grown hl hmid hnew =>
    -- a directory can come to stand where a file was removed, if that was a temporary one
    cases h with
    | kept hsame => exact .opened ⟨p, hp, hl⟩ (Or.inl (hsame ▸ hmid)) hnew
    | replaced hl' hold => exact .replaced hl' hold
    | cleared hl' hold _ => exact .opened ⟨p, hp, hl⟩ (Or.inr ⟨hold, hl'⟩) hnew
    | opened _ _ hdir =>
      rw [hdir] at hmid
      cases hmid

end Alteration

/-- Steps with their targets among some paths alter a location in one of
these ways, whether they succeed or stop. -/
theorem follow_alteration {steps : List Step} {paths : List Path} (hplain : ∀ s ∈ steps, s.Plain)
    (htargets : TargetsIn steps paths) {d : Disk} (hfree : d.tree.LinkFree) (l : Location) :
    Alteration d.here paths l (d.tree.node? l) ((follow false steps d).disk.tree.node? l) := by
  have hd : d.Simple d.here := ⟨hfree, rfl⟩
  have h := follow_frame
    (P := fun d' => Alteration d'.here paths l (d.tree.node? l) (d'.tree.node? l)) hplain
    (fun s hs p hp _ _ _ htouched h => h.touched (htargets s hs p hp) htouched) hd (.kept rfl)
  rwa [(hd.follow hplain).here] at h

/-! ## Below the destination roots -/

/-- A relative path goes on from where the root leads. -/
theorem place_join (root : Path) {p : Path} (hrel : p.isAbsolute = false) (here : Location) :
    (root.join p).place here = p.names.reverse ++ root.place here := by
  rw [place, place, names_join root hrel, startOf, startOf, isAbsolute_join root hrel]
  simp

/-- An entry stands below the root. -/
theorem place_below_root (root : Path) {e : Entry} (he : e.flaw? = none) (here : Location) :
    root.place here <:+ ((root.join e.toPath).place here).tail := by
  have hplain : e.toPath.Plain := ⟨Entry.toPath_inward he, Entry.toPath_endsInName he⟩
  obtain ⟨front, last, hsplit⟩ := hplain.splits
  rw [place_join root (Entry.toPath_relative he), hsplit.names, List.reverse_concat]
  exact List.suffix_append ..

theorem place_ne_nil {p : Path} (hp : p.Plain) (here : Location) : p.place here ≠ [] := by
  intro hnil
  refine not_suffix_tail p hp here ?_
  rw [hnil]
  exact List.nil_suffix

/-- A location strictly below another one. -/
def StrictlyBelow (root l : Location) : Prop :=
  root <:+ l ∧ root ≠ l

theorem strictlyBelow_of_tail {root l : Location} (hne : l ≠ []) (h : root <:+ l.tail) :
    StrictlyBelow root l := by
  refine ⟨h.trans (List.tail_suffix l), fun heq => ?_⟩
  cases l with
  | nil => exact hne rfl
  | cons name up =>
    have := h.length_le
    rw [heq, List.tail_cons, List.length_cons] at this
    omega

namespace Manifest

variable {m : Manifest} {source destination : Path} {amalgamate : Bool}

/-- The files that a run replaces: its destinations, and the unit if it is
asked for. -/
def replacements (m : Manifest) (source destination : Path) (amalgamate : Bool) : List Path :=
  m.destinations source destination
    ++ if amalgamate then [m.unitPath source destination] else []

theorem targetsIn_replacements (m : Manifest) (source destination : Path) (amalgamate : Bool) :
    TargetsIn (m.agenda source destination amalgamate)
      (m.replacements source destination amalgamate) := by
  intro s hs p hp
  rw [replacements, List.mem_append]
  rcases mem_agenda.mp hs with ⟨c, _, rfl⟩ | ⟨c, hc, e, he, rfl⟩ | ⟨ha, rfl⟩
  · cases hp
  · obtain rfl := Option.some.inj hp
    exact Or.inl (List.mem_flatMap.mpr ⟨c, hc, List.mem_map_of_mem he⟩)
  · obtain rfl := Option.some.inj hp
    rw [if_pos ha]
    exact Or.inr (List.mem_singleton.mpr rfl)

/-- What a run replaces is an entry of one of its categories, or its unit. -/
theorem root_of_replacement (hvalid : m.invalid? = none) {p : Path}
    (hp : p ∈ m.replacements source destination amalgamate) :
    ∃ c ∈ m.categories source destination, ∃ e : Entry, e.flaw? = none
      ∧ p = c.destinationRoot.join e.toPath := by
  obtain ⟨hentries, houtput⟩ := flaw?_of_valid hvalid
  rcases List.mem_append.mp hp with hp | hp
  · obtain ⟨c, hc, hp⟩ := List.mem_flatMap.mp hp
    obtain ⟨e, he, rfl⟩ := List.mem_map.mp hp
    obtain ⟨kind, rfl⟩ := mem_categories hc
    exact ⟨_, hc, e, hentries kind e he, rfl⟩
  · split at hp
    · obtain rfl := List.mem_singleton.mp hp
      exact ⟨_, category_mem m .sources source destination, m.aggregate.output, houtput, rfl⟩
    · cases hp

/-- Everything that may differ between the disk `d` in front of a run and the
disk `d'` behind it. -/
structure Confined (m : Manifest) (source destination : Path) (amalgamate : Bool) (d d' : Disk) :
    Prop where
  here : d'.here = d.here
  altered : ∀ l, Alteration d.here (m.replacements source destination amalgamate) l
    (d.tree.node? l) (d'.tree.node? l)
  files : ∀ l, d'.tree.node? l ≠ d.tree.node? l →
    ((d.tree.node? l).any Node.isFile = true ∨ (d'.tree.node? l).any Node.isFile = true) →
    ∃ c ∈ m.categories source destination, StrictlyBelow (c.destinationRoot.place d.here) l
  directories : ∀ l, d.tree.node? l = some .directory → d'.tree.node? l = some .directory
  others : ∀ l n, d.tree.node? l = some n →
    (∀ p ∈ m.replacements source destination amalgamate,
      l ≠ p.place d.here ∧ l ≠ (Disk.temporary p).place d.here) →
    d'.tree.node? l = some n

/-- What a run replaces, and its temporary name, stand below a destination
root. -/
theorem below_root_of_replacement (hvalid : m.invalid? = none)
    (hin : m.Inward source destination) {p : Path}
    (hp : p ∈ m.replacements source destination amalgamate) (here : Location) :
    ∃ c ∈ m.categories source destination,
      StrictlyBelow (c.destinationRoot.place here) (p.place here)
      ∧ StrictlyBelow (c.destinationRoot.place here) ((Disk.temporary p).place here) := by
  obtain ⟨c, hc, e, he, hpath⟩ := root_of_replacement hvalid hp
  have hplain : p.Plain := hpath ▸ plain_join (hin c hc).2 he
  have hbelow : c.destinationRoot.place here <:+ (p.place here).tail :=
    hpath ▸ place_below_root c.destinationRoot he here
  refine ⟨c, hc, strictlyBelow_of_tail (place_ne_nil hplain here) hbelow, ?_⟩
  rw [← (hplain.place_temporary here).1] at hbelow
  exact strictlyBelow_of_tail (place_ne_nil hplain.temporary here) hbelow

/-- All that has to be known is how each location is altered. -/
theorem confined_of_altered (hvalid : m.invalid? = none) (hin : m.Inward source destination)
    {d d' : Disk} (hhere : d'.here = d.here)
    (h : ∀ l, Alteration d.here (m.replacements source destination amalgamate) l
      (d.tree.node? l) (d'.tree.node? l)) :
    m.Confined source destination amalgamate d d' where
  here := hhere
  altered := h
  files l hne hfile := by
    obtain ⟨p, hp, hl⟩ := (h l).file hne hfile
    obtain ⟨c, hc, hbelow, htmp⟩ := below_root_of_replacement hvalid hin hp d.here
    refine ⟨c, hc, ?_⟩
    rcases hl with rfl | rfl
    · exact hbelow
    · exact htmp
  directories l hl := (h l).directory hl
  others l _ hold hl := (h l).apart hl hold

/-- Whatever a run of a valid manifest is asked for, whether it succeeds or
fails and wherever it stops, it is confined to the files that it replaces,
their temporary names and the directories above them; and a dry run changes
nothing. -/
theorem run_is_confined (m : Manifest) (source destination : Path) (options : RunOptions)
    (d : Disk) (hvalid : m.invalid? = none) (hin : m.Inward source destination)
    (hfree : d.tree.LinkFree) :
    m.Confined source destination options.amalgamate d
        (run m source destination options d).disk
      ∧ (options.dryRun = true → (run m source destination options d).disk = d) := by
  refine ⟨?_, fun h => run_dryRun_disk m source destination h d⟩
  have hplain : ∀ s ∈ m.agenda source destination options.amalgamate, s.Plain :=
    fun s hs => plain_of_mem_agenda hvalid hin hs
  cases hdry : options.dryRun with
  | true =>
    rw [run_dryRun_disk m source destination hdry]
    exact confined_of_altered hvalid hin rfl fun _ => .kept rfl
  | false =>
    have hd : d.Simple d.here := ⟨hfree, rfl⟩
    rw [run_disk hvalid, hdry]
    refine confined_of_altered hvalid hin (hd.follow hplain).here fun l => ?_
    exact follow_alteration hplain
      (targetsIn_replacements m source destination options.amalgamate) hfree l

/-- The sample, with a file of another origin at the destination and a
directory in the place of the unit, at which a run fails. -/
def obstructedTree : FileTree :=
  (((sampleTree.put ["out"] .directory).put ["lib", "out"] .directory).put
    ["notes", "lib", "out"] (.file "n".toUTF8 0o600)).put
    ["Support.cpp", "lib", "out"] .directory

theorem obstructed_run_keeps_notes :
    (run sample ⟨"up"⟩ ⟨"out"⟩ ⟨false, true⟩ ⟨obstructedTree, []⟩).result.toOption.isSome = false
      ∧ (run sample ⟨"up"⟩ ⟨"out"⟩ ⟨false, true⟩ ⟨obstructedTree, []⟩).disk.tree.node?
          ["notes", "lib", "out"] = some (.file "n".toUTF8 0o600) := by
  refine ⟨by decide +kernel, ?_⟩
  have h := run_is_confined sample ⟨"up"⟩ ⟨"out"⟩ ⟨false, true⟩ ⟨obstructedTree, []⟩
    (by decide +kernel) (by decide +kernel) (linkFree_of_nodes (by decide +kernel))
  exact h.1.others _ _ (by decide +kernel) (by decide +kernel)

end Manifest

end Vendoring
