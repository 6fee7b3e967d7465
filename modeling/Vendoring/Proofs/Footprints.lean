import Vendoring.Proofs.Layout
import Vendoring.Proofs.Moving
import Vendoring.Proofs.Trails
import Vendoring.Sync.Run

/-!
# The footprint of an operation

A `Footprint` names the locations that may be looked at and the ways in which
a location may be altered. That an operation is `Within` it is said of two
disks at once: started on disks that agree wherever it may look, it says the
same and leaves disks that still agree there, so nothing else has an
influence on it; and every location is altered in one of the ways. Operations
one after the other are within what each of them is within (`Within.trans`),
so the lemmas follow the definitions from one file up to a whole run.
-/

namespace Vendoring

open Vendoring.Path FileTree

/-- Where one may look, and how a location may be altered. -/
structure Footprint where
  here : Location
  sees : Location → Prop
  alters : Location → Option Node → Option Node → Prop
  same : ∀ l n, alters l n n
  trans : ∀ l n₁ n₂ n₃, alters l n₁ n₂ → alters l n₂ n₃ → alters l n₁ n₃

namespace Footprint

variable (f : Footprint) (p : Path)

/-- The path may be followed. -/
def Reads : Prop :=
  ∀ l ∈ p.trail f.here, f.sees l

/-- Directories that are missing on the way along the path may be created. -/
structure Opens : Prop where
  reads : f.Reads p
  opens : ∀ l ∈ p.trail f.here, f.alters l none (some .directory)

/-- Anything may be put at the end of the path. -/
structure Replaces : Prop extends f.Opens p where
  replaces : ∀ old new, f.alters (p.goal f.here) old new

variable {f p}

theorem Opens.parent (h : f.Opens p) {up : Path} (hup : IsParent up p) : f.Opens up where
  reads l hl := h.reads l (trail_of_isParent hup f.here hl)
  opens l hl := h.opens l (trail_of_isParent hup f.here hl)

end Footprint

/-- The disks behind two twins that say the same, the first one altered within
the footprint from what `d` was. -/
structure Within {α : Type} (f : Footprint) (d : Disk) (x x' : α × Disk) : Prop where
  same : x.1 = x'.1
  twins : Disk.Twins f.here f.sees x.2 x'.2
  altered : ∀ l, f.alters l (d.tree.node? l) (x.2.tree.node? l)

namespace Within

variable {α β : Type} {f : Footprint} {d d' d₁ d₁' : Disk} {a : α}

theorem rest (h : Disk.Twins f.here f.sees d d') (a : α) : Within f d (a, d) (a, d') :=
  ⟨rfl, h, fun l => f.same l _⟩

/-- What comes behind a change starts on the disks that it left. -/
theorem trans {r : α} (h : Within f d (r, d₁) (r, d₁')) {x x' : β × Disk}
    (hnext : Within f d₁ x x') : Within f d x x' :=
  ⟨hnext.same, hnext.twins, fun l => f.trans l _ _ _ (h.altered l) (hnext.altered l)⟩

theorem map {x x' : α × Disk} (h : Within f d x x') (g : α → β) :
    Within f d (g x.1, x.2) (g x'.1, x'.2) :=
  ⟨congrArg g h.same, h.twins, h.altered⟩

/-- Two changes within a footprint have one result. -/
theorem split {x x' : α × Disk} (h : Within f d x x') :
    ∃ r d₁ d₁', x = (r, d₁) ∧ x' = (r, d₁') ∧ Within f d (r, d₁) (r, d₁') := by
  obtain ⟨r, d₁⟩ := x
  obtain ⟨r', d₁'⟩ := x'
  obtain rfl : r = r' := h.same
  exact ⟨r, d₁, d₁', rfl, rfl, h⟩

end Within

namespace Disk

variable {f : Footprint} {d d' : Disk} {l : Location} {n : Node} {p q source : Path} {s : Spot}
  {α : Type}

namespace Twins

variable (h : Twins f.here f.sees d d')

include h

/-! ## One location -/

theorem put (hl : f.sees l) (hup : f.sees l.tail) (hn : ∀ target, n ≠ .link target)
    (halters : f.alters l (d.tree.node? l) (some n)) (a : α) :
    Within f d (a, d.withTree (d.tree.put l n)) (a, d'.withTree (d'.tree.put l n)) := by
  have hcan : d.tree.CanPut l ↔ d'.tree.CanPut l := by
    cases l with
    | nil => exact Iff.rfl
    | cons name up =>
      rw [CanPut, CanPut, h.nodes _ hl]
      exact and_congr_right' (and_congr_left' (h.nodes up hup ▸ Iff.rfl))
  refine ⟨rfl, ⟨h.left.withTree (h.left.linkFree.put hn), h.right.withTree
    (h.right.linkFree.put hn), fun m hm => ?_⟩, fun m => ?_⟩
  · change (d.tree.put l n).node? m = (d'.tree.put l n).node? m
    by_cases hput : d.tree.CanPut l
    · rw [node?_put _ _ _ hput, node?_put _ _ _ (hcan.mp hput), h.nodes m hm]
    · rw [put_of_not_canPut _ _ _ hput, put_of_not_canPut _ _ _ (hcan.not.mp hput), h.nodes m hm]
  · change f.alters m (d.tree.node? m) ((d.tree.put l n).node? m)
    by_cases hput : d.tree.CanPut l
    · rw [node?_put _ _ _ hput]
      split
      · next heq => exact heq ▸ halters
      · exact f.same m _
    · rw [put_of_not_canPut _ _ _ hput]
      exact f.same m _

theorem erase (hl : f.sees l) (hnode : d.tree.node? l = some n) (hn : n ≠ .directory)
    (halters : f.alters l (some n) none) (a : α) :
    Within f d (a, d.withTree (d.tree.erase l)) (a, d'.withTree (d'.tree.erase l)) := by
  have hnode' := (h.nodes l hl).symm.trans hnode
  refine ⟨rfl, ⟨h.left.withTree (h.left.linkFree.erase hnode hn),
    h.right.withTree (h.right.linkFree.erase hnode' hn), fun m hm => ?_⟩, fun m => ?_⟩
  · change (d.tree.erase l).node? m = (d'.tree.erase l).node? m
    rw [node?_erase_of_not_directory hnode hn, node?_erase_of_not_directory hnode' hn,
      h.nodes m hm]
  · change f.alters m (d.tree.node? m) ((d.tree.erase l).node? m)
    rw [node?_erase_of_not_directory hnode hn]
    split
    · next heq => rw [heq, hnode]; exact halters
    · exact f.same m _

theorem nodeAt? (hs : f.sees s.location) : nodeAt? d.tree s = Disk.nodeAt? d'.tree s := by
  rw [Disk.nodeAt?, Disk.nodeAt?, h.nodes _ hs]

/-! ## Looking -/

theorem node? (hp : f.Reads p) : d.node? p = d'.node? p := by
  rw [Disk.node?, Disk.node?, h.locate? hp]
  cases hl : d'.locate? p with
  | error x => rfl
  | ok l =>
    have hgoal := locate?_eq_goal h.right hl
    have hnode := h.nodes l (hp l (hgoal ▸ goal_mem_trail p f.here))
    simp only [bind, Except.bind, hnode]

theorem isDirectory (hp : f.Reads p) : d.isDirectory p = d'.isDirectory p := by
  rw [Disk.isDirectory, Disk.isDirectory, h.node? hp]

theorem isFile? (hp : f.Reads p) : d.isFile? p = d'.isFile? p := by
  rw [Disk.isFile?, Disk.isFile?, h.node? hp]

theorem identical? (hs : f.Reads source) (hp : f.Reads p) :
    d.identical? source p = d'.identical? source p := by
  rw [Disk.identical?, Disk.identical?, h.node? hs, h.node? hp]

theorem requireSource (kind : Kind) (e : Entry) (hs : f.Reads source) :
    d.requireSource kind e source = d'.requireSource kind e source := by
  rw [Disk.requireSource, Disk.requireSource, h.isFile? hs]

theorem compareWithText (hp : f.Reads p) (text : String) :
    compareWithText d p text = Vendoring.compareWithText d' p text := by
  rw [Vendoring.compareWithText, Vendoring.compareWithText, read?, read?, h.node? hp]

/-! ## Creating directories -/

theorem createDirectory (hp : f.Opens p) :
    Within f d (d.createDirectory p) (d'.createDirectory p) := by
  unfold Disk.createDirectory
  rw [h.spot? hp.reads]
  split
  · exact .rest h _
  · exact .rest h _
  · next s hspot =>
    obtain ⟨hgoal, hdirectory⟩ := spot?_eq_goal h.right hspot
    have hl : s.location ∈ p.trail f.here := hgoal ▸ goal_mem_trail p f.here
    rw [h.nodeAt? (hp.reads _ hl)]
    split
    · exact .rest h _
    · exact .rest h _
    · next hnode =>
      have hnone := (node?_of_nodeAt? hnode).2
      refine h.put (hp.reads _ hl) (hp.reads _ hdirectory) (by simp) ?_ _
      rw [h.nodes _ (hp.reads _ hl), hnone]
      exact hp.opens _ hl

/-- Where a directory cannot be created, one that is there will do. -/
theorem settle (hp : f.Reads p) (x : FileFault) :
    Within f d (if d.isDirectory p then ((.ok () : Except FileFault Unit), d) else (.error x, d))
      (if d'.isDirectory p then (.ok (), d') else (.error x, d')) := by
  rw [h.isDirectory hp]
  split <;> exact .rest h _

theorem ensureDirectory (hp : f.Opens p) :
    Within f d (d.ensureDirectory p) (d'.ensureDirectory p) := by
  unfold Disk.ensureDirectory
  obtain ⟨r, d₁, d₁', hd, hd', hstep⟩ := (h.createDirectory hp).split
  rw [hd, hd']
  refine hstep.trans ?_
  cases r with
  | ok _ => exact .rest hstep.twins _
  | error x => exact hstep.twins.settle hp.reads x

omit h in
theorem createDirectoriesUpTo (n : Nat) (h : Twins f.here f.sees d d') (hp : f.Opens p) :
    Within f d (createDirectoriesUpTo n d p) (Disk.createDirectoriesUpTo n d' p) := by
  induction n generalizing d d' p with
  | zero => exact .rest h _
  | succ n ih =>
    rw [Disk.createDirectoriesUpTo, Disk.createDirectoriesUpTo]
    split
    · exact .rest h _
    obtain ⟨r, d₁, d₁', hd, hd', hstep⟩ := (h.createDirectory hp).split
    rw [hd, hd']
    refine hstep.trans ?_
    cases r with
    | ok _ => exact .rest hstep.twins _
    | error x =>
      have hsettle := hstep.twins.settle hp.reads x
      -- only where nothing is found is the directory around it created first
      cases x
      case notFound =>
        cases hup : p.parent? with
        | none => exact .rest hstep.twins _
        | some up =>
          obtain ⟨r, d₂, d₂', hd, hd', hparents⟩ :=
            (ih hstep.twins (hp.parent (isParent_of_parent? hup))).split
          simp only [hd, hd']
          refine hparents.trans ?_
          cases r with
          | ok _ => exact hparents.twins.ensureDirectory hp
          | error x => exact .rest hparents.twins _
      all_goals exact hsettle

theorem createParent (hp : f.Opens p) : Within f d (d.createParent p) (d'.createParent p) := by
  unfold Disk.createParent
  cases hup : p.parent? with
  | none => exact .rest h _
  | some up =>
    obtain ⟨r, d₁, d₁', hd, hd', hstep⟩ :=
      (createDirectoriesUpTo (up.segments.length + 1) h (hp.parent (isParent_of_parent? hup))).split
    simp only [createDirectories, hd, hd']
    exact hstep.trans (.rest hstep.twins _)

/-! ## Files -/

/-- Without links a file is written where its name stands. -/
theorem writeTarget_cases (hp : f.Replaces p) :
    (∃ x, writeTarget d.tree maxLinks (d.spot? p) = .error x
        ∧ writeTarget d'.tree maxLinks (d'.spot? p) = .error x)
      ∨ writeTarget d.tree maxLinks (d.spot? p) = .ok (p.goal f.here)
        ∧ writeTarget d'.tree maxLinks (d'.spot? p) = .ok (p.goal f.here)
        ∧ f.sees (p.goal f.here).tail := by
  rw [h.spot? hp.reads]
  cases hspot : d'.spot? p with
  | error x => exact Or.inl ⟨x, rfl, rfl⟩
  | ok last =>
    cases last with
    | none => exact Or.inl ⟨_, rfl, rfl⟩
    | some s =>
      obtain ⟨hgoal, hdirectory⟩ := spot?_eq_goal h.right hspot
      have hl : s.location ∈ p.trail f.here := hgoal ▸ goal_mem_trail p f.here
      have hup : f.sees (p.goal f.here).tail := hgoal ▸ hp.reads _ hdirectory
      unfold writeTarget
      rw [h.nodeAt? (hp.reads _ hl)]
      split
      · exact Or.inl ⟨_, rfl, rfl⟩
      cases hnode : Disk.nodeAt? d'.tree s with
      | error x => exact Or.inl ⟨_, rfl, rfl⟩
      | ok there =>
        cases there with
        | none => exact Or.inr ⟨by rw [← hgoal], by rw [← hgoal], hup⟩
        | some n =>
          cases n with
          | file bytes mode => exact Or.inr ⟨by rw [← hgoal], by rw [← hgoal], hup⟩
          | directory => exact Or.inl ⟨_, rfl, rfl⟩
          | link target => exact absurd (node?_of_nodeAt? hnode).2 (h.right.linkFree _ _)

theorem write (hp : f.Replaces p) (bytes : ByteArray) :
    Within f d (d.write p bytes) (d'.write p bytes) := by
  unfold Disk.write
  rcases h.writeTarget_cases hp with ⟨x, hd, hd'⟩ | ⟨hd, hd', hup⟩
  · rw [hd, hd']
    exact .rest h _
  · have hl := hp.reads _ (goal_mem_trail p f.here)
    rw [hd, hd']
    simp only [modeAt, h.nodes _ hl]
    exact h.put hl hup (by simp) (hp.replaces _ _) _

theorem copy (hs : f.Reads source) (hp : f.Replaces p) :
    Within f d (d.copy source p) (d'.copy source p) := by
  unfold Disk.copy
  rw [h.locate? hs]
  cases hlocate : d'.locate? source with
  | error x => exact .rest h _
  | ok origin =>
    have horigin := hs origin (locate?_eq_goal h.right hlocate ▸ goal_mem_trail source f.here)
    simp only [h.nodes _ horigin]
    split
    · rcases h.writeTarget_cases hp with ⟨x, hd, hd'⟩ | ⟨hd, hd', hup⟩
      · rw [hd, hd']
        exact .rest h _
      · rw [hd, hd']
        exact h.put (hp.reads _ (goal_mem_trail p f.here)) hup (by simp) (hp.replaces _ _) _
    · exact .rest h _

theorem unlink (hp : f.Replaces p) : Within f d (d.unlink p) (d'.unlink p) := by
  unfold Disk.unlink
  rw [h.spot? hp.reads]
  cases hspot : d'.spot? p with
  | error x => exact .rest h _
  | ok last =>
    cases last with
    | none => exact .rest h _
    | some s =>
      have hgoal := (spot?_eq_goal h.right hspot).1
      have hl := hp.reads _ (hgoal ▸ goal_mem_trail p f.here)
      simp only [h.nodeAt? hl]
      split
      · exact .rest h _
      · exact .rest h _
      · exact .rest h _
      · next n hne hnode =>
        split
        · exact .rest h _
        · have hthere := (h.nodes _ hl).trans (node?_of_nodeAt? hnode).2
          exact h.erase hl hthere hne (hgoal ▸ hp.replaces _ _) _

theorem rename (hq : f.Replaces q) (hp : f.Replaces p) :
    Within f d (d.rename q p) (d'.rename q p) := by
  unfold Disk.rename
  rw [h.spot? hq.reads, h.spot? hp.reads]
  cases hspot : d'.spot? q with
  | error x => exact .rest h _
  | ok a =>
  cases hspot' : d'.spot? p with
  | error x => exact .rest h _
  | ok b =>
  cases a with
  | none => exact .rest h _
  | some a =>
  cases b with
  | none => exact .rest h _
  | some b =>
  have ha := (spot?_eq_goal h.right hspot).1
  obtain ⟨hb, hdirectory⟩ := spot?_eq_goal h.right hspot'
  have hal := hq.reads _ (ha ▸ goal_mem_trail q f.here)
  have hbl := hp.reads _ (hb ▸ goal_mem_trail p f.here)
  simp only [h.nodeAt? hal, h.nodeAt? hbl]
  cases hnode : Disk.nodeAt? d'.tree a with
  | error x => exact .rest h _
  | ok node =>
  cases node with
  | none => cases Disk.nodeAt? d'.tree b <;> exact .rest h _
  | some node =>
  cases Disk.nodeAt? d'.tree b with
  | error x => exact .rest h _
  | ok there =>
  simp only
  split
  · exact .rest h _
  next hdir =>
  split
  · exact .rest h _
  split
  · exact .rest h _
  split
  · exact .rest h _
  have hthere := (h.nodes _ hal).trans (node?_of_nodeAt? hnode).2
  have herased := h.erase hal hthere (by rintro rfl; exact hdir rfl) (ha ▸ hq.replaces _ _) ()
  have hlink (target : String) : node ≠ .link target := by
    rintro rfl
    exact h.left.linkFree _ _ hthere
  exact herased.trans
    (herased.twins.put hbl (hp.reads _ hdirectory) hlink (hb ▸ hp.replaces _ _) _)

/-! ## Replacing a file -/

theorem discard (hp : f.Replaces p) (a : α) :
    Within f d (a, d.discard p) (a, d'.discard p) :=
  ⟨rfl, (h.unlink hp).twins, (h.unlink hp).altered⟩

theorem commit (hq : f.Replaces q) (hp : f.Replaces p) :
    Within f d (d.commit q p) (d'.commit q p) := by
  unfold Disk.commit
  obtain ⟨r, d₁, d₁', hd, hd', hstep⟩ := (h.rename hq hp).split
  rw [hd, hd']
  refine hstep.trans ?_
  cases r with
  | ok _ => exact .rest hstep.twins _
  | error x => exact hstep.twins.discard hq _

theorem replaceByCopy (hs : f.Reads source) (hp : f.Replaces p)
    (htmp : f.Replaces (temporary p)) :
    Within f d (d.replaceByCopy source p) (d'.replaceByCopy source p) := by
  unfold Disk.replaceByCopy
  obtain ⟨r, d₁, d₁', hd, hd', hparent⟩ := (h.createParent hp.toOpens).split
  rw [hd, hd']
  refine hparent.trans ?_
  cases r with
  | error x => exact .rest hparent.twins _
  | ok _ =>
    obtain ⟨r, d₂, d₂', hd, hd', hcopy⟩ := (hparent.twins.copy hs htmp).split
    simp only [hd, hd']
    refine hcopy.trans ?_
    cases r with
    | error x => exact hcopy.twins.discard htmp _
    | ok _ => exact hcopy.twins.commit htmp hp

theorem replaceByText (hp : f.Replaces p) (htmp : f.Replaces (temporary p)) (bytes : ByteArray) :
    Within f d (d.replaceByText p bytes) (d'.replaceByText p bytes) := by
  unfold Disk.replaceByText
  obtain ⟨r, d₁, d₁', hd, hd', hparent⟩ := (h.createParent hp.toOpens).split
  rw [hd, hd']
  refine hparent.trans ?_
  cases r with
  | error x => exact .rest hparent.twins _
  | ok _ =>
    obtain ⟨r, d₂, d₂', hd, hd', hbeside⟩ := (hparent.twins.createParent htmp.toOpens).split
    simp only [hd, hd']
    refine hbeside.trans ?_
    cases r with
    | error x => exact .rest hbeside.twins _
    | ok _ =>
      obtain ⟨r, d₃, d₃', hd, hd', hwrite⟩ := (hbeside.twins.write htmp bytes).split
      simp only [hd, hd']
      refine hwrite.trans ?_
      cases r with
      | error x => exact .rest hwrite.twins _
      | ok _ => exact hwrite.twins.commit htmp hp

end Twins

end Disk

/-! ## Runs -/

/-- What an outcome says, and the disk behind it. -/
def Outcome.change {α : Type} (o : Outcome α) : (Except SyncError α × List Notice) × Disk :=
  ((o.result, o.log), o.disk)

def CategoryRun.change (r : CategoryRun) :
    (List (Entry × WriteResult) × Option SyncError × List Notice) × Disk :=
  ((r.writes, r.failure, r.log), r.disk)

def Run.change {α : Type} (r : Run α) :
    (Except SyncError α × List Progress × List Notice) × Disk :=
  ((r.result, r.events, r.log), r.disk)

namespace Within

variable {α : Type} {f : Footprint} {d : Disk}

theorem outcome {o o' : Outcome α} (h : Within f d o.change o'.change) :
    ∃ r log d₁ d₁', o = ⟨r, d₁, log⟩ ∧ o' = ⟨r, d₁', log⟩
      ∧ Within f d ((r, log), d₁) ((r, log), d₁') := by
  obtain ⟨r, d₁, log⟩ := o
  obtain ⟨r', d₁', log'⟩ := o'
  obtain ⟨⟨⟩, htwins, haltered⟩ := h
  exact ⟨r, log, d₁, d₁', rfl, rfl, rfl, htwins, haltered⟩

theorem categoryRun {r r' : CategoryRun} (h : Within f d r.change r'.change) :
    ∃ writes failure log d₁ d₁', r = ⟨writes, failure, d₁, log⟩ ∧ r' = ⟨writes, failure, d₁', log⟩
      ∧ Within f d ((writes, failure, log), d₁) ((writes, failure, log), d₁') := by
  obtain ⟨writes, failure, d₁, log⟩ := r
  obtain ⟨writes', failure', d₁', log'⟩ := r'
  obtain ⟨⟨⟩, htwins, haltered⟩ := h
  exact ⟨writes, failure, log, d₁, d₁', rfl, rfl, rfl, htwins, haltered⟩

theorem run {r r' : Run α} (h : Within f d r.change r'.change) :
    ∃ result events log d₁ d₁', r = ⟨result, events, d₁, log⟩ ∧ r' = ⟨result, events, d₁', log⟩
      ∧ Within f d ((result, events, log), d₁) ((result, events, log), d₁') := by
  obtain ⟨result, events, d₁, log⟩ := r
  obtain ⟨result', events', d₁', log'⟩ := r'
  obtain ⟨⟨⟩, htwins, haltered⟩ := h
  exact ⟨result, events, log, d₁, d₁', rfl, rfl, rfl, htwins, haltered⟩

end Within

/-- A file may be replaced by way of its temporary file. -/
structure Footprint.Writes (f : Footprint) (p : Path) : Prop where
  file : f.Replaces p
  temporary : f.Replaces (Disk.temporary p)

/-- The entries of a category may be synchronized. -/
structure Footprint.Covers (f : Footprint) (c : Category) : Prop where
  source : ∀ e ∈ c.entries, f.Reads (c.sourcePath e)
  destination : ∀ e ∈ c.entries, f.Writes (c.destinationPath e)

section Runs

variable {f : Footprint} {d d' : Disk} (h : Disk.Twins f.here f.sees d d')

include h

theorem syncEntry_within (c : Category) (e : Entry) (dryRun : Bool)
    (hs : f.Reads (c.sourcePath e)) (hp : f.Writes (c.destinationPath e)) :
    Within f d (syncEntry c e dryRun d).change (syncEntry c e dryRun d').change := by
  unfold syncEntry
  simp only [h.requireSource c.kind e hs, h.identical? hs hp.file.reads]
  cases d'.requireSource c.kind e (c.sourcePath e) with
  | error x => exact .rest h _
  | ok _ =>
  cases d'.identical? (c.sourcePath e) (c.destinationPath e) with
  | error x => exact .rest h _
  | ok current =>
  cases current with
  | true => exact .rest h _
  | false =>
  cases dryRun with
  | true => exact .rest h _
  | false =>
    obtain ⟨r, d₁, d₁', hd, hd', hcopy⟩ := (h.replaceByCopy hs hp.file hp.temporary).split
    simp only [hd, hd']
    refine hcopy.trans ?_
    cases r <;> exact .rest hcopy.twins _

theorem syncEntries_within (c : Category) (dryRun : Bool) {entries : List Entry}
    (hs : ∀ e ∈ entries, f.Reads (c.sourcePath e))
    (hp : ∀ e ∈ entries, f.Writes (c.destinationPath e)) :
    Within f d (syncEntries c dryRun entries d).change
      (syncEntries c dryRun entries d').change := by
  induction entries generalizing d d' with
  | nil => exact .rest h _
  | cons e rest ih =>
    rw [List.forall_mem_cons] at hs hp
    obtain ⟨r, log, d₁, d₁', ho, ho', hstep⟩ := (syncEntry_within h c e dryRun hs.1 hp.1).outcome
    rw [syncEntries, syncEntries, ho, ho']
    refine hstep.trans ?_
    cases r with
    | error x => exact .rest hstep.twins _
    | ok w =>
      exact (ih hstep.twins hs.2 hp.2).map fun later =>
        ((e, w) :: later.1, later.2.1, log ++ later.2.2)

theorem runCategories_within (dryRun : Bool) {categories : List Category}
    (hc : ∀ c ∈ categories, f.Covers c) :
    Within f d (runCategories dryRun categories d).change
      (runCategories dryRun categories d').change := by
  induction categories generalizing d d' with
  | nil => exact .rest h _
  | cons c rest ih =>
    rw [List.forall_mem_cons] at hc
    obtain ⟨writes, failure, log, d₁, d₁', ho, ho', hstep⟩ :=
      (syncEntries_within h c dryRun hc.1.source hc.1.destination).categoryRun
    rw [runCategories, runCategories, syncCategory, syncCategory, ho, ho']
    refine hstep.trans ?_
    cases failure with
    | some x => exact .rest hstep.twins _
    | none =>
      let events : List Progress := .started c :: writes.map fun w => .entry c.kind w.1 w.2
      exact (ih hstep.twins hc.2).map fun later =>
        (later.1.map (CategoryResult.mk c.kind writes :: ·), events ++ later.2.1, log ++ later.2.2)

theorem requireSynchronized_eq (sources : Category) {entries : List Entry}
    (hp : ∀ e ∈ entries, f.Writes (sources.destinationPath e)) :
    requireSynchronized sources d entries = requireSynchronized sources d' entries := by
  induction entries with
  | nil => rfl
  | cons e rest ih =>
    rw [List.forall_mem_cons] at hp
    simp only [requireSynchronized, h.isFile? hp.1.file.reads, ih hp.2]

theorem amalgamate_within {sources : Category} {settings : AggregateSettings} (dryRun : Bool)
    (hc : f.Covers sources) (hunit : f.Writes (sources.aggregatePath settings)) :
    Within f d (amalgamate sources settings dryRun d).change
      (amalgamate sources settings dryRun d').change := by
  unfold amalgamate
  simp only [h.compareWithText hunit.file.reads, checkSynchronized,
    requireSynchronized_eq h sources hc.destination]
  split
  · split <;> exact .rest h _
  · split
    · exact .rest h _
    · obtain ⟨r, d₁, d₁', hd, hd', hreplace⟩ := (h.replaceByText hunit.file hunit.temporary _).split
      rw [hd, hd']
      refine hreplace.trans ?_
      cases r <;> exact .rest hreplace.twins _

/-- A run is within every footprint that has room for its files. -/
theorem run_within (m : Manifest) (source destination : Path) (options : RunOptions)
    (hc : ∀ c ∈ m.categories source destination, f.Covers c)
    (hunit : f.Writes ((m.category .sources source destination).aggregatePath m.aggregate)) :
    Within f d (run m source destination options d).change
      (run m source destination options d').change := by
  unfold run
  split
  · exact .rest h _
  obtain ⟨result, events, log, d₁, d₁', ho, ho', hcategories⟩ :=
    (runCategories_within h options.dryRun hc).run
  rw [ho, ho']
  refine hcategories.trans ?_
  cases result with
  | error x => exact .rest hcategories.twins _
  | ok done =>
  cases options.amalgamate with
  | false => exact .rest hcategories.twins _
  | true =>
    obtain ⟨r, notices, d₂, d₂', ho, ho', hlast⟩ :=
      (amalgamate_within hcategories.twins options.dryRun
        (hc _ (Manifest.category_mem m .sources source destination)) hunit).outcome
    simp only [if_true, runAggregate, ho, ho']
    refine hlast.trans ?_
    cases r <;> exact .rest hlast.twins _

end Runs

end Vendoring
