import Vendoring.Sync.Amalgamate

/-!
# Status

How a vendored tree compares with its source: the state of every entry and
of the aggregate unit, and the files that nothing accounts for. Nothing is
written.
-/

namespace Vendoring

/-- State of an entry or of the aggregate unit. -/
inductive EntryState
  | current
  | outdated
  | missing
  | sourceMissing
  deriving DecidableEq, Repr

namespace EntryState

def all : List EntryState := [.current, .outdated, .missing, .sourceMissing]

def label : EntryState → String
  | .current => "current"
  | .outdated => "outdated"
  | .missing => "missing"
  | .sourceMissing => "source-missing"

/-- A run would copy the entry, or fail on it. -/
def needsSync : EntryState → Bool
  | .current => false
  | _ => true

end EntryState

/-- `untracked` holds files below the destination root that no entry names,
relative to that root and sorted. -/
structure CategoryStatus where
  kind : Kind
  destinationRoot : Path
  entries : List (Entry × EntryState)
  untracked : List Path
  deriving DecidableEq, Repr

def CategoryStatus.count (s : CategoryStatus) (state : EntryState) : Nat :=
  s.entries.countP (·.2 == state)

structure AggregateStatus where
  path : Path
  state : EntryState
  deriving DecidableEq, Repr

structure StatusReport where
  categories : List CategoryStatus
  aggregate : AggregateStatus
  deriving DecidableEq, Repr

namespace StatusReport

def count (r : StatusReport) (state : EntryState) : Nat :=
  total (r.categories.map (·.count state))

def untracked (r : StatusReport) : Nat :=
  total (r.categories.map (·.untracked.length))

def entryCount (r : StatusReport) : Nat :=
  total (r.categories.map (·.entries.length))

/-- A run would change nothing. -/
def isClean (r : StatusReport) : Bool :=
  r.categories.all (fun c => c.entries.all fun e => !e.2.needsSync)
    && !r.aggregate.state.needsSync

end StatusReport

/-! ## Entries -/

def entryState (c : Category) (e : Entry) (d : Disk) : Except SyncError EntryState := do
  let source := c.sourcePath e
  let destination := c.destinationPath e
  if !(← d.isFile? source) then return .sourceMissing
  if !(← d.isFile? destination) then return .missing
  if ← d.identical? source destination then return .current
  else return .outdated

def entryStates (c : Category) (d : Disk) :
    List Entry → Except SyncError (List (Entry × EntryState))
  | [] => .ok []
  | e :: rest => do
    let state ← entryState c e d
    let states ← entryStates c d rest
    return (e, state) :: states

/-! ## The files below a directory -/

/-- Reads directories until none is waiting. Files found are collected;
directories found wait in front of the others; links are neither. Every
directory is read once, so the number of nodes bounds the steps. -/
def walkWaiting (d : Disk) : Nat → List Path → List Path → Except SyncError (List Path)
  | _, found, [] => .ok found
  | 0, found, _ :: _ => .ok found
  | steps + 1, found, dir :: waiting =>
    match d.list? dir with
    | .error .notFound => walkWaiting d steps found waiting
    | .error f => .error (.io dir f)
    | .ok members =>
      let named (p : Node → Bool) :=
        (members.filter fun m => p m.2).map fun m => dir.join ⟨m.1⟩
      walkWaiting d steps (named Node.isFile ++ found)
        ((named Node.isDirectory).reverse ++ waiting)

/-- All regular files below `root`, sorted. A root that is not there holds
none. -/
def filesBelow (d : Disk) (root : Path) : Except SyncError (List Path) := do
  let found ← walkWaiting d (d.tree.nodes.length + 2) [] [root]
  return found.mergeSort fun p q => p.compare q != .gt

/-- One of `paths` is the same path. -/
def isAmong (paths : List Path) (p : Path) : Bool :=
  paths.any fun q => decide (q.Same p)

/-- The status of one category on its own. -/
def categoryStatus (c : Category) (d : Disk) : Except SyncError CategoryStatus := do
  let entries ← entryStates c d c.entries
  let files ← filesBelow d c.destinationRoot
  let tracked := c.entries.map c.destinationPath
  return {
    kind := c.kind
    destinationRoot := c.destinationRoot
    entries := entries
    untracked := (files.filter fun p => !isAmong tracked p).filterMap
      (·.stripBase? c.destinationRoot) }

/-! ## The whole tree -/

def aggregateStatus (sources : Category) (settings : AggregateSettings) (d : Disk) :
    Except SyncError AggregateStatus := do
  let path := sources.aggregatePath settings
  match ← compareWithText d path (Aggregate.expected sources settings) with
  | some true => return ⟨path, .current⟩
  | some false => return ⟨path, .outdated⟩
  | none => return ⟨path, .missing⟩

/-- The deepest of the roots that contain `p`; of equally deep ones, the
last. -/
def owningRoot? (roots : List Path) (p : Path) : Option Path :=
  (roots.filter p.startsWith).foldl (fun best root =>
    match best with
    | none => some root
    | some b => if b.components.length ≤ root.components.length then some root else some b)
    none

/-- Keeps the untracked files that no other category and not the aggregate
unit accounts for, each with the category whose root owns it. -/
def CategoryStatus.restrict (s : CategoryStatus) (tracked roots : List Path) : CategoryStatus :=
  { s with
    untracked := s.untracked.filter fun rel =>
      let full := s.destinationRoot.join rel
      !isAmong tracked full
        && (owningRoot? roots full).any fun r => decide (r.Same s.destinationRoot) }

def categoryStatuses (tracked roots : List Path) (d : Disk) :
    List Category → Except SyncError (List CategoryStatus)
  | [] => .ok []
  | c :: rest => do
    let s ← categoryStatus c d
    let more ← categoryStatuses tracked roots d rest
    return s.restrict tracked roots :: more

/-- The status of every category and of the aggregate unit. -/
def treeStatus (m : Manifest) (source destination : Path) (d : Disk) :
    Except SyncError StatusReport := do
  let categories := m.categories source destination
  let aggregate ← aggregateStatus (m.category .sources source destination) m.aggregate d
  let tracked := aggregate.path :: categories.flatMap fun c => c.entries.map c.destinationPath
  let roots := categories.map (·.destinationRoot)
  let statuses ← categoryStatuses tracked roots d categories
  return ⟨statuses, aggregate⟩

end Vendoring
