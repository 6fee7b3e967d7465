import Vendoring.Notice
import Vendoring.Sync.Compare
import Vendoring.Sync.Error

/-!
# Writing one file

An entry is copied only when its destination does not hold the same bytes
already. A copy goes to a temporary file beside the destination, which then
takes its place in one step; when something fails on the way, the temporary
file is removed and the destination is as it was.
-/

namespace Vendoring

/-- What became of one file. -/
inductive WriteResult
  | written (path : Path)
  | unchanged (path : Path)
  | wouldWrite (path : Path)
  deriving DecidableEq, Repr

namespace WriteResult

def path : WriteResult → Path
  | .written p => p
  | .unchanged p => p
  | .wouldWrite p => p

def isChange : WriteResult → Bool
  | .unchanged _ => false
  | _ => true

end WriteResult

/-- The result of a step, the disk behind it, and what it told. -/
structure Outcome (α : Type) where
  result : Except SyncError α
  disk : Disk
  log : List Notice

namespace Disk

/-- A path leads to a regular file. A path that leads nowhere does not; one
that cannot be followed is an error. -/
def isFile? (d : Disk) (p : Path) : Except SyncError Bool :=
  match d.node? p with
  | .ok n => .ok n.isFile
  | .error .notFound => .ok false
  | .error f => .error (.io p f)

/-- The destination is a regular file with exactly the bytes of the source.
Contents of different length are not looked at. -/
def identical? (d : Disk) (source destination : Path) : Except SyncError Bool :=
  match d.node? destination with
  | .error .notFound => .ok false
  | .error f => .error (.io destination f)
  | .ok (.file there _) =>
    match d.node? source with
    | .error f => .error (.io source f)
    | .ok (.file bytes _) =>
      if bytes.size = there.size then .ok (sameStream (chunks bytes) (chunks there))
      else .ok false
    | .ok _ => .ok false
  | .ok _ => .ok false

/-- Fails unless the source of an entry is a regular file. -/
def requireSource (d : Disk) (kind : Kind) (e : Entry) (source : Path) :
    Except SyncError Unit := do
  if ← d.isFile? source then return ()
  else .error (.missingSource kind e source)

/-! ## Replacing a file in one step -/

/-- The temporary file beside `path`. -/
@[irreducible]
def temporary (path : Path) : Path :=
  path.sibling ".carve.tmp"

def createParent (d : Disk) (path : Path) : Except SyncError Unit × Disk :=
  match path.parent? with
  | none => (.ok (), d)
  | some up =>
    match d.createDirectories up with
    | (r, d) => (failAt up r, d)

/-- Removes a temporary file if that is possible. -/
def discard (d : Disk) (path : Path) : Disk :=
  (d.unlink path).2

/-- Moves a temporary file into its place, or removes it. -/
def commit (d : Disk) (tmp path : Path) : Except SyncError Unit × Disk :=
  match d.rename tmp path with
  | (.ok (), d) => (.ok (), d)
  | (.error f, d) => (.error (.io path f), d.discard tmp)

def replaceByCopy (d : Disk) (source destination : Path) : Except SyncError Unit × Disk :=
  match d.createParent destination with
  | (.error e, d) => (.error e, d)
  | (.ok (), d) =>
    let tmp := temporary destination
    match d.copy source tmp with
    | (.error f, d) => (.error (.io source f), d.discard tmp)
    | (.ok (), d) => d.commit tmp destination

def replaceByText (d : Disk) (path : Path) (bytes : ByteArray) : Except SyncError Unit × Disk :=
  match d.createParent path with
  | (.error e, d) => (.error e, d)
  | (.ok (), d) =>
    let tmp := temporary path
    match d.createParent tmp with
    | (.error e, d) => (.error e, d)
    | (.ok (), d) =>
      match d.write tmp bytes with
      | (.error f, d) => (.error (.io tmp f), d)
      | (.ok (), d) => d.commit tmp path

end Disk

/-! ## One entry -/

/-- Synchronizes one entry of a category. A dry run decides and changes
nothing. -/
def syncEntry (c : Category) (e : Entry) (dryRun : Bool) (d : Disk) : Outcome WriteResult :=
  let source := c.sourcePath e
  let destination := c.destinationPath e
  match d.requireSource c.kind e source with
  | .error x => ⟨.error x, d, []⟩
  | .ok () =>
    match d.identical? source destination with
    | .error x => ⟨.error x, d, []⟩
    | .ok true => ⟨.ok (.unchanged destination), d, [.unchanged destination]⟩
    | .ok false =>
      if dryRun then ⟨.ok (.wouldWrite destination), d, [.wouldCopy destination]⟩
      else match d.replaceByCopy source destination with
        | (.error x, d) => ⟨.error x, d, []⟩
        | (.ok (), d) => ⟨.ok (.written destination), d, [.copied source destination]⟩

/-! ## One category -/

/-- How far the entries of a category got: what became of those done, in
order, and the error at the next one, if there was one. -/
structure CategoryRun where
  writes : List (Entry × WriteResult)
  failure : Option SyncError
  disk : Disk
  log : List Notice

/-- Synchronizes entries one after the other, up to the first error. -/
def syncEntries (c : Category) (dryRun : Bool) : List Entry → Disk → CategoryRun
  | [], d => ⟨[], none, d, []⟩
  | e :: rest, d =>
    let step := syncEntry c e dryRun d
    match step.result with
    | .error x => ⟨[], some x, step.disk, step.log⟩
    | .ok w =>
      let later := syncEntries c dryRun rest step.disk
      ⟨(e, w) :: later.writes, later.failure, later.disk, step.log ++ later.log⟩

def syncCategory (c : Category) (dryRun : Bool) (d : Disk) : CategoryRun :=
  syncEntries c dryRun c.entries d

/-- The sum of the counts of several categories. -/
def total (counts : List Nat) : Nat :=
  counts.foldr (· + ·) 0

@[simp] theorem total_nil : total [] = 0 := rfl

@[simp] theorem total_cons (n : Nat) (rest : List Nat) : total (n :: rest) = n + total rest := rfl

/-- What a finished category did. -/
structure CategoryResult where
  kind : Kind
  writes : List (Entry × WriteResult)
  deriving DecidableEq, Repr

namespace CategoryResult

def written (r : CategoryResult) : Nat :=
  r.writes.countP (·.2.isChange)

def unchanged (r : CategoryResult) : Nat :=
  r.writes.length - r.written

end CategoryResult

end Vendoring
