import Vendoring.Patch.Hunk
import Vendoring.Status

/-!
# Differences

The patches from the vendored copies to their sources, for everything that
a run would write. Names in a patch are relative to the destination root.
Contents that are no text are only said to differ.
-/

namespace Vendoring

structure FileDifference where
  path : Path
  patch : String
  deriving DecidableEq, Repr

/-- The bytes of a file; those of a missing file are none. -/
def readOrEmpty (d : Disk) (p : Path) : Except SyncError ByteArray :=
  match d.read? p with
  | .ok bytes => .ok bytes
  | .error .notFound => .ok ByteArray.empty
  | .error f => .error (.io p f)

/-- A path as it is named in a patch: the components below `root`. -/
def patchName (p root : Path) : String :=
  "/".intercalate (((p.stripBase? root).getD p).components.map Component.text)

/-- The patch from `old` to `new`. -/
def patchText (name : String) (old new : ByteArray) : String :=
  match String.fromUTF8? old, String.fromUTF8? new with
  | some a, some b =>
    Patch.unifiedText ("a/" ++ name) ("b/" ++ name) (Patch.linesOf a) (Patch.linesOf b)
  | _, _ => "Binary files a/" ++ name ++ " and b/" ++ name ++ " differ\n"

/-- The difference of one entry, if it is not current. An entry without
source is an error, as it is for a run. -/
def entryDifference (c : Category) (root : Path) (e : Entry) (d : Disk) :
    Except SyncError (List FileDifference) := do
  match ← entryState c e d with
  | .current => return []
  | .sourceMissing => .error (.missingSource c.kind e (c.sourcePath e))
  | _ =>
    let destination := c.destinationPath e
    let old ← readOrEmpty d destination
    let new ← readOrEmpty d (c.sourcePath e)
    return [⟨destination, patchText (patchName destination root) old new⟩]

def entryDifferences (c : Category) (root : Path) (d : Disk) :
    List Entry → Except SyncError (List FileDifference)
  | [] => .ok []
  | e :: rest => do
    let one ← entryDifference c root e d
    let more ← entryDifferences c root d rest
    return one ++ more

def categoryDifferences (c : Category) (root : Path) (d : Disk) :
    Except SyncError (List FileDifference) :=
  entryDifferences c root d c.entries

def categoriesDifferences (root : Path) (d : Disk) :
    List Category → Except SyncError (List FileDifference)
  | [] => .ok []
  | c :: rest => do
    let one ← categoryDifferences c root d
    let more ← categoriesDifferences root d rest
    return one ++ more

/-- The difference of the aggregate unit, if there is one. -/
def aggregateDifference (sources : Category) (settings : AggregateSettings) (root : Path)
    (d : Disk) : Except SyncError (List FileDifference) := do
  let path := sources.aggregatePath settings
  let new := (Aggregate.expected sources settings).toUTF8
  let old ← readOrEmpty d path
  if old == new then return []
  else return [⟨path, patchText (patchName path root) old new⟩]

/-- The differences of every category, then that of the aggregate unit. -/
def treeDifferences (m : Manifest) (source destination : Path) (d : Disk) :
    Except SyncError (List FileDifference) := do
  let files ← categoriesDifferences destination d (m.categories source destination)
  let unit ← aggregateDifference (m.category .sources source destination) m.aggregate
    destination d
  return files ++ unit

end Vendoring
