import Vendoring.Command.Sites
import Vendoring.Command.Usage
import Vendoring.FileTree.Changes

/-!
# The program

Carries a command out on the real file system: the files that it looks at
are put on a disk, the command works on that disk, and what it changed there
is changed in the real files too.

Permission bits cannot be read from here, so every file counts as one with
the bits of a new file.
-/

namespace Vendoring.Program

open Command

/-- The absolute text of a location. -/
def absolute (l : Location) : String :=
  "/" ++ "/".intercalate l.reverse

/-- The location of an absolute text without `.` and `..`. -/
def locationOf (text : String) : Location :=
  ((Path.segments ⟨text⟩).filter fun s => !Path.Segment.isSilent s).reverse.map String.ofList

/-- What stands at a location, links not followed. -/
def kindAt (l : Location) : IO (Option IO.FS.FileType) := do
  try
    let file := (← IO.currentDir) / absolute l
    return some (← file.symlinkMetadata).type
  catch _ => return none

/-- Where a link leads in the end; a link that leads nowhere has no text. -/
def linkTarget (l : Location) : IO String := do
  try return (← IO.FS.realPath (absolute l)).toString
  catch _ => return ""

/-- Adds what stands along `segments` from `l` on, and, if `whole`, what is
below their end. -/
partial def gather (whole : Bool) (t : FileTree) (l : Location) :
    List Path.Segment → IO FileTree
  | [] => do
    if !whole || !t.isDirectory l then return t
    let directory := (← IO.currentDir) / absolute l
    let names := (← directory.readDir).map (·.fileName)
    names.foldlM (fun t name => gather true t l [name.toList]) t
  | s :: rest => do
    if Path.Segment.isSilent s then return ← gather whole t l rest
    if s == ['.', '.'] then return ← gather whole t l.tail rest
    let next := String.ofList s :: l
    match ← kindAt next with
    | some .dir => gather whole (t.put next .directory) next rest
    | some .file => return t.put next (.file (← IO.FS.readBinFile (absolute next)) Disk.newFileMode)
    | some .symlink =>
      if (t.node? next).isSome && rest.isEmpty then return t
      let target ← linkTarget next
      gather whole (t.put next (.link target)) [] (Path.segments ⟨target⟩ ++ rest)
    | _ => return t

def gatherSite (d : Disk) (s : Site) : IO Disk := do
  let start := FileTree.startOf d.here
  let tree ← match s with
    | .alone p => gather false d.tree (start p) p.segments
    | .whole p => gather true d.tree (start p) p.segments
  return { d with tree := tree }

/-- Makes one change. A file takes its place in one step. -/
def make : TreeChange → IO Unit
  | .makeDirectory l => IO.FS.createDir (absolute l)
  | .writeFile l bytes => do
    let temporary := absolute l ++ ".carve.tmp"
    IO.FS.writeBinFile temporary bytes
    IO.FS.rename temporary (absolute l)
  | .remove l => IO.FS.removeFile (absolute l)

def act (verbose : Bool) (a : Action) : IO UInt32 := do
  let here := locationOf (← IO.currentDir).toString
  let setting : Setting := ⟨⟨absolute here⟩, ← (← IO.getStdout).isTty⟩
  let tree ← gather false FileTree.empty [] (here.reverse.map String.toList)
  let d ← a.manifestSites.foldlM gatherSite ⟨tree, here⟩
  let d ← (a.treeSites setting d).foldlM gatherSite d
  let done := a.execute setting d
  (d.tree.changes done.disk.tree).forM make
  for notice in shownNotices verbose (← IO.getEnv "CARVE_LOG") done.log do
    IO.eprintln notice.line
  IO.print done.output
  match done.failure with
  | none => return 0
  | some f =>
    IO.eprint f.text
    return 1

end Vendoring.Program

def main (arguments : List String) : IO UInt32 := do
  match Vendoring.Command.Invocation.ofArguments arguments with
  | .ok (.act verbose action) => Vendoring.Program.act verbose action
  | .ok .version =>
    IO.print Vendoring.Command.versionText
    return 0
  | .ok .help =>
    IO.print Vendoring.Command.usageText
    return 0
  | .error e =>
    IO.eprint ("error: " ++ e.message ++ "\n\n" ++ Vendoring.Command.usageText)
    return 2
