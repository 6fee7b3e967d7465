import Vendoring.FileTree.Walk

/-!
# Operations on files

What can be asked of a disk and what can be done to it. An operation that
fails half way gives back the disk as it left it, so every change is a pair
of a result and a disk.

Whether an operation fails depends on the paths and the nodes alone, and the
model ends where a real file system has more reasons than that:

- **Permissions.** A file carries its permission bits and a copy takes them
  along, but no operation is refused because of them, and no file or
  directory is unreadable.
- **Space and devices.** There is room for every node. A write that has found
  its target writes all its bytes, so no file is left half written, and no
  read fails once its file is found.
- **One program.** Nothing changes the tree between two operations.
- **Nodes.** There are files, directories and symbolic links, one at each
  location. There are no sockets, pipes or devices, and no hard links: to
  write at one location changes what no other location holds.
- **Names.** A path is text. Names that are not UTF-8 cannot be said, and no
  directory lists one.

What is proved of a run, of saving a manifest or of a report is proved within
these limits.
-/

namespace Vendoring

/-- The result of a change, and the disk behind it. -/
abbrev Change (α : Type) := Except FileFault α × Disk

namespace Disk

open FileTree

/-! ## Looking -/

/-- Something is there, through links. -/
def exists? (d : Disk) (p : Path) : Bool :=
  (d.node? p).toOption.isSome

def isFile (d : Disk) (p : Path) : Bool :=
  (d.node? p).toOption.any Node.isFile

def isDirectory (d : Disk) (p : Path) : Bool :=
  (d.node? p).toOption.any Node.isDirectory

/-- The bytes of a file. -/
def read? (d : Disk) (p : Path) : Except FileFault ByteArray := do
  match ← d.node? p with
  | .file bytes _ => .ok bytes
  | .directory => .error .isDirectory
  | .link _ => .error .notFound

/-- The bytes of a file as text. -/
def readText? (d : Disk) (p : Path) : Except FileFault String := do
  let bytes ← d.read? p
  match String.fromUTF8? bytes with
  | some s => .ok s
  | none => .error .notText

/-- The names in a directory with what they stand for; links are not
followed. -/
def list? (d : Disk) (p : Path) : Except FileFault (List (String × Node)) := do
  let l ← d.locate? p
  if d.tree.isDirectory l then .ok (d.tree.members l) else .error .notDirectory

/-! ## Changing -/

def withTree (d : Disk) (t : FileTree) : Disk := { d with tree := t }

/-- Permission bits of a new file. -/
def newFileMode : Nat := 0o644

/-- Where a file opened for writing is or will be: a last name that is a
link leads on to its target. -/
def writeTarget (t : FileTree) : Nat → Except FileFault LastName → Except FileFault Location
  | _, .error f => .error f
  | _, .ok none => .error .isDirectory
  | links, .ok (some s) =>
    if s.slash then .error .isDirectory
    else match nodeAt? t s with
      | .error f => .error f
      | .ok (some .directory) => .error .isDirectory
      | .ok (some (.link target)) =>
        match links with
        | 0 => .error .tooManyLinks
        | links + 1 =>
          writeTarget t links
            (spotFrom? t (startOf s.directory ⟨target⟩) (Path.segments ⟨target⟩))
      | .ok _ => .ok s.location

/-- Permission bits of the file at a location, or those of a new one. -/
def modeAt (t : FileTree) (l : Location) : Nat :=
  match t.node? l with
  | some (.file _ mode) => mode
  | _ => newFileMode

/-- Writes a whole file, a new one where there is none. -/
def write (d : Disk) (p : Path) (bytes : ByteArray) : Change Unit :=
  match writeTarget d.tree maxLinks (d.spot? p) with
  | .error f => (.error f, d)
  | .ok l => (.ok (), d.withTree (d.tree.put l (.file bytes (modeAt d.tree l))))

/-- Copies a file with its permission bits. The target is emptied before the
source is read, so a file copied onto itself ends up empty. -/
def copy (d : Disk) (source target : Path) : Change Unit :=
  match d.locate? source with
  | .error f => (.error f, d)
  | .ok origin =>
    match d.tree.node? origin with
    | some (.file bytes mode) =>
      match writeTarget d.tree maxLinks (d.spot? target) with
      | .error f => (.error f, d)
      | .ok l =>
        let bytes := if l = origin then ByteArray.empty else bytes
        (.ok (), d.withTree (d.tree.put l (.file bytes mode)))
    | _ => (.error .notRegular, d)

/-- Creates one directory. -/
def createDirectory (d : Disk) (p : Path) : Change Unit :=
  match d.spot? p with
  | .error f => (.error f, d)
  | .ok none => (.error .exists, d)
  | .ok (some s) =>
    match nodeAt? d.tree s with
    | .error f => (.error f, d)
    | .ok (some _) => (.error .exists, d)
    | .ok none => (.ok (), d.withTree (d.tree.put s.location .directory))

/-- Tries to create a directory; one that is there already will do. -/
def ensureDirectory (d : Disk) (p : Path) : Change Unit :=
  match d.createDirectory p with
  | (.ok (), d) => (.ok (), d)
  | (.error f, d) => if d.isDirectory p then (.ok (), d) else (.error f, d)

/-- Creates a directory and those around it that are missing. The number
bounds how many of them are tried. -/
def createDirectoriesUpTo : Nat → Disk → Path → Change Unit
  | 0, d, _ => (.error .notFound, d)
  | n + 1, d, p =>
    if p.text = "" then (.ok (), d)
    else match d.createDirectory p with
      | (.error .notFound, d) =>
        match p.parent? with
        | none => (.error .notFound, d)
        | some up =>
          match createDirectoriesUpTo n d up with
          | (.error f, d) => (.error f, d)
          | (.ok (), d) => d.ensureDirectory p
      | (.ok (), d) => (.ok (), d)
      | (.error f, d) => if d.isDirectory p then (.ok (), d) else (.error f, d)

/-- Creates a directory with all that is missing around it. A path has more
segments than directories. -/
def createDirectories (d : Disk) (p : Path) : Change Unit :=
  createDirectoriesUpTo (p.segments.length + 1) d p

/-- Removes a name that is no directory. -/
def unlink (d : Disk) (p : Path) : Change Unit :=
  match d.spot? p with
  | .error f => (.error f, d)
  | .ok none => (.error .isDirectory, d)
  | .ok (some s) =>
    match nodeAt? d.tree s with
    | .error f => (.error f, d)
    | .ok none => (.error .notFound, d)
    | .ok (some .directory) => (.error .isDirectory, d)
    | .ok (some _) =>
      if s.slash then (.error .notDirectory, d)
      else (.ok (), d.withTree (d.tree.erase s.location))

/-- Moves a file or link onto another name, in one step. A directory is not
moved, and none is replaced. -/
def rename (d : Disk) (old new : Path) : Change Unit :=
  match d.spot? old, d.spot? new with
  | .error f, _ => (.error f, d)
  | _, .error f => (.error f, d)
  | .ok none, _ => (.error .busy, d)
  | _, .ok none => (.error .busy, d)
  | .ok (some a), .ok (some b) =>
    match nodeAt? d.tree a, nodeAt? d.tree b with
    | .error f, _ => (.error f, d)
    | .ok none, _ => (.error .notFound, d)
    | _, .error f => (.error f, d)
    | .ok (some node), .ok there =>
      if node.isDirectory then (.error .isDirectory, d)
      else if a.slash || b.slash then (.error .notDirectory, d)
      else if a.location = b.location then (.ok (), d)
      else if there.any Node.isDirectory then (.error .isDirectory, d)
      else (.ok (), d.withTree ((d.tree.erase a.location).put b.location node))

/-- Makes a link where nothing stands. -/
def makeLink (d : Disk) (p : Path) (target : String) : Change Unit :=
  match d.spot? p with
  | .error f => (.error f, d)
  | .ok none => (.error .exists, d)
  | .ok (some s) =>
    match nodeAt? d.tree s with
    | .error f => (.error f, d)
    | .ok (some _) => (.error .exists, d)
    | .ok none =>
      if s.slash then (.error .notFound, d)
      else (.ok (), d.withTree (d.tree.put s.location (.link target)))

/-- Sets the permission bits of a file, through links. -/
def setMode (d : Disk) (p : Path) (mode : Nat) : Change Unit :=
  match d.locate? p with
  | .error f => (.error f, d)
  | .ok l =>
    match d.tree.node? l with
    | some (.file bytes _) => (.ok (), d.withTree (d.tree.put l (.file bytes mode)))
    | _ => (.ok (), d)

/-- Removes what stands at a name, with all below it. -/
def removeAll (d : Disk) (p : Path) : Change Unit :=
  match d.spot? p with
  | .error f => (.error f, d)
  | .ok none => (.error .busy, d)
  | .ok (some s) =>
    match nodeAt? d.tree s with
    | .error f => (.error f, d)
    | .ok none => (.error .notFound, d)
    | .ok (some node) =>
      if s.slash && !node.isDirectory then (.error .notDirectory, d)
      else (.ok (), d.withTree (d.tree.erase s.location))

end Disk

end Vendoring
