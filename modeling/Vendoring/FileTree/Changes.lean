import Vendoring.FileTree.Basic

/-!
# From one tree to another

The changes that lead from a file tree to a later one, in an order in which
they can be made one by one: directories from the outside in, then files,
then what has to go.
-/

namespace Vendoring

inductive TreeChange
  | makeDirectory (l : Location)
  | writeFile (l : Location) (bytes : ByteArray)
  | remove (l : Location)

namespace FileTree

/-- The files and links of `old` that stand nowhere in `new`. -/
def removals (old new : FileTree) : List TreeChange :=
  old.nodes.filterMap fun (l, node) =>
    if node.isDirectory || (new.node? l).isSome then none else some (.remove l)

/-- The directories of `new` that are none in `old`. -/
def newDirectories (old new : FileTree) : List TreeChange :=
  let missing := new.nodes.filterMap fun (l, node) =>
    if node.isDirectory && !old.isDirectory l then some l else none
  (missing.mergeSort fun l m => l.length ≤ m.length).map .makeDirectory

/-- The files of `new` that are not the same in `old`. -/
def newFiles (old new : FileTree) : List TreeChange :=
  new.nodes.filterMap fun (l, node) =>
    match node with
    | .file bytes _ => if old.node? l = some node then none else some (.writeFile l bytes)
    | _ => none

def changes (old new : FileTree) : List TreeChange :=
  newDirectories old new ++ newFiles old new ++ removals old new

end FileTree

end Vendoring
