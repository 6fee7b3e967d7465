import Vendoring.Command.Execute

/-!
# The files that a command looks at

A command that runs over a real file system needs a disk that holds all it
may look at, and nothing else. First come the places where a manifest may
stand; once they are on the disk, the manifest gives the others.
-/

namespace Vendoring.Command

/-- A path that is looked at, alone or with everything below it. -/
inductive Site
  | alone (path : Path)
  | whole (path : Path)

/-- Where the manifest of a command may stand, and where it is saved. -/
def Action.manifestSites (a : Action) : List Site :=
  let ofTree (t : TreeArguments) : List Site :=
    [.alone t.source, .alone (t.manifest.getD ⟨Manifest.fileName⟩)]
  match a with
  | .sync t _ _ | .status t _ | .diff t => ofTree t
  | .manifest none => []
  | .manifest (some path) => [.alone path, .alone (path.sibling ".tmp")]

/-- The sources of a manifest, and what stands below its destinations. -/
def treeSites (t : TreeArguments) (m : Manifest) : List Site :=
  (m.categories t.source t.destination).flatMap fun c =>
    .whole c.destinationRoot :: c.entries.map fun e => .alone (c.sourcePath e)

/-- The files of a tree, as its manifest gives them. -/
def Action.treeSites (a : Action) (s : Setting) (d : Disk) : List Site :=
  match a with
  | .sync t _ _ | .status t _ | .diff t =>
    match (loadFor s t d).1 with
    | .ok m => Command.treeSites t m
    | .error _ => []
  | .manifest _ => []

end Vendoring.Command
