import Vendoring.Manifest.BuiltIn
import Vendoring.Manifest.Error
import Vendoring.Manifest.Writing
import Vendoring.Notice

/-!
# Manifest files

Loading, finding and saving manifests. A manifest is valid once it is
loaded, and is not saved unless it is valid; a saved file takes the place of
an old one in one step.
-/

namespace Vendoring

namespace Manifest

/-- The name under which a manifest is looked for. -/
def fileName : String := "carve.yaml"

/-- A valid manifest read from a text, and what is to be told about it. The
origin only names the text in messages. -/
def parse (text : String) (origin : Path) : Except ManifestError Manifest × List Notice :=
  match ofText text with
  | .error reason => (.error (.unreadable origin reason), [])
  | .ok m =>
    match m.invalid? with
    | some reason => (.error (.invalid reason), [])
    | none => (.ok m, m.duplicates.map fun (kind, e) => .duplicateEntry origin kind e)

def builtIn : Except ManifestError Manifest × List Notice :=
  parse builtInText ⟨"<built-in>"⟩

def load (d : Disk) (path : Path) : Except ManifestError Manifest × List Notice :=
  if !d.exists? path then (.error (.absent path), [])
  else match d.readText? path with
    | .error fault => (.error (.io path fault), [])
    | .ok text => parse text path

/-- The manifest file of a directory, if it has one. -/
def discover? (d : Disk) (directory : Path) : Option Path :=
  let candidate := directory.join ⟨fileName⟩
  if d.isFile candidate then some candidate else none

/-- The parent directory that saving has to create; a bare name needs
none. -/
def parentToCreate? (path : Path) : Option Path :=
  path.parent?.filter fun up => up.text != ""

def createParent (d : Disk) (path : Path) : Except ManifestError Unit × Disk :=
  match parentToCreate? path with
  | none => (.ok (), d)
  | some up =>
    match d.createDirectories up with
    | (r, d) => (r.mapError (.io up), d)

def save (m : Manifest) (path : Path) (d : Disk) : Except ManifestError Unit × Disk :=
  match m.invalid? with
  | some reason => (.error (.invalid reason), d)
  | none =>
    match createParent d path with
    | (.error e, d) => (.error e, d)
    | (.ok (), d) =>
      let tmp := path.sibling ".tmp"
      match d.write tmp m.toText.toUTF8 with
      | (.error f, d) => (.error (.io tmp f), d)
      | (.ok (), d) =>
        match d.rename tmp path with
        | (.error f, d) => (.error (.io path f), (d.unlink tmp).2)
        | (.ok (), d) => (.ok (), d)

end Manifest

end Vendoring
