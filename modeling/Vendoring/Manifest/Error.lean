import Vendoring.FileTree.Disk
import Vendoring.Manifest.Reading
import Vendoring.Manifest.Validation

/-!
# What can go wrong with a manifest

A manifest file may be missing or out of reach, hold no manifest, or hold
one that is refused.
-/

namespace Vendoring

inductive ManifestError
  | io (path : Path) (fault : FileFault)
  | unreadable (path : Path) (reason : Manifest.Unreadable)
  | absent (path : Path)
  | invalid (reason : Manifest.Invalid)
  deriving DecidableEq, Repr

namespace ManifestError

def ioMessage (path : Path) (cause : String) : String :=
  "I/O error at " ++ path.text ++ ": " ++ cause

def message : ManifestError → String
  | .io path fault => ioMessage path fault.message
  | .unreadable path reason =>
    "failed to parse manifest at " ++ path.text ++ ": " ++ reason.message
  | .absent path => "manifest not found at " ++ path.text
  | .invalid reason => reason.message

/-- The messages of what lies behind the error. -/
def causes : ManifestError → List String
  | .io _ fault => [fault.message]
  | .unreadable _ reason => [reason.message]
  | _ => []

end ManifestError

end Vendoring
