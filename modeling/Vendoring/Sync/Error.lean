import Vendoring.Manifest.Error

/-!
# Why a run stops

Every error ends the run: nothing is tried again and nothing is passed
over.
-/

namespace Vendoring

inductive SyncError
  | missingSource (kind : Kind) (entry : Entry) (path : Path)
  | io (path : Path) (fault : FileFault)
  | precondition (entry : Entry) (path : Path)
  | manifest (error : ManifestError)
  deriving DecidableEq, Repr

namespace SyncError

def message : SyncError → String
  | .missingSource kind e path =>
    "missing source for " ++ kind.label ++ " entry '" ++ e.text ++ "': " ++ path.text ++
      " does not exist"
  | .io path fault => ManifestError.ioMessage path fault.message
  | .precondition e path =>
    "cannot amalgamate: sources entry '" ++ e.text ++ "' is not present at " ++ path.text ++
      "; sync sources first"
  | .manifest error => "invalid manifest: " ++ error.message

/-- The messages of what lies behind the error, nearest first. -/
def causes : SyncError → List String
  | .io _ fault => [fault.message]
  | .manifest error => error.message :: error.causes
  | _ => []

end SyncError

/-- The first of several operations that fails at `path` fails the whole. -/
def failAt {α : Type} (path : Path) (r : Except FileFault α) : Except SyncError α :=
  r.mapError (.io path)

end Vendoring
