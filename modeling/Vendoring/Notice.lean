import Vendoring.Manifest.Basic

/-!
# Notices

What a run tells about itself while it works, each with its level.
-/

namespace Vendoring

inductive Level
  | debug
  | info
  | warn
  deriving DecidableEq, Repr

def Level.label : Level → String
  | .debug => "DEBUG"
  | .info => "INFO"
  | .warn => "WARN"

/-- Greater means more important. -/
def Level.weight : Level → Nat
  | .debug => 0
  | .info => 1
  | .warn => 2

inductive Notice
  | duplicateEntry (manifest : Path) (kind : Kind) (entry : Entry)
  | unchanged (destination : Path)
  | wouldCopy (destination : Path)
  | copied (source destination : Path)
  | amalgamated (count : Nat) (path : Path)
  | usingManifest (path : Path)
  | usingBuiltIn
  deriving DecidableEq, Repr

namespace Notice

def level : Notice → Level
  | .duplicateEntry _ _ _ => .warn
  | .unchanged _ => .debug
  | _ => .info

def message : Notice → String
  | .duplicateEntry manifest kind e =>
    manifest.text ++ ": " ++ kind.label ++ " entry '" ++ e.text ++
      "' is listed more than once"
  | .unchanged destination => "unchanged: " ++ destination.text
  | .wouldCopy destination => "[dry-run] would copy: " ++ destination.text
  | .copied source destination =>
    "copied: " ++ source.text ++ " -> " ++ destination.text
  | .amalgamated count path =>
    "amalgamated " ++ toString count ++ " sources into " ++ path.text
  | .usingManifest path => "using manifest " ++ path.text
  | .usingBuiltIn => "using built-in manifest"

/-- The level and the message. -/
def line (n : Notice) : String :=
  n.level.label ++ " " ++ n.message

end Notice

end Vendoring
