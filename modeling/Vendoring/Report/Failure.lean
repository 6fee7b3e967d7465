/-!
# Failures for readers

What was being done when something failed, followed by its causes, nearest
first. Several causes are numbered, and the further lines of a cause stand
below its first one.
-/

namespace Vendoring.Report

structure Failure where
  headline : String
  causes : List String
  deriving DecidableEq, Repr

namespace Failure

/-- Puts `margin` behind every line break. -/
def indented (margin s : String) : String :=
  String.join (s.toList.map fun c => if c == '\n' then "\n" ++ margin else String.singleton c)

def numbered (i : Nat) (cause : String) : String :=
  let number := toString i
  let fill := String.ofList (List.replicate (5 - number.length) ' ')
  "\n" ++ fill ++ number ++ ": " ++ indented "       " cause

def causesText : List String → String
  | [] => ""
  | [cause] => "\n\nCaused by:\n    " ++ indented "    " cause
  | causes => "\n\nCaused by:" ++ String.join (causes.zipIdx.map fun (c, i) => numbered i c)

def text (f : Failure) : String :=
  "Error: " ++ f.headline ++ causesText f.causes ++ "\n"

end Failure

end Vendoring.Report
