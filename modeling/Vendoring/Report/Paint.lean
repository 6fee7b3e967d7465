/-!
# Colours

Text for a terminal, painted when colours are wanted and plain otherwise.
-/

namespace Vendoring.Report

inductive Colour
  | red
  | green
  | yellow
  | magenta
  | grey
  deriving DecidableEq, Repr

def Colour.code : Colour → String
  | .red => "31"
  | .green => "32"
  | .yellow => "33"
  | .magenta => "35"
  | .grey => "90"

structure Paint where
  bold : Bool
  colour : Option Colour

def Paint.codes (p : Paint) : List String :=
  (if p.bold then ["1"] else []) ++ p.colour.toList.map Colour.code

/-- Puts the codes around the text, if colours are wanted. -/
def Paint.apply (p : Paint) (wanted : Bool) (s : String) : String :=
  if wanted then "\x1b[" ++ ";".intercalate p.codes ++ "m" ++ s ++ "\x1b[0m" else s

end Vendoring.Report
