/-!
# Marks

A mark is a place in a text: how many characters stand before it, and the
line and column it is on, both counted from zero. The first place of a text
is the origin; messages do not mention it.
-/

namespace Vendoring.Yaml

structure Mark where
  index : Nat := 0
  line : Nat := 0
  column : Nat := 0
  deriving DecidableEq, Repr, Inhabited

namespace Mark

/-- The mark behind one more character of the same line. -/
def step (m : Mark) : Mark :=
  { m with index := m.index + 1, column := m.column + 1 }

/-- The mark at the start of the next line, behind a line break of `width`
characters. -/
def nextLine (m : Mark) (width : Nat) : Mark where
  index := m.index + width
  line := m.line + 1
  column := 0

/-- First line, first column. -/
def isOrigin (m : Mark) : Bool :=
  m.line == 0 && m.column == 0

def sameSpot (m n : Mark) : Bool :=
  m.line == n.line && m.column == n.column

/-- Lines and columns are shown counted from one. -/
def text (m : Mark) : String :=
  "line " ++ toString (m.line + 1) ++ " column " ++ toString (m.column + 1)

/-- ` at line … column …`, or nothing at the origin. -/
def suffixText (m : Mark) : String :=
  if m.isOrigin then "" else " at " ++ m.text

end Mark

end Vendoring.Yaml
