import Vendoring.Path

/-!
# Entries

An entry names one file below the root of a category. Its spelling, with
`/` between segments, is also what an `#include` line of the aggregate unit
shows, so the check keeps out everything that would leave the root or break
such a line.
-/

namespace Vendoring

/-- Control characters: the two blocks that Unicode reserves for them. -/
def isControl (c : Char) : Bool :=
  c.val < 0x20 || (0x7f ≤ c.val && c.val < 0xa0)

structure Entry where
  text : String
  deriving DecidableEq, Repr, Inhabited

namespace Entry

/-- Why an entry is no safe relative name. -/
inductive Flaw
  | empty
  | backslash
  | quoteOrControl
  | absolute
  | emptySegment
  | dotSegment
  | driveSegment
  deriving DecidableEq, Repr

def Flaw.message : Flaw → String
  | .empty => "path is empty"
  | .backslash => "backslash separators are not allowed; use '/'"
  | .quoteOrControl => "quotes and control characters are not allowed"
  | .absolute => "absolute paths are not allowed"
  | .emptySegment => "path contains an empty segment"
  | .dotSegment => "'.' and '..' segments are not allowed"
  | .driveSegment => "drive or stream prefixes are not allowed"

def segments (e : Entry) : List String :=
  (e.text.toList.splitOn '/').map String.ofList

/-- The segments, joined one by one. -/
def toPath (e : Entry) : Path :=
  e.segments.foldl (fun p s => p.join ⟨s⟩) ⟨""⟩

def segmentFlaw? (s : String) : Option Flaw :=
  if s = "" then some .emptySegment
  else if s = "." ∨ s = ".." then some .dotSegment
  else if ':' ∈ s.toList then some .driveSegment
  else none

/-- The first flaw found, if any: those of the whole text first, then
those of its segments from the left. -/
def flaw? (e : Entry) : Option Flaw :=
  if e.text = "" then some .empty
  else if '\\' ∈ e.text.toList then some .backslash
  else if e.text.toList.any (fun c => c == '"' || isControl c) then some .quoteOrControl
  else if e.text.toList.head? = some '/' then some .absolute
  else e.segments.findSome? segmentFlaw?

end Entry

end Vendoring
