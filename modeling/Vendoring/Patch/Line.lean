/-!
# Lines

A text is a list of lines, each with the break that ends it: a line feed, a
carriage return, or both. Only the last line may lack a break.
-/

namespace Vendoring.Patch

abbrev Line := String

/-- The lines of a text; `begun` holds the beginning of the current one,
reversed. -/
def linesFrom (begun : List Char) : List Char → List Line
  | [] => if begun.isEmpty then [] else [String.ofList begun.reverse]
  | '\r' :: '\n' :: rest => String.ofList ('\n' :: '\r' :: begun).reverse :: linesFrom [] rest
  | c :: rest =>
    if c == '\n' || c == '\r' then String.ofList (c :: begun).reverse :: linesFrom [] rest
    else linesFrom (c :: begun) rest

def linesOf (text : String) : List Line :=
  linesFrom [] text.toList

def Line.isComplete (l : Line) : Bool :=
  l.toList.getLast?.any fun c => c == '\n' || c == '\r'

end Vendoring.Patch
