/-!
# Tables

A table with rounded corners: a row of headings, a rule, and the other rows,
every cell as wide as the widest of its column.
-/

namespace Vendoring.Report

abbrev Row := List String

namespace Table

/-- The text, filled up with blanks to `width`. -/
def padded (width : Nat) (s : String) : String :=
  s ++ String.ofList (List.replicate (width - s.length) ' ')

/-- The width of every column of `headings`. -/
def widths (headings : Row) (rows : List Row) : List Nat :=
  (headings.zipIdx).map fun (h, i) =>
    rows.foldl (fun w row => max w (row.getD i "").length) h.length

/-- A rule with the given ends and crossings. -/
def rule (left crossing right : String) (widths : List Nat) : String :=
  left ++ crossing.intercalate (widths.map fun w => String.ofList (List.replicate (w + 2) '─'))
    ++ right ++ "\n"

def line (widths : List Nat) (row : Row) : String :=
  "│ " ++ " │ ".intercalate ((widths.zip row).map fun (w, s) => padded w s) ++ " │\n"

def text (headings : Row) (rows : List Row) : String :=
  let ws := widths headings rows
  rule "╭" "┬" "╮" ws ++ line ws headings ++ rule "├" "┼" "┤" ws
    ++ String.join (rows.map (line ws)) ++ rule "╰" "┴" "╯" ws

end Table

end Vendoring.Report
