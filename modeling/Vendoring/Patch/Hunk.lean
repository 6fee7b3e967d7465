import Vendoring.Patch.Slide

/-!
# Hunks

Changes are shown with three kept lines around them. Changes whose
surroundings touch share a hunk. The text of a hunk opens with the ranges of
lines that it covers on both sides.
-/

namespace Vendoring.Patch

/-- Lines of the old side that are kept, or that give way to lines of the
new side. -/
structure Block where
  kept : Bool
  old : Nat
  oldCount : Nat
  new : Nat
  newCount : Nat
  deriving DecidableEq, Repr

/-- The changes between two kept blocks: their deletions and their
insertions. -/
structure Pending where
  deleted : Option (Nat × Nat × Nat) := none
  inserted : Option (Nat × Nat × Nat) := none

namespace Pending

/-- Adds a piece. Of several pieces of one kind the first gives the
position. -/
def add (c : Pending) (p : Piece) : Pending :=
  let grow : Option (Nat × Nat × Nat) → Option (Nat × Nat × Nat)
    | some (old, new, count) => some (old, new, count + p.count)
    | none => some (p.old, p.new, p.count)
  match p.kind with
  | .delete => { c with deleted := grow c.deleted }
  | .insert => { c with inserted := grow c.inserted }
  | .keep => c

/-- The block of the changes, if there are any. -/
def blocks (c : Pending) : List Block :=
  match c.deleted, c.inserted with
  | some (old, _, n), some (_, new, m) => [⟨false, old, n, new, m⟩]
  | some (old, new, n), none => [⟨false, old, n, new, 0⟩]
  | none, some (old, new, m) => [⟨false, old, 0, new, m⟩]
  | none, none => []

end Pending

def keptBlock (old new count : Nat) : Block := ⟨true, old, count, new, count⟩

/-- Joins pieces into blocks: kept lines with kept lines, and changes with
changes. -/
def blocksFrom (kept : Option (Nat × Nat × Nat)) (c : Pending) : List Piece → List Block
  | [] => keptBlocks kept ++ c.blocks
  | p :: rest =>
    match p.kind with
    | .keep =>
      match kept with
      | some (old, new, n) => blocksFrom (some (old, new, n + p.count)) c rest
      | none => c.blocks ++ blocksFrom (some (p.old, p.new, p.count)) {} rest
    | _ => keptBlocks kept ++ blocksFrom none (c.add p) rest
where
  keptBlocks : Option (Nat × Nat × Nat) → List Block
    | some (old, new, n) => [keptBlock old new n]
    | none => []

def blocks (old new : List Line) : List Block :=
  blocksFrom none {} (slide old new (placeRuns 0 0 (script old new)))

/-! ## Grouping -/

/-- Kept lines shown around a change. -/
def radius : Nat := 3

/-- The last lines of a kept block. -/
def Block.lastLines (b : Block) (n : Nat) : Block :=
  let off := b.oldCount - n
  if b.kept then keptBlock (b.old + off) (b.new + off) (b.oldCount - off) else b

/-- The first lines of a kept block. -/
def Block.firstLines (b : Block) (n : Nat) : Block :=
  if b.kept then keptBlock b.old b.new (min b.oldCount n) else b

def trimFirst : List Block → List Block
  | [] => []
  | b :: rest => b.lastLines radius :: rest

def trimLast (bs : List Block) : List Block :=
  match bs.getLast? with
  | none => []
  | some b => bs.dropLast ++ [b.firstLines radius]

abbrev Hunk := List Block

/-- Cuts the blocks in the middle of every long kept one; `current` is the
hunk under way, reversed. -/
def groupFrom (current : List Block) : List Block → List Hunk
  | [] =>
    match current with
    | [] => []
    | [b] => if b.kept then [] else [[b]]
    | _ => [current.reverse]
  | b :: rest =>
    if b.kept && 2 * radius < b.oldCount then
      (b.firstLines radius :: current).reverse :: groupFrom [b.lastLines radius] rest
    else groupFrom (b :: current) rest

def hunks (old new : List Line) : List Hunk :=
  groupFrom [] (trimLast (trimFirst (blocks old new)))

/-! ## Text -/

/-- A range of lines, counted from one. One line is shown by its number, and
an empty range by the line in front of it. -/
def rangeText (start finish : Nat) : String :=
  let n := finish - start
  if n = 1 then toString (start + 1)
  else if n = 0 then toString start ++ ",0"
  else toString (start + 1) ++ "," ++ toString n

def Hunk.header (h : Hunk) : String :=
  match h.head?, h.getLast? with
  | some first, some last =>
    "@@ -" ++ rangeText first.old (last.old + last.oldCount) ++
      " +" ++ rangeText first.new (last.new + last.newCount) ++ " @@\n"
  | _, _ => ""

/-- A line with its sign. A line without a break is followed by one, and by
a remark on it. -/
def lineText (sign : String) (l : Line) : String :=
  sign ++ l ++ if l.isComplete then "" else "\n\\ No newline at end of file\n"

def linesText (sign : String) (ls : Array Line) (start count : Nat) : String :=
  String.join ((ls.extract start (start + count)).toList.map (lineText sign))

def Block.text (old new : Array Line) (b : Block) : String :=
  if b.kept then linesText " " old b.old b.oldCount
  else linesText "-" old b.old b.oldCount ++ linesText "+" new b.new b.newCount

def Hunk.text (old new : Array Line) (h : Hunk) : String :=
  h.header ++ String.join (h.map (Block.text old new))

/-- The patch that turns `old` into `new`, under the two names. Equal lists
of lines have an empty patch. -/
def unifiedText (oldName newName : String) (old new : List Line) : String :=
  match hunks old new with
  | [] => ""
  | hs =>
    "--- " ++ oldName ++ "\n+++ " ++ newName ++ "\n" ++
      String.join (hs.map (Hunk.text old.toArray new.toArray))

end Vendoring.Patch
