import Vendoring.Patch.Script

/-!
# Sliding insertions together

An insertion between lines that repeat can stand in several places. Every
insertion is moved up as far as it goes and then down as far as it goes,
and changes that come to stand side by side are joined. Deletions change
places with insertions and are joined, and do not move past kept lines.

A `Piece` is a run with the positions that it was given. A piece that
changes places with its neighbour keeps its positions.
-/

namespace Vendoring.Patch

inductive PieceKind
  | keep
  | delete
  | insert
  deriving DecidableEq, Repr

/-- `count` lines from position `old` of the old list and `new` of the new
one on. -/
structure Piece where
  kind : PieceKind
  old : Nat
  new : Nat
  count : Nat
  deriving DecidableEq, Repr

namespace Piece

def shiftUp (p : Piece) (n : Nat) : Piece := { p with old := p.old - n, new := p.new - n }

def shiftDown (p : Piece) (n : Nat) : Piece := { p with old := p.old + n, new := p.new + n }

def growFront (p : Piece) (n : Nat) : Piece := { p.shiftUp n with count := p.count + n }

def growBack (p : Piece) (n : Nat) : Piece := { p with count := p.count + n }

def shrinkFront (p : Piece) (n : Nat) : Piece := { p.shiftDown n with count := p.count - n }

def shrinkBack (p : Piece) (n : Nat) : Piece := { p with count := p.count - n }

end Piece

/-- Gives every run its positions, from `old` and `new` on. -/
def placeRuns (old new : Nat) : List Run → List Piece
  | [] => []
  | .keep n :: rest => ⟨.keep, old, new, n⟩ :: placeRuns (old + n) (new + n) rest
  | .delete n :: rest => ⟨.delete, old, new, n⟩ :: placeRuns (old + n) new rest
  | .insert n :: rest => ⟨.insert, old, new, n⟩ :: placeRuns old (new + n) rest

/-- A list of pieces seen from one of them. `above` is reversed. -/
structure Focus where
  above : List Piece
  piece : Piece
  below : List Piece

namespace Focus

/-- The lines that the pieces are about. -/
structure Lines where
  old : Array Line
  new : Array Line

def slice (ls : Array Line) (start count : Nat) : List Line :=
  (ls.extract start (start + count)).toList

/-- How many of the last lines of the kept piece `k` are also the last ones
of the inserted piece `p`. -/
def commonEnd (ls : Lines) (k p : Piece) : Nat :=
  agreement (slice ls.old k.old k.count).reverse (slice ls.new p.new p.count).reverse

/-- How many of the first lines of the kept piece `k` are also the first
ones of the inserted piece `p`. -/
def commonStart (ls : Lines) (k p : Piece) : Nat :=
  agreement (slice ls.old k.old k.count) (slice ls.new p.new p.count)

/-- Puts `n` kept lines behind `p`, which is moving up past the end of `k`. -/
def keepBelow (k p : Piece) (n : Nat) : List Piece → List Piece
  | ⟨.keep, old, new, count⟩ :: rest => Piece.growFront ⟨.keep, old, new, count⟩ n :: rest
  | below => ⟨.keep, k.old + k.count - n, p.new + p.count - n, n⟩ :: below

/-- Puts `n` kept lines in front of `p`, which is moving down past the start
of `k`. -/
def keepAbove (k p : Piece) (n : Nat) : List Piece → List Piece
  | ⟨.keep, old, new, count⟩ :: rest => Piece.growBack ⟨.keep, old, new, count⟩ n :: rest
  | above => ⟨.keep, k.old, p.new, n⟩ :: above

/-- Moves the focused piece up, for at most that many steps. -/
def up (ls : Lines) : Nat → Focus → Focus
  | 0, f => f
  | steps + 1, f =>
    match f.above with
    | [] => f
    | q :: above =>
      match f.piece.kind, q.kind with
      | .insert, .keep =>
        let n := commonEnd ls q f.piece
        if n = 0 then f
        else
          let q := q.shrinkBack n
          let above' := if q.count = 0 then above else q :: above
          up ls steps ⟨above', f.piece.shiftUp n, keepBelow (q.growBack n) f.piece n f.below⟩
      | .insert, .delete | .delete, .insert => up ls steps ⟨above, f.piece, q :: f.below⟩
      | .insert, .insert | .delete, .delete =>
        up ls steps ⟨above, q.growBack f.piece.count, f.below⟩
      | _, _ => f

/-- Moves the focused piece down, for at most that many steps. -/
def down (ls : Lines) : Nat → Focus → Focus
  | 0, f => f
  | steps + 1, f =>
    match f.below with
    | [] => f
    | q :: below =>
      match f.piece.kind, q.kind with
      | .insert, .keep =>
        let n := commonStart ls q f.piece
        if n = 0 then f
        else
          let q' := q.shrinkFront n
          let below' := if q'.count = 0 then below else q' :: below
          down ls steps ⟨keepAbove q f.piece n f.above, f.piece.shiftDown n, below'⟩
      | .insert, .delete | .delete, .insert => down ls steps ⟨q :: f.above, f.piece, below⟩
      | .insert, .insert | .delete, .delete =>
        down ls steps ⟨f.above, f.piece.growBack q.count, below⟩
      | _, _ => f

end Focus

/-- Slides every piece of one kind, from the first on; `done` is reversed.
A step of a piece uses up a kept line or passes a piece. -/
def slideKind (ls : Focus.Lines) (kind : PieceKind) (steps : Nat) :
    Nat → List Piece → List Piece → List Piece
  | 0, done, todo => done.reverse ++ todo
  | _ + 1, done, [] => done.reverse
  | n + 1, done, p :: todo =>
    if p.kind = kind then
      let f := Focus.down ls steps (Focus.up ls steps ⟨done, p, todo⟩)
      slideKind ls kind steps n (f.piece :: f.above) f.below
    else slideKind ls kind steps n (p :: done) todo

/-- First deletions, then insertions. -/
def slide (old new : List Line) (pieces : List Piece) : List Piece :=
  let ls : Focus.Lines := ⟨old.toArray, new.toArray⟩
  let steps := old.length + new.length + 2 * pieces.length + 2
  let passes := 2 * (old.length + new.length + pieces.length) + 2
  slideKind ls .insert steps passes [] (slideKind ls .delete steps passes [] pieces)

end Vendoring.Patch
