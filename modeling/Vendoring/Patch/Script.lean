import Vendoring.Patch.Line

/-!
# Edit scripts

How one list of lines becomes another: runs of lines kept, deleted and
inserted. The lists are split where a shortest script must pass
(`middle?`), and the parts are treated on their own.

The split is found by two searches that meet. A search goes along diagonals,
the positions with equal difference between the lines used on both sides,
and notes how far each diagonal has been reached with a given number of
changes. Lines that agree are passed for free.
-/

namespace Vendoring.Patch

inductive Run
  | keep (count : Nat)
  | delete (count : Nat)
  | insert (count : Nat)
  deriving DecidableEq, Repr

/-- How many lines agree at the front. -/
def agreement : List Line → List Line → Nat
  | a :: as, b :: bs => if a == b then agreement as bs + 1 else 0
  | _, _ => 0

/-! ## The middle of a script -/

/-- How far a search has come on every diagonal, counted in old lines. -/
structure Front where
  offset : Nat
  reach : Array Nat

namespace Front

def start (bound : Nat) : Front :=
  ⟨bound + 1, Array.replicate (2 * bound + 3) 0⟩

def get (f : Front) (k : Int) : Nat :=
  f.reach.getD (k + f.offset).toNat 0

def set (f : Front) (k : Int) (x : Nat) : Front :=
  { f with reach := f.reach.setIfInBounds (k + f.offset).toNat x }

/-- Where the search enters diagonal `k` with `d` changes: from the diagonal
above or below, whichever is farther. -/
def entry (f : Front) (d k : Int) : Nat :=
  if k == -d || (k != d && f.get (k - 1) < f.get (k + 1)) then f.get (k + 1)
  else f.get (k - 1) + 1

end Front

/-- How many lines agree from positions `x` and `y` on; `bound` is at least
that number. -/
def agreementAt (old new : Array Line) : Nat → Nat → Nat → Nat
  | 0, _, _ => 0
  | bound + 1, x, y =>
    match old[x]?, new[y]? with
    | some a, some b => if a == b then agreementAt old new bound (x + 1) (y + 1) + 1 else 0
    | _, _ => 0

/-- The diagonals that `d` changes lead to, the last one first. -/
def diagonals (d : Nat) : List Int :=
  (List.range (d + 1)).map fun i : Nat => (d : Int) - 2 * (i : Int)

/-- Both searches, from the front and from the back of the same lists. -/
structure Search where
  old : Array Line
  new : Array Line
  oldBack : Array Line
  newBack : Array Line

namespace Search

def ofLists (old new : List Line) : Search :=
  ⟨old.toArray, new.toArray, old.reverse.toArray, new.reverse.toArray⟩

def delta (s : Search) : Int := (s.old.size : Int) - s.new.size

def isOdd (s : Search) : Bool := s.delta % 2 != 0

/-- Both fronts together cover the old lines on the diagonal that is `k` for
the first and `delta - k` for the second. -/
def meets (s : Search) (near far : Front) (k : Int) : Bool :=
  s.old.size ≤ near.get k + far.get (s.delta - k)

/-- Goes on from the front of the lists along the given diagonals. A meeting
is where the free run on its diagonal began. -/
def advance (s : Search) (d : Nat) (back : Front) :
    List Int → Front → Front × Option (Nat × Nat)
  | [], front => (front, none)
  | k :: ks, front =>
    let x := front.entry d k
    let y := ((x : Int) - k).toNat
    let front := front.set k (x + agreementAt s.old s.new s.old.size x y)
    if s.isOdd && (k - s.delta).natAbs + 1 ≤ d && s.meets front back k then
      (front, some (x, y))
    else s.advance d back ks front

/-- Goes on from the back of the lists. A meeting is where the free run on
its diagonal ended. -/
def retreat (s : Search) (d : Nat) (front : Front) :
    List Int → Front → Front × Option (Nat × Nat)
  | [], back => (back, none)
  | k :: ks, back =>
    let x := back.entry d k
    let y := ((x : Int) - k).toNat
    let free := agreementAt s.oldBack s.newBack s.old.size x y
    let back := back.set k (x + free)
    if !s.isOdd && (k - s.delta).natAbs ≤ d && s.meets back front k then
      (back, some (s.old.size - (x + free), s.new.size - (y + free)))
    else s.retreat d front ks back

/-- Both searches in turn, with `d` changes and more. -/
def meeting? (s : Search) : Nat → Nat → Front → Front → Option (Nat × Nat)
  | 0, _, _, _ => none
  | rounds + 1, d, front, back =>
    match s.advance d back (diagonals d) front with
    | (_, some spot) => some spot
    | (front, none) =>
      match s.retreat d front (diagonals d) back with
      | (_, some spot) => some spot
      | (back, none) => s.meeting? rounds (d + 1) front back

end Search

/-- How many lines of both sides come before the middle of a shortest
script. -/
def middle? (old new : List Line) : Option (Nat × Nat) :=
  let bound := (old.length + new.length + 1) / 2 + 1
  (Search.ofLists old new).meeting? bound 0 (Front.start bound) (Front.start bound)

/-! ## The script -/

def nonempty (r : Nat → Run) (count : Nat) : List Run :=
  if count = 0 then [] else [r count]

/-- The script between two lists. What agrees in front and behind is kept;
the rest is split, as long as that makes it smaller. -/
def scriptUpTo : Nat → List Line → List Line → List Run
  | 0, old, new => nonempty .delete old.length ++ nonempty .insert new.length
  | depth + 1, old, new =>
    let front := agreement old new
    let old := old.drop front
    let new := new.drop front
    let back := agreement old.reverse new.reverse
    let old := old.take (old.length - back)
    let new := new.take (new.length - back)
    let between :=
      if old.isEmpty || new.isEmpty then
        nonempty .delete old.length ++ nonempty .insert new.length
      else match middle? old new with
        | some (x, y) =>
          if x + y = 0 || old.length + new.length ≤ x + y then
            nonempty .delete old.length ++ nonempty .insert new.length
          else
            scriptUpTo depth (old.take x) (new.take y)
              ++ scriptUpTo depth (old.drop x) (new.drop y)
        | none => nonempty .delete old.length ++ nonempty .insert new.length
    nonempty .keep front ++ between ++ nonempty .keep back

/-- Every split leaves fewer lines on both sides. -/
def script (old new : List Line) : List Run :=
  scriptUpTo (old.length + new.length) old new

end Vendoring.Patch
