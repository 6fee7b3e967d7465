import Vendoring.Decimal.Double

/-!
# Shortest decimals

The fewest digits that read back as a given double. The decimals that read
back are those in an interval around it, ends included when its mantissa is
even. Going from coarse decimal grids to fine ones, the first grid with a
point in the interval wins; of two such points the nearer one, and the upper
one in the middle.
-/

namespace Vendoring

/-- The decimal number `digits * 10 ^ power`. -/
structure Decimal where
  digits : Nat
  power : Int
  deriving DecidableEq, Repr

namespace Double

/-- `mantissa * 2 ^ exponent` and the ends of its interval, in quarters of
the last place: below a power of two the neighbours are closer. -/
def interval (x : Double) : Nat × Nat × Nat :=
  let closer := x.mantissa == Nat.pow 2 52 && leastExponent < x.exponent
  (4 * x.mantissa - (if closer then 1 else 2), 4 * x.mantissa, 4 * x.mantissa + 2)

/-- The two sides of a comparison of `n * 2 ^ e` with `c * 10 ^ p`, as
natural numbers. -/
def sides (n : Nat) (e : Int) (c : Nat) (p : Int) : Nat × Nat :=
  (n * Nat.pow 2 e.toNat * Nat.pow 10 (-p).toNat,
    c * Nat.pow 10 p.toNat * Nat.pow 2 (-e).toNat)

/-- The point `c * 10 ^ p` reads back as `x`. -/
def readsBack (x : Double) (c : Nat) (p : Int) : Bool :=
  let (low, _, high) := x.interval
  let e := x.exponent - 2
  let (a, b) := sides low e c p
  let (h, b') := sides high e c p
  if x.mantissa % 2 == 0 then a ≤ b && b' ≤ h else a < b && b' < h

/-- A point of the grid `10 ^ p` that reads back as `x`. -/
def onGrid? (x : Double) (p : Int) : Option Decimal :=
  let (n, d) := sides (4 * x.mantissa) (x.exponent - 2) 1 p
  let c := n / d
  let below := 0 < c && x.readsBack c p
  let above := x.readsBack (c + 1) p
  if below && (!above || 2 * (n % d) < d) then some ⟨c, p⟩
  else if above then some ⟨c + 1, p⟩
  else none

/-- The first grid with a hit, from `10 ^ p` on to finer ones. -/
def shortestFrom (x : Double) : Nat → Int → Decimal
  | 0, _ => ⟨0, 0⟩
  | fuel + 1, p =>
    match x.onGrid? p with
    | some found => found
    | none => shortestFrom x fuel (p - 1)

/-- From the coarsest grid that can matter to one fine enough for every
double. -/
def shortest (x : Double) : Decimal :=
  if x.mantissa = 0 then ⟨0, 0⟩ else x.shortestFrom 700 310

end Double

namespace Decimal

/-- Positional notation with at least one digit on both sides of the
point. -/
def text (x : Decimal) : String :=
  let digits := Nat.toDigits 10 x.digits
  if 0 ≤ x.power then
    String.ofList (digits ++ List.replicate x.power.toNat '0' ++ ['.', '0'])
  else
    let places := (-x.power).toNat
    let padded := List.replicate (places + 1 - digits.length) '0' ++ digits
    let whole := padded.length - places
    String.ofList (padded.take whole ++ '.' :: padded.drop whole)

end Decimal

end Vendoring
