/-!
# Doubles

The numbers that a double can hold, as a mantissa and a power of two, and
the double nearest to a decimal number. Everything is exact arithmetic on
natural numbers.
-/

namespace Vendoring

/-- The number `mantissa * 2 ^ exponent`. The mantissa has at most 53 bits;
it has fewer only at the least exponent. -/
structure Double where
  mantissa : Nat
  exponent : Int
  deriving DecidableEq, Repr

namespace Double

def leastExponent : Int := -1074

def greatestExponent : Int := 971

/-- `num / den` rounded to an integer; half way between two, the even one. -/
def roundedQuotient (num den : Nat) : Nat :=
  let q := num / den
  let twice := 2 * (num % den)
  if den < twice || (twice == den && q % 2 == 1) then q + 1 else q

/-- The numerator and denominator of `num / den / 2 ^ e`. -/
def scaled (num den : Nat) (e : Int) : Nat × Nat :=
  if 0 ≤ e then (num, den * Nat.pow 2 e.toNat) else (num * Nat.pow 2 (-e).toNat, den)

/-- The double nearest to `num / den`, or none beyond the greatest. -/
def ofRatio? (num den : Nat) : Option Double :=
  if num = 0 then some ⟨0, leastExponent⟩
  else
    let guess := max ((num.log2 : Int) - den.log2 - 53) leastExponent
    let (n, d) := scaled num den guess
    let e := if n / d < Nat.pow 2 53 then guess else guess + 1
    let (n, d) := scaled num den e
    let m := roundedQuotient n d
    let x : Double := if m = Nat.pow 2 53 then ⟨Nat.pow 2 52, e + 1⟩ else ⟨m, e⟩
    if greatestExponent < x.exponent then none else some x

/-- The double nearest to `digits * 10 ^ power`. Numbers far outside the
range of doubles are told by the count of their digits. -/
def ofDecimal? (digits : Nat) (power : Int) : Option Double :=
  let magnitude := ((Nat.toDigits 10 digits).length : Int) + power
  if digits = 0 || magnitude < -330 then some ⟨0, leastExponent⟩
  else if 310 < magnitude then none
  else if 0 ≤ power then ofRatio? (digits * Nat.pow 10 power.toNat) 1
  else ofRatio? digits (Nat.pow 10 (-power).toNat)

end Double

end Vendoring
