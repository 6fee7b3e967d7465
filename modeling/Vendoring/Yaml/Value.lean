import Vendoring.Yaml.Event
import Vendoring.Decimal.Shortest
import Vendoring.Text.Quoted

/-!
# Values of scalars

What a plain scalar stands for: nothing, a truth value, a number, or its own
text. Digits behind a leading zero are text, and so is a number too large
for a double.
-/

namespace Vendoring.Yaml

/-- A finite number keeps its sign beside its magnitude, since zero has one
too. -/
inductive Number
  | finite (negative : Bool) (magnitude : Double)
  | infinite (negative : Bool)
  | notANumber
  deriving DecidableEq, Repr

inductive Value
  | unit
  | boolean (b : Bool)
  | integer (n : Int)
  | floating (x : Number)
  | text (s : List Char)
  deriving DecidableEq, Repr

/-! ## Integers -/

def radixDigit? (radix : Nat) (c : Char) : Option Nat :=
  (hexValue? c).filter (· < radix)

/-- A number in some radix: at least one digit and nothing else. -/
def natural? (radix : Nat) (cs : List Char) : Option Nat :=
  if cs.isEmpty then none
  else cs.foldl (fun acc c => do return (← acc) * radix + (← radixDigit? radix c)) (some 0)

/-- Several digits that start with a zero, behind an optional sign. -/
def isZeroPadded (cs : List Char) : Bool :=
  let body := match cs with
    | '-' :: rest => rest
    | '+' :: rest => rest
    | _ => cs
  1 < body.length && body.head? == some '0' && body.all Char.isDigit

/-- The number written in `cs`, in the radix that its beginning names. -/
def radixNatural? (cs : List Char) : Option Nat :=
  match cs with
  | '0' :: 'x' :: rest => natural? 16 rest
  | '0' :: 'o' :: rest => natural? 8 rest
  | '0' :: 'b' :: rest => natural? 2 rest
  | _ => if isZeroPadded cs then none else natural? 10 cs

/-- Integers of at most 128 bits, with a sign or without. -/
def integer? (cs : List Char) : Option Int :=
  match cs with
  | '-' :: rest =>
    (radixNatural? rest).bind fun n => if n ≤ Nat.pow 2 127 then some (-(n : Int)) else none
  | '+' :: rest => natural rest
  | _ => natural cs
where
  natural (cs : List Char) : Option Int :=
    (radixNatural? cs).bind fun n => if n < Nat.pow 2 128 then some (n : Int) else none

/-! ## Floating point numbers -/

/-- The exponent behind an `e`, or zero where there is none. -/
def exponent? (cs : List Char) : Option Int :=
  match cs with
  | [] => some 0
  | e :: rest =>
    if e == 'e' || e == 'E' then
      match rest with
      | '-' :: digits => (natural? 10 digits).map fun n => -(n : Int)
      | '+' :: digits => (natural? 10 digits).map fun n => (n : Int)
      | digits => (natural? 10 digits).map fun n => (n : Int)
    else none

/-- A decimal number without sign: digits with an optional point among
them, at least one of them, and an optional exponent. -/
def magnitude? (cs : List Char) : Option Double :=
  let whole := cs.takeWhile Char.isDigit
  let rest := cs.dropWhile Char.isDigit
  let (fraction, rest) := match rest with
    | '.' :: rest => (rest.takeWhile Char.isDigit, rest.dropWhile Char.isDigit)
    | _ => ([], rest)
  do
    let digits ← natural? 10 (whole ++ fraction)
    let e ← exponent? rest
    Double.ofDecimal? digits (e - fraction.length)

def isOneOf (cs : List Char) (words : List String) : Bool :=
  words.any fun w => w.toList == cs

/-- A finite number, an infinity or the absence of a number. -/
def floating? (cs : List Char) : Option Number :=
  if isOneOf cs [".inf", ".Inf", ".INF", "+.inf", "+.Inf", "+.INF"] then
    some (.infinite false)
  else if isOneOf cs ["-.inf", "-.Inf", "-.INF"] then some (.infinite true)
  else if isOneOf cs [".nan", ".NaN", ".NAN"] then some .notANumber
  else match cs with
    | '-' :: rest => (magnitude? rest).map (.finite true)
    | '+' :: rest => (magnitude? rest).map (.finite false)
    | _ => (magnitude? cs).map (.finite false)

/-! ## Plain scalars -/

def isNull (cs : List Char) : Bool :=
  isOneOf cs ["null", "Null", "NULL", "~"]

def boolean? (cs : List Char) : Option Bool :=
  if isOneOf cs ["true", "True", "TRUE"] then some true
  else if isOneOf cs ["false", "False", "FALSE"] then some false
  else none

def Value.ofPlain (cs : List Char) : Value :=
  if cs.isEmpty || isNull cs then .unit
  else match boolean? cs with
    | some b => .boolean b
    | none =>
      match integer? cs with
      | some n => .integer n
      | none =>
        match if isZeroPadded cs then none else floating? cs with
        | some x => .floating x
        | none => .text cs

/-! ## Tagged scalars -/

/-- What the tag of a scalar promises and its text does not keep. -/
inductive Promise
  | boolean
  | integer
  | floating
  | unit
  deriving DecidableEq, Repr

def Promise.message : Promise → String
  | .boolean => "a boolean"
  | .integer => "an integer"
  | .floating => "a float"
  | .unit => "null"

def promise? (tag : List Char) : Option Promise :=
  if tag == "tag:yaml.org,2002:bool".toList then some .boolean
  else if tag == "tag:yaml.org,2002:int".toList then some .integer
  else if tag == "tag:yaml.org,2002:float".toList then some .floating
  else if tag == "tag:yaml.org,2002:null".toList then some .unit
  else none

/-- The value that keeps the promise. -/
def Promise.value? (cs : List Char) : Promise → Option Value
  | .boolean => (boolean? cs).map .boolean
  | .integer => (integer? cs).map .integer
  | .floating => (floating? cs).map .floating
  | .unit => if isNull cs then some .unit else none

/-- The value of a scalar, or the promise that its tag breaks. A tag of the
document itself leaves a plain scalar as it is; with any other tag, and in
quotes, a scalar is text. -/
def Scalar.value (s : Scalar) : Except Promise Value :=
  let untagged := if s.style == .plain then Value.ofPlain s.text else .text s.text
  match s.tag with
  | none => .ok untagged
  | some tag =>
    match promise? tag with
    | some p =>
      match p.value? s.text with
      | some v => .ok v
      | none => .error p
    | none => .ok (if tag.head? == some '!' then untagged else .text s.text)

/-! ## Values in messages -/

def signText (negative : Bool) : String := if negative then "-" else ""

def Number.text : Number → String
  | .finite negative x => signText negative ++ x.shortest.text
  | .infinite negative => signText negative ++ "inf"
  | .notANumber => "NaN"

/-- Integers beyond 64 bits are shown with the wider type that holds
them. -/
def integerText (n : Int) : String :=
  "integer `" ++ toString n ++ "`" ++
    if (Nat.pow 2 64 : Int) ≤ n then " as u128"
    else if n < -(Nat.pow 2 63 : Int) then " as i128"
    else ""

def Value.description : Value → String
  | .unit => "unit value"
  | .boolean b => "boolean `" ++ toString b ++ "`"
  | .integer n => integerText n
  | .floating x => "floating point `" ++ x.text ++ "`"
  | .text s => "string " ++ quoted (String.ofList s)

end Vendoring.Yaml
