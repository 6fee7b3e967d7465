import Vendoring.Yaml.Cursor
import Vendoring.Yaml.Value

/-!
# The style of a scalar

A text is written plainly where that reads back as the same text. What
plain scalars cannot hold goes between single quotes, text with line feeds
into a literal block, and what neither can hold between double quotes.
-/

namespace Vendoring.Yaml

/-- Characters that are written as they are outside double quotes. -/
def isPrintable (c : Char) : Bool :=
  let n := c.toNat
  n == 0x0a || (0x20 ≤ n && n ≤ 0x7e) || (0xa0 ≤ n && n ≤ 0xd7ff)
    || (0xe000 ≤ n && n ≤ 0xfffd && n != 0xfeff) || 0x10000 ≤ n

/-- Indicators that begin no plain scalar. -/
def isReserved (c : Char) : Bool :=
  "#,[]\x7b\x7d&*!|>\x27\"%@\x60".toList.contains c

/-- The text begins like the line between two documents. -/
def startsLikeDocument (cs : List Char) : Bool :=
  ['-', '-', '-'].isPrefixOf cs || ['.', '.', '.'].isPrefixOf cs

/-- The first character, followed by `next`, would be taken for
punctuation. -/
def opensStructure (c : Char) (next : Option Char) : Bool :=
  isReserved c || ((c == '?' || c == ':' || c == '-') && endsWord next)

/-- Somewhere behind its first character `previous`, the text holds a colon
in front of a blank or a comment sign behind one. -/
def holdsStructure (previous : Char) : List Char → Bool
  | [] => false
  | c :: rest =>
    (c == ':' && endsWord rest.head?) || (c == '#' && endsWord (some previous))
      || holdsStructure c rest

def hasIndicators (cs : List Char) : Bool :=
  startsLikeDocument cs || match cs with
    | [] => false
    | c :: rest => opensStructure c rest.head? || holdsStructure c rest

/-- Two neighbours with `p` on the left and `q` on the right. -/
def hasNeighbours (p q : Char → Bool) : List Char → Bool
  | a :: b :: rest => (p a && q b) || hasNeighbours p q (b :: rest)
  | _ => false

def isSpace (c : Char) : Bool := c == ' '

/-- A space in front of a line break, or a character that must be
escaped. -/
def needsEscapes (cs : List Char) : Bool :=
  hasNeighbours isSpace isBreak cs || cs.any fun c => !isPrintable c

def allowsPlain (cs : List Char) : Bool :=
  let edge (c : Option Char) : Bool := c.any fun c => isSpace c || isBreak c
  !(edge cs.head? || edge cs.getLast? || cs.any isBreak || needsEscapes cs || hasIndicators cs)

def allowsSingleQuotes (cs : List Char) : Bool :=
  !(hasNeighbours isBreak isSpace cs || needsEscapes cs)

def allowsLiteral (cs : List Char) : Bool :=
  !(cs.isEmpty || cs.getLast?.any isSpace || needsEscapes cs)

/-- A plain scalar with this text would stand for something else, or is made
of digits behind a leading zero. -/
def readsAsOther (cs : List Char) : Bool :=
  isZeroPadded cs || match Value.ofPlain cs with
    | .text _ => false
    | _ => true

/-- The style in which a text is written. -/
def styleOf (cs : List Char) : ScalarStyle :=
  if cs.contains '\n' then
    if allowsLiteral cs then .literal else .doubleQuoted
  else if !readsAsOther cs && allowsPlain cs then .plain
  else if allowsSingleQuotes cs then .singleQuoted
  else .doubleQuoted

end Vendoring.Yaml
