import Vendoring.Yaml.Mark

/-!
# Cursors

A cursor is what is left of a text, with the mark of its first character.
Everything that reads a text takes a cursor and gives back the cursor
behind what it has read. Beside the carriage return and the line feed,
three characters of Unicode end a line.
-/

namespace Vendoring.Yaml

def isBreak (c : Char) : Bool :=
  c == '\n' || c == '\r' || c == '\u0085' || c == '\u2028' || c == '\u2029'

def isBlank (c : Char) : Bool :=
  c == ' ' || c == '\t'

/-- Letters of names: ASCII letters, digits, `_` and `-`. -/
def isWordChar (c : Char) : Bool :=
  c.isAlphanum || c == '_' || c == '-'

/-- A line break or the end of the text. -/
def endsLine : Option Char → Bool
  | none => true
  | some c => isBreak c

/-- A blank, a line break or the end of the text. -/
def endsWord : Option Char → Bool
  | none => true
  | some c => isBlank c || isBreak c

def hexValue? (c : Char) : Option Nat :=
  if c.isDigit then some (c.toNat - '0'.toNat)
  else if 'a' ≤ c ∧ c ≤ 'f' then some (c.toNat - 'a'.toNat + 10)
  else if 'A' ≤ c ∧ c ≤ 'F' then some (c.toNat - 'A'.toNat + 10)
  else none

structure Cursor where
  rest : List Char
  mark : Mark
  deriving Repr

namespace Cursor

def peek (c : Cursor) : Option Char := c.rest.head?

def peekAt (c : Cursor) (n : Nat) : Option Char := c.rest[n]?

def looksAt (c : Cursor) (ch : Char) : Bool := c.peek == some ch

def atBlank (c : Cursor) : Bool := c.peek.any isBlank

def atBreak (c : Cursor) : Bool := c.peek.any isBreak

def atEnd (c : Cursor) : Bool := c.rest.isEmpty

/-- Steps over one character of the line; stays at the end. -/
def skip (c : Cursor) : Cursor :=
  match c.rest with
  | [] => c
  | _ :: rest => ⟨rest, c.mark.step⟩

def skipMany : Nat → Cursor → Cursor
  | 0, c => c
  | n + 1, c => skipMany n c.skip

/-- The line break at the cursor as it is kept in a scalar, and the cursor
behind it. A carriage return, with or without a line feed, and the next
line character count as a line feed. -/
def takeBreak (c : Cursor) : List Char × Cursor :=
  match c.rest with
  | '\r' :: '\n' :: rest => (['\n'], ⟨rest, c.mark.nextLine 2⟩)
  | ch :: rest =>
    if ch == '\u2028' || ch == '\u2029' then ([ch], ⟨rest, c.mark.nextLine 1⟩)
    else if isBreak ch then (['\n'], ⟨rest, c.mark.nextLine 1⟩)
    else ([], c)
  | [] => ([], c)

def skipBreak (c : Cursor) : Cursor := c.takeBreak.2

/-- The characters up to the first one that fails `p`, and the cursor
there. -/
def spanFrom (p : Char → Bool) : List Char → Mark → List Char × Cursor
  | [], mark => ([], ⟨[], mark⟩)
  | ch :: rest, mark =>
    if p ch then
      let (taken, c) := spanFrom p rest mark.step
      (ch :: taken, c)
    else ([], ⟨ch :: rest, mark⟩)

def span (p : Char → Bool) (c : Cursor) : List Char × Cursor :=
  spanFrom p c.rest c.mark

def skipWhile (p : Char → Bool) (c : Cursor) : Cursor := (c.span p).2

/-- Skips blanks and a comment, up to the end of the line. -/
def skipComment (c : Cursor) : Cursor :=
  if c.looksAt '#' then c.skipWhile fun ch => !isBreak ch else c

/-- Three equal characters `ch` at the start of a line, followed by a blank,
a line break or the end. -/
def atTriple (c : Cursor) (ch : Char) : Bool :=
  c.mark.column == 0 && c.peek == some ch && c.peekAt 1 == some ch
    && c.peekAt 2 == some ch && endsWord (c.peekAt 3)

/-- At a line that separates documents. -/
def atDocumentIndicator (c : Cursor) : Bool :=
  c.atTriple '-' || c.atTriple '.'

end Cursor

end Vendoring.Yaml
