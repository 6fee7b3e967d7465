import Vendoring.Yaml.Style

/-!
# Scalars as they are written

The text of a scalar behind the `:` or `-` that introduces it, up to and
including the end of its last line. Lines that the scalar itself breaks are
indented by `indent`.
-/

namespace Vendoring.Yaml

def spaces (n : Nat) : List Char := List.replicate n ' '

/-- Between single quotes a quote is written twice, and the first character
behind a line break is indented. -/
def singleQuotedFrom (indent : Nat) (broken : Bool) : List Char → List Char
  | [] => if broken then spaces indent else []
  | c :: rest =>
    if isSpace c then c :: singleQuotedFrom indent broken rest
    else if isBreak c then c :: singleQuotedFrom indent true rest
    else
      (if broken then spaces indent else []) ++ (if c == '\x27' then ['\x27', c] else [c])
        ++ singleQuotedFrom indent false rest

/-- The letter that stands for a character behind a backslash. -/
def escapeLetter? : Char → Option Char
  | '\x00' => some '0'
  | '\x07' => some 'a'
  | '\x08' => some 'b'
  | '\t' => some 't'
  | '\n' => some 'n'
  | '\x0b' => some 'v'
  | '\x0c' => some 'f'
  | '\r' => some 'r'
  | '\x1b' => some 'e'
  | '"' => some '"'
  | '\\' => some '\\'
  | '\u0085' => some 'N'
  | '\u00a0' => some '_'
  | '\u2028' => some 'L'
  | '\u2029' => some 'P'
  | _ => none

/-- Upper-case hexadecimal digits, filled up with zeros to `width`. -/
def hexDigits (width n : Nat) : List Char :=
  let digits := (Nat.toDigits 16 n).map Char.toUpper
  List.replicate (width - digits.length) '0' ++ digits

def escapeSequence (c : Char) : List Char :=
  '\\' :: match escapeLetter? c with
    | some letter => [letter]
    | none =>
      let n := c.toNat
      if n ≤ 0xff then 'x' :: hexDigits 2 n
      else if n ≤ 0xffff then 'u' :: hexDigits 4 n
      else 'U' :: hexDigits 8 n

def doubleQuotedChar (c : Char) : List Char :=
  if !isPrintable c || isBreak c || c == '"' || c == '\\' then escapeSequence c else [c]

/-- The lines of a literal block; `fresh` tells that a line is about to
begin. The last line is ended if it is not yet. -/
def literalFrom (indent : Nat) (fresh : Bool) : List Char → List Char
  | [] => if fresh then [] else ['\n']
  | c :: rest =>
    if isBreak c then c :: literalFrom indent true rest
    else (if fresh then spaces indent else []) ++ c :: literalFrom indent false rest

/-- What the head of a literal block says: the indentation, where the text
does not show it, and what becomes of line breaks at the end. -/
def literalHints (cs : List Char) : List Char :=
  let indentation := if cs.head?.any fun c => isSpace c || isBreak c then ['2'] else []
  let chomping := match cs.reverse with
    | [] => ['-']
    | [last] => if isBreak last then ['+'] else ['-']
    | last :: previous :: _ =>
      if !isBreak last then ['-'] else if isBreak previous then ['+'] else []
  indentation ++ chomping

/-- A scalar with the blank in front of it and the end of its line. -/
def writtenScalar (indent : Nat) (cs : List Char) : List Char :=
  match styleOf cs with
  | .plain => ' ' :: cs ++ ['\n']
  | .singleQuoted => ' ' :: '\x27' :: singleQuotedFrom indent false cs ++ ['\x27', '\n']
  | .literal | .folded =>
    ' ' :: '|' :: literalHints cs ++ '\n' :: literalFrom indent true cs
  | .doubleQuoted => ' ' :: '"' :: cs.flatMap doubleQuotedChar ++ ['"', '\n']

end Vendoring.Yaml
