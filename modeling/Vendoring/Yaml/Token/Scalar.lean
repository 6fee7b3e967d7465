import Vendoring.Yaml.Cursor
import Vendoring.Yaml.Problem
import Vendoring.Yaml.Token

/-!
# Scalars in a text

The five ways to write a scalar, each read from a cursor that stands on its
first character. Between the words of a scalar that runs over several lines
stands a `Gap`: a single line break folds into a space, and further breaks
are kept.
-/

namespace Vendoring.Yaml

/-- The blanks and line breaks between two words. `spaces` counts only
while there is no break. -/
structure Gap where
  spaces : List Char := []
  firstBreak : List Char := []
  furtherBreaks : List Char := []
  broken : Bool := false
  deriving Repr

/-- What a gap contributes to the scalar. -/
def Gap.text (g : Gap) : List Char :=
  if g.broken then
    if g.firstBreak == ['\n'] then
      if g.furtherBreaks.isEmpty then [' '] else g.furtherBreaks
    else g.firstBreak ++ g.furtherBreaks
  else g.spaces

/-- A fault at the cursor, in `context` that began at `start`. -/
def faultAt {α : Type} (c : Cursor) (f : Fault) (context : Context) (start : Mark) :
    Except Problem α :=
  .error (.fault f c.mark (some (context, start)))

/-- Reads a gap. With `limit`, a tab left of that column after a line break
is a fault, whose mark is given back. -/
def takeGap (limit : Option Int) : Nat → Gap → Cursor → Except Mark (Gap × Cursor)
  | 0, g, c => .ok (g, c)
  | fuel + 1, g, c =>
    if c.atBlank then
      if g.broken && c.looksAt '\t' && limit.any (fun n => (c.mark.column : Int) < n) then
        .error c.mark
      else if g.broken then takeGap limit fuel g c.skip
      else takeGap limit fuel { g with spaces := g.spaces ++ c.rest.take 1 } c.skip
    else if c.atBreak then
      let (text, next) := c.takeBreak
      if g.broken then
        takeGap limit fuel { g with furtherBreaks := g.furtherBreaks ++ text } next
      else
        takeGap limit fuel { g with spaces := [], firstBreak := text, broken := true } next
    else .ok (g, c)

/-! ## Quoted scalars -/

/-- The characters that one letter stands for behind a backslash. -/
def escaped? : Char → Option Char
  | '0' => some '\x00'
  | 'a' => some '\x07'
  | 'b' => some '\x08'
  | 't' => some '\t'
  | '\t' => some '\t'
  | 'n' => some '\n'
  | 'v' => some '\x0b'
  | 'f' => some '\x0c'
  | 'r' => some '\r'
  | 'e' => some '\x1b'
  | ' ' => some ' '
  | '"' => some '"'
  | '/' => some '/'
  | '\\' => some '\\'
  | 'N' => some '\u0085'
  | '_' => some '\u00a0'
  | 'L' => some '\u2028'
  | 'P' => some '\u2029'
  | _ => none

/-- How many hexadecimal digits follow the letter of a numeric escape. -/
def escapeDigits? : Char → Option Nat
  | 'x' => some 2
  | 'u' => some 4
  | 'U' => some 8
  | _ => none

/-- The value of `n` hexadecimal digits. -/
def hexNumber? (n : Nat) (cs : List Char) : Option Nat :=
  if cs.length < n then none
  else (cs.take n).foldl (fun acc c => do return (← acc) * 16 + (← hexValue? c)) (some 0)

/-- Reads an escape whose backslash is at the cursor. -/
def takeEscape (start : Mark) (c : Cursor) : Except Problem (Char × Cursor) :=
  match c.peekAt 1 with
  | none => faultAt c .unknownEscape .escape start
  | some letter =>
    let body := c.skipMany 2
    match escaped? letter, escapeDigits? letter with
    | some ch, _ => .ok (ch, body)
    | none, none => faultAt c .unknownEscape .escape start
    | none, some n =>
      match hexNumber? n body.rest with
      | none => faultAt body .hexDigitExpected .escape start
      | some value =>
        if value.isValidChar then .ok (Char.ofNat value, body.skipMany n)
        else faultAt body .invalidEscapeCode .escape start

/-- Reads the words up to a blank, a line break or the closing quote.
`acc` is reversed. The flag tells that a backslash ended the line. -/
def takeQuotedWord (quote : Char) (start : Mark) :
    Nat → List Char → Cursor → Except Problem (List Char × Bool × Cursor)
  | 0, acc, c => .ok (acc, false, c)
  | fuel + 1, acc, c =>
    match c.rest with
    | [] => .ok (acc, false, c)
    | ch :: rest =>
      if isBlank ch || isBreak ch then .ok (acc, false, c)
      else if quote == '\x27' && ch == '\x27' && rest.head? == some '\x27' then
        takeQuotedWord quote start fuel ('\x27' :: acc) (c.skipMany 2)
      else if ch == quote then .ok (acc, false, c)
      else if quote == '"' && ch == '\\' then
        if rest.head?.any isBreak then .ok (acc, true, c.skip.skipBreak)
        else do
          let (written, next) ← takeEscape start c
          takeQuotedWord quote start fuel (written :: acc) next
      else takeQuotedWord quote start fuel (ch :: acc) c.skip

/-- Reads words and gaps up to the closing quote. The number is greater than
that of the characters left, and stays so, since every turn takes one. -/
def takeQuoted (quote : Char) (start : Mark) :
    Nat → List Char → Cursor → Except Problem (List Char × Cursor)
  | 0, _, c => faultAt c .endInQuotes .quotedScalar start
  | fuel + 1, acc, c => do
    if c.atDocumentIndicator then
      faultAt c .documentIndicatorInQuotes .quotedScalar start
    else if c.atEnd then faultAt c .endInQuotes .quotedScalar start
    else
      let (acc, lineEscaped, c) ← takeQuotedWord quote start (fuel + 1) acc c
      if c.looksAt quote then return (acc.reverse, c.skip)
      else
        match takeGap none (fuel + 1) { broken := lineEscaped } c with
        | .error _ => takeQuoted quote start fuel acc c
        | .ok (gap, c) => takeQuoted quote start fuel (gap.text.reverse ++ acc) c

/-- A quoted scalar, the opening quote at the cursor. -/
def quotedScalar (c : Cursor) (single : Bool) : Except Problem (Token × Cursor) := do
  let quote := if single then '\x27' else '"'
  let (text, finish) ← takeQuoted quote c.mark (c.rest.length + 1) [] c.skip
  let style := if single then ScalarStyle.singleQuoted else .doubleQuoted
  return (⟨.scalar text style, c.mark, finish.mark⟩, finish)

/-! ## Plain scalars -/

def isFlowIndicator (c : Char) : Bool :=
  c == ',' || c == '[' || c == ']' || c == '{' || c == '}'

/-- Reads the characters of one word of a plain scalar; `acc` is
reversed. -/
def takePlainWord (flow : Bool) (start : Mark) :
    Nat → List Char → Cursor → Except Problem (List Char × Cursor)
  | 0, acc, c => .ok (acc, c)
  | fuel + 1, acc, c =>
    match c.rest with
    | [] => .ok (acc, c)
    | ch :: rest =>
      let next := rest.head?
      if isBlank ch || isBreak ch then .ok (acc, c)
      else if flow && ch == ':' && next.any (fun d => isFlowIndicator d || d == '?') then
        faultAt c .unexpectedColon .plainScalar start
      else if (ch == ':' && endsWord next) || (flow && isFlowIndicator ch) then .ok (acc, c)
      else takePlainWord flow start fuel (ch :: acc) c.skip

/-- A plain scalar under way: its text so far, reversed, the gap that
follows it, the mark behind its last word, and where reading stands. -/
structure PlainRun where
  text : List Char
  gap : Gap
  finish : Mark
  cursor : Cursor

/-- Reads words and gaps up to the end of the scalar, with a bound on the
characters left as in `takeQuoted`. -/
def takePlain (flow : Bool) (indent : Int) (start : Mark) :
    Nat → PlainRun → Except Problem PlainRun
  | 0, run => .ok run
  | fuel + 1, run => do
    let c := run.cursor
    if c.atDocumentIndicator || c.looksAt '#' then return run
    let (word, c) ← takePlainWord flow start (fuel + 1) [] c
    let run : PlainRun :=
      if word.isEmpty then run
      else ⟨word ++ (run.gap.text.reverse ++ run.text), {}, c.mark, c⟩
    if !(c.atBlank || c.atBreak) then return run
    match takeGap (some indent) (fuel + 1) {} c with
    | .error mark =>
      .error (.fault .tabViolatesIndentation mark (some (.plainScalar, start)))
    | .ok (gap, c) =>
      let run := { run with gap := gap, cursor := c }
      if !flow && (c.mark.column : Int) < indent then return run
      takePlain flow indent start fuel run

/-- A plain scalar at the cursor, in a block indented by `indent`. The flag
tells that it ended with a line break, behind which a key may start. -/
def plainScalar (c : Cursor) (flow : Bool) (indent : Int) :
    Except Problem (Token × Bool × Cursor) := do
  let run ← takePlain flow (indent + 1) c.mark (c.rest.length + 1) ⟨[], {}, c.mark, c⟩
  return (⟨.scalar run.text.reverse .plain, c.mark, run.finish⟩, run.gap.broken, run.cursor)

/-! ## Block scalars -/

/-- What becomes of the line breaks at the end of a block scalar. -/
inductive Chomping
  | strip
  | clip
  | keep
  deriving DecidableEq, Repr

def takeChomping (c : Cursor) : Option Chomping × Cursor :=
  if c.looksAt '+' then (some .keep, c.skip)
  else if c.looksAt '-' then (some .strip, c.skip)
  else (none, c)

/-- An indentation of one to nine columns; zero is a fault. -/
def takeIndentation (start : Mark) (c : Cursor) : Except Problem (Option Nat × Cursor) :=
  match c.peek with
  | some ch =>
    if ch == '0' then faultAt c .zeroIndentation .blockScalar start
    else if ch.isDigit then .ok (some (ch.toNat - '0'.toNat), c.skip)
    else .ok (none, c)
  | none => .ok (none, c)

/-- The two indicators, in either order. -/
def takeBlockHeader (start : Mark) (c : Cursor) :
    Except Problem (Chomping × Option Nat × Cursor) := do
  match takeChomping c with
  | (some chomping, c) =>
    let (indentation, c) ← takeIndentation start c
    return (chomping, indentation, c)
  | (none, c) =>
    let (indentation, c) ← takeIndentation start c
    match indentation with
    | none => return (.clip, none, c)
    | some _ =>
      let (chomping, c) := takeChomping c
      return (chomping.getD .clip, indentation, c)

/-- The lines that hold no text before the next line that does: their
breaks, the deepest column reached, and the end of the last of them. -/
structure EmptyLines where
  breaks : List Char
  deepest : Nat
  finish : Mark
  cursor : Cursor

/-- Reads empty lines. Without `indent` every space in front is
indentation. -/
def takeEmptyLines (indent : Option Nat) (start : Mark) :
    Nat → EmptyLines → Except Problem EmptyLines
  | 0, lines => .ok lines
  | fuel + 1, lines => do
    let inside (c : Cursor) : Bool := indent.all fun n => c.mark.column < n
    let spaces := (lines.cursor.span (· == ' ')).1.length
    let room := match indent with
      | none => spaces
      | some n => min spaces (n - lines.cursor.mark.column)
    let c := lines.cursor.skipMany room
    let lines := { lines with deepest := max lines.deepest c.mark.column, cursor := c }
    if inside c && c.looksAt '\t' then faultAt c .tabInIndentation .blockScalar start
    else if c.atBreak then
      let (text, next) := c.takeBreak
      takeEmptyLines indent start fuel
        { lines with breaks := lines.breaks ++ text, finish := next.mark, cursor := next }
    else return lines

/-- A block scalar under way. `text` is reversed; `lastBreak` ended the last
line, and the breaks of empty lines behind it are in `lines`. -/
structure BlockRun where
  text : List Char
  lastBreak : List Char
  afterBlank : Bool
  lines : EmptyLines

/-- Reads the lines indented by `indent`. In a folded scalar the break
between two lines that both start with a word turns into a space, or into
nothing where empty lines follow. -/
def takeBlockLines (folded : Bool) (indent : Nat) (start : Mark) :
    Nat → BlockRun → Except Problem BlockRun
  | 0, run => .ok run
  | fuel + 1, run => do
    let c := run.lines.cursor
    if c.mark.column != indent || c.atEnd then return run
    let blank := c.atBlank
    let joint :=
      if folded && run.lastBreak == ['\n'] && !run.afterBlank && !blank then
        if run.lines.breaks.isEmpty then [' '] else run.lines.breaks
      else run.lastBreak ++ run.lines.breaks
    let (line, c) := c.span fun ch => !isBreak ch
    let (lastBreak, c) := c.takeBreak
    let lines ← takeEmptyLines (some indent) start (c.rest.length + 1) ⟨[], 0, c.mark, c⟩
    takeBlockLines folded indent start fuel
      ⟨line.reverse ++ (joint.reverse ++ run.text), lastBreak, blank, lines⟩

/-- A block scalar, its indicator at the cursor, in a block indented by
`parent`. -/
def blockScalar (c : Cursor) (folded : Bool) (parent : Int) :
    Except Problem (Token × Cursor) := do
  let start := c.mark
  let (chomping, indentation, c) ← takeBlockHeader start c.skip
  let c := (c.skipWhile isBlank).skipComment
  if !endsLine c.peek then faultAt c .commentOrBreakExpected .blockScalar start
  let c := c.skipBreak
  let given := indentation.map fun n => (max parent 0).toNat + n
  let lines ← takeEmptyLines given start (c.rest.length + 1) ⟨[], 0, c.mark, c⟩
  let indent := given.getD (max (max lines.deepest (parent + 1).toNat) 1)
  let run ← takeBlockLines folded indent start (c.rest.length + 1) ⟨[], [], false, lines⟩
  let tail := match chomping with
    | .strip => []
    | .clip => run.lastBreak
    | .keep => run.lastBreak ++ run.lines.breaks
  let style := if folded then ScalarStyle.folded else .literal
  return (⟨.scalar (run.text.reverse ++ tail) style, start, run.lines.finish⟩, run.lines.cursor)

end Vendoring.Yaml
