import Vendoring.Yaml.Token.Property

/-!
# The tokens of a text

Reading goes token by token. Whether a token opens a key shows only later,
at the `:` behind it, so a `PossibleKey` is kept for every level of flow
collections; when the `:` comes, a key token is put in front of the token
that turned out to be a key.

A token that may still become a key is not settled. When a fault stops the
reading, only the tokens settled before the faulty step are given out
(`TokenStream.tokens`), together with the fault.
-/

namespace Vendoring.Yaml

/-- A place where a key may have begun: the number of its first token and
its mark. A required key is one that stands at the indentation of its
block. -/
structure PossibleKey where
  required : Bool
  tokenNumber : Nat
  mark : Mark
  deriving Repr

/-- Reading under way. `tokens` is reversed; `keys` holds one place for
every open flow collection, innermost first, and one for the block around
them. -/
structure Reading where
  cursor : Cursor
  indent : Int
  outerIndents : List Int
  keys : List (Option PossibleKey)
  keyAllowed : Bool
  tokens : List Token

namespace Reading

/-- The start of a text: one token, no indentation. -/
def start (c : Cursor) : Reading where
  cursor := c
  indent := -1
  outerIndents := []
  keys := [none]
  keyAllowed := true
  tokens := [⟨.streamStart, c.mark, c.mark⟩]

def inFlow (r : Reading) : Bool := r.keys.length > 1

def column (r : Reading) : Int := r.cursor.mark.column

def push (r : Reading) (t : Token) : Reading :=
  { r with tokens := t :: r.tokens }

/-- Puts `t` in front of the token with that number. -/
def insert (r : Reading) (number : Nat) (t : Token) : Reading :=
  let behind := r.tokens.length - number
  { r with tokens := r.tokens.take behind ++ t :: r.tokens.drop behind }

/-- A token without characters, at `m`. -/
def mark (kind : Token.Kind) (m : Mark) : Token := ⟨kind, m, m⟩

/-! ## Possible keys -/

/-- A key ends on the line where it began and within 1024 characters. -/
def PossibleKey.isStale (k : PossibleKey) (now : Mark) : Bool :=
  k.mark.line < now.line || k.mark.index + 1024 < now.index

def keyFault (k : PossibleKey) (now : Mark) : Problem :=
  .fault .keyWithoutColon now (some (.simpleKey, k.mark))

/-- Gives up the keys that can no longer be completed. -/
def dropStale (r : Reading) : Except Problem Reading :=
  let now := r.cursor.mark
  let stale := r.keys.filterMap fun k? => k?.filter (PossibleKey.isStale · now)
  match stale.reverse.find? (·.required) with
  | some k => .error (keyFault k now)
  | none =>
    .ok { r with keys := r.keys.map fun k? => k?.filter fun k => !PossibleKey.isStale k now }

/-- Gives up the innermost possible key. -/
def dropKey (r : Reading) : Except Problem Reading :=
  match r.keys with
  | some k :: outer =>
    if k.required then .error (keyFault k r.cursor.mark)
    else .ok { r with keys := none :: outer }
  | _ => .ok r

/-- Notes that a key may begin at the cursor, where keys are allowed. -/
def noteKey (r : Reading) : Except Problem Reading :=
  if r.keyAllowed then do
    let r ← r.dropKey
    let k : PossibleKey :=
      { required := !r.inFlow && r.indent == r.column
        tokenNumber := r.tokens.length
        mark := r.cursor.mark }
    return { r with keys := some k :: r.keys.drop 1 }
  else .ok r

/-- How many tokens no possible key can still change. -/
def settled (r : Reading) : Nat :=
  (r.keys.filterMap id).foldl (fun n k => min n k.tokenNumber) r.tokens.length

/-! ## Indentation -/

/-- Opens a block at `column`, unless the current one is as deep. The token
goes in front of token `number`, or to the end. -/
def openBlock (r : Reading) (column : Nat) (number : Option Nat) (kind : Token.Kind)
    (m : Mark) : Reading :=
  if r.inFlow || (column : Int) ≤ r.indent then r
  else
    let r := { r with indent := column, outerIndents := r.indent :: r.outerIndents }
    match number with
    | none => r.push (mark kind m)
    | some n => r.insert n (mark kind m)

/-- Closes the blocks deeper than `column`. -/
def closeBlocks (column : Int) : List Int → Reading → Reading
  | [], r => r
  | outer :: rest, r =>
    if r.indent ≤ column then r
    else
      closeBlocks column rest
        { r.push (mark .blockEnd r.cursor.mark) with indent := outer, outerIndents := rest }

def dedent (r : Reading) (column : Int) : Reading :=
  if r.inFlow then r else closeBlocks column r.outerIndents r

/-! ## Between tokens -/

/-- Skips blanks, comments and line breaks. A byte order mark may open a line
and takes up a column of it. A tab is a blank where no key may begin, and
anywhere inside a flow collection. A new line of a block may begin with a
key. -/
def skipToToken : Nat → Reading → Reading
  | 0, r => r
  | fuel + 1, r =>
    let c := r.cursor
    let c := if c.mark.column == 0 && c.looksAt '\ufeff' then c.skip else c
    let c := c.skipWhile fun ch => ch == ' ' || ((r.inFlow || !r.keyAllowed) && ch == '\t')
    let c := c.skipComment
    if c.atBreak then
      skipToToken fuel
        { r with cursor := c.skipBreak, keyAllowed := r.keyAllowed || !r.inFlow }
    else { r with cursor := c }

/-! ## Reading one token -/

/-- Takes `n` characters as a token of `kind`. -/
def takeMark (r : Reading) (n : Nat) (kind : Token.Kind) : Reading :=
  let finish := r.cursor.skipMany n
  { r.push ⟨kind, r.cursor.mark, finish.mark⟩ with cursor := finish }

/-- Takes over a token that was read from the cursor. -/
def accept (r : Reading) (read : Token × Cursor) : Reading :=
  { r.push read.1 with cursor := read.2 }

def allowKey (r : Reading) (allowed : Bool) : Reading :=
  { r with keyAllowed := allowed }

/-- The end counts as a line of its own if the last line has no break. -/
def takeEnd (r : Reading) : Except Problem Reading := do
  let m := r.cursor.mark
  let m := if m.column == 0 then m else { m with line := m.line + 1, column := 0 }
  let r ← ({ r with cursor := ⟨[], m⟩ }.dedent (-1)).dropKey
  return (r.allowKey false).push (mark .streamEnd m)

def takeDirective (r : Reading) : Except Problem Reading := do
  let r ← (r.dedent (-1)).dropKey
  return (r.allowKey false).accept (← directiveToken r.cursor)

def takeDocumentIndicator (r : Reading) (kind : Token.Kind) : Except Problem Reading := do
  let r ← (r.dedent (-1)).dropKey
  return (r.allowKey false).takeMark 3 kind

def openFlow (r : Reading) (kind : Token.Kind) : Except Problem Reading := do
  let r ← r.noteKey
  return ({ r with keys := none :: r.keys }.allowKey true).takeMark 1 kind

def closeFlow (r : Reading) (kind : Token.Kind) : Except Problem Reading := do
  let r ← r.dropKey
  let r := if r.inFlow then { r with keys := r.keys.drop 1 } else r
  return (r.allowKey false).takeMark 1 kind

def takeFlowEntry (r : Reading) : Except Problem Reading := do
  let r ← r.dropKey
  return (r.allowKey true).takeMark 1 .flowEntry

/-- A fault at the cursor that is not about something begun earlier. -/
def refuse (r : Reading) (f : Fault) : Except Problem Reading :=
  .error (.fault f r.cursor.mark none)

def takeBlockEntry (r : Reading) : Except Problem Reading := do
  if !r.inFlow && !r.keyAllowed then r.refuse .entryNotAllowed
  else
    let r := r.openBlock r.cursor.mark.column none .blockSequenceStart r.cursor.mark
    let r ← r.dropKey
    return (r.allowKey true).takeMark 1 .blockEntry

def takeKey (r : Reading) : Except Problem Reading := do
  if !r.inFlow && !r.keyAllowed then r.refuse .keyNotAllowed
  else
    let r := r.openBlock r.cursor.mark.column none .blockMappingStart r.cursor.mark
    let r ← r.dropKey
    return (r.allowKey (!r.inFlow)).takeMark 1 .key

/-- A `:`. If a key may have begun, it did. -/
def takeValue (r : Reading) : Except Problem Reading :=
  match r.keys with
  | some k :: outer =>
    let r := { r with keys := none :: outer }
    let r := r.insert k.tokenNumber (mark .key k.mark)
    let r := r.openBlock k.mark.column (some k.tokenNumber) .blockMappingStart k.mark
    .ok ((r.allowKey false).takeMark 1 .value)
  | _ =>
    if !r.inFlow && !r.keyAllowed then r.refuse .valueNotAllowed
    else
      let r := r.openBlock r.cursor.mark.column none .blockMappingStart r.cursor.mark
      .ok ((r.allowKey (!r.inFlow)).takeMark 1 .value)

def takeProperty (r : Reading) (read : Cursor → Except Problem (Token × Cursor)) :
    Except Problem Reading := do
  let r ← r.noteKey
  return (r.allowKey false).accept (← read r.cursor)

def takeBlockScalar (r : Reading) (folded : Bool) : Except Problem Reading := do
  let r ← r.dropKey
  return (r.allowKey true).accept (← blockScalar r.cursor folded r.indent)

def takePlainScalar (r : Reading) : Except Problem Reading := do
  let r ← r.noteKey
  let (token, brokenLine, c) ← plainScalar r.cursor r.inFlow r.indent
  return (r.allowKey brokenLine).accept (token, c)

/-- The characters that begin no plain scalar, whatever follows. -/
def isIndicator (c : Char) : Bool :=
  "-?:,[]\x7b\x7d#&*!|>\x27\"%@\x60".toList.contains c

def startsPlain (r : Reading) (ch : Char) (next : Option Char) : Bool :=
  !(isBlank ch || isBreak ch || isIndicator ch)
    || (ch == '-' && !next.any isBlank)
    || (!r.inFlow && (ch == '?' || ch == ':') && !endsWord next)

/-- Goes to where the next token begins. -/
def arrive (r : Reading) : Except Problem Reading :=
  (skipToToken (r.cursor.rest.length + 1) r).dropStale

/-- Takes the token that begins at the cursor and what its place implies. -/
def takeHere (r : Reading) : Except Problem Reading := do
  let r := r.dedent r.column
  let c := r.cursor
  match c.peek with
  | none => r.takeEnd
  | some ch =>
    let next := c.peekAt 1
    if c.mark.column == 0 && ch == '%' then r.takeDirective
    else if c.atTriple '-' then r.takeDocumentIndicator .documentStart
    else if c.atTriple '.' then r.takeDocumentIndicator .documentEnd
    else if ch == '[' then r.openFlow .flowSequenceStart
    else if ch == '{' then r.openFlow .flowMappingStart
    else if ch == ']' then r.closeFlow .flowSequenceEnd
    else if ch == '}' then r.closeFlow .flowMappingEnd
    else if ch == ',' then r.takeFlowEntry
    else if ch == '-' && endsWord next then r.takeBlockEntry
    else if ch == '?' && (r.inFlow || endsWord next) then r.takeKey
    else if ch == ':' && (r.inFlow || endsWord next) then r.takeValue
    else if ch == '*' then r.takeProperty aliasToken
    else if ch == '&' then r.takeProperty anchorToken
    else if ch == '!' then r.takeProperty (tagToken · r.inFlow)
    else if ch == '|' && !r.inFlow then r.takeBlockScalar false
    else if ch == '>' && !r.inFlow then r.takeBlockScalar true
    else if ch == '\x27' then r.takeProperty (quotedScalar · true)
    else if ch == '"' then r.takeProperty (quotedScalar · false)
    else if r.startsPlain ch next then r.takePlainScalar
    else faultAt c .noTokenStart .nextToken c.mark

/-- Takes the next token. -/
def takeToken (r : Reading) : Except Problem Reading := do
  let r ← r.arrive
  r.takeHere

def isFinished (r : Reading) : Bool :=
  r.tokens.head?.any (·.kind == .streamEnd)

end Reading

/-- The tokens that can be relied on, and the fault that ended the reading,
if one did. -/
structure TokenStream where
  tokens : List Token
  problem : Option Problem
  deriving Repr

namespace TokenStream

/-- Reads up to the end of the text. -/
def readAll : Nat → Reading → TokenStream
  | 0, r => ⟨r.tokens.reverse, none⟩
  | fuel + 1, r =>
    match r.takeToken >>= Reading.dropStale with
    | .error problem => ⟨r.tokens.reverse.take r.settled, some problem⟩
    | .ok next => if next.isFinished then ⟨next.tokens.reverse, none⟩ else readAll fuel next

/-- The characters that a YAML text may hold. -/
def isAllowed (c : Char) : Bool :=
  let n := c.toNat
  n == 0x09 || n == 0x0a || n == 0x0d || (0x20 ≤ n && n ≤ 0x7e) || n == 0x85
    || (0xa0 ≤ n && n ≤ 0xd7ff) || (0xe000 ≤ n && n ≤ 0xfffd) || 0x10000 ≤ n

/-- Offset in bytes of the first character that is not allowed. -/
def forbiddenOffset? : Nat → List Char → Option Nat
  | _, [] => none
  | offset, c :: rest =>
    if isAllowed c then forbiddenOffset? (offset + c.utf8Size) rest else some offset

/-- The tokens of a text. -/
def ofText (text : List Char) : TokenStream :=
  match forbiddenOffset? 0 text with
  | some offset => ⟨[], some (.forbiddenCharacter offset)⟩
  | none => readAll (2 * text.length + 2) (Reading.start ⟨text, {}⟩)

end TokenStream

end Vendoring.Yaml
