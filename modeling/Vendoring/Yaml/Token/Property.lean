import Vendoring.Yaml.Token.Scalar

/-!
# Anchors, aliases, tags and directives

The tokens that name a node or say how it is to be taken, and the lines in
front of a document.
-/

namespace Vendoring.Yaml

/-! ## Anchors and aliases -/

/-- What may stand directly behind the name of an anchor or alias. -/
def endsName (next : Option Char) : Bool :=
  endsWord next || next.any (fun c => "?:,]\x7d%@\x60".toList.contains c)

/-- The name behind a `&` or `*` at the cursor. -/
def takeName (c : Cursor) (context : Context) : Except Problem (List Char × Cursor) :=
  let (name, finish) := c.skip.span isWordChar
  if name.isEmpty || !endsName finish.peek then
    faultAt finish .anchorNameExpected context c.mark
  else .ok (name, finish)

def anchorToken (c : Cursor) : Except Problem (Token × Cursor) := do
  let (name, finish) ← takeName c .anchor
  return (⟨.anchor name, c.mark, finish.mark⟩, finish)

def aliasToken (c : Cursor) : Except Problem (Token × Cursor) := do
  let (name, finish) ← takeName c .alias
  return (⟨.alias name, c.mark, finish.mark⟩, finish)

/-! ## Tags -/

/-- The octet written as `%` and two hexadecimal digits. -/
def uriOctet? (c : Cursor) : Option Nat := do
  guard (c.looksAt '%')
  let high ← (c.peekAt 1).bind hexValue?
  let low ← (c.peekAt 2).bind hexValue?
  return high * 16 + low

/-- How many octets a leading octet announces, and the bits it brings. -/
def leadingOctet? (octet : Nat) : Option (Nat × Nat) :=
  if octet < 0x80 then some (1, octet)
  else if octet < 0xc0 then none
  else if octet < 0xe0 then some (2, octet % 0x20)
  else if octet < 0xf0 then some (3, octet % 0x10)
  else if octet < 0xf8 then some (4, octet % 0x08)
  else none

/-- The trailing octets of an escaped character. -/
def takeTrailing (context : Context) (start : Mark) :
    Nat → Nat → Cursor → Except Problem (Nat × Cursor)
  | 0, value, c => .ok (value, c)
  | n + 1, value, c =>
    match uriOctet? c with
    | none => faultAt c .uriOctetExpected context start
    | some octet =>
      if octet < 0x80 || 0xc0 ≤ octet then faultAt c .uriTrailingOctet context start
      else takeTrailing context start n (value * 0x40 + octet % 0x40) (c.skipMany 3)

/-- A character written as escaped octets. -/
def takeUriEscape (context : Context) (start : Mark) (c : Cursor) :
    Except Problem (Char × Cursor) :=
  match uriOctet? c with
  | none => faultAt c .uriOctetExpected context start
  | some octet =>
    match leadingOctet? octet with
    | none => faultAt c .uriLeadingOctet context start
    | some (width, bits) => do
      let (value, next) ← takeTrailing context start (width - 1) bits (c.skipMany 3)
      return (if value.isValidChar then Char.ofNat value else '\ufffd', next)

/-- The characters of a tag. Between angle brackets the flow indicators are
allowed too. -/
def isUriChar (verbatim : Bool) (c : Char) : Bool :=
  isWordChar c || ";/?:@&=+$.%!~*\x27()".toList.contains c
    || (verbatim && (c == ',' || c == '[' || c == ']'))

def takeUriChars (verbatim : Bool) (context : Context) (start : Mark) :
    Nat → List Char → Cursor → Except Problem (List Char × Cursor)
  | 0, acc, c => .ok (acc.reverse, c)
  | fuel + 1, acc, c =>
    match c.peek with
    | none => .ok (acc.reverse, c)
    | some ch =>
      if !isUriChar verbatim ch then .ok (acc.reverse, c)
      else if ch == '%' then do
        let (escaped, next) ← takeUriEscape context start c
        takeUriChars verbatim context start fuel (escaped :: acc) next
      else takeUriChars verbatim context start fuel (ch :: acc) c.skip

/-- A tag or the rest of one. `head` is the part already read; its opening
`!` is not part of the result. -/
def takeUri (verbatim : Bool) (head : List Char) (context : Context) (start : Mark)
    (c : Cursor) : Except Problem (List Char × Cursor) := do
  let (text, next) ← takeUriChars verbatim context start c.rest.length [] c
  if head.isEmpty && text.isEmpty then faultAt next .uriExpected context start
  else return (head.drop 1 ++ text, next)

/-- A tag handle: `!`, or a word between two of them, or a `!` and a word
that turns out to be no handle. In a directive the last is a fault. -/
def takeHandle (directive : Bool) (start : Mark) (c : Cursor) :
    Except Problem (List Char × Cursor) :=
  if !c.looksAt '!' then
    faultAt c .bangExpected (if directive then .tagDirectiveHandle else .tag) start
  else
    let (word, c) := c.skip.span isWordChar
    if c.looksAt '!' then .ok ('!' :: word ++ ['!'], c.skip)
    else if directive && !word.isEmpty then faultAt c .bangExpected .tagDirectiveBang start
    else .ok ('!' :: word, c)

def isFullHandle (handle : List Char) : Bool :=
  handle.length > 1 && handle.getLast? == some '!'

def takeTagBody (c : Cursor) : Except Problem (List Char × List Char × Cursor) := do
  let start := c.mark
  if c.peekAt 1 == some '<' then
    let (suffix, c) ← takeUri true [] .tagUri start (c.skipMany 2)
    if !c.looksAt '>' then faultAt c .closingAngleExpected .tag start
    else return ([], suffix, c.skip)
  else
    let (handle, c) ← takeHandle false start c
    if isFullHandle handle then
      let (suffix, c) ← takeUri false [] .tagUri start c
      return (handle, suffix, c)
    else
      let (suffix, c) ← takeUri false handle .tagUri start c
      return if suffix.isEmpty then ([], ['!'], c) else (['!'], suffix, c)

/-- A tag, its `!` at the cursor. Inside a flow collection a comma may
follow it. -/
def tagToken (c : Cursor) (flow : Bool) : Except Problem (Token × Cursor) := do
  let (handle, suffix, finish) ← takeTagBody c
  if (flow && finish.looksAt ',') || endsWord finish.peek then
    return (⟨.tag handle suffix, c.mark, finish.mark⟩, finish)
  else faultAt finish .blankOrBreakExpected .tag c.mark

/-! ## Directives -/

/-- A number of at most nine digits. -/
def takeVersionNumber (start : Mark) (c : Cursor) : Except Problem (Nat × Cursor) :=
  let (digits, next) := c.span Char.isDigit
  if 9 < digits.length then faultAt (c.skipMany 9) .versionTooLong .yamlDirective start
  else if digits.isEmpty then faultAt c .versionNumberExpected .yamlDirective start
  else .ok (digits.foldl (fun n d => n * 10 + (d.toNat - '0'.toNat)) 0, next)

def takeVersion (start : Mark) (c : Cursor) : Except Problem (Token.Kind × Cursor) := do
  let (major, c) ← takeVersionNumber start (c.skipWhile isBlank)
  if !c.looksAt '.' then faultAt c .versionSeparatorExpected .yamlDirective start
  else
    let (minor, c) ← takeVersionNumber start c.skip
    return (.versionDirective major minor, c)

def takeTagDirective (start : Mark) (c : Cursor) : Except Problem (Token.Kind × Cursor) := do
  let (handle, c) ← takeHandle true start (c.skipWhile isBlank)
  if !c.atBlank then faultAt c .blankExpected .tagDirective start
  else
    let (tagPrefix, c) ← takeUri true [] .tagDirectivePrefix start (c.skipWhile isBlank)
    if !endsWord c.peek then faultAt c .blankOrBreakExpected .tagDirective start
    else return (.tagDirective handle tagPrefix, c)

/-- A directive, its `%` at the cursor, with the rest of its line. -/
def directiveToken (c : Cursor) : Except Problem (Token × Cursor) := do
  let start := c.mark
  let (name, c) := c.skip.span isWordChar
  if name.isEmpty then faultAt c .directiveNameExpected .directive start
  else if !endsWord c.peek then faultAt c .directiveNameNotAlphabetic .directive start
  else
    let (kind, c) ←
      if name == "YAML".toList then takeVersion start c
      else if name == "TAG".toList then takeTagDirective start c
      else faultAt c .unknownDirective .directive start
    let finish := c.mark
    let c := (c.skipWhile isBlank).skipComment
    if !endsLine c.peek then faultAt c .commentOrBreakExpected .directive start
    else return (⟨kind, start, finish⟩, c.skipBreak)

end Vendoring.Yaml
