import Vendoring.Yaml.Token.Stream

/-!
# Events

The structure of a text without its punctuation: documents, collections,
scalars and aliases, in the order in which they begin and end. `Outline`
walks over the tokens and gives out one event at a time; what it expects
next is kept on a stack, so that nesting costs no recursion.
-/

namespace Vendoring.Yaml

structure Scalar where
  tag : Option (List Char)
  text : List Char
  style : ScalarStyle
  deriving DecidableEq, Repr

inductive Event
  | streamStart
  | streamEnd
  | documentStart
  | documentEnd
  | alias (name : List Char)
  | scalar (anchor : Option (List Char)) (scalar : Scalar)
  | sequenceStart (anchor : Option (List Char))
  | sequenceEnd
  | mappingStart (anchor : Option (List Char))
  | mappingEnd
  deriving DecidableEq, Repr

/-- What may come next. -/
inductive Expect
  | streamStart
  | implicitDocument
  | documentStart
  | documentContent
  | documentEnd
  | blockNode
  | blockSequenceFirst
  | blockSequenceEntry
  | bareSequenceEntry
  | blockMappingFirst
  | blockMappingKey
  | blockMappingValue
  | flowSequenceFirst
  | flowSequenceEntry
  | pairKey
  | pairValue
  | pairEnd
  | flowMappingFirst
  | flowMappingKey
  | flowMappingValue
  | flowMappingEmptyValue
  | nothing
  deriving DecidableEq, Repr

/-- The tokens left, what is expected of them now and afterwards, the starts
of the open collections, and the tag handles in force. -/
structure Outline where
  tokens : List Token
  problem : Option Problem
  expect : Expect
  afterwards : List Expect
  starts : List Mark
  handles : List (List Char × List Char)
  deriving Repr

namespace Outline

/-- An event, where it begins, and the outline behind it. -/
abbrev Step := Except Problem (Event × Mark × Outline)

def ofTokens (s : TokenStream) : Outline where
  tokens := s.tokens
  problem := s.problem
  expect := .streamStart
  afterwards := []
  starts := []
  handles := []

/-- The next token. Where the tokens run out, the fault that ended them. -/
def peek (o : Outline) : Except Problem Token :=
  match o.tokens with
  | t :: _ => .ok t
  | [] => .error (o.problem.getD (.fault .contentExpected {} none))

def skip (o : Outline) : Outline :=
  { o with tokens := o.tokens.drop 1 }

def turn (o : Outline) (e : Expect) : Outline :=
  { o with expect := e }

/-- Comes back to `e` after the node that is read now. -/
def later (o : Outline) (e : Expect) : Outline :=
  { o with afterwards := e :: o.afterwards }

/-- Turns to what was put off last. -/
def resume (o : Outline) : Outline :=
  { o with expect := o.afterwards.headD .nothing, afterwards := o.afterwards.drop 1 }

/-- Ends a collection, whose start is forgotten. -/
def close (o : Outline) : Outline :=
  { o.resume with starts := o.starts.drop 1 }

def emptyScalar (o : Outline) (m : Mark) : Step :=
  .ok (.scalar none ⟨none, [], .plain⟩, m, o)

/-- A fault at `t` in the innermost open collection. -/
def refuse (o : Outline) (f : Fault) (context : Context) (t : Token) : Step :=
  .error (.fault f t.start (some (context, o.starts.headD {})))

/-! ## Nodes -/

/-- The anchor and the tag in front of a node, in either order. `start` is
where the first of them begins. -/
structure Properties where
  anchor : Option (List Char)
  tag : Option (List Char × List Char)
  tagMark : Mark
  start : Mark

def takeProperties (o : Outline) : Except Problem (Properties × Outline) := do
  let t ← o.peek
  match t.kind with
  | .anchor name =>
    let o := o.skip
    let u ← o.peek
    match u.kind with
    | .tag handle suffix =>
      return (⟨some name, some (handle, suffix), u.start, t.start⟩, o.skip)
    | _ => return (⟨some name, none, {}, t.start⟩, o)
  | .tag handle suffix =>
    let o := o.skip
    let u ← o.peek
    match u.kind with
    | .anchor name =>
      return (⟨some name, some (handle, suffix), t.start, t.start⟩, o.skip)
    | _ => return (⟨none, some (handle, suffix), t.start, t.start⟩, o)
  | _ => return (⟨none, none, {}, t.start⟩, o)

/-- The full tag. A tag without handle stands for itself. -/
def resolveTag (o : Outline) (p : Properties) : Except Problem (Option (List Char)) :=
  match p.tag with
  | none => .ok none
  | some ([], suffix) => .ok (some suffix)
  | some (handle, suffix) =>
    match o.handles.lookup handle with
    | some tagPrefix => .ok (some (tagPrefix ++ suffix))
    | none => .error (.fault .undefinedTagHandle p.tagMark (some (.node, p.start)))

/-- A node. `block` allows block collections, `bare` a sequence that is not
indented deeper than the key in front of it. A node that has properties may
lack content. -/
def node (o : Outline) (block bare : Bool) : Step := do
  let t ← o.peek
  match t.kind with
  | .alias name => return (.alias name, t.start, o.resume.skip)
  | _ =>
    let (p, o) ← o.takeProperties
    let tag ← o.resolveTag p
    let t ← o.peek
    match t.kind, block, bare with
    | .blockEntry, _, true =>
      return (.sequenceStart p.anchor, p.start, o.turn .bareSequenceEntry)
    | .scalar text style, _, _ =>
      let tag := if tag == some ['!'] then none else tag
      return (.scalar p.anchor ⟨tag, text, style⟩, p.start, o.resume.skip)
    | .flowSequenceStart, _, _ =>
      return (.sequenceStart p.anchor, p.start, o.turn .flowSequenceFirst)
    | .flowMappingStart, _, _ =>
      return (.mappingStart p.anchor, p.start, o.turn .flowMappingFirst)
    | .blockSequenceStart, true, _ =>
      return (.sequenceStart p.anchor, p.start, o.turn .blockSequenceFirst)
    | .blockMappingStart, true, _ =>
      return (.mappingStart p.anchor, p.start, o.turn .blockMappingFirst)
    | _, _, _ =>
      if p.anchor.isSome || tag.isSome then
        return (.scalar p.anchor ⟨tag, [], .plain⟩, p.start, o.resume)
      else
        let context := if block then Context.blockNode else .flowNode
        .error (.fault .contentExpected t.start (some (context, p.start)))

/-! ## Documents -/

def defaultHandles : List (List Char × List Char) :=
  [(['!'], ['!']), (['!', '!'], "tag:yaml.org,2002:".toList)]

/-- Reads the directives in front of a document, adding to `handles`. -/
def takeDirectives : List Token → Bool → List (List Char × List Char) →
    Except Problem (List Token × List (List Char × List Char))
  | [], _, handles => .ok ([], handles)
  | t :: rest, versionSeen, handles =>
    match t.kind with
    | .versionDirective major minor =>
      if versionSeen then .error (.fault .duplicateVersion t.start none)
      else if major != 1 || !(minor == 1 || minor == 2) then
        .error (.fault .incompatibleVersion t.start none)
      else takeDirectives rest true handles
    | .tagDirective handle tagPrefix =>
      if (handles.lookup handle).isSome then
        .error (.fault .duplicateTagDirective t.start none)
      else takeDirectives rest versionSeen (handles ++ [(handle, tagPrefix)])
    | _ => .ok (t :: rest, handles)

/-- Puts the handles in force, with the default ones behind them. -/
def withDirectives (o : Outline) : Except Problem Outline := do
  let (tokens, handles) ← takeDirectives o.tokens false []
  return { o with tokens := tokens, handles := handles ++ defaultHandles }

def documentStart (o : Outline) (implicit : Bool) : Step := do
  let o := if implicit then o
    else { o with tokens := o.tokens.dropWhile (·.kind == .documentEnd) }
  let t ← o.peek
  match t.kind with
  | .streamEnd => return (.streamEnd, t.start, o.skip.turn .nothing)
  | kind =>
    let explicit := match kind with
      | .versionDirective _ _ | .tagDirective _ _ | .documentStart => true
      | _ => false
    if implicit && !explicit then
      let o := { o with handles := defaultHandles }
      return (.documentStart, t.start, (o.later .documentEnd).turn .blockNode)
    else
      let o ← o.withDirectives
      let u ← o.peek
      match u.kind with
      | .documentStart =>
        return (.documentStart, t.start, ((o.later .documentEnd).turn .documentContent).skip)
      | _ => .error (.fault .documentStartExpected u.start none)

def documentContent (o : Outline) : Step := do
  let t ← o.peek
  match t.kind with
  | .versionDirective _ _ | .tagDirective _ _ | .documentStart | .documentEnd | .streamEnd =>
    o.resume.emptyScalar t.start
  | _ => o.node true false

def documentEnd (o : Outline) : Step := do
  let t ← o.peek
  let o := { o with handles := [] }.turn .documentStart
  match t.kind with
  | .documentEnd => return (.documentEnd, t.start, o.skip)
  | _ => return (.documentEnd, t.start, o)

/-! ## Block collections -/

/-- Takes the opening token, noting where the collection starts. -/
def enter (o : Outline) (next : Outline → Step) : Step := do
  let t ← o.peek
  next { o.skip with starts := t.start :: o.starts }

def blockSequenceEntry (o : Outline) : Step := do
  let t ← o.peek
  match t.kind with
  | .blockEntry =>
    let o := o.skip
    let u ← o.peek
    match u.kind with
    | .blockEntry | .blockEnd => (o.turn .blockSequenceEntry).emptyScalar t.finish
    | _ => (o.later .blockSequenceEntry).node true false
  | .blockEnd => return (.sequenceEnd, t.start, o.close.skip)
  | _ => o.refuse .dashExpected .blockSequence t

def bareSequenceEntry (o : Outline) : Step := do
  let t ← o.peek
  match t.kind with
  | .blockEntry =>
    let o := o.skip
    let u ← o.peek
    match u.kind with
    | .blockEntry | .key | .value | .blockEnd =>
      (o.turn .bareSequenceEntry).emptyScalar t.finish
    | _ => (o.later .bareSequenceEntry).node true false
  | _ => return (.sequenceEnd, t.start, o.resume)

def blockMappingKey (o : Outline) : Step := do
  let t ← o.peek
  match t.kind with
  | .key =>
    let o := o.skip
    let u ← o.peek
    match u.kind with
    | .key | .value | .blockEnd => (o.turn .blockMappingValue).emptyScalar t.finish
    | _ => (o.later .blockMappingValue).node true true
  | .blockEnd => return (.mappingEnd, t.start, o.close.skip)
  | _ => o.refuse .keyExpected .blockMapping t

def blockMappingValue (o : Outline) : Step := do
  let t ← o.peek
  match t.kind with
  | .value =>
    let o := o.skip
    let u ← o.peek
    match u.kind with
    | .key | .value | .blockEnd => (o.turn .blockMappingKey).emptyScalar t.finish
    | _ => (o.later .blockMappingKey).node true true
  | _ => (o.turn .blockMappingKey).emptyScalar t.start

/-! ## Flow collections -/

/-- Takes the comma in front of every element but the first. -/
def takeComma (o : Outline) (first : Bool) (f : Fault) (context : Context) :
    Except Problem Outline := do
  if first then return o
  let t ← o.peek
  match t.kind with
  | .flowEntry => return o.skip
  | _ => .error (.fault f t.start (some (context, o.starts.headD {})))

def flowSequenceEntry (o : Outline) (first : Bool) : Step := do
  let t ← o.peek
  match t.kind with
  | .flowSequenceEnd => return (.sequenceEnd, t.start, o.close.skip)
  | _ =>
    let o ← o.takeComma first .sequenceEndExpected .flowSequence
    let t ← o.peek
    match t.kind with
    | .key => return (.mappingStart none, t.start, (o.turn .pairKey).skip)
    | .flowSequenceEnd => return (.sequenceEnd, t.start, o.close.skip)
    | _ => (o.later .flowSequenceEntry).node false false

/-- A key inside a flow sequence makes a mapping of one pair. -/
def pairKey (o : Outline) : Step := do
  let t ← o.peek
  match t.kind with
  | .value | .flowEntry | .flowSequenceEnd => (o.skip.turn .pairValue).emptyScalar t.finish
  | _ => (o.later .pairValue).node false false

def pairValue (o : Outline) : Step := do
  let t ← o.peek
  match t.kind with
  | .value =>
    let o := o.skip
    let u ← o.peek
    match u.kind with
    | .flowEntry | .flowSequenceEnd => (o.turn .pairEnd).emptyScalar u.start
    | _ => (o.later .pairEnd).node false false
  | _ => (o.turn .pairEnd).emptyScalar t.start

def pairEnd (o : Outline) : Step := do
  let t ← o.peek
  return (.mappingEnd, t.start, o.turn .flowSequenceEntry)

def flowMappingKey (o : Outline) (first : Bool) : Step := do
  let t ← o.peek
  match t.kind with
  | .flowMappingEnd => return (.mappingEnd, t.start, o.close.skip)
  | _ =>
    let o ← o.takeComma first .mappingEndExpected .flowMapping
    let t ← o.peek
    match t.kind with
    | .key =>
      let o := o.skip
      let u ← o.peek
      match u.kind with
      | .value | .flowEntry | .flowMappingEnd =>
        (o.turn .flowMappingValue).emptyScalar u.start
      | _ => (o.later .flowMappingValue).node false false
    | .flowMappingEnd => return (.mappingEnd, t.start, o.close.skip)
    | _ => (o.later .flowMappingEmptyValue).node false false

def flowMappingValue (o : Outline) : Step := do
  let t ← o.peek
  match t.kind with
  | .value =>
    let o := o.skip
    let u ← o.peek
    match u.kind with
    | .flowEntry | .flowMappingEnd => (o.turn .flowMappingKey).emptyScalar u.start
    | _ => (o.later .flowMappingKey).node false false
  | _ => (o.turn .flowMappingKey).emptyScalar t.start

def flowMappingEmptyValue (o : Outline) : Step := do
  let t ← o.peek
  (o.turn .flowMappingKey).emptyScalar t.start

/-- The next event. -/
def next (o : Outline) : Step :=
  match o.expect with
  | .streamStart => do
    let t ← o.peek
    return (.streamStart, t.start, (o.turn .implicitDocument).skip)
  | .implicitDocument => o.documentStart true
  | .documentStart => o.documentStart false
  | .documentContent => o.documentContent
  | .documentEnd => o.documentEnd
  | .blockNode => o.node true false
  | .blockSequenceFirst => o.enter blockSequenceEntry
  | .blockSequenceEntry => o.blockSequenceEntry
  | .bareSequenceEntry => o.bareSequenceEntry
  | .blockMappingFirst => o.enter blockMappingKey
  | .blockMappingKey => o.blockMappingKey
  | .blockMappingValue => o.blockMappingValue
  | .flowSequenceFirst => o.enter (flowSequenceEntry · true)
  | .flowSequenceEntry => o.flowSequenceEntry false
  | .pairKey => o.pairKey
  | .pairValue => o.pairValue
  | .pairEnd => o.pairEnd
  | .flowMappingFirst => o.enter (flowMappingKey · true)
  | .flowMappingKey => o.flowMappingKey false
  | .flowMappingValue => o.flowMappingValue
  | .flowMappingEmptyValue => o.flowMappingEmptyValue
  | .nothing => .ok (.streamEnd, {}, o)

end Outline

/-- The events of a text up to its end or to a fault. -/
structure EventStream where
  events : List (Event × Mark)
  problem : Option Problem
  deriving Repr

namespace EventStream

def readAll : Nat → Outline → EventStream
  | 0, _ => ⟨[], none⟩
  | fuel + 1, o =>
    match o.next with
    | .error problem => ⟨[], some problem⟩
    | .ok (.streamEnd, m, _) => ⟨[(.streamEnd, m)], none⟩
    | .ok (event, m, next) =>
      let later := readAll fuel next
      ⟨(event, m) :: later.events, later.problem⟩

/-- A token gives rise to at most four events. -/
def ofTokens (s : TokenStream) : EventStream :=
  readAll (4 * s.tokens.length + 4) (Outline.ofTokens s)

def ofText (text : List Char) : EventStream :=
  ofTokens (TokenStream.ofText text)

end EventStream

end Vendoring.Yaml
