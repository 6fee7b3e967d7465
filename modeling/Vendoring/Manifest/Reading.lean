import Vendoring.Manifest.Basic
import Vendoring.Yaml.Document
import Vendoring.Yaml.Value

/-!
# Reading a manifest

A manifest text is one YAML document: a mapping with the three categories
and, optionally, the settings of the aggregate unit. Any scalar is taken as
text wherever text is wanted; an absent value stands for an empty mapping or
sequence; keys that are not known are passed over.

Items are read in order. A document may be cut short by a fault in the text,
and then what is wrong with the items in front of the fault is reported
first.
-/

namespace Vendoring

open Yaml

namespace Manifest

/-- A step from a value to one inside it. A key that is not written out in
its place is not known by name. -/
inductive TrailStep
  | key (name : String)
  | index (n : Nat)
  | unknownKey
  deriving DecidableEq, Repr

/-- The steps from the document to a value, outermost first. -/
abbrev Trail := List TrailStep

def TrailStep.text (first : Bool) : TrailStep → String
  | .key name => (if first then "" else ".") ++ name
  | .index n => "[" ++ toString n ++ "]"
  | .unknownKey => if first then "?" else ".?"

def trailText : Trail → String
  | [] => ""
  | s :: rest => s.text true ++ String.join (rest.map (TrailStep.text false)) ++ ": "

inductive Expected
  | pathText
  | text
  | sequence
  | fieldName
  | manifest
  | layout
  | settings
  deriving DecidableEq, Repr

def Expected.message : Expected → String
  | .pathText => "path string"
  | .text => "a string"
  | .sequence => "a sequence"
  | .fieldName => "field identifier"
  | .manifest => "struct Manifest"
  | .layout => "struct CategoryLayout"
  | .settings => "struct AmalgamationSettings"

inductive Found
  | value (v : Yaml.Value)
  | sequence
  | mapping
  deriving DecidableEq, Repr

def Found.message : Found → String
  | .value v => v.description
  | .sequence => "sequence"
  | .mapping => "map"

/-- Why a well-formed document is no manifest. -/
inductive Misfit
  | type (found : Found) (expected : Expected)
  | brokenPromise (text : String) (promise : Promise)
  | missingField (name : String)
  | duplicateField (name : String)
  deriving DecidableEq, Repr

def Misfit.message : Misfit → String
  | .type found expected =>
    "invalid type: " ++ found.message ++ ", expected " ++ expected.message
  | .brokenPromise text promise =>
    "invalid value: string " ++ quoted text ++ ", expected " ++ promise.message
  | .missingField name => "missing field `" ++ name ++ "`"
  | .duplicateField name => "duplicate field `" ++ name ++ "`"

/-- Why a text is no manifest. -/
inductive Unreadable
  | malformed (p : Problem)
  | unknownAnchor (m : Mark)
  | anotherDocument
  | cutShort
  | misfit (trail : Trail) (m : Mark) (misfit : Misfit)
  deriving DecidableEq, Repr

def Unreadable.message : Unreadable → String
  | .malformed p => p.message
  | .unknownAnchor m => "unknown anchor" ++ m.suffixText
  | .anotherDocument =>
    "deserializing from YAML containing more than one document is not supported"
  | .cutShort => "EOF while parsing a value"
  | .misfit trail m x => trailText trail ++ x.message ++ m.suffixText

namespace Reading

abbrev Items := List (Item × Mark)

/-- Why the items of a document end too early. -/
def cut (doc : Document) : Unreadable :=
  match doc.ending with
  | .problem p => .malformed p
  | .unknownAnchor m => .unknownAnchor m
  | _ => .cutShort

def misfit {α : Type} (trail : Trail) (m : Mark) (x : Misfit) : Except Unreadable α :=
  .error (.misfit trail m x)

/-- The fault of finding `item` where `expected` should be. -/
def typeMisfit (item : Item) (expected : Expected) : Misfit :=
  match item with
  | .scalar s =>
    match s.value with
    | .ok v => .type (.value v) expected
    | .error promise => .brokenPromise (String.ofList s.text) promise
  | .sequenceStart => .type .sequence expected
  | _ => .type .mapping expected

/-- Reads the first item with `read`; in the place of an alias, the items
from its anchor on. -/
def atTarget {α : Type} (doc : Document)
    (read : Item → Mark → Items → Except Unreadable (α × Items)) :
    Items → Except Unreadable (α × Items)
  | [] => .error (cut doc)
  | (.alias anchor, _) :: rest =>
    match doc.itemsAt anchor with
    | [] => .error (cut doc)
    | (item, m) :: inner => (read item m inner).map fun (a, _) => (a, rest)
  | (item, m) :: rest => read item m rest

def textItem (trail : Trail) (expected : Expected) (item : Item) (m : Mark) (rest : Items) :
    Except Unreadable (String × Items) :=
  match item with
  | .scalar s => .ok (String.ofList s.text, rest)
  | _ => misfit trail m (typeMisfit item expected)

/-- A text, written as any scalar. -/
def text (doc : Document) (trail : Trail) (expected : Expected) (items : Items) :
    Except Unreadable (String × Items) :=
  atTarget doc (textItem trail expected) items

/-- An empty plain scalar, or nothing at all. -/
def isAbsent : Item → Bool
  | .absent => true
  | .scalar s => s.text.isEmpty && s.style == .plain
  | _ => false

/-- The elements of a sequence of texts, from number `index` on. -/
def elements (doc : Document) (trail : Trail) (index : Nat) :
    Items → Except Unreadable (List String × Items)
  | [] => .error (cut doc)
  | (.sequenceEnd, _) :: rest => .ok ([], rest)
  | item :: rest => do
    let (s, _) ← text doc (trail ++ [.index index]) .text [item]
    let (more, rest) ← elements doc trail (index + 1) rest
    return (s :: more, rest)

def texts (doc : Document) (trail : Trail) (items : Items) :
    Except Unreadable (List String × Items) :=
  atTarget doc (fun item m rest =>
    if isAbsent item then .ok ([], rest)
    else match item with
      | .sequenceStart => elements doc trail 0 rest
      | _ => misfit trail m (typeMisfit item .sequence)) items

/-- Passes over one value; `depth` collections are open. -/
def skip (doc : Document) : Nat → Items → Except Unreadable Items
  | _, [] => .error (cut doc)
  | depth, (item, _) :: rest =>
    let depth := match item with
      | .sequenceStart | .mappingStart => depth + 1
      | .sequenceEnd | .mappingEnd => depth - 1
      | _ => depth
    if depth = 0 then .ok rest else skip doc depth rest

/-! ## Mappings with known keys -/

/-- A key, whether a draft has its value already, and how to read and enter
that value. -/
structure Field (σ : Type) where
  name : String
  isSet : σ → Bool
  read : Document → Trail → Items → Except Unreadable ((σ → σ) × Items)

/-- A field whose value is read by `read` and entered by `set`. -/
def Field.of {σ α : Type} (name : String) (isSet : σ → Bool) (set : α → σ → σ)
    (read : Document → Trail → Items → Except Unreadable (α × Items)) : Field σ where
  name := name
  isSet := isSet
  read doc trail items := (read doc trail items).map fun (a, rest) => (set a, rest)

/-- A mapping that fills a draft, and what becomes of a draft whose mapping
has ended. -/
structure Shape (σ α : Type) where
  expected : Expected
  empty : σ
  fields : List (Field σ)
  finish : σ → Except Misfit α

/-- The step to the value behind a key. -/
def stepOfKey (item : Item) : TrailStep :=
  match item with
  | .scalar s => .key (String.ofList s.text)
  | _ => .unknownKey

/-- Reads pairs up to the end of the mapping that began at `m`. -/
def pairs {σ : Type} (doc : Document) (fields : List (Field σ)) (trail : Trail) (m : Mark) :
    Nat → σ → Items → Except Unreadable (σ × Items)
  | 0, _, _ => .error (cut doc)
  | _ + 1, _, [] => .error (cut doc)
  | _ + 1, draft, (.mappingEnd, _) :: rest => .ok (draft, rest)
  | fuel + 1, draft, key :: rest => do
    let (name, _) ← text doc trail .fieldName [key]
    match fields.find? (·.name == name) with
    | none =>
      let rest ← skip doc 0 rest
      pairs doc fields trail m fuel draft rest
    | some field =>
      if field.isSet draft then misfit trail m (.duplicateField field.name)
      else
        let (set, rest) ← field.read doc (trail ++ [stepOfKey key.1]) rest
        pairs doc fields trail m fuel (set draft) rest

def Shape.finishAt {σ α : Type} (shape : Shape σ α) (trail : Trail) (m : Mark) (draft : σ)
    (rest : Items) : Except Unreadable (α × Items) :=
  match shape.finish draft with
  | .ok a => .ok (a, rest)
  | .error x => misfit trail m x

def Shape.read {σ α : Type} (shape : Shape σ α) (doc : Document) (trail : Trail)
    (items : Items) : Except Unreadable (α × Items) :=
  atTarget doc (fun item m rest =>
    if isAbsent item then shape.finishAt trail m shape.empty rest
    else match item with
      | .mappingStart => do
        let (draft, rest) ← pairs doc shape.fields trail m rest.length shape.empty rest
        shape.finishAt trail m draft rest
      | _ => misfit trail m (typeMisfit item shape.expected)) items

def required {α : Type} (name : String) : Option α → Except Misfit α
  | some a => .ok a
  | none => .error (.missingField name)

/-! ## The parts of a manifest -/

def path (doc : Document) (trail : Trail) (items : Items) : Except Unreadable (Path × Items) :=
  (text doc trail .pathText items).map fun (s, rest) => (⟨s⟩, rest)

def word (doc : Document) (trail : Trail) (items : Items) : Except Unreadable (String × Items) :=
  text doc trail .text items

def entry (doc : Document) (trail : Trail) (items : Items) : Except Unreadable (Entry × Items) :=
  (word doc trail items).map fun (s, rest) => (⟨s⟩, rest)

def entries (doc : Document) (trail : Trail) (items : Items) :
    Except Unreadable (List Entry × Items) :=
  (texts doc trail items).map fun (ss, rest) => (ss.map Entry.mk, rest)

structure LayoutDraft where
  source : Option Path := none
  destination : Option Path := none
  files : Option (List Entry) := none

def layoutShape : Shape LayoutDraft Layout where
  expected := .layout
  empty := {}
  fields := [
    .of "source" (·.source.isSome) (fun p d => { d with source := some p }) path,
    .of "destination" (·.destination.isSome) (fun p d => { d with destination := some p }) path,
    .of "files" (·.files.isSome) (fun es d => { d with files := some es }) entries]
  finish d := do
    let source ← required "source" d.source
    let destination ← required "destination" d.destination
    return { source, destination, files := d.files.getD [] }

structure SettingsDraft where
  output : Option Entry := none
  undefMacro : Option String := none
  fragmentSuffixes : Option (List String) := none

def settingsShape : Shape SettingsDraft AggregateSettings where
  expected := .settings
  empty := {}
  fields := [
    .of "output" (·.output.isSome) (fun e d => { d with output := some e }) entry,
    .of "undef_macro" (·.undefMacro.isSome) (fun s d => { d with undefMacro := some s }) word,
    .of "fragment_suffixes" (·.fragmentSuffixes.isSome)
      (fun ss d => { d with fragmentSuffixes := some ss }) texts]
  finish d :=
    let standard : AggregateSettings := {}
    .ok {
      output := d.output.getD standard.output
      undefMacro := d.undefMacro.getD standard.undefMacro
      fragmentSuffixes := d.fragmentSuffixes.getD standard.fragmentSuffixes }

structure ManifestDraft where
  aggregate : Option AggregateSettings := none
  headers : Option Layout := none
  sources : Option Layout := none
  tests : Option Layout := none

def manifestShape : Shape ManifestDraft Manifest where
  expected := .manifest
  empty := {}
  fields := [
    .of "amalgamation" (·.aggregate.isSome) (fun s d => { d with aggregate := some s })
      settingsShape.read,
    .of "headers" (·.headers.isSome) (fun l d => { d with headers := some l }) layoutShape.read,
    .of "sources" (·.sources.isSome) (fun l d => { d with sources := some l }) layoutShape.read,
    .of "tests" (·.tests.isSome) (fun l d => { d with tests := some l }) layoutShape.read]
  finish d := do
    let headers ← required "headers" d.headers
    let sources ← required "sources" d.sources
    let tests ← required "tests" d.tests
    return { aggregate := d.aggregate.getD {}, headers, sources, tests }

end Reading

/-- The manifest that a document holds. -/
def ofDocument (doc : Document) : Except Unreadable Manifest := do
  let (m, _) ← Reading.manifestShape.read doc [] doc.items
  match doc.ending with
  | .whole => return m
  | .anotherDocument => .error .anotherDocument
  | .problem p => .error (.malformed p)
  | .unknownAnchor mark => .error (.unknownAnchor mark)

/-- The manifest that a text holds, valid or not. -/
def ofText (text : String) : Except Unreadable Manifest :=
  ofDocument (Document.ofText text.toList)

end Manifest

end Vendoring
