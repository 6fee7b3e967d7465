import Vendoring.Yaml.Event

/-!
# Documents

The one document that a text is expected to hold: its collections and
scalars in order, with every alias resolved to the place of its anchor. A
document may end early, in a fault or at an alias without anchor; what stood
before is kept, because a reader may find fault with that first.
-/

namespace Vendoring.Yaml

inductive Item
  | alias (anchor : Nat)
  | scalar (scalar : Scalar)
  | sequenceStart
  | sequenceEnd
  | mappingStart
  | mappingEnd
  | absent
  deriving DecidableEq, Repr

/-- How a document ended: with the text, in front of another document, in a
fault, or at an alias whose anchor is not known. -/
inductive Ending
  | whole
  | anotherDocument
  | problem (p : Problem)
  | unknownAnchor (m : Mark)
  deriving DecidableEq, Repr

structure Document where
  items : List (Item × Mark)
  places : List (Nat × Nat)
  ending : Ending
  deriving Repr

namespace Document

/-- A document under way. `items` is reversed; `anchors` gives the number of
every name, and `places` the position of every number. -/
structure Draft where
  items : List (Item × Mark) := []
  anchors : List (List Char × Nat) := []
  places : List (Nat × Nat) := []

namespace Draft

def add (d : Draft) (item : Item) (m : Mark) : Draft :=
  { d with items := (item, m) :: d.items }

/-- Notes that the next item is named. The number of an anchor is the count
of the names known before it. -/
def name (d : Draft) : Option (List Char) → Draft
  | none => d
  | some name =>
    let number := d.anchors.length
    { d with
      anchors := (name, number) :: d.anchors.filter (·.1 != name)
      places := (number, d.items.length) :: d.places }

def finish (d : Draft) (ending : Ending) : Document :=
  ⟨d.items.reverse, d.places, ending⟩

end Draft

/-- Collects the first document. A text without documents has one item,
which says so. -/
def collect (problem : Option Problem) (d : Draft) : List (Event × Mark) → Document
  | [] => d.finish (match problem with
    | some p => .problem p
    | none => .whole)
  | (event, m) :: rest =>
    match event with
    | .streamStart | .documentStart => collect problem d rest
    | .streamEnd => (if d.items.isEmpty then d.add .absent m else d).finish .whole
    | .documentEnd =>
      match rest with
      | (.streamEnd, _) :: _ => d.finish .whole
      | _ => d.finish .anotherDocument
    | .alias name =>
      match d.anchors.lookup name with
      | some number => collect problem (d.add (.alias number) m) rest
      | none => d.finish (.unknownAnchor m)
    | .scalar anchor s => collect problem ((d.name anchor).add (.scalar s) m) rest
    | .sequenceStart anchor => collect problem ((d.name anchor).add .sequenceStart m) rest
    | .sequenceEnd => collect problem (d.add .sequenceEnd m) rest
    | .mappingStart anchor => collect problem ((d.name anchor).add .mappingStart m) rest
    | .mappingEnd => collect problem (d.add .mappingEnd m) rest

def ofEvents (s : EventStream) : Document :=
  collect s.problem {} s.events

def ofText (text : List Char) : Document :=
  ofEvents (EventStream.ofText text)

/-- The items from the place of an anchor on. -/
def itemsAt (d : Document) (anchor : Nat) : List (Item × Mark) :=
  match d.places.lookup anchor with
  | some place => d.items.drop place
  | none => []

end Document

end Vendoring.Yaml
