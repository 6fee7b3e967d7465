import Vendoring.Entry

/-!
# Manifests

A manifest says which files are vendored: three categories, each with a
directory under the source root, a directory under the destination root and
the entries it carries, and the settings of the aggregate unit. Binding a
manifest to two concrete roots gives its categories.
-/

namespace Vendoring

inductive Kind
  | headers
  | sources
  | tests
  deriving DecidableEq, Repr

namespace Kind

/-- The kinds in the order in which they are processed. -/
def all : List Kind := [.headers, .sources, .tests]

def label : Kind → String
  | .headers => "headers"
  | .sources => "sources"
  | .tests => "tests"

end Kind

structure Layout where
  source : Path
  destination : Path
  files : List Entry
  deriving DecidableEq, Repr

/-- `output` is relative to the destination of the sources; `undefMacro` is
undefined after every inclusion; an entry that ends in a fragment suffix is
copied and never included. -/
structure AggregateSettings where
  output : Entry := ⟨"Support.cpp"⟩
  undefMacro : String := "DEBUG_TYPE"
  fragmentSuffixes : List String := [".inc"]
  deriving DecidableEq, Repr

def AggregateSettings.isFragment (s : AggregateSettings) (e : Entry) : Bool :=
  s.fragmentSuffixes.any fun suffix => suffix.toList.isSuffixOf e.text.toList

structure Manifest where
  aggregate : AggregateSettings
  headers : Layout
  sources : Layout
  tests : Layout
  deriving DecidableEq, Repr

/-- A category bound to concrete roots. -/
structure Category where
  kind : Kind
  sourceRoot : Path
  destinationRoot : Path
  entries : List Entry
  deriving DecidableEq, Repr

namespace Category

def sourcePath (c : Category) (e : Entry) : Path :=
  c.sourceRoot.join e.toPath

def destinationPath (c : Category) (e : Entry) : Path :=
  c.destinationRoot.join e.toPath

/-- Where the aggregate unit of a sources category stands. -/
def aggregatePath (sources : Category) (settings : AggregateSettings) : Path :=
  sources.destinationPath settings.output

end Category

namespace Manifest

def layout (m : Manifest) : Kind → Layout
  | .headers => m.headers
  | .sources => m.sources
  | .tests => m.tests

/-- One category, bound to a source root and a destination root. -/
def category (m : Manifest) (kind : Kind) (source destination : Path) : Category where
  kind := kind
  sourceRoot := source.join (m.layout kind).source
  destinationRoot := destination.join (m.layout kind).destination
  entries := (m.layout kind).files

def categories (m : Manifest) (source destination : Path) : List Category :=
  Kind.all.map fun kind => m.category kind source destination

/-- The entries that stand more than once. An entry that has not been `seen` is
noted, and one that has been is given, unless it is among those `told` before. -/
def repeatedAfter (seen told : List Entry) : List Entry → List Entry
  | [] => []
  | e :: rest =>
    if e ∉ seen then repeatedAfter (e :: seen) told rest
    else if e ∉ told then e :: repeatedAfter seen (e :: told) rest
    else repeatedAfter seen told rest

/-- Entries listed more than once in one category, each reported once. -/
def duplicates (m : Manifest) : List (Kind × Entry) :=
  Kind.all.flatMap fun kind =>
    (repeatedAfter [] [] (m.layout kind).files).map fun e => (kind, e)

end Manifest

end Vendoring
