import Vendoring.Manifest.Basic
import Vendoring.Yaml.Written

/-!
# Writing a manifest

The text of a manifest: two levels of mappings, with one line for every
element of a list.
-/

namespace Vendoring

open Yaml

namespace Manifest

namespace Writing

/-- A key of the outer mapping. -/
def heading (name : String) : List Char :=
  name.toList ++ [':', '\n']

/-- Text inside an inner mapping is indented deeper than its key. -/
def textIndent : Nat := 4

def textField (name text : String) : List Char :=
  ' ' :: ' ' :: name.toList ++ ':' :: writtenScalar textIndent text.toList

def element (text : String) : List Char :=
  ' ' :: ' ' :: '-' :: writtenScalar textIndent text.toList

def listField (name : String) (texts : List String) : List Char :=
  ' ' :: ' ' :: name.toList ++ ':' ::
    if texts.isEmpty then [' ', '[', ']', '\n'] else '\n' :: texts.flatMap element

def layout (name : String) (l : Layout) : List Char :=
  heading name ++ textField "source" l.source.text
    ++ textField "destination" l.destination.text
    ++ listField "files" (l.files.map Entry.text)

def settings (s : AggregateSettings) : List Char :=
  heading "amalgamation" ++ textField "output" s.output.text
    ++ textField "undef_macro" s.undefMacro
    ++ listField "fragment_suffixes" s.fragmentSuffixes

end Writing

/-- The text of a manifest. -/
def toText (m : Manifest) : String :=
  String.ofList <|
    Writing.settings m.aggregate ++ Writing.layout "headers" m.headers
      ++ Writing.layout "sources" m.sources ++ Writing.layout "tests" m.tests

end Manifest

end Vendoring
