import Vendoring.Manifest.Basic

/-!
# The aggregate unit

Every sources entry that is no fragment becomes a pair of lines in one
compilation unit: its inclusion, then the end of the macro that it may have
defined. Fragments are vendored and never compiled on their own.
-/

namespace Vendoring

namespace Aggregate

inductive Inclusion
  | included (entry : Entry)
  | excluded (entry : Entry)
  deriving DecidableEq, Repr

/-- Inclusion decisions in manifest order. -/
abbrev Plan := List Inclusion

namespace Plan

def ofEntries (settings : AggregateSettings) (entries : List Entry) : Plan :=
  entries.map fun e => if settings.isFragment e then .excluded e else .included e

def included (p : Plan) : List Entry :=
  p.filterMap fun
    | .included e => some e
    | .excluded _ => none

def excluded (p : Plan) : List Entry :=
  p.filterMap fun
    | .included _ => none
    | .excluded e => some e

theorem included_ofEntries (settings : AggregateSettings) (entries : List Entry) :
    (ofEntries settings entries).included
      = entries.filter fun e => !settings.isFragment e := by
  induction entries with
  | nil => rfl
  | cons e rest ih =>
    rw [List.filter_cons, ← ih]
    cases hfragment : settings.isFragment e <;> simp [ofEntries, included, hfragment]

end Plan

/-- The two lines of one included file, both texts as they are. -/
def pair (undefMacro path : String) : String :=
  "#include \"" ++ path ++ "\"\n#undef " ++ undefMacro ++ "\n"

/-- The text of a unit that includes `paths`. -/
def unitText (undefMacro : String) (paths : List String) : String :=
  String.join (paths.map (pair undefMacro))

def Plan.unitText (p : Plan) (settings : AggregateSettings) : String :=
  Aggregate.unitText settings.undefMacro (p.included.map Entry.text)

/-- The unit that a sources category calls for. -/
def expected (sources : Category) (settings : AggregateSettings) : String :=
  (Plan.ofEntries settings sources.entries).unitText settings

end Aggregate

end Vendoring
