import Vendoring.Manifest.Basic

/-!
# Valid manifests

A manifest is valid when every entry and the output of the aggregate are
safe names, the macro is an identifier, no fragment suffix is empty, and no
entry is written to the path of the aggregate unit.
-/

namespace Vendoring

namespace Manifest

/-- Why a manifest is refused. -/
inductive Invalid
  | entry (kind : Kind) (entry : Entry) (flaw : Entry.Flaw)
  | output (output : Entry) (flaw : Entry.Flaw)
  | undefMacro (name : String)
  | emptySuffix
  | collision (kind : Kind) (entry : Entry)
  deriving DecidableEq, Repr

def Invalid.message : Invalid → String
  | .entry kind e flaw =>
    "invalid " ++ kind.label ++ " entry '" ++ e.text ++ "': " ++ flaw.message
  | .output e flaw =>
    "invalid amalgamation settings: output '" ++ e.text ++ "': " ++ flaw.message
  | .undefMacro name =>
    "invalid amalgamation settings: '" ++ name ++ "' is not a C identifier"
  | .emptySuffix =>
    "invalid amalgamation settings: fragment suffixes must not be empty"
  | .collision kind e =>
    kind.label ++ " entry '" ++ e.text ++ "' resolves to the amalgamation output path"

/-- An identifier of C: ASCII letters, digits and underscores, and no digit
in front. -/
def isIdentifier (name : String) : Bool :=
  match name.toList with
  | [] => false
  | c :: rest =>
    (c == '_' || c.isAlpha) && rest.all fun d => d == '_' || d.isAlphanum

def invalidEntry? (m : Manifest) (kind : Kind) : Option Invalid :=
  (m.layout kind).files.findSome? fun e => e.flaw?.map (.entry kind e)

def invalidAggregate? (s : AggregateSettings) : Option Invalid :=
  match s.output.flaw? with
  | some flaw => some (.output s.output flaw)
  | none =>
    if !isIdentifier s.undefMacro then some (.undefMacro s.undefMacro)
    else if "" ∈ s.fragmentSuffixes then some .emptySuffix
    else none

/-- The first entry of `kind` whose destination is that of the aggregate
unit, both taken below the destination root. -/
def collision? (m : Manifest) (kind : Kind) : Option Invalid :=
  let unit := m.sources.destination.join m.aggregate.output.toPath
  ((m.layout kind).files.find? fun e =>
    decide (((m.layout kind).destination.join e.toPath).Same unit)).map (.collision kind)

/-- The first reason to refuse the manifest, if there is one. -/
def invalid? (m : Manifest) : Option Invalid :=
  Kind.all.findSome? m.invalidEntry?
    <|> invalidAggregate? m.aggregate
    <|> Kind.all.findSome? m.collision?

end Manifest

end Vendoring
