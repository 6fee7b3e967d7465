import Vendoring.Yaml.Mark

/-!
# Tokens

A YAML text is a sequence of tokens, each with the marks before and behind
it. The start and the end of a block are tokens too, although no character
stands for them: they record a change of indentation.
-/

namespace Vendoring.Yaml

/-- How a scalar is written. -/
inductive ScalarStyle
  | plain
  | singleQuoted
  | doubleQuoted
  | literal
  | folded
  deriving DecidableEq, Repr

inductive Token.Kind
  | streamStart
  | streamEnd
  | versionDirective (major minor : Nat)
  | tagDirective (handle tagPrefix : List Char)
  | documentStart
  | documentEnd
  | blockSequenceStart
  | blockMappingStart
  | blockEnd
  | flowSequenceStart
  | flowSequenceEnd
  | flowMappingStart
  | flowMappingEnd
  | blockEntry
  | flowEntry
  | key
  | value
  | alias (name : List Char)
  | anchor (name : List Char)
  | tag (handle suffix : List Char)
  | scalar (text : List Char) (style : ScalarStyle)
  deriving DecidableEq, Repr

structure Token where
  kind : Token.Kind
  start : Mark
  finish : Mark
  deriving DecidableEq, Repr

end Vendoring.Yaml
