import Vendoring.Yaml.Mark

/-!
# Malformed text

What can be wrong with a text that should be YAML, where it went wrong, and
what was being read at the time.
-/

namespace Vendoring.Yaml

inductive Fault
  | keyWithoutColon
  | noTokenStart
  | entryNotAllowed
  | keyNotAllowed
  | valueNotAllowed
  | unknownDirective
  | commentOrBreakExpected
  | directiveNameExpected
  | directiveNameNotAlphabetic
  | versionSeparatorExpected
  | versionTooLong
  | versionNumberExpected
  | blankExpected
  | blankOrBreakExpected
  | anchorNameExpected
  | closingAngleExpected
  | bangExpected
  | uriExpected
  | uriOctetExpected
  | uriLeadingOctet
  | uriTrailingOctet
  | zeroIndentation
  | tabInIndentation
  | documentIndicatorInQuotes
  | endInQuotes
  | unknownEscape
  | hexDigitExpected
  | invalidEscapeCode
  | unexpectedColon
  | tabViolatesIndentation
  | documentStartExpected
  | undefinedTagHandle
  | contentExpected
  | dashExpected
  | keyExpected
  | sequenceEndExpected
  | mappingEndExpected
  | duplicateVersion
  | incompatibleVersion
  | duplicateTagDirective
  deriving DecidableEq, Repr

def Fault.message : Fault → String
  | .keyWithoutColon => "could not find expected ':'"
  | .noTokenStart => "found character that cannot start any token"
  | .entryNotAllowed => "block sequence entries are not allowed in this context"
  | .keyNotAllowed => "mapping keys are not allowed in this context"
  | .valueNotAllowed => "mapping values are not allowed in this context"
  | .unknownDirective => "found unknown directive name"
  | .commentOrBreakExpected => "did not find expected comment or line break"
  | .directiveNameExpected => "could not find expected directive name"
  | .directiveNameNotAlphabetic => "found unexpected non-alphabetical character"
  | .versionSeparatorExpected => "did not find expected digit or '.' character"
  | .versionTooLong => "found extremely long version number"
  | .versionNumberExpected => "did not find expected version number"
  | .blankExpected => "did not find expected whitespace"
  | .blankOrBreakExpected => "did not find expected whitespace or line break"
  | .anchorNameExpected => "did not find expected alphabetic or numeric character"
  | .closingAngleExpected => "did not find the expected '>'"
  | .bangExpected => "did not find expected '!'"
  | .uriExpected => "did not find expected tag URI"
  | .uriOctetExpected => "did not find URI escaped octet"
  | .uriLeadingOctet => "found an incorrect leading UTF-8 octet"
  | .uriTrailingOctet => "found an incorrect trailing UTF-8 octet"
  | .zeroIndentation => "found an indentation indicator equal to 0"
  | .tabInIndentation => "found a tab character where an indentation space is expected"
  | .documentIndicatorInQuotes => "found unexpected document indicator"
  | .endInQuotes => "found unexpected end of stream"
  | .unknownEscape => "found unknown escape character"
  | .hexDigitExpected => "did not find expected hexadecimal number"
  | .invalidEscapeCode => "found invalid Unicode character escape code"
  | .unexpectedColon => "found unexpected ':'"
  | .tabViolatesIndentation => "found a tab character that violates indentation"
  | .documentStartExpected => "did not find expected <document start>"
  | .undefinedTagHandle => "found undefined tag handle"
  | .contentExpected => "did not find expected node content"
  | .dashExpected => "did not find expected '-' indicator"
  | .keyExpected => "did not find expected key"
  | .sequenceEndExpected => "did not find expected ',' or ']'"
  | .mappingEndExpected => "did not find expected ',' or '\x7d'"
  | .duplicateVersion => "found duplicate %YAML directive"
  | .incompatibleVersion => "found incompatible YAML document"
  | .duplicateTagDirective => "found duplicate %TAG directive"

/-- What was being read. -/
inductive Context
  | simpleKey
  | nextToken
  | directive
  | yamlDirective
  | tagDirective
  | tagDirectiveHandle
  | tagDirectiveBang
  | tagDirectivePrefix
  | anchor
  | alias
  | tag
  | tagUri
  | blockScalar
  | quotedScalar
  | escape
  | plainScalar
  | node
  | blockNode
  | flowNode
  | blockSequence
  | blockMapping
  | flowSequence
  | flowMapping
  deriving DecidableEq, Repr

def Context.message : Context → String
  | .simpleKey => "while scanning a simple key"
  | .nextToken => "while scanning for the next token"
  | .directive => "while scanning a directive"
  | .yamlDirective => "while scanning a %YAML directive"
  | .tagDirective => "while scanning a %TAG directive"
  | .tagDirectiveHandle => "while scanning a tag directive"
  | .tagDirectiveBang => "while parsing a tag directive"
  | .tagDirectivePrefix => "while parsing a %TAG directive"
  | .anchor => "while scanning an anchor"
  | .alias => "while scanning an alias"
  | .tag => "while scanning a tag"
  | .tagUri => "while parsing a tag"
  | .blockScalar => "while scanning a block scalar"
  | .quotedScalar => "while scanning a quoted scalar"
  | .escape => "while parsing a quoted scalar"
  | .plainScalar => "while scanning a plain scalar"
  | .node => "while parsing a node"
  | .blockNode => "while parsing a block node"
  | .flowNode => "while parsing a flow node"
  | .blockSequence => "while parsing a block collection"
  | .blockMapping => "while parsing a block mapping"
  | .flowSequence => "while parsing a flow sequence"
  | .flowMapping => "while parsing a flow mapping"

/-- A character that no YAML text may hold, by its offset in bytes; or a
fault at a mark, with what was being read and where that began. -/
inductive Problem
  | forbiddenCharacter (offset : Nat)
  | fault (fault : Fault) (mark : Mark) (context : Option (Context × Mark))
  deriving DecidableEq, Repr

/-- The beginning of what was being read is mentioned unless it is the
origin or the place of the fault. -/
def contextText (mark : Mark) : Option (Context × Mark) → String
  | none => ""
  | some (context, start) =>
    ", " ++ context.message ++
      if start.sameSpot mark then "" else start.suffixText

def Problem.message : Problem → String
  | .forbiddenCharacter offset =>
    "control characters are not allowed" ++
      if offset = 0 then "" else " at position " ++ toString offset
  | .fault f mark context =>
    f.message ++ mark.suffixText ++ contextText mark context

end Vendoring.Yaml
