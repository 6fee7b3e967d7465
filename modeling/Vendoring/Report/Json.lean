import Vendoring.Text.Quoted

/-!
# JSON for readers

Values laid out over several lines, each level indented by two columns.
-/

namespace Vendoring.Report

inductive Json
  | text (s : String)
  | number (n : Nat)
  | boolean (b : Bool)
  | array (elements : List Json)
  | object (fields : List (String × Json))

namespace Json

/-- A character between the quotes. Controls without a letter of their own
are written by their code point. -/
def escapedChar (c : Char) : String :=
  if c == '"' then "\\\""
  else if c == '\\' then "\\\\"
  else if c == '\n' then "\\n"
  else if c == '\r' then "\\r"
  else if c == '\t' then "\\t"
  else if c == '\x08' then "\\b"
  else if c == '\x0c' then "\\f"
  else if c.toNat < 0x10 then "\\u000" ++ hexText c.toNat
  else if c.toNat < 0x20 then "\\u00" ++ hexText c.toNat
  else String.singleton c

def quotedText (s : String) : String :=
  "\"" ++ String.join (s.toList.map escapedChar) ++ "\""

def margin (depth : Nat) : String :=
  String.ofList (List.replicate (2 * depth) ' ')

mutual

def pretty (depth : Nat) : Json → String
  | .text s => quotedText s
  | .number n => toString n
  | .boolean b => toString b
  | .array [] => "[]"
  | .array (x :: xs) =>
    "[\n" ++ prettyElements (depth + 1) (x :: xs) ++ "\n" ++ margin depth ++ "]"
  | .object [] => "\x7b\x7d"
  | .object (f :: fs) =>
    "\x7b\n" ++ prettyFields (depth + 1) (f :: fs) ++ "\n" ++ margin depth ++ "\x7d"

def prettyElements (depth : Nat) : List Json → String
  | [] => ""
  | [x] => margin depth ++ pretty depth x
  | x :: xs => margin depth ++ pretty depth x ++ ",\n" ++ prettyElements depth xs

def prettyFields (depth : Nat) : List (String × Json) → String
  | [] => ""
  | [(name, x)] => margin depth ++ quotedText name ++ ": " ++ pretty depth x
  | (name, x) :: fs =>
    margin depth ++ quotedText name ++ ": " ++ pretty depth x ++ ",\n" ++ prettyFields depth fs

end

end Json

end Vendoring.Report
