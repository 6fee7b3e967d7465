import Vendoring.Text.Visible

/-!
# Quoted text

The form in which a message shows a text that a user wrote: between double
quotes, with a backslash in front of quotes and backslashes, names for the
common controls, and the code point of everything else that would not be
visible.
-/

namespace Vendoring

/-- Lower-case hexadecimal digits, without leading zeros. -/
def hexText (n : Nat) : String :=
  String.ofList (Nat.toDigits 16 n)

def quotedChar (c : Char) : String :=
  if c == '"' then "\\\""
  else if c == '\\' then "\\\\"
  else if c == '\n' then "\\n"
  else if c == '\r' then "\\r"
  else if c == '\t' then "\\t"
  else if c == '\x00' then "\\0"
  else if isShownAsItself c then String.singleton c
  else "\\u\x7b" ++ hexText c.toNat ++ "\x7d"

def quoted (s : String) : String :=
  "\"" ++ String.join (s.toList.map quotedChar) ++ "\""

end Vendoring
