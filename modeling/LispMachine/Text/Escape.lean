import LispMachine.Text.Invisible

/-!
# Texts between quotes

`Text.escaped` writes a text between double quotes so that each of its characters can be told:
quotes, backslashes and some controls have short escapes, and every other character that does
not show is written by its code point.
-/

namespace LispMachine.Text

/-- A code point in braces, in hexadecimal. -/
def codePoint (c : Char) : String :=
  "\\u\x7b" ++ String.ofList (Nat.toDigits 16 c.toNat) ++ "\x7d"

/-- A character as it is written between quotes. -/
def escapedChar (c : Char) : String :=
  match c with
  | '\x00' => "\\0"
  | '\t' => "\\t"
  | '\r' => "\\r"
  | '\n' => "\\n"
  | '\\' => "\\\\"
  | '"' => "\\\""
  | _ => if isInvisible c then codePoint c else c.toString

/-- A text between double quotes. -/
def escaped (s : String) : String := "\"" ++ String.join (s.toList.map escapedChar) ++ "\""

end LispMachine.Text
