/-!
# Clipping a text

`Text.clip` cuts a text to the longest prefix that fits into a number of bytes and ends between
two characters.
-/

namespace LispMachine.Text

/-- The longest prefix whose characters fit into `room` bytes. -/
def clipChars (room : Nat) : List Char → List Char
  | [] => []
  | c :: cs => if c.utf8Size ≤ room then c :: clipChars (room - c.utf8Size) cs else []

/-- The longest prefix of at most `room` bytes. -/
def clip (room : Nat) (s : String) : String := String.ofList (clipChars room s.toList)

end LispMachine.Text
