/-!
# Complete text

`isComplete` tells, without reading, whether every list and every string that a text opens is
closed again. It follows the text character by character (`Scan.step`); a closing parenthesis
too many is passed over.
-/

namespace LispMachine

/-- What a character of the source belongs to. -/
inductive Region where
  | code
  | comment
  | text
  /-- The character after a backslash in a string. -/
  | escape
  deriving DecidableEq, Repr

/-- Where a scan has got to: the number of open lists, and the region. -/
structure Scan where
  lists : Nat := 0
  region : Region := .code
  deriving DecidableEq, Repr

namespace Scan

/-- Goes over one character. -/
def step (s : Scan) (c : Char) : Scan :=
  match s.region with
  | .comment => if c = '\n' then { s with region := .code } else s
  | .escape => { s with region := .text }
  | .text =>
    if c = '\\' then { s with region := .escape }
    else if c = '"' then { s with region := .code }
    else s
  | .code =>
    if c = '"' then { s with region := .text }
    else if c = '(' then { s with lists := s.lists + 1 }
    else if c = ')' then { s with lists := s.lists - 1 }
    else if c = ';' then { s with region := .comment }
    else s

/-- Nothing is open. -/
def isClosed (s : Scan) : Bool :=
  s.lists = 0 && (s.region = .code || s.region = .comment)

end Scan

/-- Every list and string that is opened is closed. -/
def isComplete (src : List Char) : Bool := (src.foldl Scan.step {}).isClosed

end LispMachine
