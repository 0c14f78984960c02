import LispMachine.Context
import LispMachine.Text.Lossy

/-!
# Printing

A value is printed the way the reader would take it back, where there is such a text. Two limits
keep the text finite on any heap:

* `Printer.maxDepth` -- what lies deeper prints as `...`; elements and the tail of a list lie one
  deeper than the list;
* `Printer.maxElements` -- a longer list ends in ` ...`;
* `Printer.write` -- appends the text of a value, by recursion on the room that is left below;
  `Printer.writeSpine` walks along one list;
* `Context.display` -- the text of a value.
-/

namespace LispMachine

namespace Printer

/-! ## 1. Limits and pieces -/

/-- Values nested deeper than this are cut off. -/
def maxDepth : Nat := 128

/-- Elements of a list past this number are cut off. -/
def maxElements : Nat := 100000

/-- What stands for a value that is cut off. -/
def ellipsis : String := "..."

/-- A character of a string as it is written between quotes. -/
def escapeChar : Char → List Char
  | '"' => ['\\', '"']
  | '\\' => ['\\', '\\']
  | '\n' => ['\\', 'n']
  | '\t' => ['\\', 't']
  | c => [c]

/-- A string between quotes. -/
def quoted (s : String) : String := "\"" ++ String.ofList (s.toList.flatMap escapeChar) ++ "\""

/-- A symbol: its name, or its id if it has none. -/
def symbolText (symbols : SymbolTable) (id : SymbolId) : String :=
  match symbols.name? id with
  | some name => name
  | none => "#<sym " ++ toString id ++ ">"

/-- An object that has no text of its own: a word, and a name if there is one. -/
def bracketed (word : String) (name? : Option String) : String :=
  match name? with
  | some name => "#<" ++ word ++ " " ++ name ++ ">"
  | none => "#<" ++ word ++ ">"

/-- An object, by its type. -/
def objectText (h : Heap) (symbols : SymbolTable) (v : Value) : String :=
  match CoreType.ofId? (h.typeOf v) with
  | some .str => quoted (Text.ofBytes ((h.bytes? v).getD .empty))
  | some .func => bracketed "func" ((h.nth (h.closureParts v) 3).sym?.bind symbols.name?)
  | some .native => bracketed "native" ((h.procedure? v).map Procedure.name)
  | _ => bracketed (h.types.name (h.typeOf v)) none

/-! ## 2. Values -/

/-- The end of a list: what follows the last pair, unless it is nil, and the parenthesis. -/
def writeEnd (item : String → Value → String) (out : String) (last : Value) : String :=
  (if last.isNil then out else item (out ++ " . ") last) ++ ")"

/-- A list from the pair `v` on, without the opening parenthesis; after its first element at most
    `more` elements are written. -/
def writeSpine (h : Heap) (item : String → Value → String) (more : Nat) (out : String)
    (v : Value) : String :=
  let out := item out (h.car v)
  let next := h.cdr v
  if next.isPair then
    match more with
    | 0 => out ++ " ...)"
    | more + 1 => writeSpine h item more (out.push ' ') next
  else writeEnd item out next

/-- Appends the text of a value, with `room` levels left. -/
def write (h : Heap) (symbols : SymbolTable) : Nat → String → Value → String
  | 0, out, _ => out ++ ellipsis
  | _ + 1, out, .nil => out ++ "()"
  | _ + 1, out, .int n => out ++ n.text
  | _ + 1, out, .sym id => out ++ symbolText symbols id
  | _ + 1, out, .object a => out ++ objectText h symbols (.object a)
  | room + 1, out, .pair a =>
    writeSpine h (write h symbols room) (maxElements - 1) (out.push '(') (.pair a)

end Printer

/-- The text of a value. -/
def Context.display (c : Context) (v : Value) : String :=
  Printer.write c.heap c.symbols (Printer.maxDepth + 1) "" v

end LispMachine
