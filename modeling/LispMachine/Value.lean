import LispMachine.Fixnum

/-!
# Values

A value is an immediate (nil, an integer, a symbol) or refers to a cell of the heap:

* `Value.pair a`, `Value.object a` -- the cell at address `a`, read as a pair or as a typed
  object; two references are the same value when kind and address agree;
* `Value.addr?` -- the address of a reference, none for an immediate;
* `Value.int`, `Value.sym` carry their content, so they are never traced.

What a reference holds is a matter of the heap (`LispMachine.Heap`).
-/

namespace LispMachine

/-- Address of a cell. -/
abbrev Addr := Nat

/-- Position of a name in the symbol table. -/
abbrev SymbolId := Nat

/-- A value of the machine. -/
inductive Value where
  | nil
  | int (n : Fixnum)
  | sym (id : SymbolId)
  | pair (a : Addr)
  | object (a : Addr)
  deriving DecidableEq, Repr, Inhabited

namespace Value

/-! ## 1. Tests -/

/-- The empty list, which is also falsity. -/
def isNil : Value → Bool
  | nil => true
  | _ => false

def isInt : Value → Bool
  | int _ => true
  | _ => false

def isSym : Value → Bool
  | sym _ => true
  | _ => false

def isPair : Value → Bool
  | pair _ => true
  | _ => false

def isObject : Value → Bool
  | object _ => true
  | _ => false

/-- Everything but nil counts as true. -/
def isTruthy (v : Value) : Bool := !v.isNil

/-! ## 2. Contents -/

/-- The integer, if the value is one. -/
def int? : Value → Option Fixnum
  | int n => some n
  | _ => none

/-- The symbol's id, if the value is one. -/
def sym? : Value → Option SymbolId
  | sym id => some id
  | _ => none

/-- The address a reference points to; none for an immediate. -/
def addr? : Value → Option Addr
  | pair a => some a
  | object a => some a
  | _ => none

/-- Short text of an immediate; references have none. -/
def immediateText? : Value → Option String
  | nil => some "nil"
  | int n => some ("int(" ++ n.text ++ ")")
  | sym id => some ("sym#" ++ toString id)
  | pair _ => none
  | object _ => none

end Value

/-- Largest id a symbol may carry. -/
def greatestSymbolId : Nat := 0x3FFFFFFF

end LispMachine
