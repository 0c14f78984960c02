import LispMachine.ObjectType
import LispMachine.Value

/-!
# Cells

A cell of the heap is free, or holds a pair, or holds a typed object. What an object holds is
its payload:

* `Payload.closure parts` -- a function: the list of its environment, parameters, body and name;
* `Payload.procedure p` -- a native procedure (`Procedure`: one of the machine's own primitives,
  or one that the embedding program supplies under a name);
* `Payload.text bytes` -- a string;
* `Payload.word n` -- a number that means something outside the machine only. An object of a core
  type whose payload is such a number holds nothing.
-/

namespace LispMachine

/-! ## 1. Procedures -/

/-- Argument shape of a native procedure. -/
structure Arity where
  required : Nat
  optional : Nat
  rest : Bool
  deriving DecidableEq, Repr

/-- How many arguments a native of this arity receives. -/
def Arity.slots (a : Arity) : Nat := a.required + a.optional + if a.rest then 1 else 0

/-- The most required and optional arguments a native may declare together. -/
def Arity.most : Nat := 4

/-- The native procedures the machine comes with. -/
inductive Primitive where
  | add | mul | sub | quotient | remainder
  | eq | lt | gt | le | ge
  | cons | car | cdr | setCar | setCdr | list | listRef | length
  | isNil | isCons | isSym | isInt | isStr | isFunc | not | same | equal
  | strLen | apply | print | gc
  deriving DecidableEq, Repr

namespace Primitive

/-- The primitives in the order in which a new context binds them. -/
def all : List Primitive :=
  [add, mul, sub, quotient, remainder, eq, lt, gt, le, ge,
    cons, car, cdr, setCar, setCdr, list, listRef, length,
    isNil, isCons, isSym, isInt, isStr, isFunc, not, same, equal,
    strLen, apply, print, gc]

/-- The name a primitive is bound to, which its failures also begin with. -/
def name : Primitive → String
  | add => "+" | mul => "*" | sub => "-" | quotient => "quotient" | remainder => "remainder"
  | eq => "=" | lt => "<" | gt => ">" | le => "<=" | ge => ">="
  | cons => "cons" | car => "car" | cdr => "cdr" | setCar => "set-car!" | setCdr => "set-cdr!"
  | list => "list" | listRef => "list-ref" | length => "length"
  | isNil => "nil?" | isCons => "cons?" | isSym => "sym?" | isInt => "int?" | isStr => "str?"
  | isFunc => "func?" | not => "not" | same => "eq?" | equal => "equal?"
  | strLen => "str-len" | apply => "apply" | print => "print" | gc => "gc"

/-- The arguments a primitive takes. -/
def arity : Primitive → Arity
  | add | mul | list | print => ⟨0, 0, true⟩
  | sub | eq | lt | gt | le | ge => ⟨1, 0, true⟩
  | car | cdr | length | isNil | isCons | isSym | isInt | isStr | isFunc | not | strLen =>
    ⟨1, 0, false⟩
  | quotient | remainder | cons | setCar | setCdr | listRef | same | equal | apply => ⟨2, 0, false⟩
  | gc => ⟨0, 0, false⟩

end Primitive

/-- A native procedure. -/
inductive Procedure where
  /-- One the machine comes with. -/
  | primitive (p : Primitive)
  /-- One bound to `name` that the embedding program supplies under `entry`. -/
  | hosted (name : String) (arity : Arity) (entry : String)
  deriving DecidableEq, Repr

namespace Procedure

/-- The name a procedure was bound to. -/
def name : Procedure → String
  | primitive p => p.name
  | hosted name _ _ => name

/-- The arguments a procedure takes. -/
def arity : Procedure → Arity
  | primitive p => p.arity
  | hosted _ arity _ => arity

end Procedure

/-! ## 2. Objects and cells -/

/-- What an object holds. -/
inductive Payload where
  | word (n : Nat)
  | closure (parts : Value)
  | procedure (p : Procedure)
  | text (bytes : ByteArray)
  deriving Inhabited

/-- A cell of the heap. -/
inductive Cell where
  /-- On the free list of its chunk, in front of the cell `next`. -/
  | free (next : Option Addr)
  | pair (car cdr : Value)
  | object (type : TypeId) (payload : Payload)
  deriving Inhabited

/-- The cell is on no free list. -/
@[inline] def Cell.isAllocated : Cell → Bool
  | free _ => false
  | pair _ _ => true
  | object _ _ => true

end LispMachine
