import LispMachine.Machine.Control

/-!
# The native procedures

What each primitive does with its arguments (`Primitive.run`). A primitive that takes any number
of arguments receives the rest of them as a list, which it walks as a spine:

* `Native.int?`, `Native.pair?`, `Native.length?` -- checks of one argument, each of which fails
  with the name of the procedure and the position of the argument;
* `Native.foldInts`, `Native.chainInts` -- arithmetic and comparison of any number of integers;
* `Native.listNth` -- the element at a position of a list.
-/

namespace LispMachine

open Context

namespace Native

/-! ## 1. Checks of arguments -/

/-- The text of a failure at an argument. -/
def argumentText (name : String) (position : Nat) (problem : String) : String :=
  name ++ ": argument " ++ toString position ++ " is " ++ problem

/-- The integer that an argument must be, in a word. -/
def int? (name : String) (position : Nat) (v : Value) : Run (Option Word) := do
  match v with
  | .int n => pure (some n.toWord)
  | _ =>
    let _ ← fail (argumentText name position "not an int")
    pure none

/-- An argument must be a pair. -/
def isPair (name : String) (position : Nat) (v : Value) : Run Bool := do
  if v.isPair then pure true
  else
    let _ ← fail (argumentText name position "not a pair")
    pure false

/-- The length of an argument that must be a proper list. -/
def length? (name : String) (position : Nat) (v : Value) : Run (Option Nat) := do
  match ← look (·.count v) with
  | .list length => pure (some length)
  | .improper =>
    let _ ← fail (argumentText name position "not a list")
    pure none
  | .circular =>
    let _ ← fail (argumentText name position "a circular list")
    pure none
  | .unfinished => throw .outOfSteps

/-- A walk along a spine that does not end does not come to a result. -/
def finish {α : Type} (spine : Spine) (result : α) : Run α :=
  match spine.ending with
  | .at _ => pure result
  | .endless => throw .outOfSteps

/-! ## 2. Integers -/

/-- Combines integers, the first of which is the argument at `position`. -/
def foldInts (name : String) (op : Word → Word → Word) (position : Nat) (acc : Word) :
    List Value → Run (Option Word)
  | [] => pure (some acc)
  | v :: vs => do
    match ← int? name position v with
    | some n => foldInts name op (position + 1) (op acc n) vs
    | none => pure none

/-- Combines the integers of a rest list. -/
def foldRest (name : String) (op : Word → Word → Word) (position : Nat) (acc : Word)
    (rest : Value) : Run Next := do
  let spine ← look (·.spine rest)
  match ← foldInts name op position acc spine.items with
  | some n => finish spine (.give (.int (.ofWord n)))
  | none => pure (.give .nil)

/-- Each integer is related to the next; the first of the list is the argument at `position`. All
    of them are checked to be integers. -/
def chainInts (name : String) (rel : Word → Word → Bool) (position : Nat) (holds : Bool)
    (previous : Word) : List Value → Run (Option Bool)
  | [] => pure (some holds)
  | v :: vs => do
    match ← int? name position v with
    | some n => chainInts name rel (position + 1) (holds && rel previous n) n vs
    | none => pure none

/-- Compares an integer and those of a rest list, each with the next. -/
def compare (name : String) (rel : Word → Word → Bool) (first rest : Value) : Run Next := do
  match ← int? name 1 first with
  | none => pure (.give .nil)
  | some n =>
    let spine ← look (·.spine rest)
    match ← chainInts name rel 2 true n spine.items with
    | some holds => finish spine (.give (← ofBool holds))
    | none => pure (.give .nil)

/-- Negates one integer, or subtracts from it those of a rest list. -/
def subtract (first rest : Value) : Run Next := do
  let name := Primitive.sub.name
  match ← int? name 1 first with
  | none => pure (.give .nil)
  | some n => if rest.isNil then pure (.give (.int (.ofWord (-n)))) else foldRest name (· - ·) 2 n rest

/-- Divides two integers, toward zero. -/
def divide (name : String) (op : Word → Word → Word) (a b : Value) : Run Next := do
  let x? ← int? name 1 a
  let y? ← int? name 2 b
  match x?, y? with
  | some x, some y =>
    if y = 0 then failNext (name ++ ": Division by zero") else pure (.give (.int (.ofWord (op x y))))
  | _, _ => pure (.give .nil)

/-! ## 3. Pairs and lists -/

/-- Gives something read off a pair. -/
def slot (name : String) (read : Heap → Value → Value) (p : Value) : Run Next := do
  if ← isPair name 1 p then pure (.give (← look (read · p))) else pure (.give .nil)

/-- Writes a slot of a pair. -/
def setSlot (name : String) (write : Value → Value → HeapM Unit) (p v : Value) : Run Next := do
  if ← isPair name 1 p then write p v
  pure (.give .nil)

/-- The element at a position of a list, from zero on. -/
def listNth (list index : Value) : Run Next := do
  let name := Primitive.listRef.name
  match ← length? name 1 list with
  | none => pure (.give .nil)
  | some length =>
    match ← int? name 2 index with
    | none => pure (.give .nil)
    | some i =>
      if i.toInt < 0 || length ≤ i.toInt.toNat then failNext (name ++ ": Index out of range")
      else pure (.give (← look (·.nth list i.toInt.toNat)))

/-! ## 4. Everything else -/

/-- Gives a truth value. -/
def test (b : Bool) : Run Next := do pure (.give (← ofBool b))

/-- What is printed for a value: a string as it is, everything else as it displays. -/
def printed (c : Context) (v : Value) : String :=
  match c.heap.bytes? v with
  | some bytes => Text.ofBytes bytes
  | none => c.display v

/-- Prints the values of a rest list on one line. -/
def print (rest : Value) : Run Next := do
  let spine ← look (·.spine rest)
  finish spine ()
  let line ← observe fun c => " ".intercalate (spine.items.map (printed c))
  write (line ++ "\n")
  pure (.give .nil)

/-- The number of bytes of a string. -/
def strLen (v : Value) : Run Next := do
  match ← look (·.bytes? v) with
  | some bytes => pure (.give (.int (.ofNat bytes.size)))
  | none => failNext (argumentText Primitive.strLen.name 1 "not a str")

/-- Applies a function to a proper list of arguments. -/
def apply (func args : Value) : Run Next := do
  match ← length? Primitive.apply.name 2 args with
  | some _ => pure { task := .apply func args }
  | none => pure (.give .nil)

/-- Collects and counts what is left. -/
def gc : Run Next := do
  let _ ← Heap.collect true
  pure (.give (.int (.ofNat (← look (·.liveCount)))))

end Native

/-- Runs a primitive on as many arguments as its arity has slots. -/
def Primitive.run (p : Primitive) (args : List Value) : Run Next :=
  match p, args with
  | add, [rest] => Native.foldRest p.name (· + ·) 1 0 rest
  | mul, [rest] => Native.foldRest p.name (· * ·) 1 1 rest
  | sub, [first, rest] => Native.subtract first rest
  | quotient, [a, b] => Native.divide p.name BitVec.sdiv a b
  | remainder, [a, b] => Native.divide p.name BitVec.srem a b
  | eq, [first, rest] => Native.compare p.name (· == ·) first rest
  | lt, [first, rest] => Native.compare p.name BitVec.slt first rest
  | gt, [first, rest] => Native.compare p.name (fun a b => b.slt a) first rest
  | le, [first, rest] => Native.compare p.name BitVec.sle first rest
  | ge, [first, rest] => Native.compare p.name (fun a b => b.sle a) first rest
  | cons, [a, b] => do pure (.give (← Heap.cons a b))
  | car, [v] => Native.slot p.name Heap.car v
  | cdr, [v] => Native.slot p.name Heap.cdr v
  | setCar, [v, x] => Native.setSlot p.name Heap.setCar v x
  | setCdr, [v, x] => Native.setSlot p.name Heap.setCdr v x
  | list, [rest] => pure (.give rest)
  | listRef, [l, i] => Native.listNth l i
  | length, [l] => do
    match ← Native.length? p.name 1 l with
    | some n => pure (.give (.int (.ofNat n)))
    | none => pure (.give .nil)
  | isNil, [v] => Native.test v.isNil
  | isCons, [v] => Native.test v.isPair
  | isSym, [v] => Native.test v.isSym
  | isInt, [v] => Native.test v.isInt
  | isStr, [v] => do Native.test ((← look (·.typeOf v)) = CoreType.str.id)
  | isFunc, [v] => do
    let t ← look (·.typeOf v)
    Native.test (t = CoreType.func.id || t = CoreType.native.id)
  | not, [v] => Native.test v.isNil
  | same, [a, b] => Native.test (a = b)
  | equal, [a, b] => do Native.test (← look (·.equal a b))
  | strLen, [v] => Native.strLen v
  | apply, [f, args] => Native.apply f args
  | print, [rest] => Native.print rest
  | gc, [] => Native.gc
  | _, _ => throw .noArgument

end LispMachine
