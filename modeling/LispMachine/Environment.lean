import LispMachine.Printer

/-!
# Environments

An environment is a frame: a pair of its parent and its bindings. The bindings are a list, the
newest in front, of pairs of a key and its value. Looking up walks the bindings of a frame and
then those of its parents; neither walk is longer than the heap has cells, for a list of more
pairs comes back to one of them.

* `Heap.bindingIn?`, `Heap.lookup?` -- the binding of a key in one frame, and in the nearest
  frame that has one;
* `Context.newFrame`, `Context.define` -- an empty frame, and a binding in a frame itself;
* `Context.valueOf`, `Context.assign` -- reading and replacing the nearest binding. A key that is
  bound nowhere is a failure.
-/

namespace LispMachine

/-! ## 1. Looking up -/

namespace Heap

/-- The binding of a key among the first `n` of a list of bindings. -/
def bindingAmong? (h : Heap) (key : Value) : Nat → Value → Option Value
  | 0, _ => none
  | n + 1, bindings =>
    if bindings.isPair then
      let binding := h.car bindings
      if binding.isPair && h.car binding = key then some binding
      else h.bindingAmong? key n (h.cdr bindings)
    else none

/-- The binding of a key in a frame itself. -/
def bindingIn? (h : Heap) (frame key : Value) : Option Value :=
  h.bindingAmong? key h.cells.size (h.cdr frame)

/-- The binding of a key in the first `n` frames of a chain. -/
def lookupAmong? (h : Heap) (key : Value) : Nat → Value → Option Value
  | 0, _ => none
  | n + 1, frame =>
    if frame.isPair then
      match h.bindingIn? frame key with
      | some binding => some binding
      | none => h.lookupAmong? key n (h.car frame)
    else none

/-- The nearest binding of a key. -/
def lookup? (h : Heap) (env key : Value) : Option Value := h.lookupAmong? key h.cells.size env

end Heap

namespace Context

/-! ## 2. Frames -/

/-- An empty frame. -/
def newFrame (parent : Value) : Run Value := Heap.cons parent .nil

/-- Binds a key in a frame, in place of the binding it has there. -/
def define (env key value : Value) : Run Unit := do
  match ← look (·.bindingIn? env key) with
  | some binding => Heap.setCdr binding value
  | none =>
    let base ← Heap.rootBase
    let _ ← Heap.pushRoot env
    let binding ← Heap.cons key value
    let bindings ← Heap.cons binding (← look (·.cdr env))
    Heap.setCdr env bindings
    Heap.popRoots base

/-- The failure on a key that is bound nowhere. -/
def unbound (key : Value) : Run Value := do
  fail ("Not defined: '" ++ (← observe (·.display key)) ++ "'")

/-- The value of the nearest binding of a key. -/
def valueOf (env key : Value) : Run Value := do
  match ← look (·.lookup? env key) with
  | some binding => look (·.cdr binding)
  | none => unbound key

/-- Replaces the value of the nearest binding of a key. -/
def assign (env key value : Value) : Run Value := do
  match ← look (·.lookup? env key) with
  | some binding =>
    Heap.setCdr binding value
    pure value
  | none => unbound key

end Context

end LispMachine
