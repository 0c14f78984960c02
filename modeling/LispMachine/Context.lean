import LispMachine.Heap.Allocator
import LispMachine.SpecialForm
import LispMachine.SymbolTable
import LispMachine.Text.Clip

/-!
# Contexts

A context is one interpreter: a heap, the symbols, the special forms, the root environment, the
state of failure, and the text it has printed so far.

* `Context`, `Run` -- the state, and actions on it that may end in a fault;
* `Context.fail` -- enters the failing state. The first message stands, clipped to 256 bytes,
  until `Context.reset`; `Context.traceback` puts a line in front of it while it fits;
* `Context.list`, `Context.str`, `Context.func` -- values of several cells. Everything that is
  still needed is on the root stack whenever a cell is taken.
-/

namespace LispMachine

/-! ## 1. The state -/

/-- One interpreter. -/
structure Context where
  heap : Heap
  symbols : SymbolTable
  /-- Special forms by symbol; the first entry for a symbol counts. -/
  forms : List (SymbolId × SpecialForm)
  /-- The environment that source text is evaluated in. -/
  rootEnv : Value
  /-- The function whose body is running, nil outside of any. -/
  current : Value
  /-- The value on its way back is the argument list of a self tail call. -/
  looping : Bool
  failing : Bool
  /-- The failure message, empty while not failing. -/
  failure : String
  /-- Pending evaluations of pairs. -/
  depth : Nat
  maxDepth : Nat
  /-- The greatest depth there has been. -/
  peakDepth : Nat
  /-- The value that stands for truth. -/
  truth : Value
  /-- Everything printed and not yet taken away. -/
  output : String

/-- An action on a context. -/
abbrev Run := EStateM Fault Context

namespace Context

/-- An action on the heap as one on the context. -/
@[inline] def onHeap {α : Type} (x : HeapM α) : Run α := fun c =>
  match x c.heap with
  | .ok a heap => .ok a { c with heap }
  | .error e heap => .error e { c with heap }

instance : MonadLift HeapM Run := ⟨onHeap⟩

/-- Reads something off the heap. -/
def look {α : Type} (f : Heap → α) : Run α := observe fun c => f c.heap

/-! ## 2. Failure -/

/-- Bytes of a failure message that are kept. -/
def failureCap : Nat := 256

/-- Enters the failing state, unless it is on already, and gives nil. -/
def fail (message : String) : Run Value :=
  modifyGet fun c =>
    if c.failing then (.nil, c)
    else (.nil, { c with failing := true, failure := Text.clip failureCap message })

/-- The state is failing. -/
def isFailing : Run Bool := observe (·.failing)

/-- Puts a line in front of the failure message if both fit into the cap. -/
def prepend (line : String) : Run Unit :=
  modify fun c =>
    if line.utf8ByteSize + c.failure.utf8ByteSize ≤ failureCap then
      { c with failure := line ++ c.failure }
    else c

/-- Leaves the failing state and forgets what was running; meant for the top level. -/
def reset : Run Unit :=
  modify fun c => { c with failing := false, failure := "", current := .nil, looping := false }

/-! ## 3. Symbols, truth and output -/

/-- The id of a name. -/
def intern (name : String) : Run SymbolId := fun c =>
  match c.symbols.intern name with
  | .ok (id, symbols) => .ok id { c with symbols }
  | .error e => .error e c

/-- The symbol of a name. -/
def sym (name : String) : Run Value := do pure (.sym (← intern name))

/-- The name of an interned symbol. -/
def symbolName? (c : Context) (v : Value) : Option String := v.sym?.bind c.symbols.name?

/-- Truth as a value. -/
def ofBool (b : Bool) : Run Value := fun c => .ok (if b then c.truth else .nil) c

/-- Appends to the printed text. -/
def write (s : String) : Run Unit := modify fun c => { c with output := c.output ++ s }

/-- Takes the printed text away. -/
def takeOutput : Run String := modifyGet fun c => (c.output, { c with output := "" })

/-! ## 4. Values of several cells -/

/-- Conses values, the last one first, onto the list in a root slot. -/
def consOnto (slot : Nat) : List Value → Run Unit
  | [] => pure ()
  | v :: earlier => do
    let cell ← Heap.cons v (← Heap.root slot)
    Heap.setRoot slot cell
    consOnto slot earlier

/-- A fresh proper list. -/
def list (items : List Value) : Run Value := do
  let base ← Heap.rootBase
  items.forM fun v => do let _ ← Heap.pushRoot v
  let slot ← Heap.pushRoot .nil
  consOnto slot items.reverse
  let out ← Heap.root slot
  Heap.popRoots base
  pure out

/-- A fresh string. -/
def str (bytes : ByteArray) : Run Value := Heap.make CoreType.str.id (.text bytes)

/-- A fresh function over an environment; its name is a symbol, or nil. -/
def func (env params body name : Value) : Run Value := do
  let base ← Heap.rootBase
  let parts ← list [env, params, body, name]
  let _ ← Heap.pushRoot parts
  let out ← Heap.make CoreType.func.id (.closure parts)
  Heap.popRoots base
  pure out

end Context

end LispMachine
