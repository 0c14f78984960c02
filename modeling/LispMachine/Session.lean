import LispMachine.Machine.Run

/-!
# Sessions

How a context comes into being, what may be asked of it, and how it ends:

* `Context.create` -- the standard context: the root environment, the symbol `t` bound to itself,
  the special forms, and the primitives, in this order;
* `Context.defineForm`, `Context.defineProcedure` -- additions of the embedding program;
* `Context.exec`, `Context.eval`, `Context.evalList`, `Context.apply` -- runs of the machine. Their
  budget of steps (`Machine.ample`) is more than a run can use up in practice;
* `Context.shutdown` -- the end: the root environment is let go, then the whole heap.
-/

namespace LispMachine

/-- A budget of steps that no run uses up in practice. -/
def Machine.ample : Nat := 0x4000000000000000

namespace Context

/-! ## 1. The standard context -/

/-- A context of an empty heap and symbol table, without an environment. -/
def bare (heap : Heap) (symbols : SymbolTable) (maxDepth : Nat) : Context :=
  { heap, symbols, forms := [], rootEnv := .nil, current := .nil, looping := false,
    failing := false, failure := "", depth := 0, maxDepth, peakDepth := 0, truth := .nil,
    output := "" }

/-- Makes the symbol of a name a special form, in every environment. -/
def defineForm (name : String) (form : SpecialForm) : Run Unit := do
  let id ← intern name
  modify fun c => { c with forms := (id, form) :: c.forms }

/-- Binds a native procedure in the root environment. -/
def defineProcedure (p : Procedure) : Run Unit := do
  let native ← Heap.make CoreType.native.id (.procedure p)
  let base ← Heap.rootBase
  let _ ← Heap.pushRoot native
  let key ← sym p.name
  let env ← observe Context.rootEnv
  define env key native
  Heap.popRoots base

/-- Binds a procedure that the embedding program supplies; it may not have too many parameters. -/
def defineHosted (name : String) (arity : Arity) (entry : String) : Run Unit := do
  if arity.required + arity.optional ≤ Arity.most then defineProcedure (.hosted name arity entry)
  else throw (.tooManyParameters (arity.required + arity.optional))

/-- Makes the root environment and what every context has in it. -/
def furnish : Run Unit := do
  let env ← Heap.cons .nil .nil
  Heap.pin env
  modify fun c => { c with rootEnv := env }
  let truth ← sym "t"
  modify fun c => { c with truth }
  define env truth truth
  StandardForm.all.forM fun f => defineForm f.name (.standard f)
  Primitive.all.forM fun p => defineProcedure (.primitive p)

/-- The standard context of a configuration. -/
def create (cfg : Config) : Except Fault Context := do
  let heap ← Heap.create cfg
  let symbols ← SymbolTable.create cfg.symbolCapacity
  match furnish (bare heap symbols cfg.maxDepth) with
  | .ok _ c => .ok c
  | .error e _ => .error e

/-! ## 2. Runs -/

/-- Reads and evaluates every form of a text in the root environment, up to the first failure;
    gives the value of the last one, and prints the values that are not nil if `echo`. -/
def exec (host : Host) (source : String) (echo : Bool) : Run Value :=
  Machine.run host Machine.ample (.exec source.toList echo) []

/-- Evaluates an expression. -/
def eval (host : Host) (env expr : Value) (tail : Bool) : Run Value :=
  Machine.run host Machine.ample (.eval env expr tail) []

/-- Evaluates the elements of a list. -/
def evalList (host : Host) (env list : Value) : Run Value :=
  Machine.run host Machine.ample (.evalList env list) []

/-- Applies a function or native to a list of arguments. -/
def apply (host : Host) (func args : Value) : Run Value :=
  Machine.run host Machine.ample (.apply func args) []

/-- Collects from all roots; gives the number of cells freed. -/
def collect : Run Nat := Heap.collect true

/-! ## 3. The end -/

/-- Lets go of the root environment and of the heap. -/
def shutdown : Run Unit := do
  let env ← observe Context.rootEnv
  Heap.unpin env
  Heap.shutdown

end Context

end LispMachine
