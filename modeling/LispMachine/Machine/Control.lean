import LispMachine.Environment
import LispMachine.Reader.Basic
import LispMachine.Spine

/-!
# Tasks and what waits for them

The evaluator is a machine. It has one task at a time and a list of pending steps that wait, the
innermost in front, each for the value of the one before it:

* `Task` -- evaluate, evaluate a list, apply, run source text, or hand a value back;
* `Pending` -- what is to be done with the value that comes back. A list that is being walked is
  held by its current pair, and its rest slot is read when the walk goes on;
* `Next` -- what a step leads to: the next task, and the pending steps in front of those that
  wait already. No step sees the steps that wait behind it;
* `Host` -- the procedures and forms of the embedding program.
-/

namespace LispMachine

/-- The parts of a function object. -/
structure Closure where
  env : Value
  params : Value
  body : Value
  name : Value
  deriving DecidableEq, Repr

/-- The parts of a function, nil where there are none. -/
def Heap.closure (h : Heap) (func : Value) : Closure :=
  let parts := h.closureParts func
  { env := h.nth parts 0, params := h.nth parts 1, body := h.nth parts 2, name := h.nth parts 3 }

/-- A call of a function that is under way. Its arguments are rooted in the slot `base`, its frame
    in the one above. -/
structure Call where
  closure : Closure
  base : Nat
  /-- The function whose body was running before. -/
  caller : Value
  deriving DecidableEq, Repr

/-- The slot of the frame of a call. -/
def Call.frameSlot (call : Call) : Nat := call.base + 1

/-- What the machine is to do. -/
inductive Task where
  /-- Hand a value back. -/
  | give (v : Value)
  /-- Evaluate an expression; `tail` in tail position of the running function. -/
  | eval (env expr : Value) (tail : Bool)
  /-- Evaluate the elements of a list into a fresh list. -/
  | evalList (env list : Value)
  /-- Apply a function or native to a list of arguments. -/
  | apply (func args : Value)
  /-- Read and evaluate source text, printing the values if `echo`. -/
  | exec (source : List Char) (echo : Bool)
  deriving DecidableEq, Repr

/-- What is to be done with the value that comes back. -/
inductive Pending where
  /-- Leave the evaluation of a pair, whose roots begin at `base`. -/
  | leave (base : Nat)
  /-- Drop the roots from `base` on. -/
  | release (base : Nat)
  /-- Call the head of the evaluated form. -/
  | call (tail : Bool)
  /-- Append an argument; the fresh list is rooted in the slot `base`, its last pair is `last`. -/
  | argument (env rest : Value) (base : Nat) (last : Value)
  /-- Go on in the body of a function with what follows the first of `forms`. -/
  | body (call : Call) (frame forms : Value)
  /-- Choose a branch of the `if` with arguments `args`. -/
  | branch (env args : Value) (tail : Bool)
  /-- Define `name`. -/
  | define (env name : Value)
  /-- Replace the value of `name`. -/
  | assign (env name : Value)
  /-- Go on in a sequence with what follows the first of `forms`. -/
  | sequence (env forms : Value) (tail : Bool)
  /-- Go on in a conjunction. -/
  | conjunction (env forms : Value) (tail : Bool)
  /-- Go on in a disjunction. -/
  | disjunction (env forms : Value) (tail : Bool)
  /-- Bind `name` in `frame`, the first of `bindings`, and go on with the next one or with the
      body of the `let` with arguments `args`. -/
  | binding (env frame args bindings name : Value) (tail : Bool)
  /-- Go on with the source text that is left; the value is rooted in the slot `base`. -/
  | exec (source : List Char) (base : Nat) (echo : Bool)
  deriving DecidableEq, Repr

/-- What a step leads to. -/
structure Next where
  task : Task
  pending : List Pending := []
  deriving DecidableEq, Repr

namespace Next

/-- Hand a value back. -/
def give (v : Value) : Next := { task := .give v }

/-- Let a step wait behind those of `n`. -/
def andThen (n : Next) (p : Pending) : Next := { n with pending := n.pending ++ [p] }

/-- Evaluate an expression and let a step wait for its value. -/
def eval (env expr : Value) (tail : Bool) (p : Pending) : Next :=
  { task := .eval env expr tail, pending := [p] }

end Next

/-- The procedures and forms that the embedding program supplies, by their entry. -/
structure Host where
  /-- A procedure receives as many arguments as its arity has slots. -/
  procedure : String → List Value → Run Next
  /-- A form receives the environment, the unevaluated arguments and the tail position. -/
  form : String → Value → Value → Bool → Run Next

namespace Context

/-- Fails and hands nil back. -/
def failNext (message : String) : Run Next := do pure (.give (← fail message))

end Context

end LispMachine
