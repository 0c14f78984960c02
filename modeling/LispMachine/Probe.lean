import LispMachine.Machine.Control

/-!
# Probes

An embedding program that shows what natives and special forms receive, and that goes back into
the evaluator from either. `Probe.host` supplies under each name:

* procedures `args`, `count`, `fail`, `apply`, `eval`, `exec`, `gc`;
* forms `args`, `eval`, `tail`, `list`, `thunk`.
-/

namespace LispMachine.Probe

open Context

/-- The argument at a position; a native without so many slots has none to read. -/
def argument (args : List Value) (position : Nat) : Run Value :=
  match args[position]? with
  | some v => pure v
  | none => throw .noArgument

/-- Runs the text of the first argument. -/
def execFirst (args : List Value) : Run Next := do
  let v ← argument args 0
  match ← look (·.bytes? v) with
  | some bytes => pure { task := .exec (Text.ofBytes bytes).toList false }
  | none => failNext "exec: not a str"

/-- The procedures. -/
def procedure (entry : String) (args : List Value) : Run Next := do
  match entry with
  | "args" => pure (.give (← list args))
  | "count" => pure (.give (.int (.ofNat args.length)))
  | "fail" =>
    let _ ← fail "native failed"
    failNext "second message"
  | "apply" => pure { task := .apply (← argument args 0) (← argument args 1) }
  | "eval" =>
    let env ← observe Context.rootEnv
    pure { task := .eval env (← argument args 0) false }
  | "exec" => execFirst args
  | "gc" =>
    let _ ← Heap.collect true
    pure (.give (← list args))
  | _ => failNext "apply: Invalid native"

/-- The special forms. -/
def form (entry : String) (env args : Value) (tail : Bool) : Run Next := do
  match entry with
  | "args" => pure (.give args)
  | "eval" => pure { task := .eval env (← look (·.car args)) tail }
  | "tail" => pure (.give (← ofBool tail))
  | "list" => pure { task := .evalList env args }
  | "thunk" => pure (.give (← func env .nil args .nil))
  | _ => failNext "eval: Invalid application"

/-- Both. -/
def host : Host := { procedure, form }

end LispMachine.Probe
