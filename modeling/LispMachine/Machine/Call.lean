import LispMachine.Machine.Native

/-!
# Calls

How a function or a native is applied to a list of arguments that is evaluated already:

* `Machine.pairUp`, `Machine.bindParams` -- pairs the parameters of a function with its arguments,
  and binds them in a fresh frame;
* `Machine.enterFunction` -- starts a call. `Machine.enterBody` makes the frame and begins the
  body; a self tail call comes back to it with new arguments, in the call that is under way;
* `Machine.finish` -- ends a call. While failing, a named function leaves a line of traceback;
* `Machine.takeArguments`, `Machine.enterNative` -- lays out the arguments of a native by its
  arity and runs it.
-/

namespace LispMachine.Machine

open Context

/-! ## 1. Functions -/

/-- How names and values that are walked at once come to an end. -/
inductive Fit where
  /-- Each name has its value, and no values are left. -/
  | exact
  | tooFew
  | tooMany
  /-- Neither comes to an end. -/
  | endless
  deriving DecidableEq, Repr

/-- The names and their values, both walked at once, over at most `n` pairs. A symbol where a pair
    of names might be takes the values that are left. -/
def pairUp (h : Heap) : Nat → Value → Value → List (Value × Value) × Fit
  | 0, _, _ => ([], .endless)
  | n + 1, names, values =>
    if names.isPair then
      if values.isPair then
        let (bound, fit) := pairUp h n (h.cdr names) (h.cdr values)
        ((h.car names, h.car values) :: bound, fit)
      else ([], .tooFew)
    else if names.isSym then ([(names, values)], .exact)
    else if values.isNil then ([], .exact)
    else ([], .tooMany)

/-- Binds parameters to arguments in a frame, as far as there are arguments. Names and values that
    are both still pairs after more steps than the heap has cells go on forever. -/
def bindParams (frame params args : Value) : Run Unit := do
  let (bound, fit) ← look fun h => pairUp h (h.cells.size + 1) params args
  bound.forM fun (name, value) => define frame name value
  match fit with
  | .exact => pure ()
  | .tooFew => let _ ← fail "Not enough arguments for function"
  | .tooMany => let _ ← fail "Too many arguments for function"
  | .endless => throw .outOfSteps

/-- Ends a call with a value. -/
def finish (call : Call) (v : Value) : Run Next := do
  if (← isFailing) && call.closure.name.isSym then
    prepend ("In " ++ (← observe (·.display call.closure.name)) ++ ":\n")
  Heap.popRoots call.base
  modify fun c => { c with current := call.caller }
  pure (.give v)

/-- Evaluates the forms of a body from the pair `forms` on; with none left, `v` is the value. -/
def enterForms (call : Call) (frame forms v : Value) : Run Next := do
  if forms.isPair then
    let h ← look (fun h => (h.car forms, !(h.cdr forms).isPair))
    pure (.eval frame h.1 h.2 (.body call frame forms))
  else finish call v

/-- Begins the body with fresh bindings of the parameters. -/
def enterBody (call : Call) (args : Value) : Run Next := do
  let frame ← newFrame call.closure.env
  Heap.setRoot call.frameSlot frame
  bindParams frame call.closure.params args
  if ← isFailing then finish call .nil
  else enterForms call frame call.closure.body .nil

/-- Goes on after the first of `forms`: the value is that form's, or the arguments of a self tail
    call, with which the body begins again. -/
def resumeBody (call : Call) (frame forms v : Value) : Run Next := do
  if ← isFailing then finish call .nil
  else if ← observe Context.looping then
    modify fun c => { c with looping := false }
    Heap.setRoot call.base v
    enterBody call v
  else enterForms call frame (← look (·.cdr forms)) v

/-- Starts a call of a function. -/
def enterFunction (func args : Value) : Run Next := do
  let caller ← observe Context.current
  modify fun c => { c with current := func }
  let closure ← look (·.closure func)
  let base ← Heap.pushRoot args
  let _ ← Heap.pushRoot .nil
  enterBody { closure, base, caller } args

/-! ## 2. Natives -/

/-- Takes `n` required arguments; none if there are too few. -/
def takeRequired (h : Heap) : Nat → Value → Option (List Value × Value)
  | 0, rest => some ([], rest)
  | n + 1, rest =>
    if rest.isPair then
      (takeRequired h n (h.cdr rest)).map fun (args, left) => (h.car rest :: args, left)
    else none

/-- Takes `n` optional arguments; missing ones are nil. -/
def takeOptional (h : Heap) : Nat → Value → List Value × Value
  | 0, rest => ([], rest)
  | n + 1, rest =>
    let (args, left) := takeOptional h n (h.cdr rest)
    (h.car rest :: args, left)

/-- Why arguments do not fit an arity. -/
inductive Misfit where
  | tooFew
  | tooMany
  deriving DecidableEq, Repr

/-- The text of a misfit. -/
def Misfit.message (name : String) : Misfit → String
  | tooFew => "Too few arguments for " ++ name
  | tooMany => "Too many arguments for " ++ name

/-- Lays out a list of arguments by an arity: required, optional, and the rest. -/
def takeArguments (h : Heap) (arity : Arity) (args : Value) : Except Misfit (List Value) :=
  match takeRequired h arity.required args with
  | none => .error .tooFew
  | some (required, rest) =>
    let (optional, rest) := takeOptional h arity.optional rest
    if arity.rest then .ok (required ++ optional ++ [rest])
    else if rest.isNil then .ok (required ++ optional)
    else .error .tooMany

/-- Runs a procedure on arguments that fit its arity. -/
def runProcedure (host : Host) (p : Procedure) (args : List Value) : Run Next :=
  match p with
  | .primitive p => p.run args
  | .hosted _ _ entry => host.procedure entry args

/-- Applies a native. -/
def enterNative (host : Host) (func args : Value) : Run Next := do
  match ← look (·.procedure? func) with
  | none => failNext "apply: Invalid native"
  | some p =>
    match ← look (takeArguments · p.arity args) with
    | .ok args => runProcedure host p args
    | .error misfit => failNext (misfit.message p.name)

end LispMachine.Machine
