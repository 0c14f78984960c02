import LispMachine.Machine.Call
import LispMachine.Machine.Form

/-!
# The machine

One step does the task at hand (`Task.step`) or resumes the innermost pending step with the value
that has come back (`Pending.resume`); `Machine.run` repeats this until no step is pending, within
a budget of steps.

A form whose head is the symbol of a special form is that form, in every environment. Any other
form is evaluated as a list, head and arguments alike, and its head is called. If that head is
the function whose body is running, and the form is in tail position, no call is started: the
state is `looping`, and the arguments go back as the value, past the forms around it, to the call
that is under way (`Machine.resumeBody`).
-/

namespace LispMachine

open Context

namespace Machine

/-! ## 1. Evaluation -/

/-- The special form that an expression begins with. -/
def specialForm? (c : Context) (expr : Value) : Option SpecialForm :=
  (c.heap.car expr).sym?.bind (c.forms.lookup ·)

/-- Evaluates a pair. -/
def enterForm (host : Host) (env expr : Value) (tail : Bool) : Run Next := do
  match ← observe (specialForm? · expr) with
  | some (.standard f) => f.enter env (← look (·.cdr expr)) tail
  | some (.hosted entry) => host.form entry env (← look (·.cdr expr)) tail
  | none => pure { task := .evalList env expr, pending := [.call tail] }

/-- No pair may be evaluated one level deeper. -/
def isAtLimit (c : Context) : Bool := c.maxDepth ≤ c.depth

/-- Evaluates a pair, one level deeper, with environment and expression rooted. -/
def enterPair (host : Host) (env expr : Value) (tail : Bool) : Run Next := do
  if ← observe isAtLimit then failNext "Evaluation too deep"
  else
    modify fun c => { c with depth := c.depth + 1, peakDepth := max c.peakDepth (c.depth + 1) }
    let base ← Heap.pushRoot env
    let _ ← Heap.pushRoot expr
    let next ← enterForm host env expr tail
    pure (next.andThen (.leave base))

/-- Evaluates an expression. -/
def enterEval (host : Host) (env expr : Value) (tail : Bool) : Run Next :=
  match expr with
  | .nil | .int _ | .object _ => pure (.give expr)
  | .sym _ => do pure (.give (← valueOf env expr))
  | .pair _ => enterPair host env expr tail

/-- Leaves the evaluation of a pair. -/
def resumeLeave (base : Nat) (v : Value) : Run Next := do
  Heap.popRoots base
  modify fun c => { c with depth := c.depth - 1 }
  pure (.give v)

/-! ## 2. Lists of arguments -/

/-- Evaluates the elements of a list from the pair `rest` on; without one, the list is done. -/
def enterArguments (env rest : Value) (base : Nat) (last : Value) : Run Next := do
  if rest.isPair then
    pure (.eval env (← look (·.car rest)) false (.argument env rest base last))
  else
    let out ← Heap.root base
    Heap.popRoots base
    pure (.give out)

/-- Starts a fresh list. -/
def enterEvalList (env list : Value) : Run Next := do
  let base ← Heap.pushRoot .nil
  enterArguments env list base .nil

/-- Appends a value to the fresh list. -/
def resumeArgument (env rest : Value) (base : Nat) (last v : Value) : Run Next := do
  if ← isFailing then
    Heap.popRoots base
    pure (.give .nil)
  else
    let cell ← Reader.append base last v
    enterArguments env (← look (·.cdr rest)) base cell

/-! ## 3. Application -/

/-- Calls the head of an evaluated form, or hands its arguments back for a self tail call. -/
def resumeCall (host : Host) (tail : Bool) (form : Value) : Run Next := do
  if ← isFailing then pure (.give .nil)
  else
    let _ ← Heap.pushRoot form
    let func ← look (·.car form)
    let args ← look (·.cdr form)
    let type ← look (·.typeOf func)
    if type = CoreType.func.id then
      if tail && func = (← observe Context.current) then
        modify fun c => { c with looping := true }
        pure (.give args)
      else enterFunction func args
    else if type = CoreType.native.id then enterNative host func args
    else failNext "eval: Invalid application"

/-- Applies a value to a list of arguments, both rooted. -/
def enterApply (host : Host) (func args : Value) : Run Next := do
  let base ← Heap.pushRoot func
  let _ ← Heap.pushRoot args
  let type ← look (·.typeOf func)
  let next ←
    if type = CoreType.func.id then enterFunction func args
    else if type = CoreType.native.id then enterNative host func args
    else failNext "apply: Invalid application"
  pure (next.andThen (.release base))

/-- Drops roots. -/
def resumeRelease (base : Nat) (v : Value) : Run Next := do
  Heap.popRoots base
  pure (.give v)

/-! ## 4. Source text -/

/-- Ends a run of source text with the value in its slot. -/
def finishExec (base : Nat) : Run Next := do
  let out ← Heap.root base
  Heap.popRoots base
  pure (.give out)

/-- Reads the next form and evaluates it in the root environment; at the end of the text, or on
    an error, the run ends. -/
def enterNextForm (source : List Char) (base : Nat) (echo : Bool) : Run Next := do
  reset
  match ← Reader.read source with
  | (.ok (some form), rest) =>
    Heap.setRoot base form
    let env ← observe Context.rootEnv
    pure (.eval env form false (.exec rest base echo))
  | (.ok none, _) => finishExec base
  | (.error e, _) =>
    Heap.setRoot base .nil
    let _ ← fail e.message
    finishExec base

/-- Starts a run of source text. -/
def enterExec (source : List Char) (echo : Bool) : Run Next := do
  let base ← Heap.pushRoot .nil
  enterNextForm source base echo

/-- Goes on after a form, unless it failed. -/
def resumeExec (source : List Char) (base : Nat) (echo : Bool) (v : Value) : Run Next := do
  Heap.setRoot base v
  if ← isFailing then finishExec base
  else
    if echo && !v.isNil then write ((← observe (·.display v)) ++ "\n")
    enterNextForm source base echo

end Machine

/-! ## 5. Steps and runs -/

/-- Does a task. -/
def Task.step (host : Host) : Task → Run Next
  | give v => pure (.give v)
  | eval env expr tail => Machine.enterEval host env expr tail
  | evalList env list => Machine.enterEvalList env list
  | apply func args => Machine.enterApply host func args
  | exec source echo => Machine.enterExec source echo

/-- Goes on with the value that has come back. -/
def Pending.resume (host : Host) (v : Value) : Pending → Run Next
  | leave base => Machine.resumeLeave base v
  | release base => Machine.resumeRelease base v
  | call tail => Machine.resumeCall host tail v
  | argument env rest base last => Machine.resumeArgument env rest base last v
  | body active frame forms => Machine.resumeBody active frame forms v
  | branch env args tail => Machine.resumeBranch env args tail v
  | define env name => Machine.resumeDefine env name v
  | assign env name => Machine.resumeAssign env name v
  | sequence env forms tail => Machine.resumeSequence env forms tail v
  | conjunction env forms tail => Machine.resumeConjunction env forms tail v
  | disjunction env forms tail => Machine.resumeDisjunction env forms tail v
  | binding env frame args bindings name tail =>
    Machine.resumeBinding env frame args bindings name tail v
  | exec source base echo => Machine.resumeExec source base echo v

/-- Runs a task and the pending steps behind it, in at most `budget` steps. -/
def Machine.run (host : Host) (budget : Nat) (task : Task) (pending : List Pending) : Run Value :=
  match budget with
  | 0 => throw .outOfSteps
  | budget + 1 =>
    match task, pending with
    | .give v, [] => pure v
    | .give v, p :: pending => do
      let next ← p.resume host v
      run host budget next.task (next.pending ++ pending)
    | task, pending => do
      let next ← task.step host
      run host budget next.task (next.pending ++ pending)

end LispMachine
