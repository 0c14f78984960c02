import LispMachine.Machine.Control

/-!
# The special forms

What a special form does first (`StandardForm.enter`), and how it goes on with a value that it
has waited for (`resume…`). Every form passes the tail position on to its last subforms only,
and every one that waits for a value looks at the state of failure first.
-/

namespace LispMachine

open Context

/-! ## 1. Sequences -/

namespace Machine

/-- Evaluates the forms of a list in order, from the pair `forms` on; `value` is given if there
    are none left. -/
def enterSequence (env forms : Value) (tail : Bool) (value : Value) : Run Next := do
  if forms.isPair then
    let h ← look (fun h => (h.car forms, !(h.cdr forms).isPair))
    pure (.eval env h.1 (tail && h.2) (.sequence env forms tail))
  else pure (.give value)

/-- Goes on after the first of `forms`. -/
def resumeSequence (env forms : Value) (tail : Bool) (v : Value) : Run Next := do
  if ← isFailing then pure (.give .nil)
  else enterSequence env (← look (·.cdr forms)) tail v

/-- Evaluates forms up to the first that is false; `value` is given if there are none left. -/
def enterConjunction (env forms : Value) (tail : Bool) (value : Value) : Run Next := do
  if forms.isPair then
    let h ← look (fun h => (h.car forms, !(h.cdr forms).isPair))
    pure (.eval env h.1 (tail && h.2) (.conjunction env forms tail))
  else pure (.give value)

/-- Goes on after the first of `forms`. -/
def resumeConjunction (env forms : Value) (tail : Bool) (v : Value) : Run Next := do
  if (← isFailing) || v.isNil then pure (.give .nil)
  else enterConjunction env (← look (·.cdr forms)) tail v

/-- Evaluates forms up to the first that is true. -/
def enterDisjunction (env forms : Value) (tail : Bool) : Run Next := do
  if forms.isPair then
    let h ← look (fun h => (h.car forms, !(h.cdr forms).isPair))
    pure (.eval env h.1 (tail && h.2) (.disjunction env forms tail))
  else pure (.give .nil)

/-- Goes on after the first of `forms`. -/
def resumeDisjunction (env forms : Value) (tail : Bool) (v : Value) : Run Next := do
  if ← isFailing then pure (.give .nil)
  else if v.isTruthy then pure (.give v)
  else enterDisjunction env (← look (·.cdr forms)) tail

/-! ## 2. Choice -/

/-- Evaluates the test, if there is a branch. -/
def enterBranch (env args : Value) (tail : Bool) : Run Next := do
  if !(← look (·.cdr args)).isPair then failNext "if: Missing branch"
  else pure (.eval env (← look (·.car args)) false (.branch env args tail))

/-- Evaluates the branch that the test chooses. -/
def resumeBranch (env args : Value) (tail : Bool) (test : Value) : Run Next := do
  if ← isFailing then pure (.give .nil)
  else
    let branch ← look (·.nth args (if test.isTruthy then 1 else 2))
    pure { task := .eval env branch tail }

/-! ## 3. Definition and assignment -/

/-- Symbols, up to a tail that is nil or a symbol. A list of more than `n` pairs is none. -/
def paramsValid (h : Heap) : Nat → Value → Bool
  | 0, params => params.isNil || params.isSym
  | n + 1, params =>
    if params.isPair then (h.car params).isSym && paramsValid h n (h.cdr params)
    else params.isNil || params.isSym

/-- A list of symbols, proper or with a symbol as its tail, or a lone symbol. -/
def isParameterList (h : Heap) (params : Value) : Bool := paramsValid h h.cells.size params

/-- Defines a value, which is evaluated first, or a function. -/
def enterDefine (env args : Value) : Run Next := do
  if !args.isPair then failNext "Invalid definition"
  else
    let target ← look (·.car args)
    let name ← look (·.car target)
    if target.isSym then
      pure (.eval env (← look (·.nth args 1)) false (.define env target))
    else if name.isSym then
      let params ← look (·.cdr target)
      if !(← look (isParameterList · params)) then failNext "Invalid parameter list"
      else
        let f ← func env params (← look (·.cdr args)) name
        define env name f
        pure (.give .nil)
    else failNext "Invalid definition"

/-- Binds the name to its value. -/
def resumeDefine (env name v : Value) : Run Next := do
  if ← isFailing then pure (.give .nil)
  else
    define env name v
    pure (.give .nil)

/-- A function without a name. -/
def enterLambda (env args : Value) : Run Next := do
  let params ← look (·.car args)
  if !args.isPair || !(← look (isParameterList · params)) then failNext "Invalid parameter list"
  else pure (.give (← func env params (← look (·.cdr args)) .nil))

/-- Evaluates the new value of a symbol. -/
def enterAssignment (env args : Value) : Run Next := do
  let name ← look (·.car args)
  if !name.isSym then failNext "set!: Expected a symbol"
  else pure (.eval env (← look (·.nth args 1)) false (.assign env name))

/-- Replaces the value of the symbol. -/
def resumeAssign (env name v : Value) : Run Next := do
  if ← isFailing then pure (.give .nil)
  else pure (.give (← assign env name v))

/-! ## 4. Local bindings -/

/-- Evaluates the expression of the first of `bindings` in the outer environment; with none left,
    the body in the new frame, whose roots begin at `base`. -/
def enterBindings (env frame args bindings : Value) (tail : Bool) : Run Next := do
  if bindings.isPair then
    let binding ← look (·.car bindings)
    let (name, expr) ←
      if binding.isSym then pure (binding, Value.nil)
      else look (fun h => (h.car binding, h.nth binding 1))
    if !name.isSym then failNext "let: Invalid binding"
    else pure (.eval env expr false (.binding env frame args bindings name tail))
  else enterSequence frame (← look (·.cdr args)) tail .nil

/-- Binds the name in the new frame and goes on with the next binding. -/
def resumeBinding (env frame args bindings name : Value) (tail : Bool) (v : Value) :
    Run Next := do
  if ← isFailing then pure (.give .nil)
  else
    define frame name v
    enterBindings env frame args (← look (·.cdr bindings)) tail

/-- Makes a new frame, which stays rooted until the form is left. -/
def enterLet (env args : Value) (tail : Bool) : Run Next := do
  if !args.isPair then failNext "let: Missing bindings"
  else
    let base ← Heap.rootBase
    let frame ← newFrame env
    let _ ← Heap.pushRoot frame
    let next ← enterBindings env frame args (← look (·.car args)) tail
    pure (next.andThen (.release base))

end Machine

/-! ## 5. All forms -/

/-- What a form does first. -/
def StandardForm.enter (form : StandardForm) (env args : Value) (tail : Bool) : Run Next :=
  match form with
  | quote => do pure (.give (← look (·.car args)))
  | branch => Machine.enterBranch env args tail
  | define => Machine.enterDefine env args
  | lambda => Machine.enterLambda env args
  | sequence => Machine.enterSequence env args tail .nil
  | conjunction => do Machine.enterConjunction env args tail (← ofBool true)
  | disjunction => Machine.enterDisjunction env args tail
  | binding => Machine.enterLet env args tail
  | assignment => Machine.enterAssignment env args

end LispMachine
