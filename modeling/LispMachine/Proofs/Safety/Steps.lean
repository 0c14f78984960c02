import LispMachine.Proofs.Balance.Owing
import LispMachine.Proofs.Safety.Natives
import LispMachine.Proofs.Safety.Reading

/-!
# The steps of the machine are secure

An environment is written only in its own frame, and every environment that a task or a waiting step
names is a pair: it is the root environment, or a frame that has been made.

* `Task.Framed`, `Pending.Framed` -- **the environments are pairs**;
* `Pending.Fits` -- the root stack is as high as a waiting step needs it;
* `Secure.enterBody`, `Secure.standardForm`, `Secure.enterNextForm`, … -- calls, forms, evaluation and
  source text;
* `Secure.task`, `Secure.resume` -- **a step leads to no fault but exhaustion**, and to a task and
  waiting steps whose environments are pairs.
-/

namespace LispMachine

open Context

/-! ## 1. Environments -/

/-- The environment of a task is a pair. -/
def Task.Framed : Task → Prop
  | .eval env _ _ | .evalList env _ => env.isPair = true
  | .give _ | .apply _ _ | .exec _ _ => True

/-- The environments of a waiting step are pairs, and so is the last pair of a list that goes on. -/
def Pending.Framed : Pending → Prop
  | .argument env _ _ last => env.isPair = true ∧ (last = .nil ∨ last.isPair = true)
  | .body _ frame _ => frame.isPair = true
  | .binding env frame _ _ _ _ => env.isPair = true ∧ frame.isPair = true
  | .branch env _ _ | .define env _ | .assign env _ => env.isPair = true
  | .sequence env _ _ | .conjunction env _ _ | .disjunction env _ _ => env.isPair = true
  | .leave _ | .release _ | .call _ | .exec _ _ _ => True

/-- The task and the new waiting steps after a step. -/
structure Next.Framed (next : Next) : Prop where
  task : next.task.Framed
  pending : ∀ p ∈ next.pending, p.Framed

/-- The slots of a waiting step are there, with the root stack `n` high. -/
def Pending.Fits (n : Nat) : Pending → Prop
  | .leave base | .release base => base ≤ n
  | .argument _ _ base _ | .exec _ base _ => base < n
  | .body active _ _ => active.base + 2 ≤ n
  | _ => True

namespace Next

variable {next : Next} {p : Pending}

theorem framed_give (v : Value) : (Next.give v).Framed := ⟨trivial, List.forall_mem_nil _⟩

theorem Plain.framed (h : next.Plain) : next.Framed := by
  obtain ⟨task, pending⟩ := next
  obtain ⟨htask, rfl⟩ := h
  cases htask with
  | give v => exact framed_give v
  | apply func args => exact ⟨trivial, List.forall_mem_nil _⟩

theorem framed_eval {env expr : Value} {tail : Bool} (henv : env.isPair = true) (hp : p.Framed) :
    (Next.eval env expr tail p).Framed := ⟨henv, List.forall_mem_singleton.mpr hp⟩

theorem Framed.andThen (h : next.Framed) (hp : p.Framed) : (next.andThen p).Framed :=
  ⟨h.task, List.forall_mem_append.mpr ⟨h.pending, List.forall_mem_singleton.mpr hp⟩⟩

end Next

/-- **A step**: it is secure, and the environments that it leaves behind are pairs. -/
abbrev SecureStep (ρ : Value) (n : Nat) (x : Run Next) : Prop := Secure ρ n x fun next _ => next.Framed

namespace Secure

variable {ρ env frame args forms bindings name v last : Value} {tail : Bool} {n slot : Nat}
variable {call : Call} {host : Host}

/-- A value is given. -/
theorem give (v : Value) : SecureStep ρ n (Pure.pure (.give v)) := pure (Next.framed_give v)

theorem failed (message : String) : SecureStep ρ n (Context.failNext message) :=
  (fail message).next fun v _ => give v

/-- A step that gives a value, or asks for an application. -/
theorem plain {x : Run Next} (hx : Secure ρ n x (Level n fun _ => True)) (hi : Idle x Next.Plain) :
    SecureStep ρ n x := (hx.and hi).weaken fun _ _ h => h.2.framed

/-- A step that goes on with a value unless the state is failing. -/
theorem unlessFailing {x : Run Next} (hx : SecureStep ρ n x) :
    SecureStep ρ n (do if ← isFailing then Pure.pure (.give .nil) else x) :=
  .observe fun _ _ => ite (fun _ => give _) fun _ => hx

/-! ## 2. Calls -/

/-- **Parameters are bound** in a frame. -/
theorem bindParams (params args : Value) (hframe : frame.isPair = true) :
    Secure ρ n (Machine.bindParams frame params args) (Level n fun _ => True) := by
  unfold Machine.bindParams
  refine .look fun c _ => ?_
  generalize Machine.pairUp c.heap (c.heap.cells.size + 1) params args = paired
  obtain ⟨bound, fit⟩ := paired
  refine (forM (fun _ => define hframe) bound).next fun _ _ => ?_
  cases fit with
  | exact => exact pure ⟨rfl, trivial⟩
  | tooFew => exact (fail _).next fun _ _ => pure ⟨rfl, trivial⟩
  | tooMany => exact (fail _).next fun _ _ => pure ⟨rfl, trivial⟩
  | endless => exact outOfSteps

/-- The running function is another one. -/
theorem setCurrent (g : Value) :
    Secure ρ n (modify fun c => { c with current := g } : Run PUnit) (Level n fun _ => True) :=
  register fun _ => ⟨rfl, rfl, rfl, rfl⟩

/-- A call ends. -/
theorem finishCall (hbase : call.base ≤ n) : SecureStep ρ n (Machine.finish call v) := by
  have hleave : SecureStep ρ n (do
      Heap.popRoots call.base
      modify fun c => { c with current := call.caller }
      Pure.pure (Next.give v)) :=
    pop hbase ((setCurrent call.caller).next fun _ _ => give v)
  unfold Machine.finish
  exact .observe fun _ _ => ite (fun _ => .observe fun _ _ => (prepend _).next fun _ _ => hleave)
    fun _ => hleave

/-- The forms of a body, or its end. -/
theorem enterForms (hframe : frame.isPair = true) (hbase : call.base ≤ n) :
    SecureStep ρ n (Machine.enterForms call frame forms v) :=
  ite (fun _ => .look fun _ _ => pure (Next.framed_eval hframe hframe)) fun _ => finishCall hbase

/-- **A body begins** in a frame of its own. -/
theorem enterBody (hbase : call.base + 2 ≤ n) : SecureStep ρ n (Machine.enterBody call args) := by
  have hle : call.base ≤ n := by omega
  have hslot : call.frameSlot < n := by
    unfold Call.frameSlot
    omega
  unfold Machine.enterBody
  refine (newFrame _).next fun frame hframe => (setRoot hslot).next fun _ _ => ?_
  refine (bindParams _ _ hframe).next fun _ _ => .observe fun _ _ => ite (fun _ => ?_) fun _ => ?_
  · exact finishCall hle
  · exact enterForms hframe hle

/-- **A function is called** above whatever is on the root stack. -/
theorem enterFunction (func args : Value) : SecureStep ρ n (Machine.enterFunction func args) := by
  unfold Machine.enterFunction
  refine .observe fun c _ => (setCurrent func).next fun _ _ => .look fun _ _ => ?_
  exact push (push (enterBody (Nat.le_refl _)))

/-- **A native is applied**: it is a primitive, and gets as many arguments as it has slots. -/
theorem enterNative (func args : Value) : SecureStep ρ n (Machine.enterNative host func args) := by
  unfold Machine.enterNative
  refine .look fun c hc => ?_
  cases hfound : c.heap.procedure? func with
  | none => exact failed _
  | some p =>
    obtain ⟨q, rfl⟩ := hc.primitive hfound
    refine .look fun c _ => ?_
    cases htaken : Machine.takeArguments c.heap (Procedure.primitive q).arity args with
    | error misfit => exact failed _
    | ok vs => exact plain (primitive (Machine.length_takeArguments htaken)) (.primitive q vs)

/-- **An application**, whose function and arguments are rooted. -/
theorem enterApply (func args : Value) : SecureStep ρ n (Machine.enterApply host func args) := by
  unfold Machine.enterApply
  have hrelease : ∀ {x : Run Next}, SecureStep ρ (n + 1 + 1) x →
      SecureStep ρ (n + 1 + 1) (do return (← x).andThen (.release n)) := fun hx =>
    hx.bind fun _ _ h => pure (h.andThen trivial)
  refine push (push (.look fun c _ => ite (fun _ => ?_) fun _ => ite (fun _ => ?_) fun _ => ?_))
  · exact hrelease (enterFunction func args)
  · exact hrelease (enterNative func args)
  · exact hrelease (failed _)

/-! ## 3. Forms -/

theorem enterSequence (henv : env.isPair = true) :
    SecureStep ρ n (Machine.enterSequence env forms tail v) :=
  ite (fun _ => .look fun _ _ => pure (Next.framed_eval henv henv)) fun _ => give v

theorem enterConjunction (henv : env.isPair = true) :
    SecureStep ρ n (Machine.enterConjunction env forms tail v) :=
  ite (fun _ => .look fun _ _ => pure (Next.framed_eval henv henv)) fun _ => give v

theorem enterDisjunction (henv : env.isPair = true) :
    SecureStep ρ n (Machine.enterDisjunction env forms tail) :=
  ite (fun _ => .look fun _ _ => pure (Next.framed_eval henv henv)) fun _ => give _

theorem enterBranch (henv : env.isPair = true) : SecureStep ρ n (Machine.enterBranch env args tail) :=
  .look fun _ _ => ite (fun _ => failed _) fun _ => .look fun _ _ => pure (Next.framed_eval henv henv)

theorem enterDefine (henv : env.isPair = true) : SecureStep ρ n (Machine.enterDefine env args) := by
  refine ite (fun _ => failed _) fun _ => .look fun _ _ => .look fun _ _ => ?_
  refine ite (fun _ => .look fun _ _ => ?_) fun _ => ite (fun _ => .look fun _ _ => ?_) fun _ => failed _
  · exact pure (Next.framed_eval henv henv)
  · refine .look fun _ _ => ite (fun _ => failed _) fun _ => .look fun _ _ => ?_
    exact (func _ _ _ _).next fun _ _ => (define henv).next fun _ _ => give _

theorem enterLambda : SecureStep ρ n (Machine.enterLambda env args) := by
  refine .look fun _ _ => .look fun _ _ => ite (fun _ => failed _) fun _ => .look fun _ _ => ?_
  exact (func _ _ _ _).next fun _ _ => give _

theorem enterAssignment (henv : env.isPair = true) :
    SecureStep ρ n (Machine.enterAssignment env args) :=
  .look fun _ _ => ite (fun _ => failed _) fun _ => .look fun _ _ => pure (Next.framed_eval henv henv)

/-- The bindings of a `let`, which are made in its frame. -/
theorem enterBindings (henv : env.isPair = true) (hframe : frame.isPair = true) :
    SecureStep ρ n (Machine.enterBindings env frame args bindings tail) := by
  unfold Machine.enterBindings
  refine ite (fun _ => .look fun _ _ => ?_) fun _ => .look fun _ _ => enterSequence hframe
  have hbound : ∀ name expr : Value, SecureStep ρ n
      (if !name.isSym then Context.failNext "let: Invalid binding"
      else Pure.pure (.eval env expr false (.binding env frame args bindings name tail))) := fun _ _ =>
    ite (fun _ => failed _) fun _ => pure (Next.framed_eval henv ⟨henv, hframe⟩)
  exact ite (fun _ => hbound _ _) fun _ => .look fun _ _ => hbound _ _

theorem enterLet (henv : env.isPair = true) : SecureStep ρ n (Machine.enterLet env args tail) := by
  unfold Machine.enterLet
  refine ite (fun _ => failed _) fun _ => rootBase ((newFrame _).next fun frame hframe => ?_)
  refine push (.look fun _ _ => (enterBindings henv hframe).bind fun _ _ h => ?_)
  exact pure (h.andThen trivial)

/-- **A special form.** -/
theorem standardForm (form : StandardForm) (henv : env.isPair = true) :
    SecureStep ρ n (form.enter env args tail) := by
  cases form with
  | quote => exact .look fun _ _ => give _
  | branch => exact enterBranch henv
  | define => exact enterDefine henv
  | lambda => exact enterLambda
  | sequence => exact enterSequence henv
  | conjunction => exact (ofBool _).next fun _ _ => enterConjunction henv
  | disjunction => exact enterDisjunction henv
  | binding => exact enterLet henv
  | assignment => exact enterAssignment henv

/-! ## 4. Evaluation -/

/-- **A pair is evaluated** by what its head says. -/
theorem enterForm (expr : Value) (henv : env.isPair = true) :
    SecureStep ρ n (Machine.enterForm host env expr tail) := by
  unfold Machine.enterForm
  refine .observe fun c hc => ?_
  cases hform : Machine.specialForm? c expr with
  | none => exact pure ⟨henv, List.forall_mem_singleton.mpr trivial⟩
  | some form =>
    obtain ⟨id, -, hlookup⟩ := Option.bind_eq_some_iff.mp hform
    obtain ⟨f, rfl⟩ := hc.standardForm hlookup
    exact .look fun _ _ => standardForm f henv

/-- **A pair is evaluated one level deeper**, unless that is too deep. -/
theorem enterPair (expr : Value) (henv : env.isPair = true) :
    SecureStep ρ n (Machine.enterPair host env expr tail) := by
  unfold Machine.enterPair
  refine .observe fun _ _ => ite (fun _ => failed _) fun _ => ?_
  refine next (register fun _ => ⟨rfl, rfl, rfl, rfl⟩) fun _ _ => ?_
  exact push (push ((enterForm expr henv).bind fun _ _ h => pure (h.andThen trivial)))

/-- **An expression is evaluated.** -/
theorem enterEval (expr : Value) (henv : env.isPair = true) :
    SecureStep ρ n (Machine.enterEval host env expr tail) := by
  cases expr with
  | nil | int k | object a => exact give _
  | sym id => exact (valueOf _ _).next fun v _ => give v
  | pair a => exact enterPair _ henv

/-- The arguments that are left, or the end of the list. -/
theorem enterArguments (rest : Value) (henv : env.isPair = true) (hslot : slot < n)
    (hlast : last = .nil ∨ last.isPair = true) :
    SecureStep ρ n (Machine.enterArguments env rest slot last) := by
  unfold Machine.enterArguments
  refine ite (fun _ => .look fun _ _ => pure (Next.framed_eval henv ⟨henv, hlast⟩)) fun _ => ?_
  exact (root hslot).next fun out _ => pop (Nat.le_of_lt hslot) (give out)

/-- **A list is evaluated** into a fresh one. -/
theorem enterEvalList (list : Value) (henv : env.isPair = true) :
    SecureStep ρ n (Machine.enterEvalList env list) :=
  push (enterArguments list henv (Nat.lt_succ_self n) (.inl rfl))

/-- An argument is appended. -/
theorem resumeArgument (rest : Value) (henv : env.isPair = true) (hslot : slot < n)
    (hlast : last = .nil ∨ last.isPair = true) :
    SecureStep ρ n (Machine.resumeArgument env rest slot last v) := by
  unfold Machine.resumeArgument
  refine .observe fun _ _ => ite (fun _ => pop (Nat.le_of_lt hslot) (give _)) fun _ => ?_
  exact (append hslot hlast).next fun cell hcell => .look fun _ _ =>
    enterArguments _ henv hslot (.inr hcell)

/-- **A call**, or the arguments of a self tail call. -/
theorem resumeCall : SecureStep ρ n (Machine.resumeCall host tail v) := by
  unfold Machine.resumeCall
  refine .observe fun _ _ => ite (fun _ => give _) fun _ => push ?_
  refine .look fun _ _ => .look fun _ _ => .look fun _ _ => ite (fun _ => ?_) fun _ => ite (fun _ => ?_) ?_
  · refine .observe fun _ _ => ite (fun _ => ?_) fun _ => enterFunction _ _
    refine next (register fun _ => ⟨rfl, rfl, rfl, rfl⟩) fun _ _ => give _
  · exact enterNative _ _
  · exact fun _ => failed _

/-- The body goes on, or begins again with the arguments of a self tail call. -/
theorem resumeBody (hframe : frame.isPair = true) (hbase : call.base + 2 ≤ n) :
    SecureStep ρ n (Machine.resumeBody call frame forms v) := by
  have hle : call.base ≤ n := by omega
  unfold Machine.resumeBody
  refine .observe fun _ _ => ite (fun _ => finishCall hle) fun _ => .observe fun _ _ => ite (fun _ => ?_) ?_
  · refine next (register fun _ => ⟨rfl, rfl, rfl, rfl⟩) fun _ _ => ?_
    exact (setRoot (by omega)).next fun _ _ => enterBody hbase
  · exact fun _ => .look fun _ _ => enterForms hframe hle

/-! ## 5. Source text -/

/-- A run of source text ends. -/
theorem finishExec (hslot : slot < n) : SecureStep ρ n (Machine.finishExec slot) :=
  (root hslot).next fun out _ => pop (Nat.le_of_lt hslot) (give out)

/-- **The next form**, the end of the text, or an error. -/
theorem enterNextForm {echo : Bool} (source : List Char) (hρ : ρ.isPair = true) (hslot : slot < n) :
    SecureStep ρ n (Machine.enterNextForm source slot echo) := by
  unfold Machine.enterNextForm
  refine reset.next fun _ _ => (read source).next fun r _ => ?_
  obtain ⟨r, rest⟩ := r
  cases r with
  | ok form =>
    cases form with
    | none => exact finishExec hslot
    | some form =>
      refine (setRoot hslot).next fun _ _ => .observe fun c hc => pure (Next.framed_eval ?_ trivial)
      rw [hc.rootEnv]
      exact hρ
  | error e => exact (setRoot hslot).next fun _ _ => (fail _).next fun _ _ => finishExec hslot

/-- Goes on after a form. -/
theorem resumeExec {echo : Bool} (source : List Char) (hρ : ρ.isPair = true) (hslot : slot < n) :
    SecureStep ρ n (Machine.resumeExec source slot echo v) := by
  unfold Machine.resumeExec
  refine (setRoot hslot).next fun _ _ => .observe fun _ _ => ite (fun _ => finishExec hslot) fun _ => ?_
  refine ite (fun _ => .observe fun _ _ => ?_) fun _ => enterNextForm source hρ hslot
  exact (write _).next fun _ _ => enterNextForm source hρ hslot

/-! ## 6. Steps -/

/-- **A task is done.** -/
theorem task {task : Task} (hρ : ρ.isPair = true) (ht : task.Framed) :
    SecureStep ρ n (task.step host) := by
  cases task with
  | give v => exact give v
  | eval env expr tail => exact enterEval expr ht
  | evalList env list => exact enterEvalList list ht
  | apply func args => exact enterApply func args
  | exec source echo => exact push (enterNextForm source hρ (Nat.lt_succ_self n))

/-- **A waiting step goes on.** -/
theorem resume {p : Pending} (hρ : ρ.isPair = true) (hp : p.Framed) (hfits : p.Fits n) :
    SecureStep ρ n (p.resume host v) := by
  cases p with
  | leave base =>
    refine pop hfits ?_
    exact next (register fun _ => ⟨rfl, rfl, rfl, rfl⟩) fun _ _ => give v
  | release base => exact pop hfits (give v)
  | call tail => exact resumeCall
  | argument env rest base last => exact resumeArgument rest hp.1 hfits hp.2
  | body call frame forms => exact resumeBody hp hfits
  | branch env args tail => exact unlessFailing (.look fun _ _ => pure ⟨hp, List.forall_mem_nil _⟩)
  | define env name => exact unlessFailing ((define hp).next fun _ _ => give _)
  | assign env name => exact unlessFailing ((assign _ _ _).next fun _ _ => give _)
  | sequence env forms tail => exact unlessFailing (.look fun _ _ => enterSequence hp)
  | conjunction env forms tail =>
    exact .observe fun _ _ => ite (fun _ => give _) fun _ => .look fun _ _ => enterConjunction hp
  | disjunction env forms tail =>
    refine unlessFailing (ite (fun _ => give _) fun _ => .look fun _ _ => enterDisjunction hp)
  | binding env frame args bindings name tail =>
    refine unlessFailing ((define hp.2).next fun _ _ => .look fun _ _ => ?_)
    exact enterBindings hp.1 hp.2
  | exec source base echo => exact resumeExec source hρ hfits

end Secure

end LispMachine
