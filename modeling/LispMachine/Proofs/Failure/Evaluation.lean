import LispMachine.Proofs.Balance.Evaluation
import LispMachine.Proofs.Failure.Abort

/-!
# Every step breaks off where it fails

The evaluator does many small actions in one step. If one of them fails, the step does nothing more than
leave what it was in the middle of, and hands nil back:

* `Host.Heeds` -- the contract of the procedures and forms of an embedding program;
* `Breaks.enterBody`, `Breaks.enterApply`, … -- calls; `Breaks.standardForm` -- forms;
  `Breaks.enterEval` -- evaluation; `Breaks.enterNextForm` -- source text;
* `Breaks.step`, `Breaks.resume` -- **every step breaks off** where it fails.
-/

namespace LispMachine

open Context

/-- **The contract of an embedding program**: its procedures and forms break off where they fail. -/
structure Host.Heeds (host : Host) : Prop where
  procedure : ∀ (entry : String) (args : List Value), Breaks (host.procedure entry args) GivesNil
  form : ∀ (entry : String) (env args : Value) (tail : Bool),
    Breaks (host.form entry env args tail) GivesNil

theorem Host.heeds_none : Host.none.Heeds where
  procedure _ _ := .failNext _
  form _ _ _ _ := .failNext _

section Steps

variable {host : Host} {call : Call} {env args frame forms v : Value} {tail : Bool}

/-! ## 1. Calls -/

namespace Rests

/-- Only the root stack is changed. -/
theorem lift {α : Type} {g : HeapM α}
    (hg : ∀ h, Yields g h fun _ h' => h' = { h with roots := h'.roots }) :
    Rests (liftM g : Run α) fun _ => True where
  rests {c c' a} hc hrun := by
    replace hrun : onHeap g c = .ok a c' := hrun
    unfold onHeap at hrun
    cases hrun' : g c.heap with
    | ok b h =>
      rw [hrun'] at hrun
      cases hrun
      have hroots := hg _ _ _ hrun'
      exact ⟨⟨hc, .cause, by rw [← hc, ← hroots]⟩, trivial⟩
    | error e h =>
      rw [hrun'] at hrun
      cases hrun

theorem popRoots (base : Nat) : Rests (liftM (Heap.popRoots base) : Run Unit) fun _ => True := by
  refine lift fun h _ h' hrun => ?_
  unfold Heap.popRoots at hrun
  split at hrun
  · cases hrun
    rfl
  · cases hrun

/-- A line of traceback names a function. -/
theorem traceback {name : Value} (hname : name.isSym = true) :
    Rests (LispMachine.observe (·.display name) >>= fun s => prepend ("In " ++ s ++ ":\n"))
      fun _ => True where
  rests {c c' a} hc hrun := by
    obtain ⟨s, c₁, hs, hrun⟩ := bind_eq_ok.mp hrun
    cases hs
    cases hrun
    dsimp only
    split
    · exact ⟨⟨hc, .line name hname .cause, by rw [← hc]⟩, trivial⟩
    · exact ⟨.refl hc, trivial⟩

/-- **A call ends** where a failure has happened. -/
theorem finish (call : Call) : Rests (Machine.finish call .nil) (· = .give .nil) := by
  have hleave : Rests (do
      Heap.popRoots call.base
      modify fun c => { c with current := call.caller }
      Pure.pure (Next.give .nil) : Run Next) (· = .give .nil) := by
    refine (popRoots _).bind fun _ _ => bind (P := fun _ => True) ?_ fun _ _ => pure rfl
    refine ⟨fun hc hrun => ?_⟩
    cases hrun
    exact ⟨⟨hc, .cause, by rw [← hc]⟩, trivial⟩
  unfold Machine.finish
  refine ifFailing ?_
  rw [Bool.true_and]
  by_cases hname : call.closure.name.isSym = true
  · rw [if_pos hname]
    have hline := (traceback hname).bind (f := fun _ => (do
      Heap.popRoots call.base
      modify fun c => { c with current := call.caller }
      Pure.pure (Next.give .nil) : Run Next)) fun _ _ => hleave
    rw [bind_assoc] at hline
    exact hline
  · rw [if_neg hname]
    exact hleave

end Rests

namespace Calm

theorem finish (call : Call) (v : Value) : Calm (Machine.finish call v) := by
  have hleave : Calm (do
      Heap.popRoots call.base
      modify fun c => { c with current := call.caller }
      Pure.pure (Next.give v) : Run Next) :=
    .after (lift _) fun _ => .after (edit fun _ h => h) fun _ => .pure _
  unfold Machine.finish
  refine Breaks.unlessFailing ?_
  rw [Bool.false_and]
  exact hleave

theorem enterForms (call : Call) (frame forms v : Value) :
    Calm (Machine.enterForms call frame forms v) := by
  unfold Machine.enterForms
  exact .ite (fun _ => .look fun _ => .pure _) fun _ => finish call v

end Calm

namespace Breaks

theorem bindParams (frame params args : Value) :
    Breaks (Machine.bindParams frame params args) fun _ => True := by
  unfold Machine.bindParams
  refine look fun paired => ?_
  obtain ⟨bound, fit⟩ := paired
  refine after (.forM (fun p => .define frame p.1 p.2) bound) fun _ => ?_
  cases fit with
  | exact => exact pure _
  | tooFew => exact (fail _).bind (fun _ => pure _) fun _ _ => .pure trivial
  | tooMany => exact (fail _).bind (fun _ => pure _) fun _ _ => .pure trivial
  | endless => exact throw _

/-- **A body begins**, unless the arguments do not fit. -/
theorem enterBody (call : Call) (args : Value) : Breaks (Machine.enterBody call args) GivesNil := by
  unfold Machine.enterBody
  refine after (.newFrame _) fun frame => after (.lift _) fun _ => ?_
  refine (bindParams _ _ _).bind (fun _ => unlessFailing (ite nofun fun _ => ?_))
    fun _ _ => .ifFailing ?_
  · exact calm (.enterForms _ _ _ _)
  · rw [if_pos rfl]
    exact (Rests.finish call).weaken fun _ h => congrArg Next.task h

theorem resumeBody (call : Call) (frame forms v : Value) :
    Breaks (Machine.resumeBody call frame forms v) GivesNil := by
  unfold Machine.resumeBody
  refine unlessFailing (ite nofun fun _ => observe fun looping => ite (fun _ => ?_) fun _ => ?_)
  · exact after (.edit fun _ h => h) fun _ => after (.lift _) fun _ => enterBody call v
  · exact look fun _ => calm (.enterForms _ _ _ _)

theorem enterFunction (func args : Value) : Breaks (Machine.enterFunction func args) GivesNil := by
  unfold Machine.enterFunction
  refine observe fun caller => after (.edit fun _ h => h) fun _ => look fun closure => ?_
  exact after (.lift _) fun base => after (.lift _) fun _ => enterBody _ args

theorem enterNative (hheeds : host.Heeds) (func args : Value) :
    Breaks (Machine.enterNative host func args) GivesNil := by
  unfold Machine.enterNative
  refine look fun found => ?_
  cases found with
  | none => exact failNext _
  | some p =>
    refine look fun taken => ?_
    cases taken with
    | error misfit => exact failNext _
    | ok args =>
      cases p with
      | primitive p => exact primitive p args
      | hosted name arity entry => exact hheeds.procedure entry args

/-- One more step waits behind those of a step. -/
theorem andThen {x : Run Next} (hx : Breaks x GivesNil) (p : Pending) :
    Breaks (do
      let next ← x
      Pure.pure (next.andThen p)) GivesNil :=
  hx.bind (fun _ => pure _) fun _ h => .pure h

theorem enterApply (hheeds : host.Heeds) (func args : Value) :
    Breaks (Machine.enterApply host func args) GivesNil := by
  unfold Machine.enterApply
  refine after (.lift _) fun base => after (.lift _) fun _ => look fun type => ?_
  refine ite (fun _ => ?_) fun _ => ite (fun _ => ?_) fun _ => ?_
  · exact (enterFunction func args).andThen _
  · exact (enterNative hheeds func args).andThen _
  · exact (failNext _).andThen _

/-! ## 2. Forms -/

theorem enterSequence (env forms : Value) (tail : Bool) (v : Value) :
    Breaks (Machine.enterSequence env forms tail v) GivesNil :=
  ite (fun _ => look fun _ => pure _) fun _ => pure _

theorem enterConjunction (env forms : Value) (tail : Bool) (v : Value) :
    Breaks (Machine.enterConjunction env forms tail v) GivesNil :=
  ite (fun _ => look fun _ => pure _) fun _ => pure _

theorem enterDisjunction (env forms : Value) (tail : Bool) :
    Breaks (Machine.enterDisjunction env forms tail) GivesNil :=
  ite (fun _ => look fun _ => pure _) fun _ => pure _

theorem enterDefine (env args : Value) : Breaks (Machine.enterDefine env args) GivesNil := by
  unfold Machine.enterDefine
  refine ite (fun _ => failNext _) fun _ => look fun target => look fun name => ?_
  refine ite (fun _ => look fun _ => pure _) fun _ => ite (fun _ => ?_) fun _ => failNext _
  refine look fun params => look fun valid => ite (fun _ => failNext _) fun _ => look fun body => ?_
  exact after (.func _ _ _ _) fun f => after (.define _ _ _) fun _ => pure _

theorem enterLambda (env args : Value) : Breaks (Machine.enterLambda env args) GivesNil := by
  unfold Machine.enterLambda
  refine look fun params => look fun valid => ite (fun _ => failNext _) fun _ => look fun body => ?_
  exact after (.func _ _ _ _) fun f => pure _

theorem enterBindings (env frame args bindings : Value) (tail : Bool) :
    Breaks (Machine.enterBindings env frame args bindings tail) GivesNil := by
  unfold Machine.enterBindings
  refine ite (fun _ => look fun binding => ?_) fun _ => look fun _ => enterSequence _ _ _ _
  have hbound : ∀ name expr : Value, Breaks (if !name.isSym then Context.failNext "let: Invalid binding"
      else Pure.pure (.eval env expr false (.binding env frame args bindings name tail)))
      GivesNil := fun _ _ => ite (fun _ => failNext _) fun _ => pure _
  exact ite (fun _ => hbound _ _) fun _ => look fun _ => hbound _ _

theorem enterLet (env args : Value) (tail : Bool) : Breaks (Machine.enterLet env args tail) GivesNil := by
  unfold Machine.enterLet
  refine ite (fun _ => failNext _) fun _ => after (.lift _) fun base => ?_
  refine after (.newFrame _) fun frame => after (.lift _) fun _ => look fun bindings => ?_
  exact (enterBindings _ _ _ _ _).andThen _

theorem standardForm (form : StandardForm) (env args : Value) (tail : Bool) :
    Breaks (form.enter env args tail) GivesNil := by
  cases form with
  | quote => exact look fun _ => pure _
  | branch => exact look fun _ => ite (fun _ => failNext _) fun _ => look fun _ => pure _
  | define => exact enterDefine env args
  | lambda => exact enterLambda env args
  | sequence => exact enterSequence env args tail .nil
  | conjunction => exact after (.ofBool true) fun _ => enterConjunction _ _ _ _
  | disjunction => exact enterDisjunction env args tail
  | binding => exact enterLet env args tail
  | assignment => exact look fun _ => ite (fun _ => failNext _) fun _ => look fun _ => pure _

/-! ## 3. Evaluation and source text -/

theorem enterForm (hheeds : host.Heeds) (env expr : Value) (tail : Bool) :
    Breaks (Machine.enterForm host env expr tail) GivesNil := by
  unfold Machine.enterForm
  refine observe fun form => ?_
  split
  · exact look fun _ => standardForm _ env _ tail
  · exact look fun _ => hheeds.form _ env _ tail
  · exact pure _

theorem enterPair (hheeds : host.Heeds) (env expr : Value) (tail : Bool) :
    Breaks (Machine.enterPair host env expr tail) GivesNil := by
  unfold Machine.enterPair
  refine observe fun limit => ite (fun _ => failNext _) fun _ => after (.edit fun _ h => h) fun _ => ?_
  refine after (.lift _) fun base => after (.lift _) fun _ => ?_
  exact (enterForm hheeds env expr tail).andThen _

theorem enterEval (hheeds : host.Heeds) (env expr : Value) (tail : Bool) :
    Breaks (Machine.enterEval host env expr tail) GivesNil := by
  cases expr with
  | nil => exact pure _
  | int n => exact pure _
  | object a => exact pure _
  | sym id =>
    refine (valueOf env _).bind (fun _ => pure _) fun v hv => .pure ?_
    rw [hv]
    exact givesNil_give
  | pair a => exact enterPair hheeds env _ tail

theorem enterArguments (env rest : Value) (base : Nat) (last : Value) :
    Breaks (Machine.enterArguments env rest base last) GivesNil := by
  unfold Machine.enterArguments
  refine ite (fun _ => look fun _ => pure _) fun _ => ?_
  exact after (.lift _) fun _ => after (.lift _) fun _ => pure _

theorem resumeCall (hheeds : host.Heeds) (tail : Bool) (form : Value) :
    Breaks (Machine.resumeCall host tail form) GivesNil := by
  unfold Machine.resumeCall
  refine unlessFailing (ite nofun fun _ => after (.lift _) fun _ => ?_)
  refine look fun func => look fun args => look fun type => ite (fun _ => ?_) fun _ =>
    ite (fun _ => enterNative hheeds _ _) fun _ => failNext _
  refine observe fun current => ite (fun _ => ?_) fun _ => enterFunction _ _
  exact after (.edit fun _ h => h) fun _ => pure _

theorem finishExec (base : Nat) : Calm (Machine.finishExec base) :=
  .after (.lift _) fun _ => .after (.lift _) fun _ => .pure _

/-- A run of source text ends with nil in its slot, where a failure has happened. -/
theorem aborted_finishExec {c c' : Context} {base : Nat} {next : Next}
    (hrun : Machine.finishExec base c = .ok next c') (hc : c.failing = true)
    (hroot : c.heap.roots[base]? = some .nil) : Aborted c c' ∧ next = .give .nil := by
  have hread : (liftM (Heap.root base) : Run Value) c = .ok .nil c := by
    show onHeap (Heap.root base) c = _
    unfold onHeap Heap.root
    rw [hroot]
  unfold Machine.finishExec at hrun
  rw [run_bind hread] at hrun
  obtain ⟨_, c₁, hpop, hrun⟩ := bind_eq_ok.mp hrun
  cases hrun
  exact ⟨((Rests.popRoots base).rests hc hpop).1, rfl⟩

/-- A failure of the reader is the value nil of the text. -/
theorem endWithFailure (base : Nat) (message : String) : Breaks (do
    Heap.setRoot base .nil
    let _ ← Context.fail message
    Machine.finishExec base : Run Next) GivesNil where
  breaks {c c' next} hc hrun hc' := by
    obtain ⟨_, c₁, hset, hrun⟩ := bind_eq_ok.mp hrun
    have hc₁ : c₁.failing = false := (Calm.lift (Heap.setRoot base .nil)).failing_eq hc hset
    have hroot : c₁.heap.roots[base]? = some .nil := by
      replace hset : onHeap (Heap.setRoot base .nil) c = .ok _ c₁ := hset
      unfold onHeap Heap.setRoot at hset
      by_cases hb : base < c.heap.roots.size
      · rw [if_pos hb] at hset
        cases hset
        exact Array.getElem?_setIfInBounds_self_of_lt hb
      · rw [if_neg hb] at hset
        cases hset
    have hfail : Context.fail message c₁ =
        .ok .nil { c₁ with failing := true, failure := Text.clip failureCap message } := by
      unfold Context.fail
      rw [run_modifyGet, hc₁]
      rfl
    rw [run_bind hfail] at hrun
    obtain ⟨habort, rfl⟩ := aborted_finishExec hrun rfl hroot
    exact ⟨_, .later hset (.first (.fail message hc₁)), habort, givesNil_give⟩

theorem enterNextForm (source : List Char) (base : Nat) (echo : Bool) :
    Breaks (Machine.enterNextForm source base echo) GivesNil := by
  unfold Machine.enterNextForm
  refine after .reset fun _ => after (.read source) fun r => ?_
  obtain ⟨r, rest⟩ := r
  cases r with
  | ok form =>
    cases form with
    | none => exact calm (finishExec base)
    | some form => exact after (.lift _) fun _ => observe fun _ => pure _
  | error e => exact endWithFailure base e.message

theorem resumeExec (source : List Char) (base : Nat) (echo : Bool) (v : Value) :
    Breaks (Machine.resumeExec source base echo v) GivesNil := by
  unfold Machine.resumeExec
  refine after (.lift _) fun _ => unlessFailing (ite nofun fun _ => ite (fun _ => ?_) fun _ => ?_)
  · exact observe fun _ => after (.write _) fun _ => enterNextForm source base echo
  · exact enterNextForm source base echo

/-! ## 4. Steps -/

/-- **A task breaks off** where it fails. -/
theorem step (hheeds : host.Heeds) (task : Task) : Breaks (task.step host) GivesNil := by
  cases task with
  | give v => exact pure _
  | eval env expr tail => exact enterEval hheeds env expr tail
  | evalList env list => exact after (.lift _) fun base => enterArguments env list base .nil
  | apply func args => exact enterApply hheeds func args
  | exec source echo => exact after (.lift _) fun base => enterNextForm source base echo

/-- **A step that waits breaks off** where it fails. -/
theorem resume (hheeds : host.Heeds) (v : Value) (p : Pending) :
    Breaks (p.resume host v) GivesNil := by
  cases p with
  | leave base => exact after (.lift _) fun _ => after (.edit fun _ h => h) fun _ => pure _
  | release base => exact after (.lift _) fun _ => pure _
  | call tail => exact resumeCall hheeds tail v
  | argument env rest base last =>
    refine unlessFailing (ite nofun fun _ => after (.append _ _ _) fun cell => look fun _ => ?_)
    exact enterArguments _ _ _ _
  | body active frame forms => exact resumeBody active frame forms v
  | branch env args tail => exact unlessFailing (ite nofun fun _ => look fun _ => pure _)
  | define env name =>
    exact unlessFailing (ite nofun fun _ => after (.define _ _ _) fun _ => pure _)
  | assign env name =>
    refine unlessFailing (ite nofun fun _ => (assign env name v).bind (fun _ => pure _) fun u hu => ?_)
    rw [hu]
    exact .pure givesNil_give
  | sequence env forms tail =>
    exact unlessFailing (ite nofun fun _ => look fun _ => enterSequence _ _ _ _)
  | conjunction env forms tail =>
    exact unlessFailing (ite (fun _ => pure _) fun _ => look fun _ => enterConjunction _ _ _ _)
  | disjunction env forms tail =>
    refine unlessFailing (ite nofun fun _ => ite (fun _ => pure _) fun _ => look fun _ => ?_)
    exact enterDisjunction _ _ _
  | binding env frame args bindings name tail =>
    refine unlessFailing (ite nofun fun _ => after (.define _ _ _) fun _ => look fun _ => ?_)
    exact enterBindings _ _ _ _ _
  | exec source base echo => exact resumeExec source base echo v

end Breaks

end Steps

end LispMachine
