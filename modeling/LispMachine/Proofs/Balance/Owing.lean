import LispMachine.Machine.Run
import LispMachine.Proofs.Balance.Natives
import LispMachine.Proofs.Balance.Reading
import Mathlib.Logic.Relation

/-!
# What the steps that wait owe

A step that waits will cut the root stack back, count the depth down or change the running function
when it goes on. What all of them together owe brings the evaluator back to where it was:

* `Owing` -- **how the evaluator must stand for a list of steps to bring it back**, and whether the
  arguments of a self tail call may come in place of a value;
* `Task.Suits` -- the tasks that may be done in front of such a list;
* `Goes` -- what a step leads to;
* `Host.Balanced` -- the contract of the procedures and forms of an embedding program.

There follows one lemma for each step: calls (`Goes.enterFunction`), forms (`Goes.standardForm`),
evaluation (`Goes.enterEval`), source text (`Goes.enterExec`), and what resumes them.
-/

namespace LispMachine

open Context

/-! ## 1. The steps that wait -/

/-- **What is owed**: with the root stack `n` high, the depth `k` and the function `g` running, the
    steps lead back to the roots `base`, the depth `d` and the function `f`. If `τ`, the arguments of
    a self tail call may be handed to them in place of a value, and in the end to whoever is behind
    them only if `t`. -/
inductive Owing (base : Array Value) (d : Nat) (f : Value) (t : Bool) :
    Nat → Nat → Value → Bool → List Pending → Prop where
  | nil : Owing base d f t base.size d f t []
  | leave {n slot k : Nat} {g : Value} {τ : Bool} {ps : List Pending} (hs : slot ≤ n)
      (h : Owing base d f t slot k g τ ps) : Owing base d f t n (k + 1) g τ (.leave slot :: ps)
  | release {n slot k : Nat} {g : Value} {τ : Bool} {ps : List Pending} (hs : slot ≤ n)
      (h : Owing base d f t slot k g τ ps) : Owing base d f t n k g τ (.release slot :: ps)
  | call {n k : Nat} {g : Value} {τ tail : Bool} {ps : List Pending} (ht : tail = true → τ = true)
      (h : ∀ m, n ≤ m → Owing base d f t m k g τ ps) :
      Owing base d f t n k g false (.call tail :: ps)
  | argument {slot k : Nat} {g env rest last : Value} {τ : Bool} {ps : List Pending}
      (h : Owing base d f t slot k g τ ps) :
      Owing base d f t (slot + 1) k g false (.argument env rest slot last :: ps)
  | body {call : Call} {k : Nat} {g frame forms : Value} {τ : Bool} {ps : List Pending}
      (h : Owing base d f t call.base k call.caller τ ps) :
      Owing base d f t (call.base + 2) k g true (.body call frame forms :: ps)
  | branch {n k : Nat} {g env args : Value} {τ tail : Bool} {ps : List Pending}
      (ht : tail = true → τ = true) (h : Owing base d f t n k g τ ps) :
      Owing base d f t n k g false (.branch env args tail :: ps)
  | define {n k : Nat} {g env name : Value} {τ : Bool} {ps : List Pending}
      (h : Owing base d f t n k g τ ps) : Owing base d f t n k g false (.define env name :: ps)
  | assign {n k : Nat} {g env name : Value} {τ : Bool} {ps : List Pending}
      (h : Owing base d f t n k g τ ps) : Owing base d f t n k g false (.assign env name :: ps)
  | sequence {n k : Nat} {g env forms : Value} {τ tail : Bool} {ps : List Pending}
      (ht : tail = true → τ = true) (h : Owing base d f t n k g τ ps) :
      Owing base d f t n k g tail (.sequence env forms tail :: ps)
  | conjunction {n k : Nat} {g env forms : Value} {τ tail : Bool} {ps : List Pending}
      (ht : tail = true → τ = true) (h : Owing base d f t n k g τ ps) :
      Owing base d f t n k g tail (.conjunction env forms tail :: ps)
  | disjunction {n k : Nat} {g env forms : Value} {τ tail : Bool} {ps : List Pending}
      (ht : tail = true → τ = true) (h : Owing base d f t n k g τ ps) :
      Owing base d f t n k g tail (.disjunction env forms tail :: ps)
  | binding {n k : Nat} {g env frame args bindings name : Value} {τ tail : Bool} {ps : List Pending}
      (ht : tail = true → τ = true) (h : Owing base d f t n k g τ ps) :
      Owing base d f t n k g false (.binding env frame args bindings name tail :: ps)
  | exec {slot k : Nat} {source : List Char} {echo τ : Bool} {ps : List Pending}
      (h : Owing base d f t slot k .nil τ ps) :
      Owing base d f t (slot + 1) k .nil false (.exec source slot echo :: ps)

/-- What is owed concerns the root stack above its bottom only. -/
theorem Owing.le {base : Array Value} {d n k : Nat} {f g : Value} {t τ : Bool} {ps : List Pending}
    (h : Owing base d f t n k g τ ps) : base.size ≤ n := by
  induction h with
  | nil => exact Nat.le_refl _
  | leave hs _ ih => exact Nat.le_trans ih hs
  | release hs _ ih => exact Nat.le_trans ih hs
  | call _ _ ih => exact ih _ (Nat.le_refl _)
  | argument _ ih => exact Nat.le_succ_of_le ih
  | body _ ih => exact Nat.le_add_right_of_le ih
  | branch _ _ ih | sequence _ _ ih | conjunction _ _ ih | disjunction _ _ ih | binding _ _ ih => exact ih
  | define _ ih | assign _ ih => exact ih
  | exec _ ih => exact Nat.le_succ_of_le ih

/-- A task in front of steps that wait: in tail position only where the arguments of a self tail call
    may be handed back, and source text only where no function is running. -/
inductive Task.Suits (g : Value) (τ : Bool) : Task → Prop where
  | give (v : Value) : Suits g τ (.give v)
  | eval {env expr : Value} {tail : Bool} (ht : tail = true → τ = true) :
      Suits g τ (.eval env expr tail)
  | evalList (env list : Value) : Suits g τ (.evalList env list)
  | apply (func args : Value) : Suits g τ (.apply func args)
  | exec {source : List Char} {echo : Bool} (hg : g = .nil) : Suits g τ (.exec source echo)

theorem Task.Plain.suits {task : Task} {g : Value} {τ : Bool} (h : task.Plain) : task.Suits g τ := by
  cases h with
  | give v => exact .give v
  | apply func args => exact .apply func args

/-- The registers after a step: the limit is the same and is kept, and no self tail call is begun. -/
structure Context.Registers.Before (κ κ' : Context.Registers) : Prop where
  maxDepth : κ'.maxDepth = κ.maxDepth
  looping : κ'.looping = true → κ.looping = true
  depth : κ.depth ≤ κ.maxDepth → κ'.depth ≤ κ'.maxDepth
  peakDepth : κ.peakDepth ≤ κ.maxDepth → κ'.peakDepth ≤ κ'.maxDepth

theorem Context.Registers.Before.refl (κ : Context.Registers) : κ.Before κ := ⟨rfl, id, id, id⟩

theorem Context.Registers.Before.trans {κ κ' κ'' : Context.Registers} (h : κ.Before κ')
    (h' : κ'.Before κ'') : κ.Before κ'' where
  maxDepth := h'.maxDepth.trans h.maxDepth
  looping hl := h.looping (h'.looping hl)
  depth hd := h'.depth (h.depth hd)
  peakDepth hp := h'.peakDepth (h.peakDepth hp)

/-- **What a step leads to**: the evaluator stands as the steps that wait, the new ones included,
    need it. -/
def Goes (base : Array Value) (d : Nat) (f : Value) (t : Bool) (κ : Context.Registers)
    (ps : List Pending) (next : Next) (c : Context) : Prop :=
  ∃ n κ' τ, Stance base n κ' c ∧ κ.Before κ' ∧
    Owing base d f t n κ'.depth κ'.current τ (next.pending ++ ps) ∧ next.task.Suits κ'.current τ

/-- **The contract of an embedding program.** What its procedures and forms lead to keeps what is
    owed; a form evaluates in tail position only if it is in tail position itself. -/
structure Host.Balanced (host : Host) : Prop where
  procedure : ∀ {base : Array Value} {d : Nat} {f : Value} {t : Bool} {n : Nat}
    {κ : Context.Registers} {τ : Bool} {ps : List Pending} {c : Context} (entry : String)
    (args : List Value), Stance base n κ c →
      (∀ m, n ≤ m → Owing base d f t m κ.depth κ.current τ ps) →
      Yields (host.procedure entry args) c (Goes base d f t κ ps)
  form : ∀ {base : Array Value} {d : Nat} {f : Value} {t : Bool} {n : Nat}
    {κ : Context.Registers} {τ : Bool} {ps : List Pending} {c : Context} (entry : String)
    (env args : Value) (tail : Bool), Stance base n κ c →
      (∀ m, n ≤ m → Owing base d f t m κ.depth κ.current τ ps) → (tail = true → τ = true) →
      Yields (host.form entry env args tail) c (Goes base d f t κ ps)

/-- What may be done in front of any steps that owe something. -/
structure Next.Owed (tail : Bool) (next : Next) : Prop where
  owes : ∀ {base : Array Value} {d : Nat} {f : Value} {t : Bool} {n k : Nat} {g : Value} {τ : Bool}
    {ps : List Pending}, (tail = true → τ = true) → Owing base d f t n k g τ ps →
    ∃ τ', Owing base d f t n k g τ' (next.pending ++ ps) ∧ next.task.Suits g τ'

theorem Next.Plain.owed {tail : Bool} {next : Next} (h : next.Plain) : next.Owed tail :=
  ⟨fun {_ _ _ _ _ _ _ τ ps} _ how => ⟨τ, by rw [h.pending]; exact how, h.task.suits⟩⟩

theorem Next.owed_give {tail : Bool} (v : Value) : (Next.give v).Owed tail := (plain_give v).owed

section Steps

variable {base : Array Value} {d : Nat} {f : Value} {t : Bool} {n k : Nat} {κ κ' : Context.Registers}
variable {τ tail : Bool} {ps : List Pending} {c : Context} {next : Next}
variable {v env args frame forms bindings name : Value} {call : Call} {host : Host}

namespace Goes

theorem of_before (h : Goes base d f t κ' ps next c) (hκ : κ.Before κ') :
    Goes base d f t κ ps next c := by
  obtain ⟨n, κ₁, τ, hc, hκ₁, how, ht⟩ := h
  exact ⟨n, κ₁, τ, hc, hκ.trans hκ₁, how, ht⟩

/-- A value is given. -/
theorem give (hc : Stance base n κ c) (how : Owing base d f t n κ.depth κ.current τ ps) :
    Goes base d f t κ ps (.give v) c :=
  ⟨n, κ, τ, hc, .refl κ, how, .give v⟩

/-- A step that leaves the evaluator as it stands. -/
theorem idle {x : Run Next} (hx : Idle x (Next.Owed tail)) (hc : Stance base n κ c)
    (ht : tail = true → τ = true) (how : Owing base d f t n κ.depth κ.current τ ps) :
    Yields x c (Goes base d f t κ ps) :=
  (hx.yields hc).weaken fun next _ hq => by
    obtain ⟨τ', how', ht'⟩ := hq.2.owes ht how
    exact ⟨n, κ, τ', hq.1, .refl κ, how', ht'⟩

/-- The same where the result has nothing to do with a tail position. -/
theorem plain {x : Run Next} (hx : Idle x Next.Plain) (hc : Stance base n κ c)
    (how : Owing base d f t n κ.depth κ.current τ ps) : Yields x c (Goes base d f t κ ps) := by
  have howed : Idle x (Next.Owed false) := hx.weaken fun _ h => h.owed
  exact idle howed hc nofun how

/-- One more step waits behind those of `next`. -/
theorem andThen {p : Pending} (h : Goes base d f t κ (p :: ps) next c) :
    Goes base d f t κ ps (next.andThen p) c := by
  obtain ⟨n, κ₁, τ, hc, hκ₁, how, ht⟩ := h
  refine ⟨n, κ₁, τ, hc, hκ₁, ?_, ht⟩
  rw [Next.andThen, List.append_assoc]
  exact how

end Goes

/-! ## 2. Calls -/

theorem Idle.bindParams (frame params args : Value) :
    Idle (Machine.bindParams frame params args) fun _ => True := by
  unfold Machine.bindParams
  refine look fun paired => ?_
  obtain ⟨bound, fit⟩ := paired
  have hbound : Idle (bound.forM fun p => Context.define frame p.1 p.2)
      fun _ => True := by
    induction bound with
    | nil => exact pure trivial
    | cons p bound ih => exact (define frame p.1 p.2).bind fun _ _ => ih
  refine hbound.bind fun _ _ => ?_
  cases fit with
  | exact => exact pure trivial
  | tooFew => exact (fail _).bind fun _ _ => pure trivial
  | tooMany => exact (fail _).bind fun _ _ => pure trivial
  | endless => exact throw _

namespace Goes

/-- The running function is another one. -/
theorem setCurrent (hc : Stance base n κ c) (g : Value) :
    Yields (modify fun c => { c with current := g } : Run PUnit) c
      fun _ c' => Stance base n { κ with current := g } c' :=
  .edit ⟨hc.le, hc.height, hc.roots, by rw [← hc.registers]; rfl⟩

/-- **A call ends**, and the caller is the running function again. -/
theorem finish (hc : Stance base n κ c) (hbase : base.size ≤ call.base)
    (how : Owing base d f t call.base κ.depth call.caller τ ps) :
    Yields (Machine.finish call v) c (Goes base d f t κ ps) := by
  have hleave : ∀ {c : Context}, Stance base n κ c → Yields (do
      Heap.popRoots call.base
      modify fun c => { c with current := call.caller }
      pure (Next.give v) : Run Next) c (Goes base d f t κ ps) := fun hc =>
    (Yields.popRoots hc hbase).bind fun _ _ hc₁ => (setCurrent hc₁ call.caller).bind fun _ _ hc₂ =>
      .pure (of_before (give hc₂ how) ⟨rfl, id, id, id⟩)
  unfold Machine.finish
  refine .observe (.ite (fun _ => .observe ?_) fun _ => hleave hc)
  exact ((Idle.prepend _).yields hc).bind fun _ _ hc₁ => hleave hc₁.1

/-- The forms of a body, or its end. -/
theorem enterForms (hc : Stance base (call.base + 2) κ c) (hbase : base.size ≤ call.base)
    (how : Owing base d f t call.base κ.depth call.caller τ ps) :
    Yields (Machine.enterForms call frame forms v) c (Goes base d f t κ ps) := by
  unfold Machine.enterForms
  refine .ite (fun _ => .look (.pure ?_)) fun _ => finish hc hbase how
  exact ⟨_, κ, true, hc, .refl κ, .body how, .eval fun _ => rfl⟩

/-- A body begins. -/
theorem enterBody (hc : Stance base (call.base + 2) κ c) (hbase : base.size ≤ call.base)
    (how : Owing base d f t call.base κ.depth call.caller τ ps) :
    Yields (Machine.enterBody call args) c (Goes base d f t κ ps) := by
  unfold Machine.enterBody
  refine ((Idle.newFrame _).yields hc).bind fun frame _ hc₁ => ?_
  refine (Yields.setRoot hc₁.1 (Nat.le_succ_of_le hbase)).bind fun _ _ hc₂ => ?_
  refine ((Idle.bindParams _ _ _).yields hc₂).bind fun _ _ hc₃ => .observe (.ite (fun _ => ?_) fun _ => ?_)
  · exact finish hc₃.1 hbase how
  · exact enterForms hc₃.1 hbase how

/-- **A call starts** above whatever is on the root stack. -/
theorem enterFunction (func : Value) (hc : Stance base n κ c)
    (how : Owing base d f t n κ.depth κ.current τ ps) :
    Yields (Machine.enterFunction func args) c (Goes base d f t κ ps) := by
  unfold Machine.enterFunction
  have hcurrent : c.current = κ.current := congrArg Registers.current hc.registers
  refine .observe ((setCurrent hc func).bind fun _ c₁ hc₁ => .look ?_)
  generalize c₁.heap.closure func = closure
  refine (Yields.pushRoot hc₁).bind fun slot _ hc₂ => (Yields.pushRoot hc₂.2).bind fun _ c₃ hc₃ => ?_
  obtain ⟨rfl, -⟩ := hc₂
  have hcall : Owing base d f t slot κ.depth c.current τ ps := hcurrent ▸ how
  have hbody : Yields (Machine.enterBody ⟨closure, slot, c.current⟩ args) c₃
      (Goes base d f t { κ with current := func } ps) := enterBody hc₃.2 hc.le hcall
  exact hbody.weaken fun _ _ h => of_before h ⟨rfl, id, id, id⟩

/-- **A native is applied.** -/
theorem enterNative (hhost : host.Balanced) (func : Value) (hc : Stance base n κ c)
    (how : ∀ m, n ≤ m → Owing base d f t m κ.depth κ.current τ ps) :
    Yields (Machine.enterNative host func args) c (Goes base d f t κ ps) := by
  have hplain : ∀ {x : Run Next}, Idle x Next.Plain → Yields x c (Goes base d f t κ ps) := fun hx =>
    plain hx hc (how n (Nat.le_refl n))
  unfold Machine.enterNative
  refine .look ?_
  generalize c.heap.procedure? func = found
  cases found with
  | none => exact hplain (.plain (.failNext _))
  | some p =>
    refine .look ?_
    generalize Machine.takeArguments c.heap p.arity args = taken
    cases taken with
    | error misfit => exact hplain (.plain (.failNext _))
    | ok args =>
      cases p with
      | primitive p => exact hplain (.primitive p args)
      | hosted name arity entry => exact hhost.procedure entry args hc how

/-- **An application**, whose function and arguments are rooted. -/
theorem enterApply (hhost : host.Balanced) (func : Value) (hc : Stance base n κ c)
    (how : Owing base d f t n κ.depth κ.current τ ps) :
    Yields (Machine.enterApply host func args) c (Goes base d f t κ ps) := by
  unfold Machine.enterApply
  refine (Yields.pushRoot hc).bind fun slot _ hc₁ => (Yields.pushRoot hc₁.2).bind fun _ _ hc₂ => .look ?_
  obtain ⟨rfl, -⟩ := hc₁
  have hrelease : ∀ m, slot + 1 + 1 ≤ m →
      Owing base d f t m κ.depth κ.current τ (.release slot :: ps) := fun m hm =>
    .release (by omega) how
  refine .ite (fun _ => ?_) fun _ => .ite (fun _ => ?_) fun _ => ?_
  · exact (enterFunction func hc₂.2 (hrelease _ (Nat.le_refl _))).bind fun _ _ h => .pure (andThen h)
  · exact (enterNative hhost func hc₂.2 hrelease).bind fun _ _ h => .pure (andThen h)
  · exact (plain (.plain (.failNext _)) hc₂.2 (hrelease _ (Nat.le_refl _))).bind fun _ _ h => .pure (andThen h)

end Goes

/-! ## 3. Forms -/

namespace Next

theorem owed_eval {expr : Value} {tail' : Bool} {p : Pending}
    (hp : ∀ {base : Array Value} {d : Nat} {f : Value} {t : Bool} {n k : Nat} {g : Value} {τ : Bool}
      {ps : List Pending}, (tail = true → τ = true) → Owing base d f t n k g τ ps →
      ∃ τ', Owing base d f t n k g τ' (p :: ps) ∧ (tail' = true → τ' = true)) :
    (Next.eval env expr tail' p).Owed tail := by
  refine ⟨fun ht how => ?_⟩
  obtain ⟨τ', how', ht'⟩ := hp ht how
  exact ⟨τ', how', .eval ht'⟩

/-- What is no subform in tail position. -/
theorem owed_value {expr : Value} {p : Pending}
    (hp : ∀ {base : Array Value} {d : Nat} {f : Value} {t : Bool} {n k : Nat} {g : Value} {τ : Bool}
      {ps : List Pending}, (tail = true → τ = true) → Owing base d f t n k g τ ps →
      Owing base d f t n k g false (p :: ps)) : (Next.eval env expr false p).Owed tail :=
  owed_eval fun ht how => ⟨false, hp ht how, id⟩

end Next

namespace Idle

theorem enterSequence (forms : Value) :
    Idle (Machine.enterSequence env forms tail v) (Next.Owed tail) :=
  ite (fun _ => look fun _ => pure (Next.owed_eval fun ht how =>
    ⟨tail, .sequence ht how, fun h => (Bool.and_eq_true_iff.mp h).1⟩)) fun _ => pure (Next.owed_give v)

theorem enterConjunction (forms : Value) :
    Idle (Machine.enterConjunction env forms tail v) (Next.Owed tail) :=
  ite (fun _ => look fun _ => pure (Next.owed_eval fun ht how =>
    ⟨tail, .conjunction ht how, fun h => (Bool.and_eq_true_iff.mp h).1⟩))
    fun _ => pure (Next.owed_give v)

theorem enterDisjunction (forms : Value) :
    Idle (Machine.enterDisjunction env forms tail) (Next.Owed tail) :=
  ite (fun _ => look fun _ => pure (Next.owed_eval fun ht how =>
    ⟨tail, .disjunction ht how, fun h => (Bool.and_eq_true_iff.mp h).1⟩))
    fun _ => pure (Next.owed_give .nil)

theorem failed (message : String) : Idle (Context.failNext message) (Next.Owed tail) :=
  (failNext message).weaken fun _ h => h.plain.owed

theorem enterBranch : Idle (Machine.enterBranch env args tail) (Next.Owed tail) :=
  look fun _ => ite (fun _ => failed _) fun _ => look fun _ => pure (Next.owed_value .branch)

theorem enterDefine : Idle (Machine.enterDefine env args) (Next.Owed tail) := by
  refine ite (fun _ => failed _) fun _ => look fun target => look fun name => ?_
  refine ite (fun _ => look fun _ => ?_) fun _ => ite (fun _ => look fun params => look fun _ => ?_)
    fun _ => failed _
  · exact pure (Next.owed_value fun _ => .define)
  · refine ite (fun _ => failed _) fun _ => look fun _ => ?_
    exact (func _ _ _ _).bind fun _ _ => (define _ _ _).bind fun _ _ => pure (Next.owed_give _)

theorem enterLambda : Idle (Machine.enterLambda env args) (Next.Owed tail) := by
  refine look fun params => look fun valid => ite (fun _ => failed _) fun _ => look fun body => ?_
  exact (func _ _ _ _).bind fun _ _ => pure (Next.owed_give _)

theorem enterAssignment : Idle (Machine.enterAssignment env args) (Next.Owed tail) :=
  look fun _ => ite (fun _ => failed _) fun _ => look fun _ => pure (Next.owed_value fun _ => .assign)

theorem enterBindings : Idle (Machine.enterBindings env frame args bindings tail) (Next.Owed tail) := by
  unfold Machine.enterBindings
  refine ite (fun _ => look fun binding => ?_) fun _ => look fun _ => enterSequence _
  have hbound : ∀ name expr : Value, Idle (if !name.isSym then Context.failNext "let: Invalid binding"
      else Pure.pure (.eval env expr false (.binding env frame args bindings name tail)))
      (Next.Owed tail) := fun _ _ =>
    ite (fun _ => failed _) fun _ => pure (Next.owed_value .binding)
  exact ite (fun _ => hbound _ _) fun _ => look fun _ => hbound _ _

end Idle

namespace Goes

/-- The frame of a `let` stays rooted until the form is left. -/
theorem enterLet (hc : Stance base n κ c) (ht : tail = true → τ = true)
    (how : Owing base d f t n κ.depth κ.current τ ps) :
    Yields (Machine.enterLet env args tail) c (Goes base d f t κ ps) := by
  unfold Machine.enterLet
  refine .ite (fun _ => idle (Idle.failed _) hc ht how) fun _ => .rootBase hc ?_
  refine ((Idle.newFrame _).yields hc).bind fun frame _ hc₁ => ?_
  refine (Yields.pushRoot hc₁.1).bind fun slot _ hc₂ => .look ?_
  refine (idle Idle.enterBindings hc₂.2 ht (.release (Nat.le_succ n) how)).bind fun next _ h => ?_
  exact .pure (andThen h)

/-- **A special form.** -/
theorem standardForm (form : StandardForm) (hc : Stance base n κ c) (ht : tail = true → τ = true)
    (how : Owing base d f t n κ.depth κ.current τ ps) :
    Yields (form.enter env args tail) c (Goes base d f t κ ps) := by
  cases form with
  | quote => exact idle (.look fun _ => .pure (Next.owed_give _)) hc ht how
  | branch => exact idle Idle.enterBranch hc ht how
  | define => exact idle Idle.enterDefine hc ht how
  | lambda => exact idle Idle.enterLambda hc ht how
  | sequence => exact idle (Idle.enterSequence _) hc ht how
  | conjunction => exact idle ((Idle.ofBool _).bind fun _ _ => Idle.enterConjunction _) hc ht how
  | disjunction => exact idle (Idle.enterDisjunction _) hc ht how
  | binding => exact enterLet hc ht how
  | assignment => exact idle Idle.enterAssignment hc ht how

/-! ## 4. Evaluation -/

/-- **A pair is evaluated** by what its head says. -/
theorem enterForm (hhost : host.Balanced) (expr : Value) (hc : Stance base n κ c)
    (ht : tail = true → τ = true) (how : ∀ m, n ≤ m → Owing base d f t m κ.depth κ.current τ ps) :
    Yields (Machine.enterForm host env expr tail) c (Goes base d f t κ ps) := by
  unfold Machine.enterForm
  refine .observe ?_
  split
  · exact .look (standardForm _ hc ht (how n (Nat.le_refl n)))
  · exact .look (hhost.form _ env _ tail hc how ht)
  · exact .pure ⟨n, κ, false, hc, .refl κ, .call ht how, .evalList env expr⟩

/-- One level deeper, the limit is not passed. -/
theorem deeper (κ : Context.Registers) (h : κ.depth < κ.maxDepth) :
    κ.Before { κ with depth := κ.depth + 1, peakDepth := max κ.peakDepth (κ.depth + 1) } where
  maxDepth := rfl
  looping := id
  depth _ := h
  peakDepth hp := Nat.max_le.mpr ⟨hp, h⟩

/-- **A pair is evaluated one level deeper**, unless that is too deep. -/
theorem enterPair (hhost : host.Balanced) (expr : Value) (hc : Stance base n κ c)
    (ht : tail = true → τ = true) (how : Owing base d f t n κ.depth κ.current τ ps) :
    Yields (Machine.enterPair host env expr tail) c (Goes base d f t κ ps) := by
  have hdepth : c.depth = κ.depth := congrArg Registers.depth hc.registers
  have hmax : c.maxDepth = κ.maxDepth := congrArg Registers.maxDepth hc.registers
  unfold Machine.enterPair
  refine .observe (.ite (fun _ => idle (Idle.failed _) hc ht how) fun hlimit => ?_)
  have hroom : κ.depth < κ.maxDepth := by
    unfold Machine.isAtLimit at hlimit
    rw [decide_eq_true_iff, hdepth, hmax] at hlimit
    exact Nat.lt_of_not_le hlimit
  have hmodify : Yields (modify fun c =>
      { c with depth := c.depth + 1, peakDepth := max c.peakDepth (c.depth + 1) } : Run PUnit) c
      fun _ c' => Stance base n
        { κ with depth := κ.depth + 1, peakDepth := max κ.peakDepth (κ.depth + 1) } c' :=
    .edit ⟨hc.le, hc.height, hc.roots, by rw [← hc.registers]; rfl⟩
  refine hmodify.bind fun _ _ hc₁ => (Yields.pushRoot hc₁).bind fun slot _ hc₂ => ?_
  obtain ⟨rfl, hc₂⟩ := hc₂
  refine (Yields.pushRoot hc₂).bind fun _ _ hc₃ => ?_
  refine (enterForm hhost expr hc₃.2 ht fun m hm => .leave ?_ how).bind fun next _ h => ?_
  · omega
  · exact .pure (of_before (andThen h) (deeper κ hroom))

/-- **An expression is evaluated.** -/
theorem enterEval (hhost : host.Balanced) (expr : Value) (hc : Stance base n κ c)
    (ht : tail = true → τ = true) (how : Owing base d f t n κ.depth κ.current τ ps) :
    Yields (Machine.enterEval host env expr tail) c (Goes base d f t κ ps) := by
  cases expr with
  | nil => exact .pure (give hc how)
  | int n => exact .pure (give hc how)
  | object a => exact .pure (give hc how)
  | sym id => exact idle ((Idle.valueOf _ _).bind fun _ _ => .pure (Next.owed_give _)) hc ht how
  | pair a => exact enterPair hhost _ hc ht how

/-- The arguments that are left, or the end of the list. -/
theorem enterArguments {slot : Nat} {last : Value} (rest : Value) (hc : Stance base (slot + 1) κ c)
    (hs : base.size ≤ slot) (how : Owing base d f t slot κ.depth κ.current τ ps) :
    Yields (Machine.enterArguments env rest slot last) c (Goes base d f t κ ps) := by
  unfold Machine.enterArguments
  refine .ite (fun _ => .look (.pure ?_)) fun _ => Yields.root.bind fun out _ hout => ?_
  · exact ⟨_, κ, false, hc, .refl κ, .argument how, .eval nofun⟩
  · subst hout
    exact (Yields.popRoots hc hs).bind fun _ _ hc₁ => .pure (give hc₁ how)

/-- **A list is evaluated** into a fresh one. -/
theorem enterEvalList (list : Value) (hc : Stance base n κ c)
    (how : Owing base d f t n κ.depth κ.current τ ps) :
    Yields (Machine.enterEvalList env list) c (Goes base d f t κ ps) := by
  unfold Machine.enterEvalList
  refine (Yields.pushRoot hc).bind fun slot _ hc₁ => ?_
  obtain ⟨rfl, hc₁⟩ := hc₁
  exact enterArguments list hc₁ hc.le how

/-! ## 5. Source text -/

/-- The state of failure is left, and no function is running. -/
theorem reset (hc : Stance base n κ c) : Yields Context.reset c
    fun _ c' => Stance base n { κ with current := .nil, looping := false } c' :=
  .edit ⟨hc.le, hc.height, hc.roots, by rw [← hc.registers]; rfl⟩

/-- A run of source text ends. -/
theorem finishExec {slot : Nat} (hc : Stance base n κ c) (hs : base.size ≤ slot)
    (how : Owing base d f t slot κ.depth κ.current τ ps) :
    Yields (Machine.finishExec slot) c (Goes base d f t κ ps) := by
  unfold Machine.finishExec
  refine Yields.root.bind fun out _ hout => ?_
  subst hout
  exact (Yields.popRoots hc hs).bind fun _ _ hc₁ => .pure (give hc₁ how)

/-- **The next form**, the end of the text, or an error. -/
theorem enterNextForm {slot : Nat} {echo : Bool} (source : List Char)
    (hc : Stance base (slot + 1) κ c) (hs : base.size ≤ slot)
    (how : Owing base d f t slot κ.depth .nil τ ps) :
    Yields (Machine.enterNextForm source slot echo) c (Goes base d f t κ ps) := by
  have hκ : κ.Before { κ with current := .nil, looping := false } := ⟨rfl, nofun, id, id⟩
  unfold Machine.enterNextForm
  refine (reset hc).bind fun _ _ hc₁ => ((Idle.read source).yields hc₁).bind fun r c₂ hc₂ => ?_
  obtain ⟨r, rest⟩ := r
  cases r with
  | ok form =>
    cases form with
    | none => exact (finishExec hc₂.1 hs how).weaken fun _ _ h => of_before h hκ
    | some form =>
      refine (Yields.setRoot hc₂.1 hs).bind fun _ _ hc₃ => .observe (.pure ?_)
      exact ⟨_, _, false, hc₃, hκ, .exec how, .eval nofun⟩
  | error e =>
    refine (Yields.setRoot hc₂.1 hs).bind fun _ _ hc₃ => ?_
    refine ((Idle.fail _).yields hc₃).bind fun _ _ hc₄ => ?_
    exact (finishExec hc₄.1 hs how).weaken fun _ _ h => of_before h hκ

/-- **A source text**, where no function is running. -/
theorem enterExec {echo : Bool} (source : List Char) (hc : Stance base n κ c)
    (how : Owing base d f t n κ.depth .nil τ ps) :
    Yields (Machine.enterExec source echo) c (Goes base d f t κ ps) := by
  unfold Machine.enterExec
  refine (Yields.pushRoot hc).bind fun slot _ hc₁ => ?_
  obtain ⟨rfl, hc₁⟩ := hc₁
  exact enterNextForm source hc₁ hc.le how

end Goes

end Steps

end LispMachine
