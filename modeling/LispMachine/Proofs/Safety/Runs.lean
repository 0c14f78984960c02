import LispMachine.Proofs.Listener.Abreast
import LispMachine.Proofs.Safety.Steps

/-!
# Runs that end in no fault but exhaustion

* `SameIn` -- what an embedding program supplies **makes no difference in a standard context**, so that a
  step of the machine may be taken without it (`Machine.Step.without`);
* `Machine.Faults` -- a step that ends in a fault. A run that does has gone to such a step, or its budget
  is used up (`Machine.exists_faults`);
* `Machine.Guarded` -- **the invariant**: the context is standard, the environments are pairs, and what
  the innermost of the waiting steps takes off the root stack and off the depth is there;
* `Machine.guarded_of_reaches` -- it holds **before every step of a run of source text**.
-/

namespace LispMachine

open Context

/-! ## 1. The embedding program is not asked -/

section Hosts

variable {α β : Type} {ρ : Value} {x y : Run α} {f g : α → Run β} {Q : α → Nat → Prop}
variable {host host' : Host} {env expr func args : Value} {tail : Bool}

/-- **Two actions do the same** in standard contexts. -/
def SameIn (ρ : Value) (x y : Run α) : Prop := ∀ c : Context, c.Standard ρ → x c = y c

namespace SameIn

theorem refl (x : Run α) : SameIn ρ x x := fun _ _ => rfl

/-- What goes on alike after a secure action. -/
theorem bind (hx : ∀ n, ∃ Q, Secure ρ n x Q) (h : ∀ a, SameIn ρ (f a) (g a)) :
    SameIn ρ (x >>= f) (x >>= g) := fun c hc =>
  run_bind_congr fun a c' hrun => by
    obtain ⟨_, hx⟩ := hx c.heap.roots.size
    exact h a c' (hx.yields hc rfl a c' hrun).1

theorem push {v : Value} {f g : Nat → Run β} (h : ∀ i, SameIn ρ (f i) (g i)) :
    SameIn ρ (liftM (Heap.pushRoot v) >>= f) (liftM (Heap.pushRoot v) >>= g) :=
  bind (fun _ => ⟨_, .pushRoot⟩) h

theorem bind_left (h : SameIn ρ x y) : SameIn ρ (x >>= f) (y >>= f) := fun c hc =>
  run_bind_congr_left (h c hc)

theorem observe {o : Context → α} (h : ∀ c : Context, c.Standard ρ → f (o c) c = g (o c) c) :
    SameIn ρ (LispMachine.observe o >>= f) (LispMachine.observe o >>= g) := h

theorem ite {p : Prop} [Decidable p] {x' y' : Run α} (hx : SameIn ρ x x') (hy : SameIn ρ y y') :
    SameIn ρ (if p then x else y) (if p then x' else y') := by
  split
  · exact hx
  · exact hy

/-- A native is a primitive. -/
theorem enterNative :
    SameIn ρ (Machine.enterNative host func args) (Machine.enterNative host' func args) := by
  refine observe fun c hc => ?_
  cases hfound : c.heap.procedure? func with
  | none => simp only [hfound]
  | some p =>
    obtain ⟨q, rfl⟩ := hc.primitive hfound
    simp only [hfound]
    rfl

theorem enterApply :
    SameIn ρ (Machine.enterApply host func args) (Machine.enterApply host' func args) := by
  refine push fun base => push fun _ => observe fun c hc => ?_
  exact ite (refl _) (ite (bind_left enterNative) (refl _)) c hc

/-- A special form is one of the language. -/
theorem enterForm :
    SameIn ρ (Machine.enterForm host env expr tail) (Machine.enterForm host' env expr tail) := by
  refine observe fun c hc => ?_
  cases hform : Machine.specialForm? c expr with
  | none => rfl
  | some form =>
    obtain ⟨id, -, hlookup⟩ := Option.bind_eq_some_iff.mp hform
    obtain ⟨f, rfl⟩ := hc.standardForm hlookup
    rfl

theorem enterPair :
    SameIn ρ (Machine.enterPair host env expr tail) (Machine.enterPair host' env expr tail) := by
  refine observe fun c hc => ite (refl _) ?_ c hc
  refine bind (fun _ => ⟨_, .register fun _ => ⟨rfl, rfl, rfl, rfl⟩⟩) fun _ => ?_
  exact push fun base => push fun _ => bind_left enterForm

theorem resumeCall {form : Value} :
    SameIn ρ (Machine.resumeCall host tail form) (Machine.resumeCall host' tail form) := by
  refine observe fun c hc => ite (refl _) ?_ c hc
  refine push fun _ => observe fun c hc => ?_
  exact ite (refl _) (ite enterNative (refl _)) c hc

/-- **A task is done** without the embedding program. -/
theorem step (task : Task) : SameIn ρ (task.step host) (task.step host') := by
  cases task with
  | give v => exact refl _
  | eval env expr tail =>
    cases expr with
    | nil | int k | sym id | object a => exact refl _
    | pair a => exact enterPair
  | evalList env list => exact refl _
  | apply func args => exact enterApply
  | exec source echo => exact refl _

/-- **A waiting step goes on** without it. -/
theorem resume (p : Pending) (v : Value) : SameIn ρ (p.resume host v) (p.resume host' v) := by
  cases p with
  | call tail => exact resumeCall
  | leave _ | release _ | argument _ _ _ _ | body _ _ _ | branch _ _ _ | define _ _ | assign _ _
  | sequence _ _ _ | conjunction _ _ _ | disjunction _ _ _ | binding _ _ _ _ _ _ | exec _ _ _ =>
    exact refl _

end SameIn

end Hosts

section Owed

variable {base : Array Value} {d n k slot : Nat} {f g : Value} {t τ : Bool} {p : Pending}
variable {ps : List Pending}

/-- What is owed to the innermost of the waiting steps is there. -/
theorem Owing.fits (h : Owing base d f t n k g τ (p :: ps)) : p.Fits n := by
  cases h with
  | leave hs _ => exact hs
  | release hs _ => exact hs
  | argument _ => exact Nat.lt_succ_self _
  | exec _ => exact Nat.lt_succ_self _
  | body _ => exact Nat.le_refl _
  | call _ _ | branch _ _ | define _ | assign _ | sequence _ _ | conjunction _ _ | disjunction _ _
  | binding _ _ => trivial

/-- A pair that is left has been entered. -/
theorem Owing.deep (h : Owing base d f t n k g τ (.leave slot :: ps)) : 0 < k := by
  cases h with
  | leave _ _ => exact Nat.succ_pos _

end Owed

namespace Machine

section Guarded

variable {ρ v : Value} {host : Host} {f : Fault} {start σ σ' : State} {budget : Nat} {task : Task}
variable {p : Pending} {ps : List Pending} {c c' : Context}

/-- A step is one with any other embedding program. -/
theorem Step.change (hs : Step host σ σ') (hc : σ.context.Standard ρ) (host' : Host) :
    Step host' σ σ' := by
  cases hs with
  | resume hrun => exact .resume ((SameIn.resume _ _ _ hc).symm.trans hrun)
  | work htask hrun => exact .work htask ((SameIn.step _ _ hc).symm.trans hrun)

/-- A step is one without an embedding program. -/
theorem Step.without (hs : Step host σ σ') (hc : σ.context.Standard ρ) : Step Host.none σ σ' :=
  hs.change hc Host.none

/-! ## 2. Steps that end in a fault -/

/-- **A step that ends in the fault.** -/
inductive Faults (host : Host) (f : Fault) : State → Prop where
  | resume {c c' : Context} {v : Value} {p : Pending} {ps : List Pending}
      (h : p.resume host v c = .error f c') : Faults host f ⟨c, .give v, p :: ps⟩
  | work {c c' : Context} {task : Task} {ps : List Pending} (htask : ∀ v, task ≠ .give v)
      (h : task.step host c = .error f c') : Faults host f ⟨c, task, ps⟩

/-- **A run that ends in a fault** has gone step by step to a step that does, or its budget is used
    up. -/
theorem exists_faults (hrun : run host budget task ps c = .error f c') :
    f = .outOfSteps ∨ ∃ σ, Reaches host ⟨c, task, ps⟩ σ ∧ Faults host f σ := by
  induction budget generalizing task ps c with
  | zero =>
    cases hrun
    exact .inl rfl
  | succ budget ih =>
    -- what follows a step that has come to an end
    have hlater : ∀ {c₁ : Context} {task₁ : Task} {ps₁ : List Pending},
        Step host ⟨c, task, ps⟩ ⟨c₁, task₁, ps₁⟩ → run host budget task₁ ps₁ c₁ = .error f c' →
        f = .outOfSteps ∨ ∃ σ, Reaches host ⟨c, task, ps⟩ σ ∧ Faults host f σ := fun hstep hrest =>
      (ih hrest).imp id fun ⟨σ, hreach, hfaults⟩ => ⟨σ, .head hstep hreach, hfaults⟩
    have hwork : (∀ v, task ≠ .give v) → (task.step host >>= fun next =>
        run host budget next.task (next.pending ++ ps)) c = .error f c' →
        f = .outOfSteps ∨ ∃ σ, Reaches host ⟨c, task, ps⟩ σ ∧ Faults host f σ := fun htask hrun => by
      cases hstep : task.step host c with
      | ok next c₁ =>
        rw [run_bind hstep] at hrun
        exact hlater (.work htask hstep) hrun
      | error e c₁ =>
        rw [run_bind_error hstep] at hrun
        cases hrun
        exact .inr ⟨_, .refl, .work htask hstep⟩
    cases task with
    | give v =>
      cases ps with
      | nil => cases hrun
      | cons p ps =>
        replace hrun : (p.resume host v >>= fun next =>
          run host budget next.task (next.pending ++ ps)) c = .error f c' := hrun
        cases hstep : p.resume host v c with
        | ok next c₁ =>
          rw [run_bind hstep] at hrun
          exact hlater (.resume hstep) hrun
        | error e c₁ =>
          rw [run_bind_error hstep] at hrun
          cases hrun
          exact .inr ⟨_, .refl, .resume hstep⟩
    | eval env expr tail => exact hwork nofun hrun
    | evalList env list => exact hwork nofun hrun
    | apply func args => exact hwork nofun hrun
    | exec source echo => exact hwork nofun hrun

/-! ## 3. The invariant -/

/-- **What is true before every step**: the context is standard, the environments are pairs, and the
    innermost of the waiting steps finds its slots, and a depth to count down. -/
structure Guarded (ρ : Value) (σ : State) : Prop where
  context : σ.context.Standard ρ
  task : σ.task.Framed
  pending : ∀ p ∈ σ.pending, p.Framed
  fits : ∀ p ps, σ.pending = p :: ps → p.Fits σ.context.heap.roots.size
  deep : ∀ base ps, σ.pending = .leave base :: ps → 0 < σ.context.depth

namespace Guarded

/-- What a step leads to. -/
theorem next (h : Guarded ρ σ) (hρ : ρ.isPair = true) (hs : Step host σ σ') :
    σ'.context.Standard ρ ∧ σ'.task.Framed ∧ ∀ p ∈ σ'.pending, p.Framed := by
  obtain ⟨hc, htask, hpending, hfits, -⟩ := h
  cases hs with
  | resume hrun =>
    obtain ⟨hp, hps⟩ := List.forall_mem_cons.mp hpending
    obtain ⟨hc', hnext⟩ := (Secure.resume hρ hp (hfits _ _ rfl)).yields hc rfl _ _ hrun
    exact ⟨hc', hnext.task, List.forall_mem_append.mpr ⟨hnext.pending, hps⟩⟩
  | work _ hrun =>
    obtain ⟨hc', hnext⟩ := (Secure.task hρ htask).yields hc rfl _ _ hrun
    exact ⟨hc', hnext.task, List.forall_mem_append.mpr ⟨hnext.pending, hpending⟩⟩

/-- **No step ends in a fault but exhaustion.** -/
theorem isSpent (h : Guarded ρ σ) (hρ : ρ.isPair = true) (hf : Faults host f σ) : f.IsSpent := by
  obtain ⟨hc, htask, hpending, hfits, -⟩ := h
  cases hf with
  | resume hrun =>
    exact (Secure.resume hρ (hpending _ List.mem_cons_self) (hfits _ _ rfl)).fault hc rfl hrun
  | work _ hrun => exact (Secure.task hρ htask).fault hc rfl hrun

/-- A machine in order has what the waiting steps take. -/
theorem of_inOrder (h : InOrder Host.none start σ) (hc : σ.context.Standard ρ) (htask : σ.task.Framed)
    (hpending : ∀ p ∈ σ.pending, p.Framed) : Guarded ρ σ := by
  obtain ⟨n, κ, τ, hstance, howing, -⟩ := h
  have hdepth : σ.context.depth = κ.depth := congrArg Registers.depth hstance.registers
  refine ⟨hc, htask, hpending, fun p ps hp => ?_, fun base ps hp => ?_⟩
  · rw [hstance.height]
    exact (hp ▸ howing).fits
  · rw [hdepth]
    exact (hp ▸ howing).deep

end Guarded

/-- From the first step on, a run of source text is in order, and guarded. -/
theorem inOrder_of_reaches {source : List Char} {echo : Bool} (hρ : ρ.isPair = true)
    (hc : c.Standard ρ) (hdepth : c.depth ≤ c.maxDepth) (hpeak : c.peakDepth ≤ c.maxDepth)
    (hreach : Reaches host ⟨c, .exec source echo, []⟩ σ) : σ = ⟨c, .exec source echo, []⟩ ∨
      InOrder Host.none ⟨c.quiet, .exec source echo, []⟩ σ ∧ Guarded ρ σ := by
  have hquiet : c.quiet.Standard ρ := hc.congr ⟨rfl, rfl, rfl, rfl⟩
  have horder : InOrder Host.none ⟨c.quiet, .exec source echo, []⟩ ⟨c.quiet, .exec source echo, []⟩ :=
    .refl rfl hdepth hpeak fun _ _ _ => rfl
  have hlater : ∀ {σ}, Reaches host ⟨c.quiet, .exec source echo, []⟩ σ →
      Reaches Host.none ⟨c.quiet, .exec source echo, []⟩ σ ∧ Guarded ρ σ := fun hreach => by
    induction hreach with
    | refl => exact ⟨.refl, .of_inOrder horder hquiet trivial (List.forall_mem_nil _)⟩
    | tail _ hs ih =>
      obtain ⟨hreach, hguarded⟩ := ih
      have hreach' := hreach.tail (hs.without hguarded.context)
      obtain ⟨hc', htask, hpending⟩ := hguarded.next hρ hs
      exact ⟨hreach', .of_inOrder (horder.reaches Host.balanced_none hreach') hc' htask hpending⟩
  rcases hreach.cases_head with rfl | ⟨σ₁, hs, hreach⟩
  · exact .inl rfl
  · have hs' : Step host ⟨c.quiet, .exec source echo, []⟩ σ₁ := by
      cases hs with
      | work htask hrun => exact .work htask hrun
    obtain ⟨hnone, hguarded⟩ := hlater (.head hs' hreach)
    exact .inr ⟨horder.reaches Host.balanced_none hnone, hguarded⟩

/-- **The invariant holds before every step** of a run of source text. -/
theorem guarded_of_reaches {source : List Char} {echo : Bool} (hρ : ρ.isPair = true)
    (hc : c.Standard ρ) (hdepth : c.depth ≤ c.maxDepth) (hpeak : c.peakDepth ≤ c.maxDepth)
    (hreach : Reaches host ⟨c, .exec source echo, []⟩ σ) : Guarded ρ σ := by
  rcases inOrder_of_reaches hρ hc hdepth hpeak hreach with rfl | ⟨-, hguarded⟩
  · exact
      { context := hc
        task := trivial
        pending := List.forall_mem_nil _
        fits := fun _ _ h => absurd h.symm (List.cons_ne_nil _ _)
        deep := fun _ _ h => absurd h.symm (List.cons_ne_nil _ _) }
  · exact hguarded

end Guarded

end Machine

end LispMachine
