import LispMachine.Proofs.Failure.Candor
import LispMachine.Proofs.Failure.Unwinding

/-!
# Lines of traceback

A step either leaves the state of failure to what its action says, or it is the step of a call: it begins
one, or goes on in the body of one. If such a step fails, the call is over, and its function leaves a
line in front of the message:

* `Verdict.under`, `Verdict.leaving` -- a message with the line of a function, if both fit into the cap;
* `Machine.finish_verdict` -- what the end of a call does;
* `Closes` -- **an action that ends a call if it fails**; `Closes.enterFunction`, `Closes.resumeBody`, …;
* `Machine.State.running` -- the functions that are running, the innermost in front;
* `Machine.Step.settles` -- **what a step does to the state of failure, and to the running functions**.
-/

namespace LispMachine

open Context

/-! ## 1. Lines -/

/-- The line of traceback that names a function. -/
def Context.line (name : String) : String := "In " ++ name ++ ":\n"

/-- The state of failure with the line of a function in front of its message, if both fit. -/
def Verdict.under (name : String) (v : Verdict) : Verdict :=
  if v.failing = true ∧ (line name).utf8ByteSize + v.message.utf8ByteSize ≤ failureCap then
    { v with message := line name ++ v.message }
  else v

/-- The state of failure after a call of a function has ended: one with a name leaves its line. -/
def Verdict.leaving (c : Context) (f : Closure) (v : Verdict) : Verdict :=
  if f.name.isSym = true then v.under (c.display f.name) else v

namespace Verdict

variable {c : Context} {f : Closure} {v : Verdict} {name : String}

@[simp] theorem under_failing : (v.under name).failing = v.failing := by
  unfold under
  split <;> rfl

@[simp] theorem leaving_failing : (v.leaving c f).failing = v.failing := by
  unfold leaving
  split
  · exact under_failing
  · rfl

theorem leaving_of_not_failing (h : v.failing = false) : v.leaving c f = v := by
  unfold leaving under
  simp [h]

theorem leaving_congr {c' : Context} (h : c'.symbols = c.symbols) : v.leaving c' f = v.leaving c f := by
  unfold leaving
  cases hname : f.name with
  | sym id =>
    have hshown : c'.display (.sym id) = c.display (.sym id) := by
      show "" ++ Printer.symbolText c'.symbols id = "" ++ Printer.symbolText c.symbols id
      rw [h]
    rw [hshown]
  | _ => rfl

end Verdict

/-- The line comes in front of the message, and nothing else is changed. -/
theorem Context.prepend_line {c c' : Context} {name : String} {u : Unit} (hc : c.failing = true)
    (hrun : prepend (line name) c = .ok u c') :
    c'.verdict = c.verdict.under name ∧ c'.symbols = c.symbols := by
  unfold prepend at hrun
  rw [run_modify] at hrun
  cases hrun
  unfold Verdict.under
  by_cases hfits : (line name).utf8ByteSize + c.failure.utf8ByteSize ≤ failureCap
  · rw [if_pos hfits, if_pos ⟨hc, hfits⟩]
    exact ⟨rfl, rfl⟩
  · rw [if_neg hfits, if_neg fun h => hfits h.2]
    exact ⟨rfl, rfl⟩

namespace Machine

variable {call : Call} {c c' : Context} {v : Value} {next : Next}

/-- Roots and the running function are what is left to see to when the line is there. -/
theorem leave_verdict (hrun : (do
      Heap.popRoots call.base
      modify fun c => { c with current := call.caller }
      pure (Next.give v) : Run Next) c = .ok next c') :
    next = .give v ∧ c'.symbols = c.symbols ∧ c'.verdict = c.verdict := by
  obtain ⟨_, c₁, hpop, hrun⟩ := bind_eq_ok.mp hrun
  replace hpop : onHeap (Heap.popRoots call.base) c = .ok _ c₁ := hpop
  unfold onHeap at hpop
  cases hrun
  split at hpop
  · cases hpop
    exact ⟨rfl, rfl, rfl⟩
  · cases hpop

/-- **The end of a call**: the value is handed back, and the function leaves its line. -/
theorem finish_verdict (hrun : finish call v c = .ok next c') :
    next = .give v ∧ c'.symbols = c.symbols ∧ c'.verdict = c.verdict.leaving c call.closure := by
  unfold finish at hrun
  obtain ⟨failing, c₁, hfailing, hrun⟩ := bind_eq_ok.mp hrun
  cases hfailing
  rw [run_ite] at hrun
  split at hrun
  · rename_i hnamed
    rw [Bool.and_eq_true] at hnamed
    obtain ⟨hc, hname⟩ := hnamed
    obtain ⟨s, c₂, hs, hrun⟩ := bind_eq_ok.mp hrun
    cases hs
    obtain ⟨_, c₃, hline, hrun⟩ := bind_eq_ok.mp hrun
    obtain ⟨hunder, hsymbols⟩ := prepend_line hc hline
    obtain ⟨hnext, hsymbols', hverdict⟩ := leave_verdict hrun
    refine ⟨hnext, hsymbols'.trans hsymbols, ?_⟩
    rw [hverdict, hunder, Verdict.leaving, if_pos hname]
  · rename_i hnot
    obtain ⟨hnext, hsymbols, hverdict⟩ := leave_verdict hrun
    refine ⟨hnext, hsymbols, ?_⟩
    rw [hverdict]
    by_cases hname : call.closure.name.isSym = true
    · have hc : c.verdict.failing = false := by
        show c.failing = false
        simpa [hname] using hnot
      rw [Verdict.leaving_of_not_failing hc]
    · rw [Verdict.leaving, if_neg hname]

end Machine

/-! ## 2. Actions that end a call if they fail -/

/-- **An action that ends a call of the function if it fails**: to what it says of failure comes the line
    of the function, and then no step of its own is left in the body of a function. Without a function,
    the action ends no call. -/
structure Closes (x : Run Next) (f? : Option Closure) (c : Context) : Prop where
  closes : ∀ {c' : Context} {next : Next}, x c = .ok next c' →
    ∃ v, Says x c v ∧ c'.verdict = f?.elim v (v.leaving c') ∧
      (c'.failing = true ∨ f? = none → next.Outside)

namespace Closes

variable {α : Type} {x : Run α} {y z : Run Next} {g : α → Run Next} {f? : Option Closure} {c : Context}
variable {call : Call} {frame forms args v : Value} {p : Pending} {host : Host}

/-! ### Rules -/

theorem of_plain (hy : Plain y) : Closes y none c where
  closes hrun := by
    obtain ⟨hsaid, hout⟩ := hy.candid hrun
    exact ⟨_, hsaid, rfl, fun _ => hout⟩

theorem after (hx : Truthful x) (hg : ∀ a c₁, x c = .ok a c₁ → Closes (g a) f? c₁) :
    Closes (x >>= g) f? c where
  closes hrun := by
    obtain ⟨a, c₁, hxrun, hgrun⟩ := bind_eq_ok.mp hrun
    obtain ⟨v, hsaid, hverdict, hout⟩ := (hg a c₁ hxrun).closes hgrun
    exact ⟨v, .later hxrun (hx.candid hxrun).1 hsaid, hverdict, hout⟩

theorem observe {r : Context → α} (h : Closes (g (r c)) f? c) :
    Closes (LispMachine.observe r >>= g) f? c := by
  refine after (.silent fun hrun => ?_) fun a c₁ hrun => ?_
  · cases hrun
    exact ⟨rfl, trivial⟩
  · cases hrun
    exact h

/-- Something is read off the heap. -/
theorem look {r : Heap → α} (h : Closes (g (r c.heap)) f? c) : Closes (Context.look r >>= g) f? c :=
  observe h

/-- A value is rooted. -/
theorem pushRoot {v : Value} {g : Nat → Run Next}
    (h : Closes (g c.heap.roots.size) f?
      { c with heap := { c.heap with roots := c.heap.roots.push v } }) :
    Closes (liftM (Heap.pushRoot v) >>= g) f? c := by
  refine after (.lift _) fun a c₁ hrun => ?_
  cases hrun
  exact h

theorem ite {p : Prop} [Decidable p] (hy : p → Closes y f? c) (hz : ¬ p → Closes z f? c) :
    Closes (if p then y else z) f? c := by
  by_cases hp : p
  · rw [if_pos hp]
    exact hy hp
  · rw [if_neg hp]
    exact hz hp

/-- One more step waits behind those of a step. -/
theorem andThen (hy : Closes y f? c) (hp : p.closure? = none) :
    Closes (y >>= fun next => Pure.pure (next.andThen p)) f? c where
  closes hrun := by
    obtain ⟨inner, c₁, hyrun, hpure⟩ := bind_eq_ok.mp hrun
    cases hpure
    obtain ⟨v, hsaid, hverdict, hout⟩ := hy.closes hyrun
    exact ⟨v, hsaid.first, hverdict, fun hc => (hout hc).andThen hp⟩

/-! ### Calls -/

/-- **The end of a call.** -/
theorem finish : Closes (Machine.finish call v) call.closure c where
  closes {c' next} hrun := by
    obtain ⟨rfl, hsymbols, hverdict⟩ := Machine.finish_verdict hrun
    exact ⟨c.verdict, .silent, hverdict.trans (Verdict.leaving_congr hsymbols).symm, fun _ => rfl⟩

/-- The body goes on, where nothing has failed. -/
theorem enterForms (hc : c.failing = false) :
    Closes (Machine.enterForms call frame forms v) call.closure c := by
  unfold Machine.enterForms
  refine ite (fun _ => look ⟨fun hrun => ?_⟩) fun _ => finish
  cases hrun
  refine ⟨c.verdict, .silent, (Verdict.leaving_of_not_failing hc).symm, ?_⟩
  rintro (h | h)
  · rw [hc] at h
    cases h
  · cases h

/-- Parameters are bound. -/
theorem bindParams {params : Value} : Truthful (Machine.bindParams frame params args) := by
  unfold Machine.bindParams
  refine .look fun paired => ?_
  obtain ⟨bound, fit⟩ := paired
  refine .after (.forM (fun p => .define frame p.1 p.2) bound) fun _ => ?_
  cases fit with
  | exact => exact .pure trivial
  | tooFew => exact (Candid.fail _).bind fun _ _ => .pure trivial
  | tooMany => exact (Candid.fail _).bind fun _ _ => .pure trivial
  | endless => exact .throw _

/-- **A body begins.** -/
theorem enterBody : Closes (Machine.enterBody call args) call.closure c := by
  unfold Machine.enterBody
  refine after (.newFrame _) fun frame c₁ _ => after (.lift _) fun _ c₂ _ => ?_
  refine after bindParams fun _ c₃ _ => observe (ite (fun _ => finish) fun hc => ?_)
  exact enterForms (eq_false_of_ne_true hc)

/-- **A body goes on** after one of its forms. -/
theorem resumeBody : Closes (Machine.resumeBody call frame forms v) call.closure c := by
  unfold Machine.resumeBody
  refine observe (ite (fun _ => finish) fun hc => observe (ite (fun _ => ?_) fun _ => ?_))
  · exact after (.edit fun _ => rfl) fun _ c₁ _ => after (.lift _) fun _ c₂ _ => enterBody
  · exact look (enterForms (eq_false_of_ne_true hc))

/-- **A call begins.** -/
theorem enterFunction {func : Value} {f : Closure} (hf : c.heap.closure func = f) :
    Closes (Machine.enterFunction func args) f c := by
  subst hf
  unfold Machine.enterFunction
  refine observe (after (.edit fun _ => rfl) fun _ c₁ hedit => look ?_)
  cases hedit
  exact pushRoot (pushRoot enterBody)

end Closes

/-! ## 3. The functions that are running -/

/-- The parts of a value of type function. -/
def Heap.function? (h : Heap) (func : Value) : Option Closure :=
  if h.typeOf func = CoreType.func.id then some (h.closure func) else none

/-- The function that an evaluated form calls, unless it is a self tail call. -/
def Context.callee? (c : Context) (tail : Bool) (form : Value) : Option Closure :=
  if c.failing = true ∨ (tail && c.heap.car form = c.current) = true then none
  else c.heap.function? (c.heap.car form)

namespace Machine

/-- The function that the next step calls. -/
def State.callee? (σ : State) : Option Closure :=
  match σ.task, σ.pending with
  | .apply func _, _ => σ.context.heap.function? func
  | .give form, .call tail :: _ => σ.context.callee? tail form
  | _, _ => none

/-- The functions in whose bodies steps wait, the innermost in front. -/
def State.bodies (σ : State) : List Closure := σ.pending.filterMap Pending.closure?

/-- **The functions that are running**, the innermost in front: the one that the next step calls, and
    those in whose bodies steps wait. -/
def State.running (σ : State) : List Closure := σ.callee?.toList ++ σ.bodies

/-- What the next step does not call runs already. -/
theorem State.suffix_bodies {σ : State} {f : Closure} {around : List Closure}
    (h : σ.running = f :: around) : around <:+ σ.bodies := by
  unfold State.running at h
  cases hcallee : σ.callee? with
  | none =>
    rw [hcallee] at h
    exact ⟨[f], h.symm⟩
  | some g =>
    rw [hcallee] at h
    exact (List.cons.inj h).2 ▸ List.suffix_rfl

/-- **What a step does to the state of failure and to the running functions**, where `v` is what it says
    of failure. -/
inductive Settles (v : Verdict) (σ σ' : State) : Prop where
  /-- The functions that are running go on. -/
  | stays (hrunning : σ.running = σ.bodies) (hverdict : σ'.context.verdict = v)
      (hbodies : σ'.bodies = σ.bodies)
  /-- The innermost one is over if the step fails. -/
  | leaves {f : Closure} {around : List Closure} (hrunning : σ.running = f :: around)
      (hverdict : σ'.context.verdict = v.leaving σ'.context f)
      (hbodies : σ'.context.failing = true → σ'.bodies = around)

section Steps

variable {host : Host} {σ σ' : State} {c c' : Context} {ps : List Pending} {next : Next}

/-- An evaluated form is called. -/
theorem closes_resumeCall (hhost : host.Candid) (tail : Bool) (form : Value) :
    Closes (resumeCall host tail form) (c.callee? tail form) c := by
  unfold resumeCall
  refine .observe (.ite (fun hc => ?_) fun hc => .pushRoot (.look (.look (.look ?_))))
  · rw [show c.callee? tail form = none from if_pos (.inl hc)]
    exact .of_plain (.give .nil)
  · refine .ite (fun htype => .observe (.ite (fun hself => ?_) fun hself => ?_)) fun htype => ?_
    · rw [show c.callee? tail form = none from if_pos (.inr hself)]
      exact .of_plain (.after (.edit fun _ => rfl) fun _ => .give _)
    · have hcallee : c.callee? tail form = c.heap.closure (c.heap.car form) :=
        (if_neg (not_or.mpr ⟨hc, hself⟩)).trans (if_pos htype)
      rw [hcallee]
      exact .enterFunction rfl
    · have hcallee : c.callee? tail form = none := by
        unfold Context.callee?
        rw [show c.heap.function? (c.heap.car form) = none from if_neg htype, ite_self]
      rw [hcallee]
      exact .of_plain (.ite (.enterNative hhost) (.failNext _))

/-- A value is applied. -/
theorem closes_enterApply (hhost : host.Candid) (func args : Value) :
    Closes (enterApply host func args) (c.heap.function? func) c := by
  unfold enterApply
  refine .pushRoot (.pushRoot (.look (.ite (fun htype => ?_) fun htype => ?_)))
  · rw [show c.heap.function? func = c.heap.closure func from if_pos htype]
    exact .andThen (.enterFunction rfl) rfl
  · rw [show c.heap.function? func = none from if_neg htype]
    refine .of_plain (.ite ?_ ?_)
    · exact (Candid.enterNative hhost).bind fun _ h => .pure (h.andThen rfl)
    · exact (Candid.failNext _).bind fun _ h => .pure (h.andThen rfl)

/-- What the functions that wait behind a step are, when it has been done. -/
theorem Settles.of_closes {f? : Option Closure} {x : Run Next} (hx : Closes x f? c)
    (hrun : x c = .ok next c') (hrunning : σ.running = f?.toList ++ ps.filterMap Pending.closure?)
    (hnone : f? = none → σ.bodies = ps.filterMap Pending.closure?) :
    ∃ v, Says x c v ∧ Settles v σ ⟨c', next.task, next.pending ++ ps⟩ := by
  obtain ⟨v, hsaid, hverdict, hout⟩ := hx.closes hrun
  have hbodies : next.Outside → State.bodies ⟨c', next.task, next.pending ++ ps⟩ =
      ps.filterMap Pending.closure? := by
    intro h
    unfold State.bodies
    rw [List.filterMap_append, h, List.nil_append]
  refine ⟨v, hsaid, ?_⟩
  cases f? with
  | none =>
    have hsame := hnone rfl
    exact .stays (hrunning.trans hsame.symm) hverdict ((hbodies (hout (.inr rfl))).trans hsame.symm)
  | some f => exact .leaves hrunning hverdict fun hc => hbodies (hout (.inl hc))

/-- A step that waits is resumed. -/
theorem settles_resume (hhost : host.Candid) {v : Value} {p : Pending}
    (hrun : p.resume host v c = .ok next c') : ∃ w, Says (p.resume host v) c w ∧
      Settles w ⟨c, .give v, p :: ps⟩ ⟨c', next.task, next.pending ++ ps⟩ := by
  by_cases hbody : ∃ call frame forms, p = .body call frame forms
  · obtain ⟨call, frame, forms, rfl⟩ := hbody
    exact Settles.of_closes .resumeBody hrun rfl nofun
  by_cases hcall : ∃ tail, p = .call tail
  · obtain ⟨tail, rfl⟩ := hcall
    exact Settles.of_closes (closes_resumeCall hhost tail v) hrun rfl fun _ => rfl
  · have hplain : Plain (p.resume host v) := .resume (fun call frame forms hp =>
      hbody ⟨call, frame, forms, hp⟩) fun tail hp => hcall ⟨tail, hp⟩
    have hrunning : State.running ⟨c, .give v, p :: ps⟩ = ps.filterMap Pending.closure? ∧
        State.bodies ⟨c, .give v, p :: ps⟩ = ps.filterMap Pending.closure? := by
      cases p with
      | body call frame forms => exact absurd ⟨call, frame, forms, rfl⟩ hbody
      | call tail => exact absurd ⟨tail, rfl⟩ hcall
      | _ => exact ⟨rfl, rfl⟩
    exact Settles.of_closes (.of_plain hplain) hrun hrunning.1 fun _ => hrunning.2

/-- **Every step settles** what it says of failure. -/
theorem Step.settles (hhost : host.Candid) (hs : Step host σ σ') :
    ∃ v, Says (σ.action host) σ.context v ∧ Settles v σ σ' := by
  cases hs with
  | resume hrun => exact settles_resume hhost hrun
  | @work c c' task ps next htask hrun =>
    have haction : State.action host ⟨c, task, ps⟩ = task.step host := by
      cases task with
      | give v => exact absurd rfl (htask v)
      | _ => rfl
    rw [haction]
    by_cases happly : ∃ func args, task = .apply func args
    · obtain ⟨func, args, rfl⟩ := happly
      exact Settles.of_closes (closes_enterApply hhost func args) hrun rfl fun _ => rfl
    · have hrunning : State.running ⟨c, task, ps⟩ = ps.filterMap Pending.closure? := by
        cases task with
        | give v => exact absurd rfl (htask v)
        | apply func args => exact absurd ⟨func, args, rfl⟩ happly
        | _ => rfl
      refine Settles.of_closes (.of_plain (.step hhost fun func args htask => ?_)) hrun hrunning fun _ => rfl
      exact happly ⟨func, args, htask⟩

end Steps

end Machine

end LispMachine
