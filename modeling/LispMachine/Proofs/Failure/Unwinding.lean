import LispMachine.Proofs.Failure.Evaluation

/-!
# A failure ends the run

Once a step has failed, the steps that wait are given nil, one after the other, and none of them does
more than drop its roots:

* `Drains`, `Pending.drains` -- **a step that waits is worked off** where a failure has happened: it
  hands nil on, and it ends in no fault, since the roots that it drops are there;
* `Machine.Poised` -- the evaluator stands as the steps that wait need it, from the first step on;
* `Machine.State.action` -- what a step of the machine does;
* `Machine.failure_aborts` -- **from the call of `Context.fail` on, the rest of a run is unwinding**: its
  only task is to give nil, and that is what it comes to.
-/

namespace LispMachine

open Context

/-- **An action that drains** where a failure has happened: it comes to an end with nil. -/
def Drains (x : Run Next) (c : Context) : Prop :=
  ∃ c', x c = .ok (.give .nil) c' ∧ Aborted c c'

section Steps

variable {α : Type} {c : Context} {f : α → Run Next} {a : α} {call : Call} {v : Value}

/-! ## 1. Steps that wait -/

namespace Drains

theorem pure (hc : c.failing = true) : Drains (Pure.pure (.give .nil)) c := ⟨c, rfl, .refl hc⟩

theorem bind {x : Run α} {c₁ : Context} (hx : x c = .ok a c₁) (habort : Aborted c c₁)
    (h : Drains (f a) c₁) : Drains (x >>= f) c := by
  obtain ⟨c₂, hrun, habort'⟩ := h
  refine ⟨c₂, ?_, habort.trans habort'⟩
  rw [run_bind hx]
  exact hrun

theorem ifFailing {f : Bool → Run Next} (hc : c.failing = true) (h : Drains (f true) c) :
    Drains (isFailing >>= f) c := by
  have htrue : isFailing c = .ok true c := by
    show EStateM.Result.ok c.failing c = .ok true c
    rw [hc]
  exact bind htrue (.refl hc) h

/-- Another register of the evaluator than those of the failure. -/
theorem edit {f : PUnit → Run Next} {g : Context → Context} (habort : Aborted c (g c))
    (h : Drains (f ⟨⟩) (g c)) : Drains (modify g >>= f) c := bind (x := modify g) rfl habort h

/-- **Roots are dropped**, as many as there are. -/
theorem popRoots {f : Unit → Run Next} {slot : Nat} (hc : c.failing = true)
    (hs : slot ≤ c.heap.roots.size)
    (h : ∀ c₁ : Context, Aborted c c₁ → c₁.heap.roots.size = slot → Drains (f ()) c₁) :
    Drains (liftM (Heap.popRoots slot) >>= f) c := by
  have hpop : (liftM (Heap.popRoots slot) : Run Unit) c =
      .ok () { c with heap := { c.heap with roots := c.heap.roots.shrink slot } } := by
    show onHeap (Heap.popRoots slot) c = _
    unfold onHeap Heap.popRoots
    rw [if_pos hs]
  have habort := ((Rests.popRoots slot).rests hc hpop).1
  refine bind hpop habort (h _ habort ?_)
  exact Array.size_shrink.trans (Nat.min_eq_left hs)

/-- A value is rooted in another one's place. -/
theorem setRoot {f : Unit → Run Next} {slot : Nat} (hc : c.failing = true)
    (hs : slot < c.heap.roots.size)
    (h : ∀ c₁ : Context, Aborted c c₁ → c₁.heap.roots.size = c.heap.roots.size →
      c₁.heap.roots[slot]? = some v → Drains (f ()) c₁) :
    Drains (liftM (Heap.setRoot slot v) >>= f) c := by
  have hset : (liftM (Heap.setRoot slot v) : Run Unit) c =
      .ok () { c with heap := { c.heap with roots := c.heap.roots.setIfInBounds slot v } } := by
    show onHeap (Heap.setRoot slot v) c = _
    unfold onHeap Heap.setRoot
    rw [if_pos hs]
  have habort : Aborted c
      { c with heap := { c.heap with roots := c.heap.roots.setIfInBounds slot v } } :=
    ⟨hc, .cause, by rw [← hc]⟩
  refine bind hset habort (h _ habort ?_ ?_)
  · exact Array.size_setIfInBounds
  · exact Array.getElem?_setIfInBounds_self_of_lt hs

/-- **A call ends** with a line of traceback, if its function has a name. -/
theorem finish (hc : c.failing = true) (hs : call.base ≤ c.heap.roots.size) :
    Drains (Machine.finish call .nil) c := by
  have hleave : ∀ c₁ : Context, Aborted c c₁ → c₁.heap.roots = c.heap.roots → Drains (do
      Heap.popRoots call.base
      modify fun c => { c with current := call.caller }
      Pure.pure (Next.give .nil) : Run Next) c₁ := fun c₁ habort hroots => by
    refine popRoots habort.failing (hroots ▸ hs) fun c₂ habort' _ => ?_
    have hcaller : Aborted c₂ { c₂ with current := call.caller } :=
      ⟨habort'.failing, .cause, by rw [← habort'.failing]⟩
    exact edit hcaller (pure habort'.failing)
  unfold Machine.finish
  refine ifFailing hc ?_
  rw [Bool.true_and]
  by_cases hname : call.closure.name.isSym = true
  · rw [if_pos hname]
    have hline : (LispMachine.observe (·.display call.closure.name) >>= fun s =>
        prepend ("In " ++ s ++ ":\n") : Run PUnit) c = .ok ⟨⟩
          (if ("In " ++ c.display call.closure.name ++ ":\n").utf8ByteSize + c.failure.utf8ByteSize ≤
              failureCap
            then { c with failure := "In " ++ c.display call.closure.name ++ ":\n" ++ c.failure }
            else c) := rfl
    have habort := ((Rests.traceback hname).rests hc hline).1
    have hbody := bind (f := fun _ => (do
      Heap.popRoots call.base
      modify fun c => { c with current := call.caller }
      Pure.pure (Next.give .nil) : Run Next)) hline habort (hleave _ habort (by split <;> rfl))
    rw [bind_assoc] at hbody
    exact hbody
  · rw [if_neg hname]
    exact hleave c (.refl hc) rfl

/-- A run of source text ends. -/
theorem finishExec {slot : Nat} (hc : c.failing = true) (hs : slot ≤ c.heap.roots.size)
    (hroot : c.heap.roots[slot]? = some .nil) : Drains (Machine.finishExec slot) c := by
  have hread : (liftM (Heap.root slot) : Run Value) c = .ok .nil c := by
    show onHeap (Heap.root slot) c = _
    unfold onHeap Heap.root
    rw [hroot]
  unfold Machine.finishExec
  refine bind hread (.refl hc) ?_
  exact popRoots hc hs fun c₁ habort _ => pure habort.failing

end Drains

/-- **A step that waits is worked off** where a failure has happened. -/
theorem Pending.drains (host : Host) {base : Array Value} {d n : Nat} {f : Value} {t τ : Bool}
    {κ : Context.Registers} {p : Pending} {ps : List Pending} (hc : Stance base n κ c)
    (how : Owing base d f t n κ.depth κ.current τ (p :: ps)) (hfailing : c.failing = true) :
    Drains (p.resume host .nil) c := by
  have hnil : Drains (Pure.pure (.give .nil)) c := .pure hfailing
  have hheight := hc.height
  generalize κ.depth = k at how
  generalize κ.current = g at how
  -- the roots that a step drops are there: that is what is owed
  cases how with
  | leave hs h =>
    refine .popRoots hfailing (by omega) fun c₁ habort _ => ?_
    have hdepth : Aborted c₁ { c₁ with depth := c₁.depth - 1 } :=
      ⟨habort.failing, .cause, by rw [← habort.failing]⟩
    exact .edit hdepth (.pure habort.failing)
  | release hs h =>
    exact .popRoots hfailing (by omega) fun c₁ habort _ => .pure habort.failing
  | argument h =>
    refine .ifFailing hfailing ?_
    exact .popRoots hfailing (by omega) fun c₁ habort _ => .pure habort.failing
  | body h =>
    refine .ifFailing hfailing ?_
    rw [if_pos rfl]
    exact .finish hfailing (by omega)
  | call ht h => exact .ifFailing hfailing hnil
  | branch ht h => exact .ifFailing hfailing hnil
  | define h => exact .ifFailing hfailing hnil
  | assign h => exact .ifFailing hfailing hnil
  | sequence ht h => exact .ifFailing hfailing hnil
  | conjunction ht h => exact .ifFailing hfailing hnil
  | disjunction ht h => exact .ifFailing hfailing hnil
  | binding ht h => exact .ifFailing hfailing hnil
  | @exec slot =>
    refine .setRoot hfailing (by omega) fun c₁ habort hsize hroot => ?_
    refine .ifFailing habort.failing ?_
    rw [if_pos rfl]
    exact .finishExec habort.failing (by omega) hroot

end Steps

namespace Machine

variable {host : Host} {σ σ' ρ : State} {c : Context} {task : Task} {ps : List Pending} {v : Value}

/-! ## 2. How the evaluator stands -/

/-- **The evaluator stands as the steps that wait need it.** A task that is source text makes no
    function the running one before it begins. -/
def Poised (σ : State) : Prop :=
  ∃ base d f t n κ g τ, Stance base n κ σ.context ∧ Owing base d f t n κ.depth g τ σ.pending ∧
    σ.task.Suits g τ ∧ ((∀ source echo, σ.task ≠ .exec source echo) → g = κ.current)

/-- Whatever is to be done, it can be begun. -/
theorem poised_start (c : Context) (task : Task) : Poised ⟨c, task, []⟩ := by
  have hstart : ∀ {t : Bool}, task.Suits c.current t → Poised ⟨c, task, []⟩ := fun {t} hsuits =>
    ⟨_, _, _, t, _, _, _, _, .refl c, .nil, hsuits, fun _ => rfl⟩
  cases task with
  | give v => exact hstart (t := false) (.give v)
  | eval env expr tail => exact hstart (t := tail) (.eval id)
  | evalList env list => exact hstart (t := false) (.evalList env list)
  | apply func args => exact hstart (t := false) (.apply func args)
  | exec source echo =>
    refine ⟨_, _, .nil, false, _, _, _, _, .refl c, .nil, .exec rfl, fun h => ?_⟩
    exact absurd rfl (h source echo)

theorem Poised.of_goes {base : Array Value} {d : Nat} {f : Value} {t : Bool} {κ : Context.Registers}
    {next : Next} (h : Goes base d f t κ ps next c) : Poised ⟨c, next.task, next.pending ++ ps⟩ := by
  obtain ⟨n, κ', τ, hc, -, how, hsuits⟩ := h
  exact ⟨_, _, _, _, _, _, _, _, hc, how, hsuits, fun _ => rfl⟩

/-- **A step keeps the evaluator poised.** -/
theorem Poised.step (hhost : host.Balanced) (h : Poised σ) (hs : Step host σ σ') : Poised σ' := by
  obtain ⟨base, d, f, t, n, κ, g, τ, hc, how, hsuits, hg⟩ := h
  cases hs with
  | @resume c c' v p ps next hrun =>
    have hcurrent : g = κ.current := hg nofun
    subst hcurrent
    rcases Goes.resume hhost hc how _ _ hrun with hgoes | ⟨rfl, hback⟩
    · exact .of_goes hgoes
    · obtain ⟨n', hc', how'⟩ := hback.stance
      rw [hback.next]
      exact ⟨_, _, _, _, _, _, _, _, hc', how', .give _, fun _ => rfl⟩
  | @work c c' task ps next htask hrun =>
    by_cases hexec : ∃ source echo, task = .exec source echo
    · obtain ⟨source, echo, rfl⟩ := hexec
      cases hsuits with
      | exec hnil =>
        have hbegin : Owing base d f t n κ.depth .nil τ ps := hnil ▸ how
        exact .of_goes (Goes.enterExec source hc hbegin _ _ hrun)
    · have hcurrent : g = κ.current := hg fun source echo htask => hexec ⟨source, echo, htask⟩
      subst hcurrent
      exact .of_goes (Goes.step hhost hc hsuits how _ _ hrun)

theorem Poised.reaches (hhost : host.Balanced) (h : Poised σ) (hreach : Reaches host σ ρ) :
    Poised ρ := by
  induction hreach with
  | refl => exact h
  | tail _ hs ih => exact ih.step hhost hs

/-! ## 3. Unwinding -/

/-- **The rest of a run where a failure has happened** is unwinding. -/
theorem Poised.reaches_failed (hhost : host.Balanced) (h : Poised σ)
    (hfailing : σ.context.failing = true) (hnil : σ.task = .give .nil) (hreach : Reaches host σ ρ) :
    Aborted σ.context ρ.context ∧ ρ.task = .give .nil := by
  induction hreach with
  | refl => exact ⟨.refl hfailing, hnil⟩
  | @tail ρ ρ' hr hs ih =>
    obtain ⟨habort, htask⟩ := ih
    obtain ⟨base, d, f, t, n, κ, g, τ, hc, how, -, hg⟩ := h.reaches hhost hr
    cases hs with
    | work hne _ => exact absurd htask (hne .nil)
    | @resume c c' v p ps next hrun =>
      cases htask
      have hcurrent : g = κ.current := hg nofun
      subst hcurrent
      obtain ⟨c₁, hresume, habort'⟩ := Pending.drains host hc how habort.failing
      rw [hresume] at hrun
      cases hrun
      exact ⟨habort.trans habort', rfl⟩

/-- **It comes to an end**, as soon as no step waits any more. -/
theorem Poised.run_failed (hhost : host.Balanced) (h : Poised ⟨c, .give .nil, ps⟩)
    (hfailing : c.failing = true) : ∃ c', ∀ k, run host (ps.length + 1 + k) (.give .nil) ps c =
      .ok .nil c' ∧ Aborted c c' := by
  induction ps generalizing c with
  | nil =>
    refine ⟨c, fun k => ⟨?_, .refl hfailing⟩⟩
    rw [List.length_nil, Nat.zero_add, Nat.add_comm 1 k]
    rfl
  | cons p ps ih =>
    obtain ⟨base, d, f, t, n, κ, g, τ, hc, how, -, hg⟩ := id h
    have hcurrent : g = κ.current := hg nofun
    subst hcurrent
    obtain ⟨c₁, hresume, habort⟩ := Pending.drains host hc how hfailing
    obtain ⟨c', hrest⟩ := ih (h.step hhost (.resume hresume)) habort.failing
    refine ⟨c', fun k => ⟨?_, habort.trans (hrest k).2⟩⟩
    rw [show (p :: ps).length + 1 + k = ps.length + 1 + k + 1 by
      rw [List.length_cons]
      omega]
    show (p.resume host .nil >>= fun next => run host (ps.length + 1 + k) next.task
      (next.pending ++ ps)) c = .ok .nil c'
    rw [run_bind hresume]
    exact (hrest k).1

/-- A step is taken by a run that has one more in its budget. -/
theorem run_of_step (hs : Step host σ σ') (k : Nat) :
    run host (k + 1) σ.task σ.pending σ.context = run host k σ'.task σ'.pending σ'.context := by
  cases hs with
  | resume hrun => exact run_bind hrun
  | @work c c' task ps next htask hrun =>
    cases task with
    | give v => exact absurd rfl (htask v)
    | eval env expr tail => exact run_bind hrun
    | evalList env list => exact run_bind hrun
    | apply func args => exact run_bind hrun
    | exec source echo => exact run_bind hrun

/-- **Steps are taken by a run** that has enough of them in its budget. -/
theorem run_of_reaches (hreach : Reaches host σ ρ) : ∃ m, ∀ k,
    run host (k + m) σ.task σ.pending σ.context = run host k ρ.task ρ.pending ρ.context := by
  induction hreach with
  | refl => exact ⟨0, fun k => rfl⟩
  | @tail ρ ρ' _ hs ih =>
    obtain ⟨m, hm⟩ := ih
    refine ⟨m + 1, fun k => ?_⟩
    rw [show k + (m + 1) = k + 1 + m by omega, hm (k + 1)]
    exact run_of_step hs k

/-! ## 4. Failure -/

/-- What the next step of the machine does. -/
def State.action (host : Host) (σ : State) : Run Next :=
  match σ.task, σ.pending with
  | .give v, p :: _ => p.resume host v
  | task, _ => task.step host

theorem Step.action (hs : Step host σ σ') : ∃ next, σ.action host σ.context = .ok next σ'.context ∧
    σ'.task = next.task := by
  cases hs with
  | resume hrun => exact ⟨_, hrun, rfl⟩
  | @work c c' task ps next htask hrun =>
    refine ⟨next, ?_, rfl⟩
    cases task with
    | give v => exact absurd rfl (htask v)
    | _ => exact hrun

theorem State.breaks (hheeds : host.Heeds) (σ : State) : Breaks (σ.action host) GivesNil := by
  unfold State.action
  split
  · exact Breaks.resume hheeds _ _
  · exact Breaks.step hheeds _

/-- **A failure aborts the rest.** If a step of a run, begun without a failure, leaves the state
    failing, then it has called `Context.fail`, and from there on only such things change as may change
    after a failure: cells, symbols, bindings and output do not, and lines of traceback are all that
    comes to the message. Whatever the machine reaches, it is still failing, its task is to give nil,
    and no budget that is large enough lets the run come to anything but nil. -/
theorem failure_aborts {start : Context} (hhost : host.Balanced) (hheeds : host.Heeds)
    (hreach : Reaches host ⟨start, task, []⟩ σ) (hstep : Step host σ σ')
    (hbefore : σ.context.failing = false) (hafter : σ'.context.failing = true) :
    ∃ c, Fails (σ.action host) σ.context c ∧
      (∀ ρ, Reaches host σ' ρ → Aborted c ρ.context ∧ ρ.task = .give .nil) ∧
      ∃ n c', ∀ k, run host (n + k) task [] start = .ok .nil c' ∧ Aborted c c' := by
  obtain ⟨next, haction, htask⟩ := hstep.action
  obtain ⟨c, hfails, habort, hgives⟩ := (σ.breaks hheeds).breaks hbefore haction hafter
  have hnil : σ'.task = .give .nil := htask.trans hgives
  have hpoised : Poised σ' := ((poised_start start task).reaches hhost hreach).step hhost hstep
  refine ⟨c, hfails, fun ρ hρ => ?_, ?_⟩
  · obtain ⟨habort', hgive⟩ := hpoised.reaches_failed hhost hafter hnil hρ
    exact ⟨habort.trans habort', hgive⟩
  · obtain ⟨m, hm⟩ := run_of_reaches (hreach.tail hstep)
    obtain ⟨c₁, task₁, ps⟩ := σ'
    cases hnil
    obtain ⟨c', hend⟩ := hpoised.run_failed hhost hafter
    refine ⟨ps.length + 1 + m, c', fun k => ⟨?_, habort.trans (hend k).2⟩⟩
    rw [show ps.length + 1 + m + k = ps.length + 1 + k + m by omega]
    exact (hm _).trans (hend k).1

end Machine

/-- A context with a pair whose head is a symbol that is bound to nothing. -/
def Context.undefined : Context :=
  { Context.within with
    heap :=
      { Context.within.heap with
        cells := Context.within.heap.cells.setIfInBounds 0 (.pair (.sym 0) .nil) }
    symbols := { names := #["f"], slots := #[] } }

/-- The head is evaluated while the list of arguments, the call and the end of the pair wait. -/
theorem Machine.failure_aborts_undefined : ∃ σ σ' c,
    Reaches Host.none ⟨Context.undefined, .eval .nil (.pair 0) false, []⟩ σ ∧
      Step Host.none σ σ' ∧ σ.pending.length = 3 ∧ σ.context.failing = false ∧
      σ'.context.failing = true ∧ Fails (σ.action Host.none) σ.context c ∧
      (∀ ρ, Reaches Host.none σ' ρ → Aborted c ρ.context ∧ ρ.task = .give .nil) ∧
      ∃ n c', ∀ k, run Host.none (n + k) (.eval .nil (.pair 0) false) [] Context.undefined =
        .ok .nil c' ∧ Aborted c c' := by
  have hfirst : Step Host.none ⟨Context.undefined, .eval .nil (.pair 0) false, []⟩ _ :=
    .work nofun rfl
  have hreach := (Relation.ReflTransGen.single hfirst).tail (.work (by nofun) rfl)
  obtain ⟨c, hfails, hunwound, hend⟩ :=
    failure_aborts Host.balanced_none Host.heeds_none hreach (.work (by nofun) rfl) rfl rfl
  exact ⟨_, _, c, hreach, .work (by nofun) rfl, rfl, rfl, rfl, hfails, hunwound, hend⟩

end LispMachine
