import LispMachine.Proofs.Balance.Owing

/-!
# The evaluator is balanced

However a run comes to an end, the evaluator is left as it was found:

* `Machine.State`, `Machine.Step`, `Machine.Reaches` -- the machine at work, step by step;
* `Machine.Disturbed` -- a list of forms has become longer while the form that was its last one was
  evaluated in tail position, so that the arguments of a self tail call are taken for a value;
* `Machine.Handed` -- values that are the evaluated arguments of a self tail call;
* `InOrder`, `InOrder.step` -- the invariant of the machine, and that a step keeps it;
* `Machine.run_balanced` -- **the root stack, the depth and the running function are as before**, the
  depth has kept to its limit, and only an evaluation in tail position hands arguments back.
-/

namespace LispMachine

open Context

namespace Machine

/-! ## 1. The machine at work -/

/-- A context, the task that is to be done in it, and the steps that wait. -/
structure State where
  context : Context
  task : Task
  pending : List Pending

variable {host : Host}

/-- A step of the machine. -/
inductive Step (host : Host) : State → State → Prop where
  | resume {c c' : Context} {v : Value} {p : Pending} {ps : List Pending} {next : Next}
      (h : p.resume host v c = .ok next c') :
      Step host ⟨c, .give v, p :: ps⟩ ⟨c', next.task, next.pending ++ ps⟩
  | work {c c' : Context} {task : Task} {ps : List Pending} {next : Next}
      (htask : ∀ v, task ≠ .give v) (h : task.step host c = .ok next c') :
      Step host ⟨c, task, ps⟩ ⟨c', next.task, next.pending ++ ps⟩

/-- Steps lead from one state to the other. -/
abbrev Reaches (host : Host) : State → State → Prop := Relation.ReflTransGen (Step host)

/-- **A run that comes to an end** has gone step by step to a value for which nothing waits. -/
theorem reaches_of_run {budget : Nat} {task : Task} {ps : List Pending} {c c' : Context} {v : Value}
    (hrun : run host budget task ps c = .ok v c') : Reaches host ⟨c, task, ps⟩ ⟨c', .give v, []⟩ := by
  induction budget generalizing task ps c with
  | zero => cases hrun
  | succ budget ih =>
    have hwork : (∀ v, task ≠ .give v) → (task.step host >>= fun next =>
        run host budget next.task (next.pending ++ ps)) c = .ok v c' →
        Reaches host ⟨c, task, ps⟩ ⟨c', .give v, []⟩ := fun htask hrun => by
      obtain ⟨next, c₁, hstep, hrest⟩ := bind_eq_ok.mp hrun
      exact .head (.work htask hstep) (ih hrest)
    cases task with
    | give u =>
      cases ps with
      | nil =>
        cases hrun
        exact .refl
      | cons p ps =>
        obtain ⟨next, c₁, hstep, hrest⟩ := bind_eq_ok.mp hrun
        exact .head (.resume hstep) (ih hrest)
    | eval env expr tail => exact hwork nofun hrun
    | evalList env list => exact hwork nofun hrun
    | apply func args => exact hwork nofun hrun
    | exec source echo => exact hwork nofun hrun

end Machine

/-! ## 2. Self tail calls -/

/-- Forms that follow the one whose value is waited for in a sequence, a conjunction or a
    disjunction. -/
def Pending.hasMore (h : Heap) : Pending → Bool
  | .sequence _ forms _ | .conjunction _ forms _ | .disjunction _ forms _ => (h.cdr forms).isPair
  | _ => false

/-- An evaluation in tail position. -/
def Task.isTail : Task → Bool
  | .eval _ _ tail => tail
  | _ => false

namespace Machine

/-- The arguments of a self tail call come to a list of forms that goes on. -/
def Disturbed (host : Host) (start : State) : Prop :=
  ∃ c v p ps, Reaches host start ⟨c, .give v, p :: ps⟩ ∧ c.looping = true ∧ p.hasMore c.heap = true

/-- A value is the list of evaluated arguments of a form in tail position whose head is the function
    `g`. -/
def Handed (host : Host) (start : State) (g v : Value) : Prop :=
  ∃ c form ps, Reaches host start ⟨c, .give form, .call true :: ps⟩ ∧ c.failing = false ∧
    c.heap.car form = g ∧ c.heap.cdr form = v

end Machine

section Steps

variable {base : Array Value} {d : Nat} {f : Value} {t : Bool} {n : Nat} {κ : Context.Registers}
variable {τ tail : Bool} {ps : List Pending} {p : Pending} {c : Context} {v : Value} {host : Host}

/-! ## 3. Steps that go on -/

namespace Goes

/-- Roots are dropped. -/
theorem resumeRelease {slot : Nat} (hc : Stance base n κ c) (hs : base.size ≤ slot)
    (how : Owing base d f t slot κ.depth κ.current τ ps) :
    Yields (Machine.resumeRelease slot v) c (Goes base d f t κ ps) := by
  unfold Machine.resumeRelease
  exact (Yields.popRoots hc hs).bind fun _ _ hc₁ => .pure (give hc₁ how)

/-- One level less deep. -/
theorem shallower (hc : Stance base n κ c) :
    Yields (modify fun c => { c with depth := c.depth - 1 } : Run PUnit) c
      fun _ c' => Stance base n { κ with depth := κ.depth - 1 } c' :=
  .edit ⟨hc.le, hc.height, hc.roots, by rw [← hc.registers]; rfl⟩

/-- A self tail call is on its way, or it has come back. -/
theorem setLooping (hc : Stance base n κ c) (b : Bool) :
    Yields (modify fun c => { c with looping := b } : Run PUnit) c
      fun _ c' => Stance base n { κ with looping := b } c' :=
  .edit ⟨hc.le, hc.height, hc.roots, by rw [← hc.registers]; rfl⟩

/-- The evaluation of a pair is left. -/
theorem resumeLeave {slot k : Nat} (hc : Stance base n κ c) (hs : base.size ≤ slot)
    (hk : κ.depth = k + 1) (how : Owing base d f t slot k κ.current τ ps) :
    Yields (Machine.resumeLeave slot v) c (Goes base d f t κ ps) := by
  unfold Machine.resumeLeave
  have hback : Owing base d f t slot (κ.depth - 1) κ.current τ ps := by
    rw [hk, Nat.add_sub_cancel]
    exact how
  refine (Yields.popRoots hc hs).bind fun _ _ hc₁ => (shallower hc₁).bind fun _ _ hc₂ => .pure ?_
  exact of_before (give hc₂ hback) ⟨rfl, id, fun hd => Nat.le_trans (Nat.sub_le _ 1) hd, id⟩

/-- An argument is appended. -/
theorem resumeArgument {slot : Nat} {env rest last : Value} (hc : Stance base (slot + 1) κ c)
    (hs : base.size ≤ slot) (how : Owing base d f t slot κ.depth κ.current τ ps) :
    Yields (Machine.resumeArgument env rest slot last v) c (Goes base d f t κ ps) := by
  unfold Machine.resumeArgument
  refine .observe (.ite (fun _ => ?_) fun _ => ?_)
  · exact (Yields.popRoots hc hs).bind fun _ _ hc₁ => .pure (give hc₁ how)
  · exact (Yields.append _ hc hs).bind fun cell _ hc₁ => .look (enterArguments _ hc₁ hs how)

/-- What a self tail call leads to: the arguments are on their way back. -/
structure HandsBack (base : Array Value) (d : Nat) (f : Value) (t : Bool) (κ : Context.Registers)
    (ps : List Pending) (form : Value) (c : Context) (next : Next) (c' : Context) : Prop where
  failing : c.failing = false
  func : c.heap.car form = κ.current
  next : next = .give (c.heap.cdr form)
  failing_after : c'.failing = false
  stance : ∃ n, Stance base n { κ with looping := true } c' ∧
    Owing base d f t n κ.depth κ.current true ps

/-- **A call**: the callee is entered, or the arguments of a self tail call are handed back. -/
theorem resumeCall (hhost : host.Balanced) (hc : Stance base n κ c) (ht : tail = true → τ = true)
    (how : ∀ m, n ≤ m → Owing base d f t m κ.depth κ.current τ ps) :
    Yields (Machine.resumeCall host tail v) c fun next c' => Goes base d f t κ ps next c' ∨
      tail = true ∧ HandsBack base d f t κ ps v c next c' := by
  have hcurrent : c.current = κ.current := congrArg Registers.current hc.registers
  unfold Machine.resumeCall
  refine .observe (.ite (fun _ => .pure (.inl (give hc (how n (Nat.le_refl n))))) fun hfail => ?_)
  rw [Bool.not_eq_true] at hfail
  have hpush : Yields (liftM (Heap.pushRoot v) : Run Nat) c fun _ c' =>
      Stance base (n + 1) κ c' ∧ c'.heap.car v = c.heap.car v ∧ c'.heap.cdr v = c.heap.cdr v ∧
        c'.failing = c.failing := fun i c' hrun => by
    refine ⟨(Yields.pushRoot hc i c' hrun).2, ?_⟩
    cases hrun
    exact ⟨by cases v <;> rfl, by cases v <;> rfl, rfl⟩
  refine hpush.bind fun _ c₁ hc₁ => .look (.look (.look (.ite (fun _ => ?_) fun _ => .ite (fun _ => ?_) fun _ => ?_)))
  · obtain ⟨hc₁, hcar, hcdr, hfailing⟩ := hc₁
    refine .observe (.ite (fun hself => ?_) fun _ => ?_)
    · -- the head is the running function
      rw [Bool.and_eq_true_iff, decide_eq_true_iff] at hself
      obtain ⟨htail, hself⟩ := hself
      refine Yields.bind (P := fun _ c₂ => Stance base (n + 1) { κ with looping := true } c₂ ∧
        c₂.failing = c.failing) (.edit ⟨⟨hc₁.le, hc₁.height, hc₁.roots, ?_⟩, hfailing⟩)
        fun _ c₂ hc₂ => .pure (.inr ⟨htail, ?_⟩)
      · rw [← hc₁.registers]
        rfl
      · exact
          { failing := hfail
            func := by rw [← hcar, hself]; exact congrArg Registers.current hc₁.registers
            next := by rw [hcdr]
            failing_after := hc₂.2.trans hfail
            stance := ⟨n + 1, hc₂.1, ht htail ▸ how (n + 1) (Nat.le_succ n)⟩ }
    · exact (enterFunction _ hc₁ (how _ (Nat.le_succ n))).weaken fun _ _ h => .inl h
  · exact (enterNative hhost _ hc₁.1 fun m hm => how m (Nat.le_of_succ_le hm)).weaken
      fun _ _ h => .inl h
  · exact (plain (.plain (.failNext _)) hc₁.1 (how _ (Nat.le_succ n))).weaken fun _ _ h => .inl h

/-- **The arguments of a self tail call** come back to the call that is under way, and the body begins
    again. -/
theorem resumeBody {call : Call} {frame forms : Value} (hc : Stance base (call.base + 2) κ c)
    (hs : base.size ≤ call.base) (how : Owing base d f t call.base κ.depth call.caller τ ps)
    (hfailing : c.failing = false) :
    Yields (Machine.resumeBody call frame forms v) c
      (Goes base d f t { κ with looping := false } ps) := by
  have hlooping : c.looping = κ.looping := congrArg Registers.looping hc.registers
  unfold Machine.resumeBody
  refine .observe (.ite (fun hfail => absurd hfail (by rw [hfailing]; exact Bool.false_ne_true))
    fun _ => .observe (.ite (fun _ => ?_) fun hloop => ?_))
  · exact (setLooping hc false).bind fun _ _ hc₁ => (Yields.setRoot hc₁ hs).bind fun _ _ hc₂ =>
      enterBody hc₂ hs how
  · rw [Bool.not_eq_true, hlooping] at hloop
    have hκ : κ = { κ with looping := false } := by rw [← hloop]
    rw [hκ] at hc
    exact .look (enterForms hc hs how)

theorem failedBody {call : Call} {frame forms : Value} (hc : Stance base n κ c)
    (hs : base.size ≤ call.base) (how : Owing base d f t call.base κ.depth call.caller τ ps)
    (hfailing : c.failing = true) :
    Yields (Machine.resumeBody call frame forms v) c (Goes base d f t κ ps) := by
  unfold Machine.resumeBody
  exact .observe (.ite (fun _ => finish hc hs how) fun h => absurd hfailing h)

/-- A step that goes on with a value unless the state is failing. -/
theorem unlessFailing {x : Run Next} (hc : Stance base n κ c)
    (how : Owing base d f t n κ.depth κ.current τ ps) (hx : Yields x c (Goes base d f t κ ps)) :
    Yields (do if ← isFailing then pure (.give .nil) else x) c (Goes base d f t κ ps) :=
  .observe (.ite (fun _ => .pure (give hc how)) fun _ => hx)

/-- **The innermost of the steps that wait goes on.** -/
theorem resume (hhost : host.Balanced) (hc : Stance base n κ c)
    (how : Owing base d f t n κ.depth κ.current τ (p :: ps)) :
    Yields (p.resume host v) c fun next c' => Goes base d f t κ ps next c' ∨
      p = .call true ∧ HandsBack base d f t κ ps v c next c' := by
  have goes : ∀ {x : Run Next}, Yields x c (Goes base d f t κ ps) →
      Yields x c fun next c' => Goes base d f t κ ps next c' ∨
        p = .call true ∧ HandsBack base d f t κ ps v c next c' := fun hx =>
    hx.weaken fun _ _ h => .inl h
  generalize hk : κ.depth = k at how
  generalize hg : κ.current = g at how
  cases how with
  | leave _ h => exact goes (resumeLeave hc h.le hk (hg ▸ h))
  | release _ h => exact goes (resumeRelease hc h.le (hk ▸ hg ▸ h))
  | call ht h =>
    refine (resumeCall hhost hc ht (hk ▸ hg ▸ h)).weaken fun next c' hq => ?_
    rcases hq with hq | ⟨rfl, hq⟩
    · exact .inl hq
    · exact .inr ⟨rfl, hq⟩
  | argument h => exact goes (resumeArgument hc h.le (hk ▸ hg ▸ h))
  | body h =>
    refine goes ?_
    cases hfailing : c.failing with
    | true => exact failedBody hc h.le (hk ▸ h) hfailing
    | false =>
      exact (resumeBody hc h.le (hk ▸ h) hfailing).weaken fun _ _ hq =>
        of_before hq ⟨rfl, nofun, id, id⟩
  | branch ht h =>
    refine goes (unlessFailing hc (hk ▸ hg ▸ h) (.look (.pure ?_)))
    exact ⟨n, κ, _, hc, .refl κ, hk ▸ hg ▸ h, .eval ht⟩
  | define h =>
    refine goes (unlessFailing hc (hk ▸ hg ▸ h) ?_)
    exact ((Idle.define _ _ _).yields hc).bind fun _ _ hc₁ => .pure (give hc₁.1 (hk ▸ hg ▸ h))
  | assign h =>
    refine goes (unlessFailing hc (hk ▸ hg ▸ h) ?_)
    exact ((Idle.assign _ _ _).yields hc).bind fun _ _ hc₁ => .pure (give hc₁.1 (hk ▸ hg ▸ h))
  | sequence ht h =>
    refine goes (unlessFailing hc (hk ▸ hg ▸ h) (.look ?_))
    exact idle (Idle.enterSequence _) hc ht (hk ▸ hg ▸ h)
  | conjunction ht h =>
    refine goes (.observe (.ite (fun _ => .pure (give hc (hk ▸ hg ▸ h))) fun _ => .look ?_))
    exact idle (Idle.enterConjunction _) hc ht (hk ▸ hg ▸ h)
  | disjunction ht h =>
    refine goes (unlessFailing hc (hk ▸ hg ▸ h) ?_)
    refine .ite (fun _ => .pure (give hc (hk ▸ hg ▸ h))) fun _ => .look ?_
    exact idle (Idle.enterDisjunction _) hc ht (hk ▸ hg ▸ h)
  | binding ht h =>
    refine goes (unlessFailing hc (hk ▸ hg ▸ h) ?_)
    refine ((Idle.define _ _ _).yields hc).bind fun _ _ hc₁ => .look ?_
    exact idle Idle.enterBindings hc₁.1 ht (hk ▸ hg ▸ h)
  | exec h =>
    refine goes ((Yields.setRoot hc h.le).bind fun _ _ hc₁ => .observe (.ite (fun _ => ?_) fun _ => ?_))
    · exact finishExec hc₁ h.le (hk ▸ hg ▸ h)
    · refine .ite (fun _ => .observe ?_) fun _ => enterNextForm _ hc₁ h.le (hk ▸ h)
      exact ((Idle.write _).yields hc₁).bind fun _ _ hc₂ => enterNextForm _ hc₂.1 h.le (hk ▸ h)

/-- **A task is done.** -/
theorem step (hhost : host.Balanced) {task : Task} (hc : Stance base n κ c)
    (ht : task.Suits κ.current τ) (how : Owing base d f t n κ.depth κ.current τ ps) :
    Yields (task.step host) c (Goes base d f t κ ps) := by
  cases ht with
  | give v => exact .pure (give hc how)
  | eval ht => exact enterEval hhost _ hc ht how
  | evalList env list => exact enterEvalList list hc how
  | apply func args => exact enterApply hhost func hc how
  | exec hg => exact enterExec _ hc (hg ▸ how)

end Goes

/-- What an action on the heap leaves to the state of failure. -/
theorem Yields.failing_lift {α : Type} {x : HeapM α} :
    Yields (liftM x : Run α) c fun _ c' => c'.failing = c.failing :=
  .lift fun _ _ _ => rfl

/-- The arguments of a self tail call are handed on. -/
def HandsOn (base : Array Value) (d : Nat) (f : Value) (t : Bool) (κ : Context.Registers)
    (ps : List Pending) (v : Value) (next : Next) (c : Context) : Prop :=
  next = .give v ∧ c.failing = false ∧ ∃ n κ', Stance base n κ' c ∧ κ.Before κ' ∧
    κ'.current = κ.current ∧ Owing base d f t n κ'.depth κ'.current true ps

/-- **Steps in tail position hand the arguments on**, unless they have more forms; the call that is
    under way takes them. -/
theorem handsOn (hc : Stance base n κ c) (how : Owing base d f t n κ.depth κ.current true (p :: ps))
    (hfailing : c.failing = false) (hmore : p.hasMore c.heap = false) :
    Yields (p.resume host v) c fun next c' =>
      c'.looping = false ∨ HandsOn base d f t κ ps v next c' := by
  have hnot : ¬ c.failing = true := by
    rw [hfailing]
    exact Bool.false_ne_true
  have hpop : ∀ {slot : Nat}, base.size ≤ slot → Yields (liftM (Heap.popRoots slot) : Run Unit) c
      fun _ c' => Stance base slot κ c' ∧ c'.failing = false := fun hs _ c' hrun =>
    ⟨Yields.popRoots hc hs _ c' hrun, (Yields.failing_lift _ c' hrun).trans hfailing⟩
  -- a step that has no more forms
  have hlast : ∀ {next : Next}, next = .give v → Owing base d f t n κ.depth κ.current true ps →
      c.looping = false ∨ HandsOn base d f t κ ps v next c := fun hnext h =>
    .inr ⟨hnext, hfailing, n, κ, hc, .refl κ, rfl, h⟩
  have hend : ∀ {forms : Value}, (c.heap.cdr forms).isPair = false → ¬ (c.heap.cdr forms).isPair = true :=
    fun h => by rw [h]; exact Bool.false_ne_true
  generalize hk : κ.depth = k at how hlast
  generalize hg : κ.current = g at how hlast
  cases how with
  | @leave _ slot k _ _ _ _ h =>
    refine (hpop h.le).bind fun _ c₁ hc₁ => ?_
    refine Yields.bind (P := fun _ c₂ => Stance base slot { κ with depth := κ.depth - 1 } c₂ ∧
      c₂.failing = false) (.edit ⟨⟨hc₁.1.le, hc₁.1.height, hc₁.1.roots, ?_⟩, hc₁.2⟩)
      fun _ c₂ hc₂ => .pure (.inr ⟨rfl, hc₂.2, slot, _, hc₂.1, ?_, rfl, ?_⟩)
    · rw [← hc₁.1.registers]
      rfl
    · exact ⟨rfl, id, fun hd => Nat.le_trans (Nat.sub_le _ 1) hd, id⟩
    · show Owing base d f t slot (κ.depth - 1) κ.current true ps
      rw [hk, Nat.add_sub_cancel, hg]
      exact h
  | @release _ slot _ _ _ _ _ h =>
    refine (hpop h.le).bind fun _ c₁ hc₁ => .pure (.inr ⟨rfl, hc₁.2, slot, κ, hc₁.1, .refl κ, rfl, ?_⟩)
    rw [hk, hg]
    exact h
  | body h =>
    refine (Goes.resumeBody hc h.le (hk ▸ h) hfailing).weaken fun next c' hq => .inl ?_
    obtain ⟨_, κ', _, hc', hκ', _⟩ := hq
    rw [show c'.looping = κ'.looping from congrArg Registers.looping hc'.registers]
    exact Bool.eq_false_iff.mpr fun h => nomatch hκ'.looping h
  | sequence ht h =>
    refine .observe (.ite (fun hf => absurd hf hnot) fun _ => .look ?_)
    exact .ite (fun hp => absurd hp (hend hmore)) fun _ => .pure (hlast rfl (ht rfl ▸ h))
  | conjunction ht h =>
    refine .observe (.ite (fun hnil => ?_) fun _ => .look ?_)
    · rw [hfailing, Bool.false_or] at hnil
      refine .pure (hlast ?_ (ht rfl ▸ h))
      cases v <;> first | rfl | cases hnil
    · exact .ite (fun hp => absurd hp (hend hmore)) fun _ => .pure (hlast rfl (ht rfl ▸ h))
  | disjunction ht h =>
    refine .observe (.ite (fun hf => absurd hf hnot) fun _ => .ite (fun _ => ?_) fun htruthy => .look ?_)
    · exact .pure (hlast rfl (ht rfl ▸ h))
    · refine .ite (fun hp => absurd hp (hend hmore)) fun _ => .pure (hlast ?_ (ht rfl ▸ h))
      cases v <;> first | rfl | exact absurd rfl htruthy

end Steps

/-! ## 4. The invariant -/

section Invariant

open Machine

variable {host : Host} {start σ σ' : State}

/-- **The machine is in order**: the evaluator stands as the steps that wait need it, within the limit
    of depth, and the value at hand is the list of arguments of a self tail call only where steps in
    tail position hand it on -- unless such arguments have been taken for a value before. -/
structure InOrder (host : Host) (start σ : State) : Prop where
  stance : ∃ n κ τ, Stance start.context.heap.roots n κ σ.context ∧
    Owing start.context.heap.roots start.context.depth start.context.current start.task.isTail n
      κ.depth κ.current τ σ.pending ∧
    σ.task.Suits κ.current τ ∧
    κ.maxDepth = start.context.maxDepth ∧ κ.depth ≤ κ.maxDepth ∧ κ.peakDepth ≤ κ.maxDepth ∧
    (κ.looping = true → Disturbed host start ∨ ∃ v, σ.task = .give v ∧ τ = true ∧
      σ.context.failing = false ∧ Handed host start κ.current v)

theorem InOrder.refl {c : Context} {task : Task} (hlooping : c.looping = false)
    (hdepth : c.depth ≤ c.maxDepth) (hpeak : c.peakDepth ≤ c.maxDepth)
    (hexec : ∀ source echo, task = .exec source echo → c.current = .nil) :
    InOrder host ⟨c, task, []⟩ ⟨c, task, []⟩ := by
  refine ⟨_, _, _, .refl c, .nil, ?_, rfl, hdepth, hpeak, fun h => ?_⟩
  · cases task with
    | give v => exact .give v
    | eval env expr tail => exact .eval id
    | evalList env list => exact .evalList env list
    | apply func args => exact .apply func args
    | exec source echo => exact .exec (hexec source echo rfl)
  · exact absurd (hlooping.symm.trans h) Bool.false_ne_true

/-- What a step leads to is in order, if it begins no self tail call. -/
theorem InOrder.of_goes {κ : Context.Registers} {ps : List Pending} {next : Next} {c : Context}
    (h : Goes start.context.heap.roots start.context.depth start.context.current start.task.isTail κ
      ps next c)
    (hmax : κ.maxDepth = start.context.maxDepth) (hdepth : κ.depth ≤ κ.maxDepth)
    (hpeak : κ.peakDepth ≤ κ.maxDepth) (hlooping : c.looping = true → Disturbed host start) :
    InOrder host start ⟨c, next.task, next.pending ++ ps⟩ := by
  obtain ⟨n, κ', τ, hc, hκ, how, ht⟩ := h
  refine ⟨n, κ', τ, hc, how, ht, hκ.maxDepth.trans hmax, hκ.depth hdepth, hκ.peakDepth hpeak, ?_⟩
  exact fun h => .inl (hlooping ((congrArg Registers.looping hc.registers).trans h))

/-- **A step keeps the machine in order.** -/
theorem InOrder.step (hhost : host.Balanced) (h : InOrder host start σ)
    (hreach : Reaches host start σ) (hs : Step host σ σ') : InOrder host start σ' := by
  obtain ⟨n, κ, τ, hc, how, ht, hmax, hdepth, hpeak, hloop⟩ := h
  cases hs with
  | work htask hrun =>
    have hgoes := Goes.step hhost hc ht how _ _ hrun
    refine .of_goes hgoes hmax hdepth hpeak fun hlooping => ?_
    obtain ⟨_, κ', _, hc', hκ, _⟩ := hgoes
    rcases hloop (hκ.looping ((congrArg Registers.looping hc'.registers).symm.trans hlooping)) with
      hdist | ⟨v, hv, _⟩
    · exact hdist
    · exact absurd hv (htask v)
  | @resume c c' v p ps next hrun =>
    have hc_looping : c.looping = κ.looping := congrArg Registers.looping hc.registers
    rcases Goes.resume hhost hc how _ _ hrun with hgoes | ⟨rfl, hback⟩
    · by_cases hlooping : κ.looping = true
      · rcases hloop hlooping with hdist | ⟨_, ⟨⟩, rfl, hfailing, hhanded⟩
        · exact .of_goes hgoes hmax hdepth hpeak fun _ => hdist
        · cases hmore : p.hasMore c.heap with
          | true =>
            have hdist : Disturbed host start :=
              ⟨c, v, p, ps, hreach, hc_looping.trans hlooping, hmore⟩
            exact .of_goes hgoes hmax hdepth hpeak fun _ => hdist
          | false =>
            rcases handsOn hc how hfailing hmore _ _ hrun with hoff | hon
            · refine .of_goes hgoes hmax hdepth hpeak fun h => ?_
              exact absurd (hoff.symm.trans h) Bool.false_ne_true
            · obtain ⟨rfl, hfailing', n', κ', hc', hκ, hcurrent, how'⟩ := hon
              refine ⟨n', κ', true, hc', how', .give v, hκ.maxDepth.trans hmax, hκ.depth hdepth,
                hκ.peakDepth hpeak, fun _ => .inr ⟨v, rfl, rfl, hfailing', ?_⟩⟩
              exact hcurrent ▸ hhanded
      · refine .of_goes hgoes hmax hdepth hpeak fun h => ?_
        obtain ⟨_, κ', _, hc', hκ, _⟩ := hgoes
        exact absurd (hκ.looping ((congrArg Registers.looping hc'.registers).symm.trans h)) hlooping
    · obtain ⟨n', hc', how'⟩ := hback.stance
      rw [hback.next]
      refine ⟨n', _, true, hc', how', .give _, hmax, hdepth, hpeak, fun _ => .inr ?_⟩
      exact ⟨_, rfl, rfl, hback.failing_after, c, v, ps, hreach, hback.failing, hback.func, rfl⟩

/-- **The machine stays in order.** -/
theorem InOrder.reaches (hhost : host.Balanced) (h : InOrder host start start)
    (hreach : Reaches host start σ) : InOrder host start σ := by
  induction hreach with
  | refl => exact h
  | tail hr hs ih => exact ih.step hhost hr hs

/-! ## 5. Runs -/

/-- **The evaluator is balanced on every way out.** A run that comes to an end, failing or not, leaves
    the root stack, the depth and the running function as they were, and has kept to the limit of
    depth. It hands back the arguments of a self tail call only if it has evaluated in tail position,
    and then they are the arguments of a form whose head is the running function, and the state is not
    failing -- unless such arguments have been taken for a value on the way. -/
theorem Machine.run_balanced {budget : Nat} {task : Task} {c c' : Context} {v : Value}
    (hhost : host.Balanced) (hlooping : c.looping = false) (hdepth : c.depth ≤ c.maxDepth)
    (hpeak : c.peakDepth ≤ c.maxDepth)
    (hexec : ∀ source echo, task = .exec source echo → c.current = .nil)
    (hrun : run host budget task [] c = .ok v c') :
    c'.heap.roots = c.heap.roots ∧ c'.depth = c.depth ∧ c'.current = c.current ∧
      c'.peakDepth ≤ c.maxDepth ∧
      (c'.looping = true → Disturbed host ⟨c, task, []⟩ ∨
        task.isTail = true ∧ c'.failing = false ∧ Handed host ⟨c, task, []⟩ c'.current v) := by
  have hstart : InOrder host ⟨c, task, []⟩ ⟨c, task, []⟩ := .refl hlooping hdepth hpeak hexec
  obtain ⟨n, κ, τ, hc, how, -, hmax, -, hpeak', hloop⟩ := hstart.reaches hhost (reaches_of_run hrun)
  have hregisters := hc.registers
  replace hmax : κ.maxDepth = c.maxDepth := hmax
  subst hregisters
  generalize hk : c'.registers.depth = k at how
  generalize hg : c'.registers.current = g at how
  cases how with
  | nil =>
    refine ⟨hc.roots_eq, hk, hg, ?_, fun h => ?_⟩
    · exact hmax ▸ hpeak'
    · rcases hloop h with hdist | ⟨_, ⟨⟩, htail, hfailing, hhanded⟩
      · exact .inl hdist
      · exact .inr ⟨htail, hfailing, hhanded⟩

/-- An embedding program without procedures and forms of its own. -/
def Host.none : Host where
  procedure _ _ := failNext "apply: Invalid native"
  form _ _ _ _ := failNext "eval: Invalid application"

theorem Host.balanced_none : Host.none.Balanced where
  procedure _ _ hc how := Goes.plain (.plain (.failNext _)) hc (how _ (Nat.le_refl _))
  form _ _ _ _ hc how _ := Goes.plain (.plain (.failNext _)) hc (how _ (Nat.le_refl _))

/-- A context in which a function without parameters is running, and a call of it. -/
def Context.within : Context where
  heap :=
    { Heap.bare { chunkCells := 4 } with
      cells := #[.pair (.object 1) .nil, .object CoreType.func.id (.closure .nil), .free (some 3),
        .free .none]
      chunks := #[{ head := some 2, freeCount := 2 }] }
  symbols := { names := #[], slots := #[] }
  forms := []
  rootEnv := .nil
  current := .object 1
  looping := false
  failing := false
  failure := ""
  depth := 0
  maxDepth := 1
  peakDepth := 0
  truth := .nil
  output := ""

/-- A self tail call that is handed back. -/
theorem Machine.run_balanced_within : ∃ v c',
    run Host.none 8 (.eval .nil (.pair 0) true) [] Context.within = .ok v c' ∧ c'.looping = true ∧
      c'.heap.roots = #[] ∧ c'.depth = 0 ∧ c'.current = .object 1 ∧ c'.peakDepth ≤ 1 := by
  have hend : (match run Host.none 8 (.eval .nil (.pair 0) true) [] Context.within with
    | .ok _ c' => c'.looping
    | .error _ _ => false) = true := by decide +kernel
  split at hend
  · rename_i v c' hrun
    have hexec : ∀ source echo, Task.eval .nil (.pair 0) true = .exec source echo →
        Context.within.current = .nil := nofun
    obtain ⟨hroots, hdepth, hcurrent, hpeak, -⟩ :=
      run_balanced Host.balanced_none rfl (by decide) (by decide) hexec hrun
    exact ⟨v, c', hrun, hend, hroots, hdepth, hcurrent, hpeak⟩
  · cases hend

end Invariant

end LispMachine
