import LispMachine.Probe
import LispMachine.Proofs.Application.Entering
import LispMachine.Proofs.Recursion.Alone

/-!
# Self tail recursion runs flat

A function that calls nothing but itself, in tail position, keeps to one frame on the root stack and to
the depth that lists are nested in its body:

* `Loop.Leads` -- one lemma for each step, from the body (`enterBody`) to calls (`resumeCall`);
* `Loop.Runs.step`, `Loop.runs` -- the invariant of a step, and of the whole call;
* `Loop.flat` -- **every iteration begins as high and as deep as the first one**, and no evaluation is
  deeper than the body nests;
* `Loop.Deepens` -- evaluations that are deeper: code that is changed, and a native of the embedding
  program that goes back into the evaluator.
-/

namespace LispMachine

open Context Machine

section Steps

variable {l : Loop} {N n k slot : Nat} {κ : Context.Registers} {c : Context} {ps : List Pending} {p : Pending}
variable {tail : Bool} {v func args frame forms : Value} {host : Host} {σ σ' : State}

namespace Loop

namespace Leads

/-! ## 1. The body -/

/-- The call ends. -/
theorem finish (hc : Stance #[] n κ c) (hκ : l.Bounds N 0 κ) : l.Leads N [] (Machine.finish l.call v) c := by
  have hleave : ∀ {c : Context}, Stance #[] n κ c → l.Leads N [] (do
      Heap.popRoots l.call.base
      modify fun c => { c with current := l.call.caller }
      pure (Next.give v) : Run Next) c := fun hc =>
    (Yields.popRoots hc (Nat.zero_le _)).bind fun _ _ hc₁ => (LispMachine.Goes.setCurrent hc₁ _).bind
      fun _ c₂ hc₂ => .pure fun _ => by
        have hdepth : c₂.depth = κ.depth := congrArg Registers.depth hc₂.registers
        have hpeak : c₂.peakDepth = κ.peakDepth := congrArg Registers.peakDepth hc₂.registers
        exact .ended (hdepth.trans hκ.depth) (hpeak.trans_le hκ.peak) rfl rfl
  unfold Machine.finish
  exact .observe (.ite (fun _ => .observe (after (.prepend _) hc fun _ _ hc₁ => hleave hc₁)) fun _ => hleave hc)

/-- The forms of the body, or its end. -/
theorem enterForms (hc : Stance #[] (l.call.base + 2) κ c) (hκ : l.Bounds N 0 κ)
    (hcode : l.Stays c → l.Code 0 (.forms true) forms) : l.Leads N [] (Machine.enterForms l.call frame forms v) c :=
  .ite (fun _ => .look (.pure (first hc hκ hcode .body))) fun _ => finish hc hκ

/-- **An iteration**: the body begins with fresh bindings. -/
theorem enterBody (hc : Stance #[] (l.call.base + 2) κ c) (hκ : l.Bounds N 0 κ) :
    l.Leads N [] (Machine.enterBody l.call args) c := by
  refine after (.newFrame _) hc fun frame _ hc₁ => (Yields.setRoot hc₁ (Nat.zero_le _)).bind fun _ _ hc₂ => ?_
  refine after (.bindParams _ _ _) hc₂ fun _ _ hc₃ => .observe (.ite (fun _ => finish hc₃ hκ) fun _ => ?_)
  exact enterForms hc₃ hκ fun _ => .body

/-- The next form of the body, or the next iteration. -/
theorem resumeBody (hc : Stance #[] (l.call.base + 2) κ c) (hκ : l.Bounds N 0 κ)
    (hcode : l.Code 0 (.forms true) forms) : l.Leads N [] (Machine.resumeBody l.call frame forms v) c := by
  refine .observe (.ite (fun _ => finish hc hκ) fun _ => .observe (.ite (fun _ => ?_) fun _ => .look ?_))
  · exact (LispMachine.Goes.setLooping hc false).bind fun _ _ hc₁ =>
      (Yields.setRoot hc₁ (Nat.zero_le _)).bind fun _ _ hc₂ => enterBody hc₂ (hκ.looping false)
  · exact enterForms hc hκ fun hs => hs.cdr hcode ▸ hcode.more

/-! ## 2. Calls -/

/-- A procedure that does not go back into the evaluator gives a value. -/
theorem enterNative (hc : Stance #[] n κ c) (hκ : l.Bounds N k κ)
    (hreturns : ∀ p, c.heap.procedure? func = some p → p.Returns host) (hw : ∀ m, n ≤ m → l.Waits m k ps) :
    l.Leads N ps (Machine.enterNative host func args) c := by
  unfold Machine.enterNative
  refine .look ?_
  cases hp : c.heap.procedure? func with
  | none => exact idle (.failNext _) hc hκ (hw n (Nat.le_refl n))
  | some p =>
    refine .look ?_
    cases Machine.takeArguments c.heap p.arity args with
    | error misfit => exact idle (.failNext _) hc hκ (hw n (Nat.le_refl n))
    | ok args =>
      refine (((hreturns p hp).run args).yields hc).weaken fun next c' hq _ => ?_
      obtain ⟨⟨v, rfl⟩, m, hm, hc'⟩ := hq
      exact .give hc' hκ (hw m hm)

/-- **The function itself is not entered**: its arguments are handed back. -/
theorem resumeCall (hc : Stance #[] n κ c) (hκ : l.Bounds N k κ) (hw : ∀ m, n ≤ m → l.Waits m k ps)
    (hfunction : c.failing = false → c.heap.typeOf (c.heap.car v) = CoreType.func.id →
      c.heap.car v = l.func ∧ tail = true)
    (hnative : c.failing = false → ∀ p, c.heap.procedure? (c.heap.car v) = some p → p.Returns host) :
    l.Leads N ps (Machine.resumeCall host tail v) c := by
  unfold Machine.resumeCall
  refine .observe (.ite (fun _ => .pure fun _ => .give hc hκ (hw n (Nat.le_refl n))) fun hfail => ?_)
  rw [Bool.not_eq_true] at hfail
  refine (pushRoot hc).bind fun _ c₁ ⟨_, hc₁, hpush⟩ => .look (.look (.look ?_))
  have hcurrent : c₁.current = l.func := (congrArg Registers.current hc₁.registers).trans hκ.current
  subst hpush
  refine .ite (fun htype => .observe (.ite (fun _ => ?_) fun hself => ?_)) fun _ => .ite (fun _ => ?_) fun _ => ?_
  · exact (LispMachine.Goes.setLooping hc₁ true).bind fun _ _ hc₂ => .pure fun _ =>
      .give hc₂ (hκ.looping true) (hw _ (Nat.le_succ n))
  · obtain ⟨hfunc, htail⟩ := hfunction hfail htype
    refine absurd (Bool.and_eq_true_iff.mpr ⟨htail, decide_eq_true ?_⟩) hself
    exact hfunc.trans hcurrent.symm
  · exact enterNative hc₁ hκ (hnative hfail) fun m hm => hw m (Nat.le_of_succ_le hm)
  · exact idle (.failNext _) hc₁ hκ (hw _ (Nat.le_succ n))

/-! ## 3. Steps -/

/-- **The innermost of the steps that wait goes on.** -/
theorem resume (hc : Stance #[] n κ c) (hκ : l.Bounds N k κ) (hw : l.Waits n k (p :: ps))
    (ha : l.Alone ⟨c, .give v, p :: ps⟩) (hset : l.Settled host ⟨c, .give v, p :: ps⟩) :
    l.Leads N ps (p.resume host v) c := by
  cases hw with
  | body hcode => exact resumeBody hc hκ hcode
  | leave _ h =>
    refine (Yields.popRoots hc (Nat.zero_le _)).bind fun _ _ hc₁ => ?_
    exact (LispMachine.Goes.shallower hc₁).bind fun _ _ hc₂ => .pure fun _ => .give hc₂ hκ.shallower h
  | release _ h =>
    exact (Yields.popRoots hc (Nat.zero_le _)).bind fun _ _ hc₁ => .pure fun _ => .give hc₁ hκ h
  | @call _ _ tail _ h =>
    refine resumeCall hc hκ h (ha.function v tail ps rfl rfl) fun hfail p hp => ?_
    cases p with
    | primitive p =>
      intro happly
      subst happly
      exact ha.native v tail ps rfl rfl hfail hp
    | hosted name arity entry => exact hset.native v tail ps name arity entry rfl rfl hfail hp
  | argument hcode h =>
    refine .observe (.ite (fun _ => ?_) fun _ => ?_)
    · exact (Yields.popRoots hc (Nat.zero_le _)).bind fun _ _ hc₁ => .pure fun _ => .give hc₁ hκ h
    · refine (Yields.append _ hc (Nat.zero_le _)).bind fun cell _ hc₁ => .look ?_
      exact enterArguments hc₁ hκ (fun hs => hs.cdr hcode ▸ hcode.more) h
  | @branch _ _ env args tail _ hcode h =>
    refine unlessFailing hc hκ h (.look (.pure fun hs => ?_))
    have hbranch : l.Code (k + 1) (.expr tail) (c.heap.nth args (if v.isTruthy then 1 else 2)) := by
      split
      · show l.Code (k + 1) (.expr tail) (c.heap.car (c.heap.cdr args))
        rw [hs.cdr hcode, hs.car hcode.arms]
        exact hcode.arms.arm
      · show l.Code (k + 1) (.expr tail) (c.heap.car (c.heap.cdr (c.heap.cdr args)))
        rw [hs.cdr hcode, hs.cdr hcode.arms, hs.car hcode.arms.others]
        exact hcode.arms.others.arm
    exact .underway hc hκ h (.eval hbranch)
  | define h =>
    exact unlessFailing hc hκ h (after (.define _ _ _) hc fun _ _ hc₁ => .pure fun _ => .give hc₁ hκ h)
  | assign h =>
    exact unlessFailing hc hκ h (after (.assign _ _ _) hc fun _ _ hc₁ => .pure fun _ => .give hc₁ hκ h)
  | sequence hcode h =>
    exact unlessFailing hc hκ h (.look (enterSequence hc hκ (fun hs => hs.cdr hcode ▸ hcode.more) h))
  | conjunction hcode h =>
    refine .observe (.ite (fun _ => .pure fun _ => .give hc hκ h) fun _ => .look ?_)
    exact enterConjunction hc hκ (fun hs => hs.cdr hcode ▸ hcode.more) h
  | disjunction hcode h =>
    refine unlessFailing hc hκ h (.ite (fun _ => .pure fun _ => .give hc hκ h) fun _ => .look ?_)
    exact enterDisjunction hc hκ (fun hs => hs.cdr hcode ▸ hcode.more) h
  | binding hargs hcode h =>
    refine unlessFailing hc hκ h (after (.define _ _ _) hc fun _ _ hc₁ => .look ?_)
    exact enterBindings hc₁ hκ hargs (fun hs => hs.cdr hcode ▸ hcode.rest) h

end Leads

/-- **A step keeps the invariant.** -/
theorem Runs.step (hnest : l.start.heap.NestsWithin l.closure.body N) (h : l.Runs N σ) (ha : l.Alone σ)
    (hset : l.Settled host σ) (hs : Step host σ σ') (hs' : l.Stays σ'.context) : l.Runs N σ' := by
  cases hs with
  | @work c c' task ps next htask hrun =>
    cases h with
    | ended _ _ hgive _ => exact absurd hgive (htask _)
    | underway hc hκ hw ht =>
      cases ht with
      | give v => exact absurd rfl (htask v)
      | @eval env expr tail hcode =>
        refine Leads.enterEval hnest hc hκ hset.code (fun entry hform => ?_) hcode hw next c' hrun hs'
        exact ha.form env expr tail entry rfl ((hset.code.specialForm? hcode).trans hform)
      | evalList hcode => exact Leads.enterEvalList hc hκ hcode hw next c' hrun hs'
  | @resume c c' v p ps next hrun =>
    cases h with
    | ended _ _ _ hps => cases hps
    | underway hc hκ hw ht => exact Leads.resume hc hκ hw ha hset next c' hrun hs'

/-! ## 4. The whole call -/

section Whole

variable {next : Next} {c₁ : Context}

/-- A call starts within any nesting. -/
theorem Runs.start (hstart : enterFunction l.func args l.start = .ok next c₁) (hs : l.Stays c₁) :
    l.Runs N ⟨c₁, next.task, next.pending⟩ := by
  have hc : Stance #[] (l.call.base + 2) (l.entered args).registers (l.entered args) :=
    ⟨Nat.zero_le _, by simp [entered, call], fun _ hi => absurd hi (Nat.not_lt_zero _), rfl⟩
  have hκ : l.Bounds N 0 (l.entered args).registers := ⟨rfl, rfl, Nat.zero_le N, Nat.le_max_left _ _⟩
  rw [enterFunction_eq] at hstart
  have hgoes : l.Goes N [] next c₁ := Leads.enterBody hc hκ next c₁ hstart hs
  rwa [Goes, List.append_nil] at hgoes

/-- **The invariant holds throughout the call.** -/
theorem runs (hnest : l.start.heap.NestsWithin l.closure.body N)
    (hstart : enterFunction l.func args l.start = .ok next c₁)
    (halone : ∀ σ, Reaches host ⟨c₁, next.task, next.pending⟩ σ → l.Alone σ ∧ l.Settled host σ)
    (hreach : Reaches host ⟨c₁, next.task, next.pending⟩ σ) : l.Runs N σ := by
  induction hreach with
  | refl => exact .start hstart (halone _ .refl).2.code
  | @tail σ σ' hr hs ih =>
    obtain ⟨ha, hset⟩ := halone σ hr
    exact ih.step hnest ha hset hs (halone σ' (hr.tail hs)).2.code

/-- The context in which the body begins again with the arguments of a self tail call. -/
def again (l : Loop) (args : Value) (c : Context) : Context :=
  { c with
    looping := false
    heap := { c.heap with roots := c.heap.roots.setIfInBounds l.call.base args } }

/-- **Self tail recursion runs flat.** While a function calls nothing but itself in tail position, the
    depth is never more than that at its start and the nesting of lists in its body; whenever the
    arguments of a self tail call come back, the body begins again with the depth and the height of the
    root stack that it began with; and whatever is evaluated is in tail position just where the code has
    it there. -/
theorem flat (hnest : l.start.heap.NestsWithin l.closure.body N)
    (hstart : enterFunction l.func args l.start = .ok next c₁)
    (halone : ∀ σ, Reaches host ⟨c₁, next.task, next.pending⟩ σ → l.Alone σ ∧ l.Settled host σ)
    (hreach : Reaches host ⟨c₁, next.task, next.pending⟩ σ) :
    σ.context.depth ≤ l.start.depth + N ∧
    σ.context.peakDepth ≤ max l.start.peakDepth (l.start.depth + N) ∧
    (∀ args' call frame forms ps, σ.task = .give args' → σ.pending = .body call frame forms :: ps →
      σ.context.failing = false → σ.context.looping = true →
        (Pending.body call frame forms).resume host args' σ.context =
            enterBody l.call args' (l.again args' σ.context) ∧
          (l.again args' σ.context).depth = (l.entered args).depth ∧
          (l.again args' σ.context).heap.roots.size = (l.entered args).heap.roots.size) ∧
    ∀ env expr tail, σ.task = .eval env expr tail → ∃ k, l.Code k (.expr tail) expr := by
  cases runs hnest hstart halone hreach with
  | ended hdepth hpeak htask hps =>
    refine ⟨hdepth.trans_le (Nat.le_add_right _ _), hpeak, fun _ _ _ _ _ _ h => ?_, fun _ _ _ h => ?_⟩
    · cases hps.symm.trans h
    · cases htask.symm.trans h
  | @underway n k κ hc hκ hw ht =>
    have hdepth : σ.context.depth = κ.depth := congrArg Registers.depth hc.registers
    have hpeak : σ.context.peakDepth = κ.peakDepth := congrArg Registers.peakDepth hc.registers
    refine ⟨?_, hpeak.trans_le hκ.peak, fun args' call frame forms ps _ hps hok hloop => ?_,
      fun env expr tail htask => ?_⟩
    · rw [hdepth, hκ.depth]
      exact Nat.add_le_add_left hκ.level _
    · rw [hps] at hw
      cases hw with
      | body hcode =>
        have hheight := hc.height
        refine ⟨resumeBody_again hok hloop (by omega), hdepth.trans hκ.depth, ?_⟩
        show (σ.context.heap.roots.setIfInBounds l.call.base args').size = _
        rw [Array.size_setIfInBounds, hheight]
        simp [entered, call]
    · rw [htask] at ht
      cases ht with
      | eval hcode => exact ⟨k + 1, hcode⟩

end Whole

end Loop

end Steps

/-! ## 5. Runs -/

/-- A context with these cells and so many free ones, where the symbols `0`, `1` and `2` are `begin`, `if`
    and `let`. -/
def Context.holding (cells : List Cell) (free : Nat) : Context :=
  { Context.within with
    heap := { Context.within.heap with
      chunkCells := cells.length + free
      growth := .fixed
      cells := (cells ++ (List.range free).map fun i =>
        Cell.free (if i + 1 < free then some (cells.length + i + 1) else none)).toArray
      chunks := #[{ head := some cells.length, freeCount := free }]
      stats := { chunks := 1 } }
    forms := [(0, .standard .sequence), (1, .standard .branch), (2, .standard .binding)]
    current := .nil
    maxDepth := 8 }

namespace Loop

/-- The function `f` of the arguments `x` with the body `((if x (let ((y 5)) (f)) 7))`. -/
def repeating : Loop where
  func := .object 0
  start := .holding [.object CoreType.func.id (.closure (.pair 1)), .pair (.pair 5) (.pair 2),
    .pair (.sym 4) (.pair 3), .pair (.pair 8) (.pair 4), .pair .nil .nil,
    .pair .nil (.pair 6), .pair (.pair 7) .nil, .pair (.sym 3) (.object 0),
    .pair (.pair 9) .nil, .pair (.sym 1) (.pair 10), .pair (.sym 4) (.pair 11), .pair (.pair 13) (.pair 12),
    .pair (.int 7) .nil, .pair (.sym 2) (.pair 14), .pair (.pair 15) (.pair 19), .pair (.pair 16) .nil,
    .pair (.sym 5) (.pair 17), .pair (.int 5) .nil, .pair (.sym 3) .nil, .pair (.pair 18) .nil,
    .pair (.int 1) .nil] 12

/-- The arguments of a self tail call have come back to the body. -/
def isBack (σ : State) : Bool :=
  match σ.task, σ.pending with
  | .give _, .body _ _ _ :: _ => !σ.context.failing && σ.context.looping
  | _, _ => false

/-- **It is called with one argument, and then once more without any**: the frame of the `let` is off the
    root stack then, and nothing is evaluated deeper than the four levels of its body. -/
theorem flat_repeating : ∃ next c₁, enterFunction repeating.func (.pair 20) repeating.start = .ok next c₁ ∧
    (∀ σ, Reaches Host.none ⟨c₁, next.task, next.pending⟩ σ → σ.context.depth ≤ 4) ∧
    ∃ σ args call frame forms ps, Reaches Host.none ⟨c₁, next.task, next.pending⟩ σ ∧ σ.task = .give args ∧
      σ.pending = .body call frame forms :: ps ∧
      (Pending.body call frame forms).resume Host.none args σ.context =
        enterBody repeating.call args (repeating.again args σ.context) ∧
      (repeating.again args σ.context).depth = 0 ∧ (repeating.again args σ.context).heap.roots.size = 2 := by
  have hnest : repeating.start.heap.NestsWithin repeating.closure.body 4 :=
    Heap.nestsWithin_of_everyPair 12 (by decide)
  have hend : endsWith (enterFunction repeating.func (.pair 20)) repeating.start (fun next c₁ =>
      let states := (State.mk c₁ next.task next.pending).trace Host.none 60
      decide (states.length < 60) && states.all (fun σ => repeating.isAlone σ && repeating.isSettled 12 σ) &&
        states.any isBack) = true := by decide +kernel
  obtain ⟨next, c₁, hstart, hstates⟩ := exists_of_endsWith hend
  simp only [Bool.and_eq_true, decide_eq_true_eq, List.all_eq_true, List.any_eq_true] at hstates
  obtain ⟨⟨hlength, hall⟩, ⟨c, task, ps⟩, hmem, hback⟩ := hstates
  have halone : ∀ σ, Reaches Host.none ⟨c₁, next.task, next.pending⟩ σ →
      repeating.Alone σ ∧ repeating.Settled Host.none σ := fun σ hσ => by
    obtain ⟨ha, hset⟩ := hall σ (hσ.mem_trace hlength)
    exact ⟨alone_of_isAlone ha, settled_of_isSettled hset⟩
  refine ⟨next, c₁, hstart, fun σ hσ => (flat hnest hstart halone hσ).1, ?_⟩
  have hreach := Reaches.of_mem_trace hmem
  obtain ⟨-, -, hagain, -⟩ := flat hnest hstart halone hreach
  unfold isBack at hback
  split at hback
  · rename_i args call frame forms ps htask hps
    rw [Bool.and_eq_true, Bool.not_eq_true'] at hback
    exact ⟨_, args, call, frame, forms, ps, hreach, htask, hps,
      hagain args call frame forms ps htask hps hback.1 hback.2⟩
  · cases hback

/-! ## 6. Deeper evaluations -/

/-- **The evaluation goes deeper than lists are ever nested in the body**, although the function calls
    nothing but itself, and nothing is applied by a native. -/
def Deepens (l : Loop) (host : Host) (args : Value) (N : Nat) : Prop :=
  ∃ next c₁, enterFunction l.func args l.start = .ok next c₁ ∧ l.start.heap.NestsWithin l.closure.body N ∧
    (∀ σ, Reaches host ⟨c₁, next.task, next.pending⟩ σ → l.Alone σ ∧ (∀ f list, σ.task ≠ .apply f list) ∧
      σ.context.heap.NestsWithin l.closure.body N) ∧
    ∃ σ, Reaches host ⟨c₁, next.task, next.pending⟩ σ ∧ l.start.depth + N < σ.context.depth

/-- Looks through a call of fewer than `n` states. -/
def isDeepening (l : Loop) (host : Host) (args : Value) (N n : Nat) : Bool :=
  match enterFunction l.func args l.start with
  | .ok next c₁ =>
    let states := (State.mk c₁ next.task next.pending).trace host n
    let nests (h : Heap) := h.everyPair (fun k _ => k ≤ N) n 0 l.closure.body
    decide (states.length < n) && nests l.start.heap &&
      states.all (fun σ => l.isAlone σ && nests σ.context.heap &&
        match σ.task with
        | .apply _ _ => false
        | _ => true) &&
      states.any fun σ => l.start.depth + N < σ.context.depth
  | .error _ _ => false

theorem deepens_of_isDeepening {l : Loop} {host : Host} {args : Value} {N n : Nat}
    (h : l.isDeepening host args N n = true) : l.Deepens host args N := by
  unfold isDeepening at h
  split at h
  · rename_i next c₁ hstart
    simp only [Bool.and_eq_true, decide_eq_true_eq, List.all_eq_true, List.any_eq_true] at h
    obtain ⟨⟨⟨hlength, hnest⟩, hall⟩, σ, hmem, hdeep⟩ := h
    refine ⟨next, c₁, hstart, Heap.nestsWithin_of_everyPair n hnest, fun σ hσ => ?_, σ, .of_mem_trace hmem, hdeep⟩
    obtain ⟨⟨ha, hnests⟩, happly⟩ := hall σ (hσ.mem_trace hlength)
    refine ⟨alone_of_isAlone ha, fun f list htask => ?_, Heap.nestsWithin_of_everyPair n hnests⟩
    rw [htask] at happly
    cases happly
  · cases h

/-- The function with the body `((begin (set-car! b 0) (set-cdr! p d) 1))`, where `b` is this body, `p` the
    pair of the second assignment in the sequence, and `d` the list `((begin (begin)))`. -/
def rewriting : Loop where
  func := .object 0
  start := .holding [.object CoreType.func.id (.closure (.pair 1)), .pair (.pair 5) (.pair 2),
    .pair .nil (.pair 3), .pair (.pair 12) (.pair 4), .pair .nil .nil,
    .pair .nil (.pair 6), .pair (.pair 7) (.pair 8), .pair (.sym 3) (.pair 12), .pair (.pair 9) (.pair 10),
    .pair (.sym 4) (.pair 18), .pair (.pair 11) .nil, .pair (.sym 5) (.pair 23),
    .pair (.pair 13) .nil, .pair (.sym 0) (.pair 14), .pair (.pair 15) (.pair 18),
    .pair (.object 27) (.pair 16), .pair (.sym 3) (.pair 17), .pair (.int 0) .nil,
    .pair (.pair 19) (.pair 22), .pair (.object 28) (.pair 20), .pair (.sym 4) (.pair 21),
    .pair (.sym 5) .nil, .pair (.int 1) .nil,
    .pair (.pair 24) .nil, .pair (.sym 0) (.pair 25), .pair (.pair 26) .nil, .pair (.sym 0) .nil,
    .object CoreType.native.id (.procedure (.primitive .setCar)),
    .object CoreType.native.id (.procedure (.primitive .setCdr))] 12

/-- The function with the body `((ev d))`, where `ev` evaluates what it is given, and `d` is `(begin)`. -/
def reentering : Loop where
  func := .object 0
  start := .holding [.object CoreType.func.id (.closure (.pair 1)), .pair (.pair 5) (.pair 2),
    .pair .nil (.pair 3), .pair (.pair 8) (.pair 4), .pair .nil .nil,
    .pair .nil (.pair 6), .pair (.pair 7) .nil, .pair (.sym 3) (.pair 11),
    .pair (.pair 9) .nil, .pair (.object 12) (.pair 10), .pair (.sym 3) .nil, .pair (.sym 0) .nil,
    .object CoreType.native.id (.procedure (.hosted "ev" ⟨1, 0, false⟩ "eval"))] 6

/-- **Code that is changed while it runs**, after it has left the body, **and a native of the embedding
    program that goes back into the evaluator.** -/
theorem deepens_rewriting : rewriting.Deepens Host.none .nil 2 ∧ reentering.Deepens Probe.host .nil 1 :=
  ⟨deepens_of_isDeepening (n := 60) (by decide +kernel), deepens_of_isDeepening (n := 60) (by decide +kernel)⟩

/-- The function that calls nothing but itself does not. -/
example : repeating.isDeepening Host.none (.pair 20) 4 60 = false := by decide +kernel

end Loop

end LispMachine
