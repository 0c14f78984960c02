import LispMachine.Proofs.Balance.Evaluation
import LispMachine.Proofs.Recursion.Code

/-!
# The body of one call at work

A call of a function, and the machine while nothing else is called from it:

* `Loop` -- the function, and the context in which its call starts;
* `Loop.Waits` -- **the steps that wait while its body runs**, each with the code that it goes on with;
* `Loop.Bounds` -- what the registers are then;
* `Loop.Runs` -- the machine while the body runs, or when the call is over;
* `Loop.Leads` -- a step that leads there if the code stays as it was.

There follows one lemma for each step. A call that is made is the function's own, in tail position: its
arguments are handed back (`Loop.Leads.resumeCall`).
-/

namespace LispMachine

open Context

/-! ## 1. A call -/

/-- A function, and the context in which a call of it starts. -/
structure Loop where
  func : Value
  start : Context

namespace Loop

/-- The parts of the function. -/
def closure (l : Loop) : Closure := l.start.heap.closure l.func

/-- The call. -/
def call (l : Loop) : Call where
  closure := l.closure
  base := l.start.heap.roots.size
  caller := l.start.current

/-- The context in which the body begins for the first time, with the arguments and a slot for the frame
    on the root stack. -/
def entered (l : Loop) (args : Value) : Context :=
  { l.start with
    current := l.func
    heap := { l.start.heap with roots := (l.start.heap.roots.push args).push .nil } }

/-- A piece of the function's code. -/
abbrev Code (l : Loop) (k : Nat) (part : Part) (v : Value) : Prop := LispMachine.Code l.start l.closure.body k part v

/-- Its code is what it was. -/
abbrev Stays (l : Loop) (c : Context) : Prop := Code.Stays l.start l.closure.body c

theorem enterFunction_eq (l : Loop) (args : Value) :
    Machine.enterFunction l.func args l.start = Machine.enterBody l.call args (l.entered args) := rfl

/-! ## 2. The steps that wait -/

/-- **The steps that wait while the body runs**: with the root stack `n` high, within `k` pairs that are
    being evaluated. Each of them goes on with a piece of the code. -/
inductive Waits (l : Loop) : Nat → Nat → List Pending → Prop where
  | body {frame forms : Value} (hcode : l.Code 0 (.forms true) forms) :
      Waits l (l.call.base + 2) 0 [.body l.call frame forms]
  | leave {n slot k : Nat} {ps : List Pending} (hs : slot ≤ n) (h : Waits l slot k ps) :
      Waits l n (k + 1) (.leave slot :: ps)
  | release {n slot k : Nat} {ps : List Pending} (hs : slot ≤ n) (h : Waits l slot k ps) :
      Waits l n k (.release slot :: ps)
  | call {n k : Nat} {tail : Bool} {ps : List Pending} (h : ∀ m, n ≤ m → Waits l m k ps) :
      Waits l n k (.call tail :: ps)
  | argument {slot k : Nat} {env rest last : Value} {ps : List Pending}
      (hcode : l.Code k (.forms false) rest) (h : Waits l slot k ps) :
      Waits l (slot + 1) k (.argument env rest slot last :: ps)
  | branch {n k : Nat} {env args : Value} {tail : Bool} {ps : List Pending}
      (hcode : l.Code k (.choice tail) args) (h : Waits l n k ps) : Waits l n k (.branch env args tail :: ps)
  | define {n k : Nat} {env name : Value} {ps : List Pending} (h : Waits l n k ps) :
      Waits l n k (.define env name :: ps)
  | assign {n k : Nat} {env name : Value} {ps : List Pending} (h : Waits l n k ps) :
      Waits l n k (.assign env name :: ps)
  | sequence {n k : Nat} {env forms : Value} {tail : Bool} {ps : List Pending}
      (hcode : l.Code k (.forms tail) forms) (h : Waits l n k ps) :
      Waits l n k (.sequence env forms tail :: ps)
  | conjunction {n k : Nat} {env forms : Value} {tail : Bool} {ps : List Pending}
      (hcode : l.Code k (.forms tail) forms) (h : Waits l n k ps) :
      Waits l n k (.conjunction env forms tail :: ps)
  | disjunction {n k : Nat} {env forms : Value} {tail : Bool} {ps : List Pending}
      (hcode : l.Code k (.forms tail) forms) (h : Waits l n k ps) :
      Waits l n k (.disjunction env forms tail :: ps)
  | binding {n k : Nat} {env frame args bindings name : Value} {tail : Bool} {ps : List Pending}
      (hargs : l.Code k (.scope tail) args) (hcode : l.Code k .bindings bindings) (h : Waits l n k ps) :
      Waits l n k (.binding env frame args bindings name tail :: ps)

/-- A task in front of such steps. -/
inductive Fits (l : Loop) (k : Nat) : Task → Prop where
  | give (v : Value) : Fits l k (.give v)
  | eval {env expr : Value} {tail : Bool} (hcode : l.Code (k + 1) (.expr tail) expr) :
      Fits l k (.eval env expr tail)
  | evalList {env list : Value} (hcode : l.Code k (.forms false) list) : Fits l k (.evalList env list)

/-- **The registers while the body runs**, within `k` pairs that are being evaluated, of which there are
    never more than `N`. -/
structure Bounds (l : Loop) (N k : Nat) (κ : Context.Registers) : Prop where
  current : κ.current = l.func
  depth : κ.depth = l.start.depth + k
  level : k ≤ N
  peak : κ.peakDepth ≤ max l.start.peakDepth (l.start.depth + N)

/-- **The machine while the call is under way**, and when it is over. -/
inductive Runs (l : Loop) (N : Nat) (σ : Machine.State) : Prop where
  | underway {n k : Nat} {κ : Context.Registers} (hc : Stance #[] n κ σ.context) (hκ : l.Bounds N k κ)
      (hw : l.Waits n k σ.pending) (ht : l.Fits k σ.task)
  | ended {v : Value} (hdepth : σ.context.depth = l.start.depth)
      (hpeak : σ.context.peakDepth ≤ max l.start.peakDepth (l.start.depth + N)) (htask : σ.task = .give v)
      (hps : σ.pending = [])

/-- What a step leads to. -/
abbrev Goes (l : Loop) (N : Nat) (ps : List Pending) (next : Next) (c : Context) : Prop :=
  l.Runs N ⟨c, next.task, next.pending ++ ps⟩

/-- **What a step comes to**, if it comes to an end with the code as it was. -/
def Leads (l : Loop) (N : Nat) (ps : List Pending) (x : Run Next) (c : Context) : Prop :=
  Yields x c fun next c' => l.Stays c' → l.Goes N ps next c'

end Loop

section Steps

variable {l : Loop} {N n k slot : Nat} {κ : Context.Registers} {c : Context} {ps : List Pending} {p : Pending}
variable {next : Next} {x : Run Next} {tail : Bool} {v env expr args frame forms bindings : Value} {host : Host}

namespace Loop

namespace Bounds

/-- Other registers do not matter. -/
theorem looping (hκ : l.Bounds N k κ) (b : Bool) : l.Bounds N k { κ with looping := b } :=
  ⟨hκ.current, hκ.depth, hκ.level, hκ.peak⟩

theorem deeper (hκ : l.Bounds N k κ) (hk : k + 1 ≤ N) :
    l.Bounds N (k + 1) { κ with depth := κ.depth + 1, peakDepth := max κ.peakDepth (κ.depth + 1) } where
  current := hκ.current
  depth := congrArg (· + 1) hκ.depth
  level := hk
  peak := by
    refine Nat.max_le.mpr ⟨hκ.peak, Nat.le_trans ?_ (Nat.le_max_right _ _)⟩
    rw [hκ.depth]
    omega

theorem shallower (hκ : l.Bounds N (k + 1) κ) : l.Bounds N k { κ with depth := κ.depth - 1 } where
  current := hκ.current
  depth := congrArg (· - 1) hκ.depth
  level := Nat.le_of_succ_le hκ.level
  peak := hκ.peak

end Bounds

namespace Goes

theorem give (hc : Stance #[] n κ c) (hκ : l.Bounds N k κ) (hw : l.Waits n k ps) : l.Goes N ps (.give v) c :=
  .underway hc hκ hw (.give v)

/-- A piece of code is evaluated, and a step waits for its value. -/
theorem eval (hc : Stance #[] n κ c) (hκ : l.Bounds N k κ) (hcode : l.Code (k + 1) (.expr tail) expr)
    (hw : l.Waits n k (p :: ps)) : l.Goes N ps (.eval env expr tail p) c :=
  .underway hc hκ hw (.eval hcode)

/-- One more step waits behind those of `next`. -/
theorem andThen (h : l.Goes N (p :: ps) next c) : l.Goes N ps (next.andThen p) c := by
  have hpending : (next.andThen p).pending ++ ps = next.pending ++ p :: ps := by
    rw [Next.andThen, List.append_assoc]
    rfl
  rw [Goes, hpending]
  exact h

end Goes

namespace Leads

/-- A step that leaves the evaluator as it stands and gives a value. -/
theorem idle (hx : Idle x Next.Gives) (hc : Stance #[] n κ c) (hκ : l.Bounds N k κ) (hw : l.Waits n k ps) :
    l.Leads N ps x c :=
  (hx.yields hc).weaken fun _ _ hq _ => by
    obtain ⟨hc', v, rfl⟩ := hq
    exact .give hc' hκ hw

/-- The same for a part of a step. -/
theorem after {α : Type} {y : Run α} {f : α → Run Next} {Q : α → Prop} (hy : Idle y Q) (hc : Stance #[] n κ c)
    (hf : ∀ a c', Stance #[] n κ c' → l.Leads N ps (f a) c') : l.Leads N ps (y >>= f) c :=
  (hy.yields hc).bind fun a c' hq => hf a c' hq.1

theorem andThen (hx : l.Leads N (p :: ps) x c) :
    l.Leads N ps (do
      let next ← x
      pure (next.andThen p)) c :=
  hx.bind fun _ _ h => .pure fun hs => (h hs).andThen

/-- A root is pushed, and nothing else is changed. -/
theorem pushRoot (hc : Stance #[] n κ c) : Yields (liftM (Heap.pushRoot v) : Run Nat) c fun i c' =>
    i = n ∧ Stance #[] (n + 1) κ c' ∧ c' = { c with heap := { c.heap with roots := c.heap.roots.push v } } :=
  fun i c' hrun => by
    obtain ⟨hi, hc'⟩ := Yields.pushRoot hc i c' hrun
    cases hrun
    exact ⟨hi, hc', rfl⟩

/-- Nothing is done while the state is failing. -/
theorem unlessFailing (hc : Stance #[] n κ c) (hκ : l.Bounds N k κ) (hw : l.Waits n k ps)
    (hx : l.Leads N ps x c) : l.Leads N ps (do if ← isFailing then pure (.give .nil) else x) c :=
  .observe (.ite (fun _ => .pure fun _ => .give hc hκ hw) fun _ => hx)

/-! ## 3. Forms -/

/-- **The first of a list of forms** is evaluated, in tail position just if it is the last one and the
    list is in tail position. -/
theorem first (hc : Stance #[] n κ c) (hκ : l.Bounds N k κ) (hcode : l.Stays c → l.Code k (.forms tail) forms)
    (hw : l.Code k (.forms tail) forms → l.Waits n k (p :: ps)) (hs : l.Stays c) :
    l.Goes N ps (.eval env (c.heap.car forms) (tail && !(c.heap.cdr forms).isPair) p) c := by
  rw [hs.car (hcode hs), hs.cdr (hcode hs)]
  exact .eval hc hκ (hcode hs).form (hw (hcode hs))

theorem enterSequence (hc : Stance #[] n κ c) (hκ : l.Bounds N k κ)
    (hcode : l.Stays c → l.Code k (.forms tail) forms) (hw : l.Waits n k ps) :
    l.Leads N ps (Machine.enterSequence env forms tail v) c :=
  .ite (fun _ => .look (.pure (first hc hκ hcode fun h => .sequence h hw))) fun _ => .pure fun _ => .give hc hκ hw

theorem enterConjunction (hc : Stance #[] n κ c) (hκ : l.Bounds N k κ)
    (hcode : l.Stays c → l.Code k (.forms tail) forms) (hw : l.Waits n k ps) :
    l.Leads N ps (Machine.enterConjunction env forms tail v) c :=
  .ite (fun _ => .look (.pure (first hc hκ hcode fun h => .conjunction h hw))) fun _ =>
    .pure fun _ => .give hc hκ hw

theorem enterDisjunction (hc : Stance #[] n κ c) (hκ : l.Bounds N k κ)
    (hcode : l.Stays c → l.Code k (.forms tail) forms) (hw : l.Waits n k ps) :
    l.Leads N ps (Machine.enterDisjunction env forms tail) c :=
  .ite (fun _ => .look (.pure (first hc hκ hcode fun h => .disjunction h hw))) fun _ =>
    .pure fun _ => .give hc hκ hw

theorem enterBranch (hc : Stance #[] n κ c) (hκ : l.Bounds N k κ) (hcode : l.Code k (.choice tail) args)
    (hw : l.Waits n k ps) : l.Leads N ps (Machine.enterBranch env args tail) c := by
  refine .look (.ite (fun _ => idle (.failNext _) hc hκ hw) fun _ => .look (.pure fun hs => ?_))
  rw [hs.car hcode]
  exact .eval hc hκ hcode.test (.branch hcode hw)

/-- A function that is defined is made, and its body is not looked at. -/
theorem enterDefine (hc : Stance #[] n κ c) (hκ : l.Bounds N k κ) (hcode : l.Code k .definition args)
    (hw : l.Waits n k ps) : l.Leads N ps (Machine.enterDefine env args) c := by
  refine .ite (fun _ => idle (.failNext _) hc hκ hw) fun _ => .look (.look ?_)
  refine .ite (fun hname => .look (.pure fun hs => ?_)) fun _ => .ite (fun _ => .look (.look ?_))
    fun _ => idle (.failNext _) hc hκ hw
  · rw [hs.car hcode] at hname
    have hnaming := hcode.defined hname
    rw [hs.value hnaming]
    exact .eval hc hκ hnaming.value.form (.define hw)
  · refine .ite (fun _ => idle (.failNext _) hc hκ hw) fun _ => .look ?_
    refine after (.func _ _ _ _) hc fun f c₁ hc₁ => after (.define _ _ _) hc₁ fun _ c₂ hc₂ => ?_
    exact .pure fun _ => .give hc₂ hκ hw

theorem enterLambda (hc : Stance #[] n κ c) (hκ : l.Bounds N k κ) (hw : l.Waits n k ps) :
    l.Leads N ps (Machine.enterLambda env args) c := by
  refine .look (.look (.ite (fun _ => idle (.failNext _) hc hκ hw) fun _ => .look ?_))
  exact after (.func _ _ _ _) hc fun _ _ hc₁ => .pure fun _ => .give hc₁ hκ hw

theorem enterAssignment (hc : Stance #[] n κ c) (hκ : l.Bounds N k κ) (hcode : l.Code k .naming args)
    (hw : l.Waits n k ps) : l.Leads N ps (Machine.enterAssignment env args) c := by
  refine .look (.ite (fun _ => idle (.failNext _) hc hκ hw) fun _ => .look (.pure fun hs => ?_))
  rw [hs.value hcode]
  exact .eval hc hκ hcode.value.form (.assign hw)

/-- **The next binding of a `let`**, or its body, which is in the position of the whole form. -/
theorem enterBindings (hc : Stance #[] n κ c) (hκ : l.Bounds N k κ) (hargs : l.Code k (.scope tail) args)
    (hcode : l.Stays c → l.Code k .bindings bindings) (hw : l.Waits n k ps) :
    l.Leads N ps (Machine.enterBindings env frame args bindings tail) c := by
  unfold Machine.enterBindings
  have hbound : ∀ name expr : Value, (l.Stays c → l.Code (k + 1) (.expr false) expr) →
      l.Leads N ps (if !name.isSym then Context.failNext "let: Invalid binding"
        else pure (.eval env expr false (.binding env frame args bindings name tail))) c := fun name expr hexpr =>
    .ite (fun _ => idle (.failNext _) hc hκ hw) fun _ => .pure fun hs =>
      .eval hc hκ (hexpr hs) (.binding hargs (hcode hs) hw)
  refine .ite (fun _ => .look ?_) fun _ => .look ?_
  · refine .ite (fun hname => hbound _ _ fun hs => ?_) fun _ => .look (hbound _ _ fun hs => ?_)
    · -- a name without an expression stands for nil
      have hnil : l.start.heap.car (l.start.heap.cdr (l.start.heap.car bindings)) = .nil := by
        rw [hs.car (hcode hs)] at hname
        generalize l.start.heap.car bindings = binding at hname
        cases binding <;> first | rfl | cases hname
      exact hnil ▸ (hcode hs).binding.value.form
    · rw [hs.car (hcode hs), hs.value (hcode hs).binding]
      exact (hcode hs).binding.value.form
  · exact enterSequence hc hκ (fun hs => hs.cdr hargs ▸ hargs.within) hw

/-- The frame of a `let` is rooted until the form is left. -/
theorem enterLet (hc : Stance #[] n κ c) (hκ : l.Bounds N k κ) (hcode : l.Code k (.scope tail) args)
    (hw : l.Waits n k ps) : l.Leads N ps (Machine.enterLet env args tail) c := by
  refine .ite (fun _ => idle (.failNext _) hc hκ hw) fun _ => .rootBase hc ?_
  refine after (.newFrame _) hc fun frame _ hc₁ => (Yields.pushRoot hc₁).bind fun _ _ hc₂ => .look ?_
  refine andThen (enterBindings hc₂.2 hκ hcode (fun hs => ?_) (.release (Nat.le_succ n) hw))
  exact hs.car hcode ▸ hcode.bindings

/-- **A form of the language.** -/
theorem standardForm {f : StandardForm} (hc : Stance #[] n κ c) (hκ : l.Bounds N k κ)
    (hcode : ∀ part, f.part? tail = some part → l.Code k part args) (hw : l.Waits n k ps) :
    l.Leads N ps (f.enter env args tail) c := by
  cases f with
  | quote => exact .look (.pure fun _ => .give hc hκ hw)
  | branch => exact enterBranch hc hκ (hcode _ rfl) hw
  | define => exact enterDefine hc hκ (hcode _ rfl) hw
  | lambda => exact enterLambda hc hκ hw
  | sequence => exact enterSequence hc hκ (fun _ => hcode _ rfl) hw
  | conjunction => exact after (.ofBool _) hc fun _ _ hc₁ => enterConjunction hc₁ hκ (fun _ => hcode _ rfl) hw
  | disjunction => exact enterDisjunction hc hκ (fun _ => hcode _ rfl) hw
  | binding => exact enterLet hc hκ (hcode _ rfl) hw
  | assignment => exact enterAssignment hc hκ (hcode _ rfl) hw

/-! ## 4. Evaluation -/

/-- **A pair is evaluated** by what its head says. -/
theorem enterForm (hc : Stance #[] n κ c) (hκ : l.Bounds N k κ) (hs : l.Stays c)
    (hstandard : ∀ entry, Machine.specialForm? l.start expr ≠ some (.hosted entry))
    (hcode : l.Code k (.expr tail) expr) (hw : ∀ m, n ≤ m → l.Waits m k ps) :
    l.Leads N ps (Machine.enterForm host env expr tail) c := by
  unfold Machine.enterForm
  refine .observe ?_
  rw [hs.specialForm? hcode]
  cases hform : Machine.specialForm? l.start expr with
  | none => exact .pure fun _ => .underway hc hκ (.call hw) (.evalList (hcode.call hform))
  | some form =>
    cases form with
    | standard f =>
      refine .look (standardForm hc hκ (fun part hpart => ?_) (hw n (Nat.le_refl n)))
      exact hs.cdr hcode ▸ hcode.special hform hpart
    | hosted entry => exact absurd hform (hstandard entry)

/-- **A pair of the code is evaluated one level deeper**, which is no deeper than lists are nested there. -/
theorem enterPair (hnest : l.start.heap.NestsWithin l.closure.body N) (hc : Stance #[] n κ c)
    (hκ : l.Bounds N k κ) (hs : l.Stays c)
    (hstandard : ∀ entry, Machine.specialForm? l.start expr ≠ some (.hosted entry)) (hpair : expr.isPair = true)
    (hcode : l.Code (k + 1) (.expr tail) expr) (hw : l.Waits n k ps) :
    l.Leads N ps (Machine.enterPair host env expr tail) c := by
  unfold Machine.enterPair
  refine .observe (.ite (fun _ => idle (.failNext _) hc hκ hw) fun _ => ?_)
  have hdeeper := hκ.deeper (hcode.le_nesting hpair hnest)
  have hmodify : Yields (modify fun c =>
      { c with depth := c.depth + 1, peakDepth := max c.peakDepth (c.depth + 1) } : Run PUnit) c
      fun _ c' => Stance #[] n
        { κ with depth := κ.depth + 1, peakDepth := max κ.peakDepth (κ.depth + 1) } c' ∧ l.Stays c' :=
    .edit ⟨⟨hc.le, hc.height, hc.roots, by rw [← hc.registers]; rfl⟩, hs.congr rfl rfl⟩
  refine hmodify.bind fun _ c₁ ⟨hc₁, hs₁⟩ => (pushRoot hc₁).bind fun slot c₂ ⟨hslot, hc₂, hpush₁⟩ => ?_
  refine (pushRoot hc₂).bind fun _ c₃ ⟨_, hc₃, hpush₂⟩ => ?_
  have hs₃ : l.Stays c₃ := hs₁.congr (by rw [hpush₂, hpush₁]) (by rw [hpush₂, hpush₁])
  refine andThen (enterForm hc₃ hdeeper hs₃ hstandard hcode fun m hm => .leave ?_ (hslot ▸ hw))
  omega

/-- **An expression of the code is evaluated.** -/
theorem enterEval (hnest : l.start.heap.NestsWithin l.closure.body N) (hc : Stance #[] n κ c)
    (hκ : l.Bounds N k κ) (hs : l.Stays c)
    (hstandard : ∀ entry, Machine.specialForm? l.start expr ≠ some (.hosted entry))
    (hcode : l.Code (k + 1) (.expr tail) expr) (hw : l.Waits n k ps) :
    l.Leads N ps (Machine.enterEval host env expr tail) c := by
  cases expr with
  | nil | int _ | object _ => exact .pure fun _ => .give hc hκ hw
  | sym _ => exact after (.valueOf _ _) hc fun _ _ hc₁ => .pure fun _ => .give hc₁ hκ hw
  | pair _ => exact enterPair hnest hc hκ hs hstandard rfl hcode hw

/-- The elements of a list that are left, none of them in tail position, or its end. -/
theorem enterArguments {rest last : Value} (hc : Stance #[] (slot + 1) κ c) (hκ : l.Bounds N k κ)
    (hcode : l.Stays c → l.Code k (.forms false) rest) (hw : l.Waits slot k ps) :
    l.Leads N ps (Machine.enterArguments env rest slot last) c := by
  refine .ite (fun _ => .look (.pure fun hs => ?_)) fun _ => Yields.root.bind fun out _ hout => ?_
  · rw [hs.car (hcode hs)]
    exact .eval hc hκ (hcode hs).form (.argument (hcode hs) hw)
  · subst hout
    exact (Yields.popRoots hc (Nat.zero_le _)).bind fun _ _ hc₁ => .pure fun _ => .give hc₁ hκ hw

theorem enterEvalList {list : Value} (hc : Stance #[] n κ c) (hκ : l.Bounds N k κ)
    (hcode : l.Code k (.forms false) list) (hw : l.Waits n k ps) :
    l.Leads N ps (Machine.enterEvalList env list) c :=
  (pushRoot hc).bind fun _ _ ⟨hslot, hc₁, _⟩ => enterArguments (hslot ▸ hc₁) hκ (fun _ => hcode) (hslot ▸ hw)

end Leads

end Loop

end Steps

end LispMachine
