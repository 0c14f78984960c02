import LispMachine.Machine.Run
import LispMachine.Proofs.Application.Arguments
import LispMachine.Proofs.Application.Frame
import LispMachine.Proofs.Failure.Unwinding

/-!
# Applying functions and natives

* `Machine.enterBody_turnsInto`, `Machine.enterBody_fails` -- a body begins in a frame of its parameters,
  or the call ends with the failure that its arguments do not fit;
* `Machine.Applying` -- **the ways in which a value is applied** to a list of arguments, what each of them
  keeps, and what waits behind it;
* `Applying.function`, `Applying.native` -- what all of them come to.
-/

namespace LispMachine

open Context

/-- What is said about names and arguments that do not end together. -/
def Machine.Fit.message? : Machine.Fit → Option String
  | .tooFew => some "Not enough arguments for function"
  | .tooMany => some "Too many arguments for function"
  | .exact | .endless => none

section

variable {c d c' : Context} {call : Call} {args old v w e last func : Value} {names values : List Value}
variable {ns cells : List Addr} {bound : List (Value × Value)} {fit : Machine.Fit} {text : String}
variable {vs : List Value} {cfg : Config} {ops : List Heap.Operation} {a b : Addr} {s : Scope} {slot : Nat}
variable {params : Value}

/-! ## 1. Bodies -/

/-- Names are bound in an empty frame. -/
theorem Context.Opens.bind (ho : c.Opens slot s d) (hs : s.entries = []) {f : Unit → Run Unit}
    {Q : Unit → Context → Prop}
    (hf : ∀ (s' : Scope) (d' : Context), s'.frame = s.frame → s'.parent = s.parent →
      (∀ key, s'.own key = bound.reverse.lookup key) → c.Opens slot s' d' → Attains (f ()) d' Q) :
    Attains (bound.forM (fun (name, value) => Context.define (.pair s.frame) name value) >>= f) d Q := by
  refine (ho.forM_define rfl).bind fun _ d' h => ?_
  obtain ⟨s', hframe, hparent, hown, ho'⟩ := h
  refine hf s' d' hframe hparent (fun key => ?_) ho'
  have hnone : s.own key = none := by
    rw [Scope.own, hs]
    rfl
  rw [hown, hnone, Option.or_none]

/-- **Arguments that fit** are bound. -/
theorem Context.Opens.bindParams_exact (ho : c.Opens slot s d) (hs : s.entries = [])
    (hpair : Machine.pairUp d.heap (d.heap.cells.size + 1) params args = (bound, .exact)) :
    Attains (Machine.bindParams (.pair s.frame) params args) d fun _ d' => ∃ s' : Scope,
      s'.frame = s.frame ∧ s'.parent = s.parent ∧ (∀ key, s'.own key = bound.reverse.lookup key) ∧
      c.Opens slot s' d' := by
  refine .after (x := look _) rfl ?_
  dsimp only
  rw [hpair]
  exact ho.bind hs fun s' d' hframe hparent hown ho' => .pure ⟨s', hframe, hparent, hown, ho'⟩

/-- A failure where none has happened. -/
theorem fail_run (hok : c.failing = false) (text : String) : Context.fail text c =
    .ok .nil { c with failing := true, failure := Text.clip failureCap text } := by
  unfold Context.fail
  rw [run_modifyGet, hok]
  rfl

/-- **Arguments that do not fit** are a failure. -/
theorem Context.Opens.bindParams_misfit (ho : c.Opens slot s d) (hs : s.entries = [])
    (hpair : Machine.pairUp d.heap (d.heap.cells.size + 1) params args = (bound, fit))
    (hfit : fit.message? = some text) (hok : c.failing = false) :
    Attains (Machine.bindParams (.pair s.frame) params args) d fun _ d' =>
      d'.heap.roots.size = c.heap.roots.size ∧ d'.failing = true ∧ d'.failure = text := by
  refine .after (x := look _) rfl ?_
  dsimp only
  rw [hpair]
  refine ho.bind hs fun s' d' _ _ _ ho' => ?_
  obtain ⟨fresh, -, hbuilds⟩ := ho'.builds
  have hok' : d'.failing = false := by
    rw [hbuilds.rest]
    exact hok
  have hsize : d'.heap.roots.size = c.heap.roots.size := by
    rw [ho'.roots]
    exact Array.size_setIfInBounds
  cases fit with
  | exact | endless => cases hfit
  | tooFew | tooMany =>
    cases hfit
    refine .after (fail_run hok' _) (.pure ⟨hsize, rfl, ?_⟩)
    show Text.clip failureCap _ = _
    decide

/-- **A body begins in a frame of its parameters.** -/
theorem Machine.enterBody_turnsInto (bound : List (Value × Value)) (hv : c.heap.Valid) (hempty : c.heap.roots[call.frameSlot]? = some .nil)
    (hd : d = c.withRoots (c.heap.roots.setIfInBounds call.frameSlot old)) (hok : c.failing = false)
    (hpair : ∀ s d', c.Opens call.frameSlot s d' →
      Machine.pairUp d'.heap (d'.heap.cells.size + 1) call.closure.params args = (bound, .exact)) :
    TurnsInto (Machine.enterBody call args) d fun y d' => ∃ s : Scope,
      y = Machine.enterForms call (.pair s.frame) call.closure.body .nil ∧ s.parent = call.closure.env ∧
      (∀ key, s.own key = bound.reverse.lookup key) ∧ c.Opens call.frameSlot s d' := by
  unfold Machine.enterBody
  refine .attains (Attains.opens_newFrame hv hempty hd) fun _ d₁ h₁ => ?_
  obtain ⟨a, d₂, rfl, hset, ho⟩ := h₁
  refine .after hset (.attains (ho.bindParams_exact rfl (hpair _ _ ho)) fun _ d' h => ?_)
  obtain ⟨s, hframe, hparent, hown, ho'⟩ := h
  obtain ⟨fresh, -, hbuilds⟩ := ho'.builds
  have hok' : d'.failing = false := by
    rw [hbuilds.rest]
    exact hok
  refine .after (x := isFailing) rfl ?_
  dsimp only
  rw [hok', if_neg Bool.false_ne_true]
  exact .here ⟨s, congrArg (fun a => Machine.enterForms call (.pair a) _ _) hframe.symm, hparent, hown, ho'⟩

/-- A call that ends has dropped its roots. -/
theorem Machine.size_of_finish {next : Next} (hrun : Machine.finish call v c = .ok next c') :
    c'.heap.roots.size = call.base := by
  have hleave : ∀ d : Context, (do
      Heap.popRoots call.base
      modify fun c => { c with current := call.caller }
      pure (.give v) : Run Next) d = .ok next c' → c'.heap.roots.size = call.base := by
    intro d hd
    obtain ⟨_, d₁, hpop, hrest⟩ := bind_eq_ok.mp hd
    cases hrest
    change onHeap (Heap.popRoots call.base) d = _ at hpop
    unfold onHeap Heap.popRoots at hpop
    by_cases hs : call.base ≤ d.heap.roots.size
    · rw [if_pos hs] at hpop
      cases hpop
      exact Array.size_shrink.trans (Nat.min_eq_left hs)
    · rw [if_neg hs] at hpop
      cases hpop
  obtain ⟨_, _, hfailing, hrest⟩ := bind_eq_ok.mp hrun
  cases hfailing
  split at hrest
  · obtain ⟨_, _, -, hrest⟩ := bind_eq_ok.mp hrest
    obtain ⟨_, c₁, -, hrest⟩ := bind_eq_ok.mp hrest
    exact hleave c₁ hrest
  · exact hleave _ hrest

/-- **A call ends where its arguments do not fit.** -/
theorem Machine.enterBody_fails (text : String) (hv : c.heap.Valid) (hempty : c.heap.roots[call.frameSlot]? = some .nil)
    (hd : d = c.withRoots (c.heap.roots.setIfInBounds call.frameSlot old)) (hok : c.failing = false)
    (hpair : ∀ s d', c.Opens call.frameSlot s d' → ∃ bound fit, fit.message? = some text ∧
      Machine.pairUp d'.heap (d'.heap.cells.size + 1) call.closure.params args = (bound, fit)) :
    Attains (Machine.enterBody call args) d fun next d' => next = .give .nil ∧
      d'.heap.roots.size = call.base ∧ ∃ d₁, d₁.failure = text ∧ Aborted d₁ d' := by
  unfold Machine.enterBody
  refine (Attains.opens_newFrame hv hempty hd).bind fun _ d₁ h₁ => ?_
  obtain ⟨a, d₂, rfl, hset, ho⟩ := h₁
  obtain ⟨bound, fit, hfit, hpair'⟩ := hpair _ _ ho
  refine .after hset ((ho.bindParams_misfit rfl hpair' hfit hok).bind fun _ d₃ h₃ => ?_)
  obtain ⟨hsize, hfailing, hfailure⟩ := h₃
  refine .after (x := isFailing) rfl ?_
  dsimp only
  rw [hfailing, if_pos rfl]
  have hbase : call.base ≤ d₃.heap.roots.size := by
    have hlt := (Array.getElem?_eq_some_iff.mp hempty).1
    rw [hsize]
    exact (Nat.le_succ _).trans hlt.le
  obtain ⟨d', hrun, habort⟩ := Drains.finish hfailing hbase
  exact .of_ok hrun ⟨rfl, Machine.size_of_finish hrun, d₃, hfailure, habort⟩

/-! ## 2. The ways to apply -/

/-- A step with more steps that wait behind it. -/
def Machine.before (x : Run Next) (behind : List Pending) : Run Next := do
  let next ← x
  pure { next with pending := next.pending ++ behind }

theorem Machine.before_nil (x : Run Next) : Machine.before x [] = x := by
  have hpure : (fun next : Next => (pure { next with pending := next.pending ++ [] } : Run Next)) = pure := by
    funext next
    rw [List.append_nil]
  rw [Machine.before, hpure, bind_pure]

/-- **The ways in which `func` is applied to `args`**, with the values that are held meanwhile, and with
    the steps that wait behind. -/
inductive Machine.Applying (host : Host) (c : Context) :
    Value → Value → List Value → List Pending → Run Next → Prop where
  /-- As the task of the machine. -/
  | apply (func args : Value) : Applying host c func args (c.heap.rootValues true ++ [func, args])
      [.release c.heap.roots.size] ((Task.apply func args).step host)
  /-- As the head of a form that has been evaluated. -/
  | call {tail : Bool} {form : Value} (hself : c.heap.typeOf (c.heap.car form) = CoreType.func.id →
      ¬ (tail = true ∧ c.heap.car form = c.current)) :
      Applying host c (c.heap.car form) (c.heap.cdr form) (c.heap.rootValues true ++ [form]) []
        ((Pending.call tail).resume host form)
  /-- By a self tail call, whose arguments come back to the call that is under way. -/
  | again {call : Call} {frame forms func args : Value} (hloop : c.looping = true)
      (htype : c.heap.typeOf func = CoreType.func.id) (hcall : call.closure = c.heap.closure func)
      (hslot : call.frameSlot < c.heap.roots.size) {held : List Value}
      (hheld : held = (c.withRoots ((c.heap.roots.setIfInBounds call.base args).setIfInBounds
        call.frameSlot .nil)).heap.rootValues true)
      (hfunc : ∀ a, func.addr? = some a → c.heap.Reaches held a) :
      Applying host c func args held [] ((Pending.body call frame forms).resume host args)

section Steps

variable {host : Host}

/-- **A call of a function is started** on a root stack with the arguments and an empty slot. -/
theorem Machine.enterFunction_run (func args : Value) (c : Context) : ∃ call : Call,
    call.closure = c.heap.closure func ∧ call.base = c.heap.roots.size ∧
    ((c.heap.roots.push args).push .nil)[call.frameSlot]? = some .nil ∧
    Machine.enterFunction func args c = Machine.enterBody call args
      ({ c with current := func }.withRoots
        (((c.heap.roots.push args).push .nil).setIfInBounds call.frameSlot .nil)) := by
  let call : Call := { closure := c.heap.closure func, base := c.heap.roots.size, caller := c.current }
  have hempty : ((c.heap.roots.push args).push .nil)[call.frameSlot]? = some .nil := by
    have hslot : call.frameSlot = (c.heap.roots.push args).size := by simp [call, Call.frameSlot]
    rw [hslot]
    exact Array.getElem?_push_size
  refine ⟨call, rfl, rfl, hempty, ?_⟩
  rw [setIfInBounds_self hempty]
  rfl

/-- A function is applied as a task. -/
theorem Machine.enterApply_func (htype : c.heap.typeOf func = CoreType.func.id) :
    (Task.apply func args).step host c = Machine.before (Machine.enterFunction func args)
      [.release c.heap.roots.size] (c.withRoots ((c.heap.roots.push func).push args)) := by
  show (if c.heap.typeOf func = CoreType.func.id then
    Machine.before (Machine.enterFunction func args) [.release c.heap.roots.size] else _) _ = _
  rw [if_pos htype]
  rfl

/-- A native is applied as a task. -/
theorem Machine.enterApply_native (htype : c.heap.typeOf func = CoreType.native.id) :
    (Task.apply func args).step host c = Machine.before (Machine.enterNative host func args)
      [.release c.heap.roots.size] (c.withRoots ((c.heap.roots.push func).push args)) := by
  show (if c.heap.typeOf func = CoreType.func.id then _ else if c.heap.typeOf func = CoreType.native.id then
    Machine.before (Machine.enterNative host func args) [.release c.heap.roots.size] else _) _ = _
  rw [if_neg (by rw [htype]; decide), if_pos htype]
  rfl

/-- A function is called by a form. -/
theorem Machine.resumeCall_func {tail : Bool} {form : Value} (hok : c.failing = false)
    (htype : c.heap.typeOf (c.heap.car form) = CoreType.func.id)
    (hself : ¬ (tail = true ∧ c.heap.car form = c.current)) :
    (Pending.call tail).resume host form c =
      Machine.enterFunction (c.heap.car form) (c.heap.cdr form) (c.withRoots (c.heap.roots.push form)) := by
  have hloop : (tail && decide (c.heap.car form = c.current)) = false := by simpa using hself
  show (if c.failing = true then _ else _ : Run Next) c = _
  rw [hok, if_neg Bool.false_ne_true]
  show (if c.heap.typeOf (c.heap.car form) = CoreType.func.id then _ else _ : Run Next)
    (c.withRoots (c.heap.roots.push form)) = _
  rw [if_pos htype]
  show (if (tail && decide (c.heap.car form = c.current)) = true then _ else _ : Run Next) _ = _
  rw [hloop, if_neg Bool.false_ne_true]
  rfl

/-- A native is called by a form. -/
theorem Machine.resumeCall_native {tail : Bool} {form : Value} (hok : c.failing = false)
    (htype : c.heap.typeOf (c.heap.car form) = CoreType.native.id) :
    (Pending.call tail).resume host form c =
      Machine.enterNative host (c.heap.car form) (c.heap.cdr form) (c.withRoots (c.heap.roots.push form)) := by
  show (if c.failing = true then _ else _ : Run Next) c = _
  rw [hok, if_neg Bool.false_ne_true]
  show (if c.heap.typeOf (c.heap.car form) = CoreType.func.id then _ else
    if c.heap.typeOf (c.heap.car form) = CoreType.native.id then _ else _ : Run Next)
    (c.withRoots (c.heap.roots.push form)) = _
  rw [if_neg (by rw [htype]; decide), if_pos htype]
  rfl

/-- Arguments come back to the call that is under way. -/
theorem Machine.resumeBody_again {frame forms : Value} (hok : c.failing = false) (hloop : c.looping = true)
    (hbase : call.base < c.heap.roots.size) :
    (Pending.body call frame forms).resume host args c = Machine.enterBody call args
      { c with looping := false, heap := { c.heap with roots := c.heap.roots.setIfInBounds call.base args } } := by
  have hnot : ¬ c.failing = true := by rw [hok]; exact Bool.false_ne_true
  show (if c.failing = true then _ else _ : Run Next) c = _
  rw [if_neg hnot]
  show (if c.looping = true then _ else _ : Run Next) c = _
  rw [if_pos hloop]
  have hset : (liftM (Heap.setRoot call.base args) : Run Unit) { c with looping := false } = .ok ()
      { c with looping := false, heap := { c.heap with roots := c.heap.roots.setIfInBounds call.base args } } := by
    show onHeap (Heap.setRoot call.base args) _ = _
    rw [onHeap, Heap.setRoot_eq_ok.mpr ⟨hbase, rfl⟩]
  exact (run_bind (x := modify _) rfl).trans (run_bind hset)

end Steps

/-- **Whatever the way, a function is applied by beginning its body**, with all that is held on the root
    stack. -/
theorem Machine.Applying.enters {host : Host} {held : List Value} {behind : List Pending} {x : Run Next}
    (hx : Machine.Applying host c func args held behind x) (hok : c.failing = false)
    (htype : c.heap.typeOf func = CoreType.func.id) :
    ∃ (call : Call) (roots : Array Value) (old : Value) (c₀ : Context), call.closure = c.heap.closure func ∧
      c₀.heap = (c.withRoots roots).heap ∧ c₀.failing = false ∧ roots[call.frameSlot]? = some .nil ∧
      (∀ v ∈ held ++ [func, args], ∀ b, v.addr? = some b → c₀.heap.Reaches (c₀.heap.rootValues true) b) ∧
      (∀ base, .release base ∈ behind → base ≤ call.base) ∧
      x c = Machine.before (Machine.enterBody call args) behind
        (c₀.withRoots (roots.setIfInBounds call.frameSlot old)) := by
  cases hx with
  | apply =>
    let c₁ := c.withRoots ((c.heap.roots.push func).push args)
    obtain ⟨call, hcall, hbase, hempty, hrun⟩ := Machine.enterFunction_run func args c₁
    refine ⟨call, _, .nil, { c₁ with current := func }.withRoots _, hcall, rfl, hok, hempty, fun v hv b hb => ?_,
      fun base hmem => ?_, (Machine.enterApply_func htype).trans (run_bind_congr_left hrun)⟩
    · refine .root ?_ hb
      show v ∈ c.heap.pins ++ ((((c.heap.roots.push func).push args).push args).push .nil).toList
      simp [Heap.rootValues] at hv ⊢
      tauto
    · cases List.mem_singleton.mp hmem
      rw [hbase]
      show _ ≤ ((c.heap.roots.push func).push args).size
      simp only [Array.size_push]
      omega
  | @call tail form hself =>
    let c₁ := c.withRoots (c.heap.roots.push form)
    obtain ⟨call, hcall, -, hempty, hrun⟩ := Machine.enterFunction_run (c.heap.car form) (c.heap.cdr form) c₁
    refine ⟨call, _, .nil, { c₁ with current := c.heap.car form }.withRoots _, hcall, rfl, hok, hempty,
      fun v hv b hb => ?_, fun _ hmem => absurd hmem List.not_mem_nil, ?_⟩
    · have hvalues : ∀ u ∈ c.heap.rootValues true ++ [form],
          u ∈ c.heap.pins ++ (((c.heap.roots.push form).push (c.heap.cdr form)).push .nil).toList := by
        intro u hu
        simp [Heap.rootValues] at hu ⊢
        tauto
      rcases List.mem_append.mp hv with hv | hv
      · exact .root (hvalues v hv) hb
      have hform := hvalues form (List.mem_append_right _ List.mem_cons_self)
      rcases List.mem_cons.mp hv with rfl | hv
      · exact .car (fun a => .root hform) hb
      · obtain rfl := List.mem_singleton.mp hv
        exact .cdr (fun a => .root hform) hb
    · rw [Machine.before_nil]
      exact (Machine.resumeCall_func hok htype (hself htype)).trans hrun
  | @again call frame forms func args hloop htype hcall hslot held hheld hfunc =>
    let roots := (c.heap.roots.setIfInBounds call.base args).setIfInBounds call.frameSlot .nil
    have hbase : call.base < c.heap.roots.size := (Nat.lt_succ_self _).trans hslot
    have hne : call.base ≠ call.frameSlot := (Nat.succ_ne_self _).symm
    have hempty : roots[call.frameSlot]? = some .nil := Array.getElem?_setIfInBounds_self_of_lt (by simpa using hslot)
    let c₀ : Context := { c with looping := false, heap := { c.heap with roots } }
    refine ⟨call, roots, c.heap.roots[call.frameSlot], c₀, hcall, rfl, hok, hempty, fun v hv b hb => ?_,
      fun _ hmem => absurd hmem List.not_mem_nil, ?_⟩
    · rcases List.mem_append.mp hv with hv | hv
      · exact .root (hheld ▸ hv) hb
      · rcases List.mem_cons.mp hv with rfl | hv
        · exact (hfunc b hb).congr (fun u hu => hheld ▸ hu) rfl rfl rfl
        · obtain rfl := List.mem_singleton.mp hv
          refine .root (Heap.mem_rootValues_of_root (i := call.base) ?_) hb
          exact (Array.getElem?_setIfInBounds_ne hne.symm).trans (Array.getElem?_setIfInBounds_self_of_lt hbase)
    · rw [Machine.resumeBody_again hok hloop hbase, Machine.before_nil]
      have hroots : roots.setIfInBounds call.frameSlot c.heap.roots[call.frameSlot] =
          c.heap.roots.setIfInBounds call.base args := by
        rw [Array.setIfInBounds_setIfInBounds]
        refine setIfInBounds_self ?_
        exact (Array.getElem?_setIfInBounds_ne hne).trans (Array.getElem?_eq_getElem hslot)
      rw [hroots]
      rfl

/-! ## 3. What they come to -/

/-- **The body of a function begins** in a frame of its parameters. -/
structure Machine.Begins (c : Context) (func args : Value) (bound : List (Value × Value)) (held : List Value)
    (behind : List Pending) (f : Addr) (y : Run Next) (c' : Context) : Prop where
  body : ∃ call : Call, call.closure = c.heap.closure func ∧
    y = Machine.before (Machine.enterForms call (.pair f) (c.heap.closure func).body .nil) behind
  failing : c'.failing = false
  parent : c'.heap.car (.pair f) = (c.heap.closure func).env
  /-- The last value of a key counts. -/
  own : ∀ key, c'.own? f key = bound.reverse.lookup key
  /-- The frame is a fresh one, and all that is held is as it was. -/
  keeps : ∃ fresh, f ∈ fresh ∧ c.heap.Keeps held fresh none c'.heap
  /-- The list of arguments is there still. -/
  args : ∀ values cells e, c.heap.Links args values cells e → c'.heap.Links args values cells e

/-- What is held is kept while a frame is filled. -/
theorem Context.Opens.keeps {c₀ : Context} {roots : Array Value} (ho : c₀.Opens slot s d) (hv : c.heap.Valid)
    (hheap : c₀.heap = (c.withRoots roots).heap)
    (hreach : ∀ v ∈ vs, ∀ b, v.addr? = some b → c₀.heap.Reaches (c₀.heap.rootValues true) b) :
    ∃ fresh, s.frame ∈ fresh ∧ c.heap.Keeps vs fresh none d.heap := by
  obtain ⟨fresh, hcells, hbuilds⟩ := ho.builds
  have hbefore : c.heap.Keeps vs [] none c₀.heap := by
    rw [hheap]
    exact .of_cells (hv.withRoots roots) rfl rfl rfl
  refine ⟨fresh, hcells _ Scope.frame_mem_cells, ?_⟩
  have hall := hbefore.trans hbuilds.keeps fun v hv b hb => by
    rw [List.append_nil]
    exact hreach v hv b hb
  rwa [List.append_nil] at hall

/-- A list that is held is kept. -/
theorem Heap.Keeps.links {h h' : Heap} {fresh : List Addr} (hk : h.Keeps vs fresh none h')
    (hl : h.Links v values cells e) (hv : ∀ a, v.addr? = some a → h.Reaches vs a) : h'.Links v values cells e :=
  hl.congr fun b hb => (hk.inUse b (hl.isAllocated b hb) (hl.reaches hv b hb)).2.2 nofun

/-- Where names and arguments lie in a heap, and how far the arguments go. -/
structure Heap.Matching (h : Heap) (func args : Value) (names : List Value) (ns : List Addr) (last : Value)
    (values : List Value) (cells : List Addr) (e : Value) : Prop where
  parameters : h.Links (h.closure func).params names ns last
  closed : last.isPair = false
  arguments : h.Links args values cells e
  enough : e.isPair = true → names.length ≤ values.length

/-- **Names and arguments that are held are paired up as before**, while a frame is filled. -/
theorem Heap.Matching.pairUp {h' : Heap} {fresh : List Addr}
    (hm : c.heap.Matching func args names ns last values cells e) (hk : c.heap.Keeps vs fresh none h')
    (ht : c.heap.types.traces CoreType.func.id = true) (htype : c.heap.typeOf func = CoreType.func.id)
    (hfunc : func ∈ vs) (hargs : args ∈ vs) :
    Machine.pairUp h' (h'.cells.size + 1) (c.heap.closure func).params args =
      if values.length < names.length then (names.zip values, .tooFew)
      else (Machine.bindings names last values (c.heap.cdr^[names.length] args),
        if last.isSym || (c.heap.cdr^[names.length] args).isNil then .exact else .tooMany) := by
  have hparts : ∀ b, (c.heap.closureParts func).addr? = some b → c.heap.Reaches vs b :=
    fun b => .closureParts ht htype fun a => .root hfunc
  have hn := hk.links hm.parameters fun b => .car fun a => .cdr hparts
  have hw := hk.links hm.arguments fun a => .root hargs
  rw [Machine.pairUp_eq hn hm.closed hw hm.enough (Nat.lt_succ_of_le (hn.length_le hm.closed))]
  by_cases hfew : values.length < names.length
  · rw [if_pos hfew, if_pos hfew]
  · rw [if_neg hfew, if_neg hfew, hm.arguments.iterate_congr hw (Nat.le_of_not_lt hfew)]

section Functions

variable {host : Host} {held : List Value} {behind : List Pending} {x : Run Next}

/-- **Where the arguments fit, the body begins.** -/
theorem Machine.Applying.begins (hx : Machine.Applying host c func args held behind x) (hv : c.heap.Valid)
    (ht : c.heap.types.traces CoreType.func.id = true) (hok : c.failing = false)
    (htype : c.heap.typeOf func = CoreType.func.id)
    (hm : c.heap.Matching func args names ns last values cells e) (hle : names.length ≤ values.length)
    (hfit : (last.isSym || (c.heap.cdr^[names.length] args).isNil) = true) :
    TurnsInto x c fun y c' => ∃ f, Machine.Begins c func args
      (Machine.bindings names last values (c.heap.cdr^[names.length] args)) held behind f y c' := by
  obtain ⟨call, roots, old, c₀, hcall, hheap, hok₀, hempty, hreach, -, hrun⟩ := hx.enters hok htype
  have hv₀ : c₀.heap.Valid := hheap ▸ hv.withRoots roots
  have hroots : c₀.heap.roots = roots := congrArg Heap.roots hheap
  have hkeeps := fun {s d'} (ho : c₀.Opens call.frameSlot s d') => ho.keeps hv hheap hreach
  refine .congr hrun (((Machine.enterBody_turnsInto
    (Machine.bindings names last values (c.heap.cdr^[names.length] args)) hv₀ (hroots ▸ hempty) (by rw [hroots]) hok₀
    fun s d' ho => ?_).bind _).weaken fun z c' h => ?_)
  · obtain ⟨fresh, -, hk⟩ := hkeeps ho
    rw [hcall, hm.pairUp hk ht htype (by simp) (by simp), if_neg (Nat.not_lt_of_le hle), if_pos hfit]
  · obtain ⟨y, rfl, s, rfl, hparent, hown, ho⟩ := h
    obtain ⟨fresh, hframe, hk⟩ := hkeeps ho
    refine ⟨s.frame, ⟨call, hcall, by rw [hcall]; rfl⟩, ?_, ?_, fun key => ?_, ⟨fresh, hframe, hk.mono ?_⟩, ?_⟩
    · obtain ⟨_, -, hbuilds⟩ := ho.builds
      rw [hbuilds.rest]
      exact hok₀
    · rw [Heap.car_of_cell ho.lies.frame_cell, hparent, hcall]
    · exact (ho.lies.own_eq key).trans (hown key)
    · exact fun v hv => List.mem_append_left _ hv
    · exact fun values cells e hl => hk.links hl fun a => .root (by simp)

/-- **Where they do not, the call ends** with a failure. -/
theorem Machine.Applying.misfits (hx : Machine.Applying host c func args held behind x) (hv : c.heap.Valid)
    (ht : c.heap.types.traces CoreType.func.id = true) (hok : c.failing = false)
    (htype : c.heap.typeOf func = CoreType.func.id)
    (hm : c.heap.Matching func args names ns last values cells e)
    (hfit : names.length ≤ values.length → (last.isSym || (c.heap.cdr^[names.length] args).isNil) = false) :
    Attains x c fun next c' => next = { task := .give .nil, pending := behind } ∧
      (∀ base, .release base ∈ behind → base ≤ c'.heap.roots.size) ∧ ∃ c₁, c₁.failure =
        (if values.length < names.length then "Not enough arguments for function"
          else "Too many arguments for function") ∧ Aborted c₁ c' := by
  obtain ⟨call, roots, old, c₀, hcall, hheap, hok₀, hempty, hreach, hbelow, hrun⟩ := hx.enters hok htype
  have hv₀ : c₀.heap.Valid := hheap ▸ hv.withRoots roots
  have hroots : c₀.heap.roots = roots := congrArg Heap.roots hheap
  refine .congr hrun ((Machine.enterBody_fails
    (if values.length < names.length then "Not enough arguments for function"
      else "Too many arguments for function") hv₀ (hroots ▸ hempty) (by rw [hroots]) hok₀
    fun s d' ho => ?_).bind fun next c' h => ?_)
  · obtain ⟨fresh, -, hk⟩ := ho.keeps hv hheap hreach
    have hpair := hm.pairUp hk ht htype (by simp) (by simp)
    by_cases hfew : values.length < names.length
    · rw [if_pos hfew] at hpair ⊢
      exact ⟨_, .tooFew, rfl, hcall ▸ hpair⟩
    · rw [if_neg hfew, hfit (Nat.le_of_not_lt hfew), if_neg Bool.false_ne_true] at hpair
      rw [if_neg hfew]
      exact ⟨_, .tooMany, rfl, hcall ▸ hpair⟩
  · obtain ⟨rfl, hsize, hfailure⟩ := h
    exact .pure ⟨rfl, fun base hmem => hsize ▸ hbelow base hmem, hfailure⟩

end Functions

end

end LispMachine
