import LispMachine.Proofs.Failure.Message
import LispMachine.Session

/-!
# The call path that a message reports

After a failure the functions that are running end one after the other, from the inside out, and each of
them that has a name puts its line in front of the message **if both fit** into the cap:

* `Context.callPath` -- a message with the lines of functions that fit, one after the other;
  `Context.fullPath` -- with the lines of all of them;
* `Context.exists_callPath_eq` -- as long as names do not get shorter on the way out, the path is that of
  the innermost functions;
* `Machine.Reaches.failed` -- **the steps after a failure** end the functions that are running;
* `Machine.call_path` -- the message at each of them;
* `Probe.path_with_gap` -- a name that does not fit is left out, and a shorter one further out is not, so
  that the path has a gap.
-/

namespace LispMachine

open Context

/-! ## 1. Lines that fit -/

namespace Context

variable {name message : String} {names : List String}

/-- A message with the lines of functions in front, the first one nearest to it, of each that fits. -/
def callPath (names : List String) (message : String) : String :=
  names.foldl (fun message name =>
    if (line name).utf8ByteSize + message.utf8ByteSize ≤ failureCap then line name ++ message
    else message) message

/-- A message with the lines of all functions in front. -/
def fullPath (names : List String) (message : String) : String :=
  names.foldl (fun message name => line name ++ message) message

theorem size_line (name : String) : (line name).utf8ByteSize = name.utf8ByteSize + 5 := by
  unfold line
  rw [String.utf8ByteSize_append, String.utf8ByteSize_append]
  show 3 + name.utf8ByteSize + 2 = _
  omega

/-- Names that do not fit are left out. -/
theorem callPath_eq_self
    (h : ∀ name ∈ names, failureCap < (line name).utf8ByteSize + message.utf8ByteSize) :
    callPath names message = message := by
  induction names with
  | nil => rfl
  | cons name names ih =>
    have hname := h name List.mem_cons_self
    unfold callPath
    rw [List.foldl_cons, if_neg (by omega)]
    exact ih fun other ho => h other (List.mem_cons_of_mem name ho)

/-- **A path without gaps**: if names do not get shorter, then once one does not fit, none fits. -/
theorem exists_callPath_eq
    (hnames : names.Pairwise fun inner outer => inner.utf8ByteSize ≤ outer.utf8ByteSize) :
    ∃ k, callPath names message = fullPath (names.take k) message := by
  induction names generalizing message with
  | nil => exact ⟨0, rfl⟩
  | cons name names ih =>
    obtain ⟨hle, hrest⟩ := List.pairwise_cons.mp hnames
    by_cases hfits : (line name).utf8ByteSize + message.utf8ByteSize ≤ failureCap
    · obtain ⟨k, hk⟩ := @ih (line name ++ message) hrest
      refine ⟨k + 1, ?_⟩
      unfold callPath at hk ⊢
      rw [List.foldl_cons, if_pos hfits, hk]
      rfl
    · refine ⟨0, callPath_eq_self fun other ho => ?_⟩
      rw [size_line] at hfits ⊢
      rcases List.mem_cons.mp ho with rfl | ho
      · omega
      · have := hle other ho
        omega

end Context

/-- The name of a function, if it has one. -/
def Closure.shown? (c : Context) (f : Closure) : Option String :=
  if f.name.isSym = true then some (c.display f.name) else none

theorem Closure.shown?_congr {c c' : Context} (h : c'.symbols = c.symbols) :
    Closure.shown? c' = Closure.shown? c := by
  funext f
  unfold Closure.shown?
  split
  · rename_i hname
    rw [Aborted.display_sym hname h]
  · rfl

/-- A function leaves its line. -/
theorem Verdict.leaving_eq {c : Context} {f : Closure} {v : Verdict} (h : v.failing = true) :
    v.leaving c f =
      { failing := true, message := callPath ([f].filterMap (Closure.shown? c)) v.message } := by
  obtain ⟨failing, message⟩ := v
  replace h : failing = true := h
  subst h
  unfold Verdict.leaving Verdict.under Closure.shown? callPath
  by_cases hname : f.name.isSym = true
  · by_cases hfits : (line (c.display f.name)).utf8ByteSize + message.utf8ByteSize ≤ failureCap
    · simp [hname, hfits]
    · simp [hname, hfits]
  · simp [hname]

/-! ## 2. After a failure -/

section Failed

variable {α : Type} {host : Host} {c c' : Context} {p : Pending} {next : Next}

theorem lift_verdict {g : HeapM α} {a : α} (hrun : (liftM g : Run α) c = .ok a c') :
    c'.symbols = c.symbols ∧ c'.verdict = c.verdict := by
  replace hrun : onHeap g c = .ok a c' := hrun
  unfold onHeap at hrun
  split at hrun
  · cases hrun
    exact ⟨rfl, rfl⟩
  · cases hrun

/-- An action that looks at the state of failure, where one has happened. -/
theorem run_isFailing {g : Bool → Run α} (hc : c.failing = true) : (isFailing >>= g) c = g true c := by
  rw [← hc]
  rfl

/-- A run of source text ends after a failure. -/
theorem exec_failed {source : List Char} {base : Nat} {echo : Bool} (hc : c.failing = true)
    (hrun : Machine.resumeExec source base echo .nil c = .ok next c') :
    next = .give .nil ∧ c'.symbols = c.symbols ∧ c'.verdict = c.verdict := by
  unfold Machine.resumeExec at hrun
  obtain ⟨_, c₁, hset, hrun⟩ := bind_eq_ok.mp hrun
  obtain ⟨hsymbols, hverdict⟩ := lift_verdict hset
  have hc₁ : c₁.failing = true := (congrArg Verdict.failing hverdict).trans hc
  have hroot : c₁.heap.roots[base]? = some .nil := by
    replace hset : onHeap (Heap.setRoot base .nil) c = .ok _ c₁ := hset
    unfold onHeap Heap.setRoot at hset
    by_cases hb : base < c.heap.roots.size
    · rw [if_pos hb] at hset
      cases hset
      exact Array.getElem?_setIfInBounds_self_of_lt hb
    · rw [if_neg hb] at hset
      cases hset
  rw [run_isFailing hc₁, if_pos rfl] at hrun
  obtain ⟨-, hnext⟩ := Breaks.aborted_finishExec hrun hc₁ hroot
  obtain ⟨_, c₂, hread, hrun⟩ := bind_eq_ok.mp hrun
  obtain ⟨_, c₃, hpop, hrun⟩ := bind_eq_ok.mp hrun
  cases hrun
  obtain ⟨hsymbols₂, hverdict₂⟩ := lift_verdict hread
  obtain ⟨hsymbols₃, hverdict₃⟩ := lift_verdict hpop
  exact ⟨hnext, hsymbols₃.trans (hsymbols₂.trans hsymbols),
    hverdict₃.trans (hverdict₂.trans hverdict)⟩

/-- **A step that waits, after a failure**: nil is handed on, and if it waits in the body of a function,
    that one leaves its line. -/
theorem Pending.resume_failed (hc : c.failing = true) (hrun : p.resume host .nil c = .ok next c') :
    next = .give .nil ∧ c'.symbols = c.symbols ∧
      c'.verdict = p.closure?.elim c.verdict (c.verdict.leaving c) := by
  have hnil : (Pure.pure (.give .nil) : Run Next) c = .ok next c' →
      next = .give .nil ∧ c'.symbols = c.symbols ∧ c'.verdict = c.verdict := by
    intro h
    cases h
    exact ⟨rfl, rfl, rfl⟩
  cases p with
  | leave base =>
    obtain ⟨_, c₁, hpop, hrun⟩ := bind_eq_ok.mp hrun
    obtain ⟨hsymbols, hverdict⟩ := lift_verdict hpop
    cases hrun
    exact ⟨rfl, hsymbols, hverdict⟩
  | release base =>
    obtain ⟨_, c₁, hpop, hrun⟩ := bind_eq_ok.mp hrun
    cases hrun
    exact ⟨rfl, lift_verdict hpop⟩
  | argument env rest base last =>
    replace hrun : Machine.resumeArgument env rest base last .nil c = .ok next c' := hrun
    unfold Machine.resumeArgument at hrun
    rw [run_isFailing hc, if_pos rfl] at hrun
    obtain ⟨_, c₁, hpop, hrun⟩ := bind_eq_ok.mp hrun
    cases hrun
    exact ⟨rfl, lift_verdict hpop⟩
  | body call frame forms =>
    replace hrun : Machine.resumeBody call frame forms .nil c = .ok next c' := hrun
    unfold Machine.resumeBody at hrun
    rw [run_isFailing hc, if_pos rfl] at hrun
    exact Machine.finish_verdict hrun
  | exec source base echo => exact exec_failed hc hrun
  | call tail | branch env args tail | define env name | assign env name | sequence env forms tail
  | conjunction env forms tail | disjunction env forms tail
  | binding env frame args bindings name tail =>
    exact hnil ((run_isFailing hc).symm.trans hrun)

end Failed

namespace Machine

variable {host : Host} {σ σ' ρ : State}

/-- After a failure no function is called. -/
theorem State.running_failed (hfailing : σ.context.failing = true) (hnil : σ.task = .give .nil) :
    σ.running = σ.bodies := by
  obtain ⟨c, task, pending⟩ := σ
  cases hnil
  cases pending with
  | nil => rfl
  | cons p ps =>
    cases p with
    | call tail =>
      have hcallee : c.callee? tail .nil = none := if_pos (.inl hfailing)
      unfold State.running
      show (c.callee? tail .nil).toList ++ _ = _
      rw [hcallee]
      rfl
    | _ => rfl

/-- **A step after a failure**: the functions that it ends leave their lines. -/
theorem Step.failed (hfailing : σ.context.failing = true) (hnil : σ.task = .give .nil)
    (hs : Step host σ σ') : σ'.task = .give .nil ∧ σ'.context.failing = true ∧
      σ'.context.symbols = σ.context.symbols ∧ ∃ ended, σ.running = ended ++ σ'.running ∧
        σ'.context.failure =
          callPath (ended.filterMap (Closure.shown? σ.context)) σ.context.failure := by
  cases hs with
  | work htask _ => exact absurd hnil (htask .nil)
  | @resume c c' v p ps next hrun =>
    cases hnil
    obtain ⟨rfl, hsymbols, hverdict⟩ := Pending.resume_failed hfailing hrun
    have hmessage : c'.failing = true ∧
        c'.failure = callPath (p.closure?.toList.filterMap (Closure.shown? c)) c.failure := by
      cases hp : p.closure? with
      | none =>
        rw [hp] at hverdict
        exact ⟨(congrArg Verdict.failing hverdict).trans hfailing, congrArg Verdict.message hverdict⟩
      | some f =>
        rw [hp] at hverdict
        replace hverdict := hverdict.trans (Verdict.leaving_eq hfailing)
        exact ⟨congrArg Verdict.failing hverdict, congrArg Verdict.message hverdict⟩
    refine ⟨rfl, hmessage.1, hsymbols, p.closure?.toList, ?_, hmessage.2⟩
    rw [State.running_failed hfailing rfl, State.running_failed hmessage.1 rfl]
    show (p :: ps).filterMap Pending.closure? = p.closure?.toList ++ ps.filterMap Pending.closure?
    cases hp : p.closure? with
    | none => rw [List.filterMap_cons_none hp]; rfl
    | some f => rw [List.filterMap_cons_some hp]; rfl

/-- **The steps after a failure** end the functions that are running, from the inside out. -/
theorem Reaches.failed (hfailing : σ.context.failing = true) (hnil : σ.task = .give .nil)
    (hreach : Reaches host σ ρ) : ρ.task = .give .nil ∧ ρ.context.failing = true ∧
      ρ.context.symbols = σ.context.symbols ∧ ∃ ended, σ.running = ended ++ ρ.running ∧
        ρ.context.failure =
          callPath (ended.filterMap (Closure.shown? σ.context)) σ.context.failure := by
  induction hreach with
  | refl => exact ⟨hnil, hfailing, rfl, [], rfl, rfl⟩
  | @tail ρ ρ' _ hs ih =>
    obtain ⟨htask, hρ, hsymbols, ended, hrunning, hmessage⟩ := ih
    obtain ⟨htask', hρ', hsymbols', ended', hrunning', hmessage'⟩ := hs.failed hρ htask
    refine ⟨htask', hρ', hsymbols'.trans hsymbols, ended ++ ended', ?_, ?_⟩
    · rw [hrunning, hrunning', List.append_assoc]
    · rw [hmessage', hmessage, Closure.shown?_congr hsymbols, List.filterMap_append]
      exact List.foldl_append.symm

/-- **The step that fails**: it may end a call of its own. -/
theorem Step.fails (hcandid : host.Candid) (hs : Step host σ σ')
    (hbefore : σ.context.failing = false) (hafter : σ'.context.failing = true) :
    ∃ message ended, Raises message (σ.action host) σ.context ∧ σ.running = ended ++ σ'.bodies ∧
      σ'.context.failure =
        callPath (ended.filterMap (Closure.shown? σ'.context)) (Text.clip failureCap message) := by
  obtain ⟨v, hsaid, hsettles⟩ := hs.settles hcandid
  obtain ⟨hv, -⟩ := hsettles.passes (.step hs) hafter
  cases hsaid with
  | silent =>
    rw [show σ.context.verdict.failing = false from hbefore] at hv
    cases hv
  | cleared => cases hv
  | @raised message h =>
    cases hsettles with
    | stays hrunning hverdict hbodies =>
      refine ⟨message, [], h, hrunning.trans hbodies.symm, ?_⟩
      exact congrArg Verdict.message hverdict
    | @leaves f around hrunning hverdict hbodies =>
      refine ⟨message, [f], h, ?_, ?_⟩
      · rw [hrunning, hbodies hafter]
        rfl
      · exact congrArg Verdict.message (hverdict.trans (Verdict.leaving_eq rfl))

/-- **The call path of a failure.** From the step that fails on, the message is the text of the failure,
    and in front of it the lines of the functions that are over by then, the innermost next to the text,
    of each that fits. Where names do not get shorter on the way out, these are the innermost ones,
    without gaps. -/
theorem call_path (hcandid : host.Candid) (hheeds : host.Heeds) (hs : Step host σ σ')
    (hbefore : σ.context.failing = false) (hafter : σ'.context.failing = true)
    (hreach : Reaches host σ' ρ) :
    ∃ message ended names, Raises message (σ.action host) σ.context ∧
      σ.running = ended ++ ρ.running ∧ names = ended.filterMap (Closure.shown? ρ.context) ∧
      ρ.context.failure = callPath names (Text.clip failureCap message) ∧
      (names.Pairwise (fun inner outer => inner.utf8ByteSize ≤ outer.utf8ByteSize) →
        ∃ k, ρ.context.failure = fullPath (names.take k) (Text.clip failureCap message)) := by
  obtain ⟨message, ended, hraises, hrunning, hmessage⟩ := hs.fails hcandid hbefore hafter
  obtain ⟨next, haction, htask⟩ := hs.action
  obtain ⟨_, _, _, hgives⟩ := (σ.breaks hheeds).breaks hbefore haction hafter
  have hnil : σ'.task = .give .nil := htask.trans hgives
  obtain ⟨-, -, hsymbols, ended', hrunning', hmessage'⟩ := Reaches.failed hafter hnil hreach
  have hpath : ρ.context.failure = callPath ((ended ++ ended').filterMap (Closure.shown? ρ.context))
      (Text.clip failureCap message) := by
    rw [hmessage', hmessage, Closure.shown?_congr hsymbols, List.filterMap_append]
    exact List.foldl_append.symm
  refine ⟨message, ended ++ ended', _, hraises, ?_, rfl, hpath, fun hnames => ?_⟩
  · rw [hrunning, ← State.running_failed hafter hnil, hrunning', List.append_assoc]
  · rw [hpath]
    exact exists_callPath_eq hnames

end Machine

/-- A symbol that is bound to nothing is evaluated in the body of a function `f`. -/
def Machine.State.stumbling : State where
  context := { Context.within with symbols := { names := #["f", "x"], slots := #[] } }
  task := .eval .nil (.sym 1) false
  pending := [.body ⟨⟨.nil, .nil, .nil, .sym 0⟩, 0, .nil⟩ .nil .nil]

/-- The function is over, and leaves its line. -/
theorem Machine.call_path_stumbling : ∃ σ' ρ message ended names,
    Step Host.none State.stumbling σ' ∧ State.stumbling.context.failing = false ∧
      σ'.context.failing = true ∧ Reaches Host.none σ' ρ ∧ ρ.pending = [] ∧
      ρ.context.failure = "In f:\nNot defined: 'x'" ∧
      Raises message (State.stumbling.action Host.none) State.stumbling.context ∧
      State.stumbling.running = ended ++ ρ.running ∧
      names = ended.filterMap (Closure.shown? ρ.context) ∧
      ρ.context.failure = callPath names (Text.clip failureCap message) ∧
      (names.Pairwise (fun inner outer => inner.utf8ByteSize ≤ outer.utf8ByteSize) →
        ∃ k, ρ.context.failure = fullPath (names.take k) (Text.clip failureCap message)) := by
  have hcandid : Host.none.Candid := ⟨fun _ _ => .failNext _, fun _ _ _ _ => .failNext _⟩
  have hfails : Step Host.none State.stumbling _ := .work nofun rfl
  obtain ⟨message, ended, names, h⟩ :=
    call_path hcandid Host.heeds_none hfails rfl rfl (.single (.resume rfl))
  exact ⟨_, _, message, ended, names, hfails, rfl, rfl, .single (.resume rfl), rfl,
    rfl, h⟩

/-- A small context in which functions can be defined. -/
def Probe.defining : Run Unit := do
  let env ← Heap.cons .nil .nil
  Heap.pin env
  modify fun c => { c with rootEnv := env }
  defineForm StandardForm.define.name (.standard .define)

/-- The message that a text ends in, in such a context. -/
def Probe.message? (text : List Char) : Option String :=
  match Heap.create { chunkCells := 64 }, SymbolTable.create 16 with
  | .ok heap, .ok symbols =>
    match (do defining; Machine.run Host.none 64 (.exec text false) [] : Run Value)
        (bare heap symbols 6) with
    | .ok _ c => some c.failure
    | .error _ _ => none
  | _, _ => none

/-- A name whose line is one byte too long for the message `Not defined: 'x'`. -/
def Probe.lengthy : List Char := List.replicate 236 'g'

/-- **A path with a gap**: the function with that name fails inside of `f`. It is left out, and `f`, the
    one further out, is not. -/
theorem Probe.path_with_gap :
    message? ("(define (".toList ++ lengthy ++ ") x) (define (f) (".toList ++ lengthy ++
        ")) (f)".toList) = some "In f:\nNot defined: 'x'" ∧
      ¬ ∃ k, "In f:\nNot defined: 'x'" =
        fullPath ([String.ofList lengthy, "f"].take k) "Not defined: 'x'" := by
  refine ⟨by decide +kernel, ?_⟩
  rintro ⟨k, hk⟩
  rcases k with _ | _ | k
  · revert hk
    decide +kernel
  · revert hk
    decide +kernel
  · revert hk
    rw [List.take_of_length_le (by simp)]
    decide +kernel

/-- With short names there is no gap. -/
example : callPath ["g", "f"] "Not defined: 'x'" = fullPath ["g", "f"] "Not defined: 'x'" := by decide +kernel

end LispMachine
