import LispMachine.Proofs.Recursion.Waiting

/-!
# A function that calls nothing but itself

* `Machine.State.trace` -- the states of a run, one after the other, by which the run is looked through;
* `Loop.Alone` -- **nothing but standard forms, natives other than `apply`, and self tail calls**;
* `Loop.Settled` -- what else flat recursion takes: the code stays as it is, and a native of the embedding
  program that is called does not go back into the evaluator.
-/

namespace LispMachine

namespace Machine

variable {host : Host} {σ σ' : State} {n : Nat}

/-! ## 1. The states of a run -/

/-- The state that follows, unless the run is over or ends in a fault. -/
def State.next? (host : Host) (σ : State) : Option State :=
  match σ.task, σ.pending with
  | .give _, [] => none
  | .give v, p :: ps =>
    match p.resume host v σ.context with
    | .ok next c => some ⟨c, next.task, next.pending ++ ps⟩
    | .error _ _ => none
  | task, ps =>
    match task.step host σ.context with
    | .ok next c => some ⟨c, next.task, next.pending ++ ps⟩
    | .error _ _ => none

/-- The first `n` states of a run, or all of them if there are fewer. -/
def State.trace (host : Host) : Nat → State → List State
  | 0, _ => []
  | n + 1, σ =>
    match σ.next? host with
    | some σ' => σ :: σ'.trace host n
    | none => [σ]

theorem Step.next? (hs : Step host σ σ') : σ.next? host = some σ' := by
  cases hs with
  | resume hrun =>
    simp only [State.next?]
    rw [hrun]
  | @work c c' task ps next htask hrun =>
    cases task with
    | give v => exact absurd rfl (htask v)
    | _ =>
      simp only [State.next?]
      rw [hrun]

theorem Step.of_next? (h : σ.next? host = some σ') : Step host σ σ' := by
  obtain ⟨c, task, ps⟩ := σ
  cases task with
  | give v =>
    cases ps with
    | nil => cases h
    | cons p ps =>
      simp only [State.next?] at h
      split at h
      · cases h
        exact .resume ‹_›
      · cases h
  | _ =>
    simp only [State.next?] at h
    split at h
    · cases h
      exact .work nofun ‹_›
    · cases h

theorem State.trace_succ : σ.trace host (n + 1) =
    match σ.next? host with
    | some σ' => σ :: σ'.trace host n
    | none => [σ] := rfl

theorem State.trace_cons (h : σ.next? host = some σ') : σ.trace host (n + 1) = σ :: σ'.trace host n := by
  rw [trace_succ, h]

theorem State.trace_last (h : σ.next? host = none) : σ.trace host (n + 1) = [σ] := by
  rw [trace_succ, h]

theorem State.mem_trace_self : σ ∈ σ.trace host (n + 1) := by
  cases hnext : σ.next? host with
  | none => exact trace_last hnext ▸ List.mem_cons_self
  | some ρ => exact trace_cons hnext ▸ List.mem_cons_self

/-- **A run of fewer than `n` states goes through these only.** -/
theorem Reaches.mem_trace (hreach : Reaches host σ σ') (hn : (σ.trace host n).length < n) :
    σ' ∈ σ.trace host n := by
  induction n generalizing σ with
  | zero => cases hn
  | succ n ih =>
    rcases hreach.cases_head with rfl | ⟨ρ, hs, hlater⟩
    · exact State.mem_trace_self
    · rw [State.trace_cons hs.next?] at hn ⊢
      exact List.mem_cons_of_mem _ (ih hlater (Nat.lt_of_succ_lt_succ hn))

/-- **It goes through each of them.** -/
theorem Reaches.of_mem_trace (h : σ' ∈ σ.trace host n) : Reaches host σ σ' := by
  induction n generalizing σ with
  | zero => cases h
  | succ n ih =>
    cases hnext : σ.next? host with
    | some ρ =>
      rw [State.trace_cons hnext] at h
      rcases List.mem_cons.mp h with rfl | h
      · exact .refl
      · exact .head (.of_next? hnext) (ih h)
    | none =>
      rw [State.trace_last hnext] at h
      cases List.mem_singleton.mp h
      exact .refl

end Machine

open Machine

/-! ## 2. What is called -/

/-- An action that gives a value and leaves the evaluator as it stands, but for more roots. -/
structure Run.Returns (x : Run Next) : Prop where
  yields : ∀ {n : Nat} {κ : Context.Registers} {c : Context}, Stance #[] n κ c →
    Yields x c fun next c' => next.Gives ∧ ∃ m, n ≤ m ∧ Stance #[] m κ c'

theorem Idle.returns {x : Run Next} (hx : Idle x Next.Gives) : Run.Returns x where
  yields hc := (hx.yields hc).weaken fun _ _ h => ⟨h.2, _, Nat.le_refl _, h.1⟩

/-- A procedure that does not go back into the evaluator. -/
def Procedure.Returns (host : Host) : Procedure → Prop
  | .primitive p => p ≠ .apply
  | .hosted _ _ entry => ∀ args, Run.Returns (host.procedure entry args)

theorem Procedure.Returns.run {host : Host} {p : Procedure} (hp : p.Returns host) (args : List Value) :
    Run.Returns (runProcedure host p args) := by
  cases p with
  | primitive p => exact (Idle.primitive_gives args hp).returns
  | hosted name arity entry => exact hp args

namespace Loop

variable {l : Loop} {σ : State} {host : Host}

/-- **The function calls nothing but itself**: as far as this state goes, only standard forms are entered,
    and what a form calls is the function itself, in tail position, or a native other than `apply`. -/
structure Alone (l : Loop) (σ : State) : Prop where
  form : ∀ env expr tail entry, σ.task = .eval env expr tail →
    specialForm? σ.context expr ≠ some (.hosted entry)
  function : ∀ form tail ps, σ.task = .give form → σ.pending = .call tail :: ps → σ.context.failing = false →
    σ.context.heap.typeOf (σ.context.heap.car form) = CoreType.func.id →
      σ.context.heap.car form = l.func ∧ tail = true
  native : ∀ form tail ps, σ.task = .give form → σ.pending = .call tail :: ps → σ.context.failing = false →
    σ.context.heap.procedure? (σ.context.heap.car form) ≠ some (.primitive .apply)

/-- **What else it takes**: the code is what it was, and a native of the embedding program that is called
    does not go back into the evaluator. -/
structure Settled (l : Loop) (host : Host) (σ : State) : Prop where
  code : l.Stays σ.context
  native : ∀ form tail ps name arity entry, σ.task = .give form → σ.pending = .call tail :: ps →
    σ.context.failing = false →
      σ.context.heap.procedure? (σ.context.heap.car form) = some (.hosted name arity entry) →
        (Procedure.hosted name arity entry).Returns host

/-- Looks at one state. -/
def isAlone (l : Loop) (σ : State) : Bool :=
  match σ.task, σ.pending with
  | .eval _ expr _, _ =>
    match specialForm? σ.context expr with
    | some (.hosted _) => false
    | _ => true
  | .give form, .call tail :: _ =>
    let callee := σ.context.heap.car form
    decide (σ.context.heap.typeOf callee = CoreType.func.id → callee = l.func ∧ tail = true) &&
      decide (σ.context.heap.procedure? callee ≠ some (.primitive .apply))
  | _, _ => true

theorem alone_of_isAlone (h : l.isAlone σ = true) : l.Alone σ := by
  obtain ⟨c, task, ps⟩ := σ
  refine ⟨fun env expr tail entry htask hform => ?_, fun form tail qs htask hps _ => ?_,
    fun form tail qs htask hps _ => ?_⟩
  · cases htask
    dsimp only at hform
    simp only [isAlone, hform] at h
    cases h
  · cases htask
    cases hps
    exact of_decide_eq_true (Bool.and_eq_true_iff.mp h).1
  · cases htask
    cases hps
    exact of_decide_eq_true (Bool.and_eq_true_iff.mp h).2

/-- Looks at one state of a function that calls no native of the embedding program; the ways through its
    code go over at most `fuel` slots. -/
def isSettled (l : Loop) (fuel : Nat) (σ : State) : Bool :=
  l.start.heap.everyPair (fun _ a => σ.context.heap.car (.pair a) = l.start.heap.car (.pair a) ∧
      σ.context.heap.cdr (.pair a) = l.start.heap.cdr (.pair a)) fuel 0 l.closure.body &&
    decide (σ.context.forms = l.start.forms) &&
    match σ.task with
    | .give form =>
      match σ.context.heap.procedure? (σ.context.heap.car form) with
      | some (.hosted _ _ _) => false
      | _ => true
    | _ => true

theorem settled_of_isSettled {fuel : Nat} (h : l.isSettled fuel σ = true) : l.Settled host σ := by
  obtain ⟨c, task, ps⟩ := σ
  rw [isSettled, Bool.and_eq_true, Bool.and_eq_true] at h
  obtain ⟨⟨hcode, hforms⟩, hnative⟩ := h
  refine ⟨.of_everyPair (of_decide_eq_true hforms) hcode, fun form tail qs name arity entry htask _ _ hp => ?_⟩
  cases htask
  dsimp only at hp hnative
  rw [hp] at hnative
  cases hnative

end Loop

end LispMachine
