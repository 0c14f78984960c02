import LispMachine.Proofs.Balance.Evaluation
import LispMachine.Proofs.Trampoline.Drive

/-!
# The course of a run

Both evaluators go step by step, each in the one way there is:

* `Machine.Moves` -- a step of either evaluator;
* `Machine.State.drive`, `Machine.Comes` -- a run from a state, and the end it comes to;
* `Machine.Unhindered` -- **a run that neither reaches the limit of depth nor exhausts the heap**, however
  far it is followed;
* `Machine.exists_drive_of_moves`, `Machine.Comes.of_moves` -- a run may be cut at any state that it goes
  through.
-/

namespace LispMachine.Machine

open Relation

variable {host : Host} {trampoline : Bool} {budget : Nat} {σ σ' : State} {v : Value}
variable {c c' d : Context} {task : Task} {ps : List Pending}

/-! ## 1. Steps -/

/-- A step of either evaluator. -/
inductive Moves (host : Host) (trampoline : Bool) : State → State → Prop where
  | step {c c' : Context} {task : Task} {ps : List Pending} {next : Next}
      (hgo : Unfinished task ps) (h : advance host trampoline task ps c = .ok next c') :
      Moves host trampoline ⟨c, task, ps⟩ ⟨c', next.task, next.pending⟩

/-- The innermost of the steps that wait goes on. -/
theorem Moves.resume {p : Pending} {next : Next} (h : p.resumeBy host trampoline v c = .ok next c') :
    Moves host trampoline ⟨c, .give v, p :: ps⟩ ⟨c', next.task, next.pending ++ ps⟩ := by
  refine @Moves.step host trampoline c c' (.give v) (p :: ps)
    { next with pending := next.pending ++ ps } (.inl (List.cons_ne_nil p ps)) ?_
  rw [advance_resume, run_bind h]
  rfl

theorem advance_resume_error {p : Pending} {e : Fault}
    (h : p.resumeBy host trampoline v c = .error e c') :
    advance host trampoline (.give v) (p :: ps) c = .error e c' := by
  rw [advance_resume, run_bind_error h]

/-- A step that waits hands a value on. -/
theorem Moves.give {p : Pending} {u : Value} (h : p.resumeBy host trampoline v c = .ok (.give u) c') :
    Moves host trampoline ⟨c, .give v, p :: ps⟩ ⟨c', .give u, ps⟩ :=
  .resume h

/-- A run from a state. -/
def State.drive (host : Host) (trampoline : Bool) (budget : Nat) (σ : State) :
    EStateM.Result Fault Context Value :=
  Machine.drive host trampoline budget σ.task σ.pending σ.context

theorem State.drive_zero (σ : State) :
    σ.drive host trampoline 0 = .error .outOfSteps σ.context := rfl

/-- A step takes one of the budget. -/
theorem Moves.drive_succ (h : Moves host trampoline σ σ') :
    σ.drive host trampoline (budget + 1) = σ'.drive host trampoline budget := by
  obtain ⟨hgo, hrun⟩ := h
  unfold State.drive
  rw [Machine.drive_succ hgo, run_bind hrun]

/-- A step may fault. -/
theorem drive_fault {e : Fault} (hgo : Unfinished task ps)
    (hrun : advance host trampoline task ps c = .error e c') :
    State.drive host trampoline (budget + 1) ⟨c, task, ps⟩ = .error e c' := by
  unfold State.drive
  rw [Machine.drive_succ hgo, run_bind_error hrun]

/-! ## 2. The end of a run -/

/-- The run from a state comes to an end, with a value and a context. -/
def Comes (host : Host) (trampoline : Bool) (σ : State) (v : Value) (c : Context) : Prop :=
  ∃ budget, σ.drive host trampoline budget = .ok v c

theorem comes_finished (v : Value) (c : Context) : Comes host trampoline ⟨c, .give v, []⟩ v c := ⟨1, rfl⟩

theorem Comes.of_move (hmove : Moves host trampoline σ σ') (h : Comes host trampoline σ' v d) :
    Comes host trampoline σ v d := by
  obtain ⟨budget, hrun⟩ := h
  exact ⟨budget + 1, hmove.drive_succ.trans hrun⟩

theorem Comes.of_moves (hmoves : ReflTransGen (Moves host trampoline) σ σ')
    (h : Comes host trampoline σ' v d) : Comes host trampoline σ v d := by
  induction hmoves using ReflTransGen.head_induction_on with
  | refl => exact h
  | head hmove _ ih => exact .of_move hmove ih

/-- A run that comes to an end goes on from the state after a step. -/
theorem exists_drive_of_move (hmove : Moves host trampoline σ σ')
    (hrun : σ.drive host trampoline budget = .ok v d) :
    ∃ rest, budget = rest + 1 ∧ σ'.drive host trampoline rest = .ok v d := by
  cases budget with
  | zero => cases hrun
  | succ rest => exact ⟨rest, rfl, hmove.drive_succ.symm.trans hrun⟩

/-- **A run that comes to an end goes on from every state on its way**, with less of the budget. -/
theorem exists_drive_of_moves (hmoves : TransGen (Moves host trampoline) σ σ')
    (hrun : σ.drive host trampoline budget = .ok v d) :
    ∃ rest < budget, σ'.drive host trampoline rest = .ok v d := by
  induction hmoves with
  | single hmove =>
    obtain ⟨rest, rfl, hrest⟩ := exists_drive_of_move hmove hrun
    exact ⟨rest, Nat.lt_succ_self rest, hrest⟩
  | tail _ hmove ih =>
    obtain ⟨rest, hlt, hrest⟩ := ih
    obtain ⟨rest', rfl, hrest'⟩ := exists_drive_of_move hmove hrest
    exact ⟨rest', Nat.lt_of_succ_lt hlt, hrest'⟩

theorem Comes.after (h : Comes host trampoline σ v d)
    (hmoves : ReflTransGen (Moves host trampoline) σ σ') : Comes host trampoline σ' v d := by
  rcases reflTransGen_iff_eq_or_transGen.mp hmoves with heq | hmoves
  · exact heq ▸ h
  · obtain ⟨budget, hrun⟩ := h
    obtain ⟨rest, -, hrest⟩ := exists_drive_of_moves hmoves hrun
    exact ⟨rest, hrest⟩

/-- Where there is nothing to do any more, the run is over. -/
theorem Comes.eq_of_finished {v' : Value} {d' : Context} (h : Comes host trampoline ⟨d', .give v', []⟩ v d) :
    v = v' ∧ d = d' := by
  obtain ⟨budget, hrun⟩ := h
  cases budget with
  | zero => cases hrun
  | succ budget =>
    cases hrun
    exact ⟨rfl, rfl⟩

/-- A run that faults comes to no end. -/
theorem not_comes_of_fault {e : Fault} (hgo : Unfinished task ps)
    (hfault : advance host trampoline task ps c = .error e c') :
    ¬ Comes host trampoline ⟨c, task, ps⟩ v d := by
  rintro ⟨budget, hrun⟩
  cases budget with
  | zero => cases hrun
  | succ budget =>
    rw [drive_fault hgo hfault] at hrun
    cases hrun

/-! ## 3. Limits -/

/-- A run, as far as it has gone, has not ended for want of cells, and there is room for one more
    evaluation. -/
inductive Spared : EStateM.Result Fault Context Value → Prop where
  | ok {v : Value} {c : Context} (hdepth : c.depth < c.maxDepth) : Spared (.ok v c)
  | error {e : Fault} {c : Context} (hdepth : c.depth < c.maxDepth) (he : e ≠ .heapExhausted) :
      Spared (.error e c)

/-- **A run that neither reaches the limit of depth nor exhausts the heap**, however many steps of it
    are taken. -/
def Unhindered (host : Host) (trampoline : Bool) (σ : State) : Prop :=
  ∀ budget, Spared (σ.drive host trampoline budget)

namespace Unhindered

theorem room (h : Unhindered host trampoline σ) : σ.context.depth < σ.context.maxDepth := by
  have h₀ := h 0
  rw [State.drive_zero] at h₀
  cases h₀ with
  | error hdepth _ => exact hdepth

theorem move (h : Unhindered host trampoline σ) (hmove : Moves host trampoline σ σ') :
    Unhindered host trampoline σ' := fun budget => by
  rw [← hmove.drive_succ]
  exact h (budget + 1)

theorem moves (h : Unhindered host trampoline σ)
    (hmoves : ReflTransGen (Moves host trampoline) σ σ') : Unhindered host trampoline σ' := by
  induction hmoves with
  | refl => exact h
  | tail _ hmove ih => exact ih.move hmove

/-- No cell is wanting. -/
theorem fault_ne {e : Fault} (h : Unhindered host trampoline ⟨c, task, ps⟩) (hgo : Unfinished task ps)
    (hrun : advance host trampoline task ps c = .error e c') : e ≠ .heapExhausted := by
  have h₁ := h 1
  rw [drive_fault hgo hrun] at h₁
  cases h₁ with
  | error _ he => exact he

/-- Where there is nothing to do any more, nothing is wanting. -/
theorem finished (hroom : c.depth < c.maxDepth) : Unhindered host trampoline ⟨c, .give v, []⟩
  | 0 => .error hroom nofun
  | _ + 1 => .ok hroom

theorem of_move (hroom : σ.context.depth < σ.context.maxDepth) (hmove : Moves host trampoline σ σ')
    (h : Unhindered host trampoline σ') : Unhindered host trampoline σ
  | 0 => .error hroom nofun
  | budget + 1 => hmove.drive_succ ▸ h budget

end Unhindered

/-- A run that is over within a budget, and at each of its steps there is room for one more evaluation. -/
def State.endsFreely (host : Host) (trampoline : Bool) : Nat → State → Bool
  | 0, _ => false
  | budget + 1, ⟨c, task, ps⟩ =>
    decide (c.depth < c.maxDepth) &&
      match task, ps with
      | .give _, [] => true
      | task, ps =>
        match advance host trampoline task ps c with
        | .ok next c' => endsFreely host trampoline budget ⟨c', next.task, next.pending⟩
        | .error _ _ => false

theorem State.endsFreely_succ (hgo : Unfinished task ps) :
    State.endsFreely host trampoline (budget + 1) ⟨c, task, ps⟩ =
      (decide (c.depth < c.maxDepth) &&
        match advance host trampoline task ps c with
        | .ok next c' => State.endsFreely host trampoline budget ⟨c', next.task, next.pending⟩
        | .error _ _ => false) := by
  cases task with
  | give v =>
    cases ps with
    | nil => exact absurd rfl (hgo.elim (fun h => absurd rfl h) fun h => h v)
    | cons p ps => rfl
  | _ => rfl

/-- **Such a run is unhindered**, and comes to an end. -/
theorem unhindered_of_endsFreely (h : σ.endsFreely host trampoline budget = true) :
    Unhindered host trampoline σ ∧ ∃ v d, Comes host trampoline σ v d := by
  induction budget generalizing σ with
  | zero => cases h
  | succ budget ih =>
    obtain ⟨c, task, ps⟩ := σ
    rcases unfinished_or task ps with hgo | ⟨v, rfl, rfl⟩
    · rw [State.endsFreely_succ hgo, Bool.and_eq_true, decide_eq_true_eq] at h
      obtain ⟨hroom, h⟩ := h
      cases hrun : advance host trampoline task ps c with
      | ok next c' =>
        rw [hrun] at h
        obtain ⟨hclear, v, d, hcomes⟩ := ih h
        exact ⟨.of_move hroom (.step hgo hrun) hclear, v, d, hcomes.of_move (.step hgo hrun)⟩
      | error e c' =>
        rw [hrun] at h
        cases h
    · rw [State.endsFreely, Bool.and_eq_true, decide_eq_true_eq] at h
      exact ⟨.finished h.1, v, c, comes_finished v c⟩

end LispMachine.Machine
