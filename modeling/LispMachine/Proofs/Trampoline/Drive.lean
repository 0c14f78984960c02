import LispMachine.Machine.Run
import LispMachine.Proofs.Action

/-!
# An evaluator that starts every call

The machine hands the arguments of a self tail call back to the call that is under way. A plain
evaluator starts a call of its own instead:

* `Pending.resumeBy` -- a step that waits goes on, with the trampoline or without it;
* `Machine.advance`, `Machine.drive` -- a step and a run of either kind. With the trampoline it is
  `Machine.run` (`drive_true`).
-/

namespace LispMachine

/-- Goes on with the value that has come back. Without the trampoline, no form is taken for a self
    tail call. -/
def Pending.resumeBy (host : Host) (trampoline : Bool) (v : Value) : Pending → Run Next
  | .call tail => Machine.resumeCall host (tail && trampoline) v
  | p => p.resume host v

theorem Pending.resumeBy_true (host : Host) (v : Value) (p : Pending) :
    p.resumeBy host true v = p.resume host v := by
  cases p with
  | call tail => rw [resumeBy, resume, Bool.and_true]
  | _ => rfl

namespace Machine

variable {host : Host} {trampoline : Bool} {budget : Nat} {v : Value} {p : Pending}
variable {task : Task} {ps : List Pending}

/-- Resumes the innermost of the steps that wait with the value that has come back, or does the task
    at hand. -/
def advance (host : Host) (trampoline : Bool) (task : Task) (ps : List Pending) : Run Next :=
  match task, ps with
  | .give v, p :: ps => do
    let next ← p.resumeBy host trampoline v
    pure { next with pending := next.pending ++ ps }
  | task, ps => do
    let next ← task.step host
    pure { next with pending := next.pending ++ ps }

/-- **A run with the trampoline or without it**, in at most `budget` steps. -/
def drive (host : Host) (trampoline : Bool) (budget : Nat) (task : Task) (ps : List Pending) :
    Run Value :=
  match budget with
  | 0 => throw .outOfSteps
  | budget + 1 =>
    match task, ps with
    | .give v, [] => pure v
    | task, ps => do
      let next ← advance host trampoline task ps
      drive host trampoline budget next.task next.pending

theorem advance_resume : advance host trampoline (.give v) (p :: ps) =
    (do
      let next ← p.resumeBy host trampoline v
      pure { next with pending := next.pending ++ ps }) := rfl

/-- There is something to do as long as a step waits or the task is no value. -/
def Unfinished (task : Task) (ps : List Pending) : Prop := ps ≠ [] ∨ ∀ v, task ≠ .give v

theorem unfinished_or (task : Task) (ps : List Pending) :
    Unfinished task ps ∨ ∃ v, task = .give v ∧ ps = [] := by
  cases task with
  | give v =>
    cases ps with
    | nil => exact .inr ⟨v, rfl, rfl⟩
    | cons p ps => exact .inl (.inl (List.cons_ne_nil p ps))
  | _ => exact .inl (.inr nofun)

theorem drive_succ (h : Unfinished task ps) : drive host trampoline (budget + 1) task ps =
    (do
      let next ← advance host trampoline task ps
      drive host trampoline budget next.task next.pending) := by
  cases task with
  | give v =>
    cases ps with
    | nil => exact absurd rfl (h.elim (fun h => absurd rfl h) fun h => h v)
    | cons p ps => rfl
  | _ => rfl

/-- **The machine has the trampoline.** -/
theorem drive_true (host : Host) (budget : Nat) (task : Task) (ps : List Pending) :
    drive host true budget task ps = run host budget task ps := by
  induction budget generalizing task ps with
  | zero => rfl
  | succ budget ih =>
    have hrest : ∀ (x : Run Next) (ps : List Pending),
        (do
          let next ← x >>= fun next => pure { next with pending := next.pending ++ ps }
          drive host true budget next.task next.pending) =
        (do
          let next ← x
          run host budget next.task (next.pending ++ ps)) := fun x ps => by
      rw [bind_assoc]
      refine congrArg _ (funext fun next => ?_)
      rw [pure_bind]
      exact ih _ _
    cases task with
    | give v =>
      cases ps with
      | nil => rfl
      | cons p ps =>
        rw [drive_succ (.inl (List.cons_ne_nil p ps)), advance_resume, Pending.resumeBy_true]
        exact hrest _ ps
    | eval env expr tail => exact hrest _ ps
    | evalList env list => exact hrest _ ps
    | apply func args => exact hrest _ ps
    | exec source echo => exact hrest _ ps

end Machine

end LispMachine
