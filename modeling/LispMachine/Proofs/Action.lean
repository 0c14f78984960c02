import LispMachine.Fault

/-!
# Running actions

How an action on a state that may end in a fault is taken apart: `run_bind` and `run_bind_error` go
forward through a sequence, `bind_eq_ok` goes backward from its result. `endsWith` looks at the end
of an action that can be run.
-/

namespace LispMachine

variable {σ α β : Type}

theorem run_observe (f : σ → α) (s : σ) : observe f s = .ok (f s) s := rfl

theorem run_modify (f : σ → σ) (s : σ) :
    (modify f : EStateM Fault σ Unit) s = .ok () (f s) := rfl

theorem run_modifyGet (f : σ → α × σ) (s : σ) :
    (modifyGet f : EStateM Fault σ α) s = .ok (f s).1 (f s).2 := rfl

theorem run_ite {p : Prop} [Decidable p] (x y : EStateM Fault σ α) (s : σ) :
    (if p then x else y) s = if p then x s else y s := by
  split <;> rfl

/-- An action that goes on after another. -/
theorem run_bind {x : EStateM Fault σ α} {f : α → EStateM Fault σ β} {s s' : σ} {a : α}
    (hx : x s = .ok a s') : (x >>= f) s = f a s' := by
  show EStateM.bind x f s = _
  rw [EStateM.bind, hx]

/-- An action that does not go on after another. -/
theorem run_bind_error {x : EStateM Fault σ α} {f : α → EStateM Fault σ β} {s s' : σ} {e : Fault}
    (hx : x s = .error e s') : (x >>= f) s = .error e s' := by
  show EStateM.bind x f s = _
  rw [EStateM.bind, hx]

/-- Actions do the same if they go on alike after what they have in common. -/
theorem run_bind_congr {x : EStateM Fault σ α} {f g : α → EStateM Fault σ β} {s : σ}
    (h : ∀ a s', x s = .ok a s' → f a s' = g a s') : (x >>= f) s = (x >>= g) s := by
  cases hx : x s with
  | ok a s' => rw [run_bind hx, run_bind hx, h a s' hx]
  | error e s' => rw [run_bind_error hx, run_bind_error hx]

/-- The same if they begin alike. -/
theorem run_bind_congr_left {x y : EStateM Fault σ α} {f : α → EStateM Fault σ β} {s s' : σ}
    (h : x s = y s') : (x >>= f) s = (y >>= f) s' := by
  show EStateM.bind x f s = EStateM.bind y f s'
  rw [EStateM.bind, EStateM.bind, h]

theorem run_ite_congr {p : Prop} [Decidable p] {x x' y y' : EStateM Fault σ α} {s : σ}
    (hx : p → x s = x' s) (hy : ¬ p → y s = y' s) :
    (if p then x else y) s = (if p then x' else y') s := by
  split
  · exact hx ‹_›
  · exact hy ‹_›

/-- What comes to an end has come to an end twice. -/
theorem bind_eq_ok {x : EStateM Fault σ α} {f : α → EStateM Fault σ β} {s s'' : σ} {b : β} :
    (x >>= f) s = .ok b s'' ↔ ∃ a s', x s = .ok a s' ∧ f a s' = .ok b s'' := by
  show EStateM.bind x f s = _ ↔ _
  rw [EStateM.bind]
  cases x s with
  | ok a s' =>
    constructor
    · exact fun hf => ⟨a, s', rfl, hf⟩
    · rintro ⟨_, _, hx, hf⟩
      cases hx
      exact hf
  | error e s' =>
    refine iff_of_false (fun hf => by cases hf) ?_
    rintro ⟨_, _, hx, _⟩
    cases hx

/-- Whether an action comes to an end with a property. -/
def endsWith (x : EStateM Fault σ α) (s : σ) (p : α → σ → Bool) : Bool :=
  match x s with
  | .ok a s' => p a s'
  | .error _ _ => false

theorem exists_of_endsWith {x : EStateM Fault σ α} {s : σ} {p : α → σ → Bool}
    (h : endsWith x s p = true) : ∃ a s', x s = .ok a s' ∧ p a s' = true := by
  unfold endsWith at h
  split at h
  · rename_i a s' hrun
    exact ⟨a, s', hrun, h⟩
  · cases h

end LispMachine
