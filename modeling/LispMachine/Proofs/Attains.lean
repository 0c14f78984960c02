import LispMachine.Context
import LispMachine.Proofs.Action

/-!
# Actions that come to an end

* `Attains` -- an action comes to an end with a property, unless the heap is exhausted;
* `Attains.bind` -- one action after another;
* `Attains.look_bind` -- one action after something has been read from the heap.
-/

namespace LispMachine

open Context

/-- **The action comes to an end with the property**, unless the heap is exhausted. -/
def Attains {α : Type} (x : Run α) (c : Context) (Q : α → Context → Prop) : Prop :=
  match x c with
  | .ok a c' => Q a c'
  | .error e _ => e = .heapExhausted

theorem run_look {α : Type} {g : Heap → α} {x : α} {c : Context} (hread : g c.heap = x) :
    look g c = .ok x c := by
  rw [← hread]
  rfl

namespace Attains

variable {α β : Type} {x : Run α} {f : α → Run β} {c : Context} {P Q : α → Context → Prop}
variable {R : β → Context → Prop}

theorem of_ok {a : α} {c' : Context} (hrun : x c = .ok a c') (hq : Q a c') : Attains x c Q := by
  rw [Attains, hrun]
  exact hq

theorem of_exhausted {c' : Context} (hrun : x c = .error .heapExhausted c') : Attains x c Q := by
  rw [Attains, hrun]

theorem pure {a : α} (hq : Q a c) : Attains (Pure.pure a) c Q := hq

theorem bind (hx : Attains x c P) (hf : ∀ a c', P a c' → Attains (f a) c' R) :
    Attains (x >>= f) c R := by
  unfold Attains at hx
  cases hrun : x c with
  | ok a c' =>
    rw [hrun] at hx
    rw [Attains, run_bind hrun]
    exact hf a c' hx
  | error e c' =>
    rw [hrun] at hx
    rw [Attains, run_bind_error hrun]
    exact hx

theorem weaken (hx : Attains x c P) (h : ∀ a c', P a c' → Q a c') : Attains x c Q := by
  unfold Attains at hx ⊢
  cases hrun : x c with
  | ok a c' =>
    rw [hrun] at hx
    exact h a c' hx
  | error e c' =>
    rw [hrun] at hx
    exact hx

/-- What an action that comes to an end has attained. -/
theorem ok {a : α} {c' : Context} (hx : Attains x c Q) (hrun : x c = .ok a c') : Q a c' := by
  rw [Attains, hrun] at hx
  exact hx

/-- An action that comes to an end, and one after it. -/
theorem after {a : α} {c' : Context} (hrun : x c = .ok a c') (hf : Attains (f a) c' R) :
    Attains (x >>= f) c R := by
  rwa [Attains, run_bind hrun]

theorem look_bind {γ : Type} {g : Heap → γ} {k : γ → Run β} {x : γ} (hread : g c.heap = x)
    (hk : Attains (k x) c R) : Attains (look g >>= k) c R :=
  after (run_look hread) hk

/-- The same action, begun elsewhere. -/
theorem congr {y : Run α} {d : Context} (hrun : x c = y d) (hy : Attains y d Q) : Attains x c Q := by
  rwa [Attains, hrun]

/-- Two properties that are attained. -/
theorem and (hp : Attains x c P) (hq : Attains x c Q) : Attains x c fun a c' => P a c' ∧ Q a c' := by
  unfold Attains at hp hq ⊢
  cases hrun : x c with
  | ok a c' =>
    rw [hrun] at hp hq
    exact ⟨hp, hq⟩
  | error e c' =>
    rw [hrun] at hp
    exact hp

theorem lift_ok {α : Type} {g : HeapM α} {x : α} {h : Heap} {Q : α → Context → Prop}
    (hrun : g c.heap = .ok x h) (hq : Q x { c with heap := h }) : Attains (liftM g : Run α) c Q := by
  refine of_ok ?_ hq
  show onHeap g c = _
  rw [onHeap, hrun]

/-- An action on the heap that comes to an end, and one after it. -/
theorem lift_bind {γ : Type} {g : HeapM γ} {k : γ → Run β} {x : γ} {h : Heap}
    (hrun : g c.heap = .ok x h) (hk : Attains (k x) { c with heap := h } R) :
    Attains (liftM g >>= k) c R :=
  bind (lift_ok (Q := fun y c' => y = x ∧ c' = { c with heap := h }) hrun ⟨rfl, rfl⟩)
    fun _ _ ⟨hy, hc⟩ => hy ▸ hc ▸ hk

theorem lift_exhausted {α : Type} {g : HeapM α} {h : Heap} {Q : α → Context → Prop}
    (hrun : g c.heap = .error .heapExhausted h) : Attains (liftM g : Run α) c Q := by
  have hfault : onHeap g c = .error .heapExhausted { c with heap := h } := by rw [onHeap, hrun]
  exact of_exhausted hfault

end Attains

end LispMachine
