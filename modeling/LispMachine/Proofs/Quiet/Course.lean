import LispMachine.Proofs.Quiet.Effect
import LispMachine.Proofs.Trampoline.Course

/-!
# Runs that are given room

A run of the evaluator that starts every call may be given more cells and a higher limit of depth
between its steps, so that nothing is ever collected and no limit is reached:

* `Heap.exists_stocked_grown` -- with enough chunks there are as many cells in stock as one likes;
* `Context.roomy` -- a context with more chunks and a higher limit;
* `Machine.Glides` -- **a run that is given room**, with the number of its steps that are no mere return;
* `Machine.Lasts` -- a run that goes on for so many steps, or is stuck;
* `Machine.Meets` -- **two runs come to states that are related, or both of them last**. The rules are
  those of sequences, and of a step on either side.
-/

namespace LispMachine

/-! ## 1. Room -/

namespace Heap

variable {h : Heap} {a : Addr}

theorem getElem?_grown (ha : a < h.cells.size) : h.grown.cells[a]? = h.cells[a]? := getElem?_withChunk ha

theorem content_grown (hv : h.Valid) (a : Addr) : h.grown.content a = h.content a := by
  by_cases ha : a < h.cells.size
  · exact content_congr (getElem?_grown ha)
  · have hold : h.content a = none := by
      rw [content, Array.getElem?_eq_none (Nat.le_of_not_lt ha)]
      rfl
    rw [hold, content, Option.filter_eq_none_iff]
    intro x hx hallocated
    have hnew : h.grown.isAllocated a = true := isAllocated_iff.mpr ⟨x, hx, hallocated⟩
    rw [isAllocated_grown hv] at hnew
    exact ha (lt_size_of_isAllocated hnew)

theorem size_grown (h : Heap) : h.grown.cells.size = h.cells.size + h.chunkCells := by
  show (h.cells ++ freshCells h.capacity h.chunkCells).size = _
  rw [Array.size_append, size_freshCells]

theorem Kept.grown {n : Nat} (hk : Kept n h) : Kept n h.grown where
  valid := hk.valid.grown
  births := by
    rw [allocatedCount_congr (isAllocated_grown hk.valid)]
    exact hk.births

/-- What more chunks leave as it is. -/
theorem grown_iterate (hv : h.Valid) (n : Nat) :
    (Heap.grown^[n] h).Valid ∧ (∀ a, (Heap.grown^[n] h).content a = h.content a) ∧
      (Heap.grown^[n] h).roots = h.roots ∧ (Heap.grown^[n] h).types = h.types := by
  induction n with
  | zero => exact ⟨hv, fun _ => rfl, rfl, rfl⟩
  | succ n ih =>
    rw [Function.iterate_succ_apply']
    obtain ⟨hv', hcontent, hroots, htypes⟩ := ih
    exact ⟨hv'.grown, fun a => (content_grown hv' a).trans (hcontent a), hroots, htypes⟩

/-- **With enough chunks there are as many cells in stock as one likes.** -/
theorem exists_stocked_grown (hv : h.Valid) (k : Nat) : ∃ n, (Heap.grown^[n] h).Stocked k := by
  have hkept : ∀ n, Kept (h.allocatedCount + h.stats.totalFreed) (Heap.grown^[n] h) ∧
      h.cells.size + n ≤ (Heap.grown^[n] h).cells.size := by
    intro n
    induction n with
    | zero => exact ⟨⟨hv, rfl⟩, le_rfl⟩
    | succ n ih =>
      rw [Function.iterate_succ_apply', size_grown]
      have hpos := ih.1.valid.chunkCells_pos
      exact ⟨ih.1.grown, by omega⟩
  let n := h.allocatedCount + h.stats.totalFreed + k
  exact ⟨n, _, (hkept n).1, (Nat.le_add_left n _).trans (hkept n).2⟩

end Heap

namespace Context

/-- A context with more chunks and a higher limit of depth. -/
def roomy (n m : Nat) (c : Context) : Context :=
  { c with
    heap := Heap.grown^[n] c.heap
    maxDepth := c.maxDepth + m }

end Context

/-- The steps that count: a mere return is none. -/
def Task.weight : Task → Nat
  | give _ => 0
  | _ => 1

namespace Machine

/-! ## 2. Runs -/

/-- There is room for one more evaluation. -/
def State.HasRoom (σ : State) : Prop := σ.context.depth < σ.context.maxDepth

/-- **A run of the evaluator that starts every call, and is given room between its steps.** -/
inductive Glides : Nat → State → State → Prop where
  | refl (σ : State) : Glides 0 σ σ
  | room {n : Nat} {σ τ : State} (k m : Nat) (rest : Glides n ⟨σ.context.roomy k m, σ.task, σ.pending⟩ τ) :
      Glides n σ τ
  | move {n : Nat} {σ σ' τ : State} (hroom : σ.HasRoom) (hmove : Moves Host.none false σ σ')
      (rest : Glides n σ' τ) : Glides (n + σ.task.weight) σ τ

/-- A run is stuck, and not for want of room. -/
structure Stuck (σ : State) : Prop where
  room : σ.HasRoom
  unfinished : Unfinished σ.task σ.pending
  fault : ∃ e c, advance Host.none false σ.task σ.pending σ.context = .error e c ∧ e ≠ .heapExhausted

/-- **A run that goes on for `n` steps**, or is stuck. -/
def Lasts (n : Nat) (σ : State) : Prop := ∃ m τ, Glides m σ τ ∧ (n ≤ m ∨ Stuck τ)

/-- **Two runs come to states that are related, or both of them last.** -/
def Meets (n : Nat) (σ σ' : State) (P : State → State → Prop) : Prop :=
  (∃ m m' τ τ', Glides m σ τ ∧ Glides m' σ' τ' ∧ P τ τ') ∨ Lasts n σ ∧ Lasts n σ'

variable {σ σ' τ τ' υ : State} {m n k : Nat} {P Q : State → State → Prop}

theorem Glides.trans (h : Glides m σ τ) (h' : Glides n τ υ) : Glides (m + n) σ υ := by
  induction h with
  | refl => rwa [Nat.zero_add]
  | room k m _ ih => exact .room k m (ih h')
  | move hroom hmove _ ih =>
    rw [Nat.add_right_comm]
    exact .move hroom hmove (ih h')

theorem Lasts.of_glides (h : Glides m σ τ) (h' : Lasts n τ) : Lasts (m + n) σ := by
  obtain ⟨k, υ, hrest, hlasts⟩ := h'
  exact ⟨m + k, υ, h.trans hrest, hlasts.imp (Nat.add_le_add_left · m) id⟩

theorem Lasts.mono (h : Lasts n σ) (hmn : m ≤ n) : Lasts m σ := by
  obtain ⟨k, υ, hrest, hlasts⟩ := h
  exact ⟨k, υ, hrest, hlasts.imp hmn.trans id⟩

theorem Stuck.lasts (h : Stuck σ) (n : Nat) : Lasts n σ := ⟨0, σ, .refl σ, .inr h⟩

namespace Meets

theorem zero (σ σ' : State) (P : State → State → Prop) : Meets 0 σ σ' P :=
  .inr ⟨⟨0, σ, .refl σ, .inl le_rfl⟩, 0, σ', .refl σ', .inl le_rfl⟩

theorem done (h : P σ σ') : Meets n σ σ' P := .inl ⟨0, 0, σ, σ', .refl σ, .refl σ', h⟩

/-- **Sequences.** -/
theorem trans (h : Meets n σ σ' P) (hf : ∀ τ τ', P τ τ' → Meets n τ τ' Q) : Meets n σ σ' Q := by
  rcases h with ⟨m, m', τ, τ', hglide, hglide', hp⟩ | hlasts
  · rcases hf τ τ' hp with ⟨k, k', υ, υ', hrest, hrest', hq⟩ | ⟨hleft, hright⟩
    · exact .inl ⟨_, _, υ, υ', hglide.trans hrest, hglide'.trans hrest', hq⟩
    · exact .inr ⟨(hleft.of_glides hglide).mono (Nat.le_add_left n m),
        (hright.of_glides hglide').mono (Nat.le_add_left n m')⟩
  · exact .inr hlasts

theorem weaken (h : Meets n σ σ' P) (hpq : ∀ τ τ', P τ τ' → Q τ τ') : Meets n σ σ' Q :=
  h.trans fun τ τ' hp => .done (hpq τ τ' hp)

/-- Steps that each side goes on by. -/
theorem after {i j : Nat} (h : Glides i σ τ) (h' : Glides j σ' τ') (hij : m ≤ i ∧ m ≤ j)
    (hrest : Meets n τ τ' P) : Meets (m + n) σ σ' P := by
  rcases hrest with ⟨k, k', υ, υ', hrest, hrest', hp⟩ | ⟨hleft, hright⟩
  · exact .inl ⟨_, _, υ, υ', h.trans hrest, h'.trans hrest', hp⟩
  · exact .inr ⟨(hleft.of_glides h).mono (Nat.add_le_add_right hij.1 n),
      (hright.of_glides h').mono (Nat.add_le_add_right hij.2 n)⟩

/-- Only the left side goes on. -/
theorem left (h : Glides k σ τ) (hrest : Meets n τ σ' P) : Meets n σ σ' P := by
  rw [← Nat.zero_add n]
  exact after h (.refl σ') ⟨Nat.zero_le _, Nat.zero_le _⟩ hrest

/-- Only the right side goes on. -/
theorem right (h : Glides k σ' τ') (hrest : Meets n σ τ' P) : Meets n σ σ' P := by
  rw [← Nat.zero_add n]
  exact after (.refl σ) h ⟨Nat.zero_le _, Nat.zero_le _⟩ hrest

/-- Both are stuck. -/
theorem stuck (h : Glides k σ τ) (h' : Glides m σ' τ') (hs : Stuck τ) (hs' : Stuck τ') : Meets n σ σ' P :=
  .inr ⟨((hs.lasts n).of_glides h).mono (Nat.le_add_left n k),
    ((hs'.lasts n).of_glides h').mono (Nat.le_add_left n m)⟩

end Meets

end Machine

end LispMachine
