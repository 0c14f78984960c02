import LispMachine.Spine
import Mathlib.Data.Finset.Card
import Mathlib.Data.Nat.Find
import Mathlib.Logic.Function.Iterate

/-!
# Walks over a heap

A walk goes from value to value, from pairs only. What it can tell of a heap with so many cells, it
can tell after so many steps:

* `Heap.distinct_of_first` -- before a walk meets the first value of some sort, it meets no value
  twice;
* `Heap.first_le`, `Heap.first_lt` -- so it meets the first one within as many steps as there are
  cells;
* `Heap.spineOnto_at`, `Heap.spineOnto_endless` -- a spine is the walk along rest slots;
* `Heap.searchAlong` -- what a walk finds first.
-/

namespace LispMachine.Heap

variable {next : Value → Value} {v : Value} {P : Value → Prop} {k n size : Nat}

/-! ## 1. The first value of a sort -/

/-- Before the first value without a property no value is met twice. -/
theorem distinct_of_first (hP : ∀ j, j < k → P (next^[j] v)) (hk : ¬ P (next^[k] v)) :
    ∀ i j, i < j → j ≤ k → next^[i] v ≠ next^[j] v := by
  intro i j hij hjk heq
  -- from there on the walk repeats itself, so that the value at `k` was met before
  have hback : next^[k] v = next^[(k - j) + i] v := by
    rw [Function.iterate_add_apply, heq, ← Function.iterate_add_apply, Nat.sub_add_cancel hjk]
  rw [hback] at hk
  exact hk (hP _ (by omega))

/-- Different pairs are no more than there are cells. -/
theorem le_of_distinct (hpair : ∀ j, j < k → ∃ a : Nat, a < size ∧ next^[j] v = .pair a)
    (hne : ∀ i j, i < j → j < k → next^[i] v ≠ next^[j] v) : k ≤ size := by
  choose! f hf using hpair
  have hmaps : Set.MapsTo f (Finset.range k) (Finset.range size) := by
    intro j hj
    rw [Finset.mem_coe, Finset.mem_range] at hj ⊢
    exact (hf j hj).1
  have hinj : Set.InjOn f (Finset.range k) := by
    intro i hi j hj hij
    rw [Finset.mem_coe, Finset.mem_range] at hi hj
    have heq : next^[i] v = next^[j] v := by rw [(hf i hi).2, (hf j hj).2, hij]
    rcases Nat.lt_trichotomy i j with h | h | h
    · exact absurd heq (hne i j h hj)
    · exact h
    · exact absurd heq.symm (hne j i h hi)
  have hcard := Finset.card_le_card_of_injOn f hmaps hinj
  rwa [Finset.card_range, Finset.card_range] at hcard

/-- **A walk over pairs meets the first value of a sort within as many steps as there are cells.** -/
theorem first_le (hP : ∀ j, j < k → P (next^[j] v)) (hk : ¬ P (next^[k] v))
    (hpair : ∀ j, j < k → ∃ a : Nat, a < size ∧ next^[j] v = .pair a) : k ≤ size :=
  le_of_distinct hpair fun i j hij hjk =>
    distinct_of_first hP hk i j hij (Nat.le_of_lt hjk)

/-- If that value is a pair, too, it is met earlier. -/
theorem first_lt (hP : ∀ j, j < k → P (next^[j] v)) (hk : ¬ P (next^[k] v))
    (hpair : ∀ j, j ≤ k → ∃ a : Nat, a < size ∧ next^[j] v = .pair a) : k < size :=
  le_of_distinct (fun j hj => hpair j (Nat.le_of_lt_succ hj)) fun i j hij hjk =>
    distinct_of_first hP hk i j hij (Nat.le_of_lt_succ hjk)

/-! ## 2. Spines -/

variable {h : Heap} {seen : List Value}

/-- The elements along a walk. -/
def elements (h : Heap) (v : Value) (n : Nat) : List Value :=
  (List.range n).map fun j => h.car (h.cdr^[j] v)

theorem elements_succ (h : Heap) (v : Value) (n : Nat) :
    h.elements v (n + 1) = h.car v :: h.elements (h.cdr v) n := by
  rw [elements, List.range_succ_eq_map, List.map_cons, List.map_map]
  rfl

/-- A spine that ends. -/
theorem spineOnto_at (hpair : ∀ j, j < k → (h.cdr^[j] v).isPair = true)
    (hend : (h.cdr^[k] v).isPair = false) (hk : k ≤ n) :
    h.spineOnto seen n v =
      { items := seen.reverse ++ h.elements v k, ending := .at (h.cdr^[k] v) } := by
  induction k generalizing v n seen with
  | zero =>
    replace hend : v.isPair = false := hend
    cases n <;> rw [spineOnto, if_neg (by rw [hend]; exact Bool.false_ne_true)] <;>
      simp [elements]
  | succ k ih =>
    obtain ⟨m, rfl⟩ : ∃ m, n = m + 1 := ⟨n - 1, by omega⟩
    have hv : v.isPair = true := hpair 0 (Nat.zero_lt_succ k)
    rw [spineOnto, if_pos hv, ih (fun j hj => hpair (j + 1) (Nat.succ_lt_succ hj)) hend
      (Nat.le_of_succ_le_succ hk), elements_succ, List.reverse_cons, List.append_assoc]
    rfl

/-- A spine that does not end. -/
theorem spineOnto_endless (hpair : ∀ j, j ≤ n → (h.cdr^[j] v).isPair = true) :
    h.spineOnto seen n v =
      { items := seen.reverse ++ h.elements v n, ending := .endless } := by
  induction n generalizing v seen with
  | zero =>
    have hv : v.isPair = true := hpair 0 (Nat.le_refl _)
    rw [spineOnto, if_pos hv]
    simp [elements]
  | succ n ih =>
    have hv : v.isPair = true := hpair 0 (Nat.zero_le _)
    rw [spineOnto, if_pos hv, ih fun j hj => hpair (j + 1) (Nat.succ_le_succ hj), elements_succ,
      List.reverse_cons, List.append_assoc]
    rfl

/-! ## 3. Searches -/

section Search

variable {β : Type} {hit : Value → Option β}

/-- The first of the values of a walk over pairs that something is found in. -/
def searchAlong (next : Value → Value) (hit : Value → Option β) : Nat → Value → Option β
  | 0, _ => none
  | n + 1, v =>
    if v.isPair then
      match hit v with
      | some b => some b
      | none => searchAlong next hit n (next v)
    else none

/-- A search passes by the values in which nothing is found. -/
theorem searchAlong_add (hmiss : ∀ j, j < k → (next^[j] v).isPair = true ∧ hit (next^[j] v) = none) :
    searchAlong next hit (k + n) v = searchAlong next hit n (next^[k] v) := by
  induction k generalizing v with
  | zero => rw [Nat.zero_add, Function.iterate_zero_apply]
  | succ k ih =>
    obtain ⟨hv, hnone⟩ := hmiss 0 (Nat.zero_lt_succ k)
    rw [Function.iterate_zero_apply] at hv hnone
    rw [Nat.succ_add, searchAlong, if_pos hv, hnone]
    exact ih fun j hj => hmiss (j + 1) (Nat.succ_lt_succ hj)

theorem searchAlong_not_pair (hv : v.isPair = false) : searchAlong next hit n v = none := by
  cases n with
  | zero => rfl
  | succ n => exact if_neg (by rw [hv]; exact Bool.false_ne_true)

end Search

end LispMachine.Heap
