import LispMachine.Proofs.Walk

/-!
# Two walkers on a list

A list is counted by a fast walker and a slow one. What the count comes to depends on the walk along
rest slots alone:

* `Heap.Proper`, `Heap.Dotted`, `Heap.Circular` -- the walk ends in nil, in something else, or never;
* `Heap.exists_meeting` -- on a list that does not end the walkers meet, within as many rounds as
  there are cells;
* `Heap.meets_nowhere` -- on one that ends they do not;
* `Heap.counted` -- so what a count says of a list is so;
* `Heap.count_eq` -- and it agrees with the spine of the list.
-/

namespace LispMachine

/-- What a count comes to, read off a spine. -/
def Spine.count (spine : Spine) : Count :=
  match spine.ending with
  | .at last => if last.isNil then .list spine.items.length else .improper
  | .endless => .circular

namespace Heap

variable {h : Heap} {v : Value} {i k m n rounds : Nat}

theorem cdr_iterate (h : Heap) (v : Value) (j : Nat) : h.cdr (h.cdr^[j] v) = h.cdr^[j + 1] v :=
  (Function.iterate_succ_apply' h.cdr j v).symm

/-! ## 1. How a walk ends -/

/-- A proper list of so many pairs. -/
def Proper (h : Heap) (v : Value) (n : Nat) : Prop :=
  (∀ j, j < n → (h.cdr^[j] v).isPair = true) ∧ h.cdr^[n] v = .nil

/-- A list that ends in something else than nil. What is no pair itself is such a list, too. -/
def Dotted (h : Heap) (v : Value) : Prop :=
  ∃ n, (∀ j, j < n → (h.cdr^[j] v).isPair = true) ∧ (h.cdr^[n] v).isPair = false ∧ h.cdr^[n] v ≠ .nil

/-- A list that does not end. -/
def Circular (h : Heap) (v : Value) : Prop := ∀ j, (h.cdr^[j] v).isPair = true

/-- A list ends in one way. -/
theorem end_unique (hk : ∀ j, j < k → (h.cdr^[j] v).isPair = true) (hke : (h.cdr^[k] v).isPair = false)
    (hn : ∀ j, j < n → (h.cdr^[j] v).isPair = true) (hne : (h.cdr^[n] v).isPair = false) : k = n := by
  rcases Nat.lt_trichotomy k n with hlt | heq | hlt
  · rw [hn k hlt] at hke
    cases hke
  · exact heq
  · rw [hk n hlt] at hne
    cases hne

theorem Proper.unique (hk : h.Proper v k) (hn : h.Proper v n) : k = n :=
  end_unique hk.1 (by rw [hk.2]; rfl) hn.1 (by rw [hn.2]; rfl)

theorem Proper.not_circular (hn : h.Proper v n) : ¬ h.Circular v := by
  intro hc
  have hpair := hc n
  rw [hn.2] at hpair
  cases hpair

theorem Dotted.not_circular (hd : h.Dotted v) : ¬ h.Circular v := by
  obtain ⟨n, -, hend, -⟩ := hd
  intro hc
  rw [hc n] at hend
  cases hend

theorem Proper.not_dotted (hn : h.Proper v n) : ¬ h.Dotted v := by
  rintro ⟨k, hk, hend, hne⟩
  have hkn : k = n := end_unique hk hend hn.1 (by rw [hn.2]; rfl)
  rw [hkn, hn.2] at hne
  exact hne rfl

/-- A list does not end, or it ends in something that is no pair. -/
theorem circular_or_ends (h : Heap) (v : Value) : h.Circular v ∨
    ∃ n, (∀ j, j < n → (h.cdr^[j] v).isPair = true) ∧ (h.cdr^[n] v).isPair = false := by
  by_cases hall : h.Circular v
  · exact .inl hall
  · right
    rw [Circular, not_forall] at hall
    classical
    refine ⟨Nat.find hall, fun j hj => not_not.mp (Nat.find_min hall hj), ?_⟩
    exact Bool.not_eq_true _ ▸ Nat.find_spec hall

/-! ## 2. How far a walk goes -/

/-- A pair that is followed by a pair is in a cell. -/
theorem lt_of_cdr_isPair (hv : (h.cdr v).isPair = true) : ∃ a : Nat, a < h.cells.size ∧ v = .pair a := by
  cases v with
  | pair a =>
    refine ⟨a, ?_, rfl⟩
    by_contra hlt
    rw [cdr, Array.getElem?_eq_none (Nat.le_of_not_lt hlt)] at hv
    cases hv
  | _ => cases hv

/-- A list that ends has at most one pair more than there are cells: the last one may be in none. -/
theorem ends_le (hpair : ∀ j, j < k → (h.cdr^[j] v).isPair = true) (hend : (h.cdr^[k] v).isPair = false) :
    k ≤ h.cells.size + 1 := by
  have hcells : ∀ j, j < k - 1 → ∃ a : Nat, a < h.cells.size ∧ h.cdr^[j] v = .pair a := by
    intro j hj
    apply lt_of_cdr_isPair
    rw [cdr_iterate]
    exact hpair (j + 1) (by omega)
  have hlast : ¬ (h.cdr^[k] v).isPair = true := by
    rw [hend]
    exact Bool.false_ne_true
  have hle : k - 1 ≤ h.cells.size := le_of_distinct hcells fun i j hij hj =>
    distinct_of_first (P := fun u => u.isPair = true) hpair hlast i j hij (by omega)
  omega

/-- Every pair of a list that does not end is in a cell. -/
theorem Circular.lt (hc : h.Circular v) (j : Nat) : ∃ a : Nat, a < h.cells.size ∧ h.cdr^[j] v = .pair a := by
  apply lt_of_cdr_isPair
  rw [cdr_iterate]
  exact hc (j + 1)

/-! ## 3. Where the walkers meet -/

/-- A walk that has come back goes round from there on. -/
theorem iterate_add_mul {next : Value → Value} {period : Nat}
    (hback : next^[i + period] v = next^[i] v) (hm : i ≤ m) (t : Nat) :
    next^[m + t * period] v = next^[m] v := by
  induction t with
  | zero => rw [Nat.zero_mul, Nat.add_zero]
  | succ t ih =>
    have hfrom : m + (t + 1) * period = (m + t * period - i) + (i + period) := by
      rw [Nat.add_mul]
      omega
    have hto : m + t * period = (m + t * period - i) + i := by omega
    rw [hfrom, Function.iterate_add_apply, hback, ← Function.iterate_add_apply, ← hto]
    exact ih

/-- **On a list that does not end the walkers meet**, within as many rounds as there are cells. -/
theorem Circular.exists_meeting (hc : h.Circular v) :
    ∃ m, 0 < m ∧ m ≤ h.cells.size ∧ h.cdr^[2 * m] v = h.cdr^[m] v := by
  -- among more values than there are cells, two are the same
  obtain ⟨i, j, hij, hj, heq⟩ : ∃ i j, i < j ∧ j < h.cells.size + 1 ∧ h.cdr^[i] v = h.cdr^[j] v := by
    by_contra hnone
    push Not at hnone
    have hle : h.cells.size + 1 ≤ h.cells.size := le_of_distinct (fun j _ => hc.lt j) hnone
    omega
  have hback : h.cdr^[i + (j - i)] v = h.cdr^[i] v := by
    rw [Nat.add_sub_cancel' (Nat.le_of_lt hij)]
    exact heq.symm
  have hperiod : 0 < j - i := by omega
  by_cases hi : i = 0
  · refine ⟨j - i, hperiod, by omega, ?_⟩
    have hround := iterate_add_mul hback (m := j - i) (by omega) 1
    rwa [Nat.one_mul, ← Nat.two_mul] at hround
  · -- the first multiple of the period from where the round begins
    refine ⟨((i - 1) / (j - i) + 1) * (j - i), Nat.mul_pos (Nat.succ_pos _) hperiod, ?_, ?_⟩
    · have hdiv := Nat.div_mul_le_self (i - 1) (j - i)
      rw [Nat.add_mul, Nat.one_mul]
      omega
    · have hle : i ≤ ((i - 1) / (j - i) + 1) * (j - i) := by
        have hlt := Nat.lt_div_mul_add (a := i - 1) hperiod
        rw [Nat.add_mul, Nat.one_mul]
        omega
      rw [Nat.two_mul]
      exact iterate_add_mul hback hle _

/-- **On a list that ends they do not meet** after they have set out. -/
theorem meets_nowhere (hpair : ∀ j, j < k → (h.cdr^[j] v).isPair = true)
    (hend : (h.cdr^[k] v).isPair = false) (hm : 0 < m) (hk : 2 * m ≤ k) :
    h.cdr^[2 * m] v ≠ h.cdr^[m] v := by
  refine (distinct_of_first (P := fun u => u.isPair = true) hpair ?_ m (2 * m) (by omega) hk).symm
  rw [hend]
  exact Bool.false_ne_true

/-! ## 4. What the count comes to -/

theorem isNil_of_isPair {u : Value} (hu : u.isPair = true) : u.isNil = false := by
  cases u <;> first | rfl | cases hu

/-- A round of a count. -/
theorem countFrom_succ (h : Heap) (slow fast : Value) (length rounds : Nat) :
    h.countFrom slow fast length (rounds + 1) =
      if fast.isNil then .list length
      else if !fast.isPair then .improper
      else if (h.cdr fast).isNil then .list (length + 1)
      else if !(h.cdr fast).isPair then .improper
      else if h.cdr (h.cdr fast) = h.cdr slow then .circular
      else h.countFrom (h.cdr slow) (h.cdr (h.cdr fast)) (length + 2) rounds := rfl

/-- A count goes on from a walk of so many rounds. -/
theorem countFrom_round (hfast : (h.cdr^[2 * i] v).isPair = true)
    (hnext : (h.cdr^[2 * i + 1] v).isPair = true) :
    h.countFrom (h.cdr^[i] v) (h.cdr^[2 * i] v) (2 * i) (rounds + 1) =
      if h.cdr^[2 * (i + 1)] v = h.cdr^[i + 1] v then .circular
      else h.countFrom (h.cdr^[i + 1] v) (h.cdr^[2 * (i + 1)] v) (2 * (i + 1)) rounds := by
  rw [countFrom_succ]
  simp only [cdr_iterate, hfast, hnext, isNil_of_isPair hfast, isNil_of_isPair hnext, Bool.not_true,
    Bool.false_eq_true, if_false]
  rfl

/-- What is looked at first decides if it is no pair. -/
theorem countFrom_end {slow fast : Value} {length : Nat} (hfast : fast.isPair = false) :
    h.countFrom slow fast length (rounds + 1) = if fast = .nil then .list length else .improper := by
  rw [countFrom_succ]
  cases fast with
  | pair a => cases hfast
  | _ => simp [Value.isNil, Value.isPair]

/-- What is looked at second decides if it is no pair. -/
theorem countFrom_end_next {slow fast : Value} {length : Nat} (hfast : fast.isPair = true)
    (hnext : (h.cdr fast).isPair = false) :
    h.countFrom slow fast length (rounds + 1) =
      if h.cdr fast = .nil then .list (length + 1) else .improper := by
  rw [countFrom_succ]
  simp only [hfast, isNil_of_isPair hfast, Bool.not_true, Bool.false_eq_true, if_false]
  generalize h.cdr fast = next at hnext
  cases next with
  | pair a => cases hnext
  | _ => simp [Value.isNil, Value.isPair]

/-- A list that ends is counted to its end. -/
theorem countFrom_ends (hpair : ∀ j, j < k → (h.cdr^[j] v).isPair = true)
    (hend : (h.cdr^[k] v).isPair = false) (hi : 2 * i ≤ k) (hrounds : k < 2 * (i + rounds)) :
    h.countFrom (h.cdr^[i] v) (h.cdr^[2 * i] v) (2 * i) rounds =
      if h.cdr^[k] v = .nil then .list k else .improper := by
  induction rounds generalizing i with
  | zero => omega
  | succ rounds ih =>
    obtain heq | heq | hlt : k = 2 * i ∨ k = 2 * i + 1 ∨ 2 * (i + 1) ≤ k := by omega
    · subst heq
      exact countFrom_end hend
    · subst heq
      rw [Function.iterate_succ_apply'] at hend ⊢
      exact countFrom_end_next (hpair _ (by omega)) hend
    · rw [countFrom_round (hpair _ (by omega)) (hpair _ (by omega)),
        if_neg (meets_nowhere hpair hend (Nat.succ_pos i) hlt)]
      exact ih hlt (by omega)

/-- A list that does not end is counted until the walkers meet. -/
theorem Circular.countFrom (hc : h.Circular v) (hi : i < m) (hm : h.cdr^[2 * m] v = h.cdr^[m] v)
    (hrounds : m ≤ i + rounds) :
    h.countFrom (h.cdr^[i] v) (h.cdr^[2 * i] v) (2 * i) rounds = .circular := by
  induction rounds generalizing i with
  | zero => omega
  | succ rounds ih =>
    rw [countFrom_round (hc _) (hc _)]
    by_cases hmeet : h.cdr^[2 * (i + 1)] v = h.cdr^[i + 1] v
    · rw [if_pos hmeet]
    · rw [if_neg hmeet]
      have hne : i + 1 ≠ m := fun heq => hmeet (heq ▸ hm)
      exact ih (by omega) (by omega)

theorem count_of_ends (hpair : ∀ j, j < k → (h.cdr^[j] v).isPair = true)
    (hend : (h.cdr^[k] v).isPair = false) :
    h.count v = if h.cdr^[k] v = .nil then .list k else .improper := by
  have hle := ends_le hpair hend
  exact countFrom_ends (i := 0) hpair hend (Nat.zero_le _) (by omega)

theorem Circular.count (hc : h.Circular v) : h.count v = .circular := by
  obtain ⟨m, hpos, hle, hm⟩ := hc.exists_meeting
  exact hc.countFrom (i := 0) hpos hm (by omega)

theorem Proper.count (hn : h.Proper v n) : h.count v = .list n := by
  rw [count_of_ends hn.1 (by rw [hn.2]; rfl), if_pos hn.2]

theorem Dotted.count (hd : h.Dotted v) : h.count v = .improper := by
  obtain ⟨n, hpair, hend, hne⟩ := hd
  rw [count_of_ends hpair hend, if_neg hne]

/-- What a count says of a list. -/
inductive Counted (h : Heap) (v : Value) : Count → Prop where
  | list {n : Nat} (hn : h.Proper v n) : h.Counted v (.list n)
  | improper (hd : h.Dotted v) : h.Counted v .improper
  | circular (hc : h.Circular v) : h.Counted v .circular

/-- **What a count says is so**, and it always comes to an end. -/
theorem counted (h : Heap) (v : Value) : h.Counted v (h.count v) := by
  rcases h.circular_or_ends v with hc | ⟨n, hpair, hend⟩
  · rw [hc.count]
    exact .circular hc
  · rw [count_of_ends hpair hend]
    by_cases hnil : h.cdr^[n] v = .nil
    · rw [if_pos hnil]
      exact .list ⟨hpair, hnil⟩
    · rw [if_neg hnil]
      exact .improper ⟨n, hpair, hend, hnil⟩

/-- **A count agrees with the spine of a list.** -/
theorem count_eq (h : Heap) (v : Value) : h.count v = (h.spine v).count := by
  rcases h.circular_or_ends v with hc | ⟨n, hpair, hend⟩
  · rw [hc.count, spine, spineOnto_endless fun j _ => hc j]
    rfl
  · rw [count_of_ends hpair hend, spine, spineOnto_at hpair hend (ends_le hpair hend)]
    generalize h.cdr^[n] v = last at hend ⊢
    cases last with
    | nil => simp [Spine.count, elements, Value.isNil]
    | pair a => cases hend
    | _ => simp [Spine.count, Value.isNil]

end Heap

end LispMachine
