import LispMachine.Proofs.Recast.Rows
import LispMachine.Proofs.Twin.Reading

/-!
# What is read off recast code

* `Side.specialForm?_eq` -- special forms are known by their heads;
* `Recast.isPair_eq`, `Recast.car`, `Recast.cdr`, `Recast.nth` -- lists of code, in the heaps of two contexts
  that agree;
* `Recast.exists_paired` -- **parameters are paired alike with arguments**: a list of code comes to an end.
-/

namespace LispMachine

open Machine

/-! ## 1. Heads -/

theorem StandardForm.named_name (f : StandardForm) : named f.name = some f := by
  cases f <;> rfl

theorem StandardForm.named_eq_none {name : String} (h : ∀ f : StandardForm, name ≠ f.name) : named name = none :=
  List.find?_eq_none.mpr fun f _ => by simpa using (h f).symm

/-- **A form is known by its head.** -/
theorem Side.specialForm?_eq {L M : Codebook} {c : Context} {v x y : Value} {f : StandardForm} (hc : Side M c)
    (le : L.Le M) (hv : L.code.pair v x y) (hf : L.code.form x f) : specialForm? c v = some (.standard f) := by
  obtain ⟨i, rfl, hi⟩ := hf
  rw [specialForm?, (hc.car_cdr le hv).2.1]
  exact (hc.forms (le.names _ _ hi)).trans (congrArg (Option.map SpecialForm.standard) f.named_name)

theorem Side.specialForm?_eq_none {L M : Codebook} {c : Context} {v x y : Value} (hc : Side M c) (le : L.Le M)
    (hv : L.code.pair v x y) (hx : L.code.plain x) : specialForm? c v = none := by
  rw [specialForm?, (hc.car_cdr le hv).2.1]
  cases x with
  | sym i =>
    obtain ⟨name, hi, hne⟩ := hx i rfl
    exact (hc.forms (le.names _ _ hi)).trans
      (congrArg (Option.map SpecialForm.standard) (StandardForm.named_eq_none hne))
  | _ => rfl

namespace Concord.Recast

variable {K : Concord} {D : Duet} {p : Segment Value} {v v' w w' : Value}

/-! ## 2. Lists of code -/

/-- Code is a pair on both sides, or on neither. -/
theorem isPair_eq (hp : p.IsList) (h : K.Recast p v v') : v.isPair = v'.isPair := by
  rcases LispMachine.Recast.list_cases hp h with ⟨-, hrel⟩ | ⟨_, _, _, _, ⟨a, rfl, -⟩, ⟨b, rfl, -⟩, -, -⟩
  · exact hrel.kindred.isPair_eq
  · rfl

theorem isSym_eq (hp : p.IsList) (h : K.Recast p v v') : v.isSym = v'.isSym := by
  rcases LispMachine.Recast.list_cases hp h with ⟨-, hrel⟩ | ⟨_, _, _, _, ⟨a, rfl, -⟩, ⟨b, rfl, -⟩, -, -⟩
  · exact hrel.kindred.isSym_eq
  · rfl

/-- A symbol where a list might be stands for itself. -/
theorem rel_of_isSym (hp : p.IsList) (h : K.Recast p v v') (hsym : v.isSym = true) : K.Rel v v' := by
  rcases LispMachine.Recast.list_cases hp h with ⟨-, hrel⟩ | ⟨_, _, _, _, ⟨a, rfl, -⟩, -, -, -⟩
  · exact hrel
  · cases hsym

/-- What is no pair holds nil, on both sides. -/
theorem nil_of_data (hp : p.IsList ∨ p = .expr ∨ p = .data) : K.Recast p .nil .nil := by
  rcases hp with hp | rfl | rfl
  · exact .atom (.inl hp) rfl .nil
  · exact .atom (.inr rfl) rfl .nil
  · exact .data .nil

/-- What stands for itself corresponds. -/
theorem rel (h : K.Recast .data v v') : K.Rel v v' := by
  cases h with
  | data h => exact h
  | atom hp _ _ => exact hp.elim False.elim nofun
  | list hp => exact hp.elim

theorem car (hD : D.Sound) (le : K.Le D.concord) (hp : p.IsList)
    (hfirst : p.first.IsList ∨ p.first = .expr ∨ p.first = .data) (h : K.Recast p v v') :
    K.Recast p.first (D.left.heap.car v) (D.right.heap.car v') := by
  rcases LispMachine.Recast.list_cases hp h with ⟨hlone, hrel⟩ | ⟨x, y, x', y', hv, hv', first, -⟩
  · rw [Twin.car_of_not_pair hlone, Twin.car_of_not_pair (hrel.kindred.isPair_eq.symm.trans hlone)]
    exact nil_of_data hfirst
  · obtain ⟨-, -, hcar, -, hcar', -⟩ := car_cdr hD le hv hv'
    rw [hcar, hcar']
    exact first

theorem cdr (hD : D.Sound) (le : K.Le D.concord) (hp : p.IsList)
    (hrest : p.rest.IsList ∨ p.rest = .expr ∨ p.rest = .data) (h : K.Recast p v v') :
    K.Recast p.rest (D.left.heap.cdr v) (D.right.heap.cdr v') := by
  rcases LispMachine.Recast.list_cases hp h with ⟨hlone, hrel⟩ | ⟨x, y, x', y', hv, hv', -, rest⟩
  · rw [Twin.cdr_of_not_pair hlone, Twin.cdr_of_not_pair (hrel.kindred.isPair_eq.symm.trans hlone)]
    exact nil_of_data hrest
  · obtain ⟨-, -, -, hcdr, -, hcdr'⟩ := car_cdr hD le hv hv'
    rw [hcdr, hcdr']
    exact rest

/-- The expression at a position of a list. -/
theorem nth (hD : D.Sound) (le : K.Le D.concord) (h : K.Recast .exprs v v') (n : Nat) :
    K.Recast .expr (D.left.heap.nth v n) (D.right.heap.nth v' n) := by
  induction n generalizing v v' with
  | zero => exact car (p := .exprs) hD le trivial (.inr (.inl rfl)) h
  | succ n ih => exact ih (cdr (p := .exprs) hD le trivial (.inl trivial) h)

/-! ## 3. Parameters -/

/-- Parameters look alike on both sides. -/
theorem similar_params (hD : D.Sound) :
    Heap.Similar (fun v v' => D.concord.Rel v v' ∨ D.concord.Recast .params v v') D.left.heap D.right.heap where
  kindred h := by
    rcases h with h | h
    · exact h.kindred
    · rcases LispMachine.Recast.list_cases (p := .params) trivial h with
        ⟨-, hrel⟩ | ⟨_, _, _, _, ⟨a, rfl, -⟩, ⟨b, rfl, -⟩, -, -⟩
      · exact hrel.kindred
      · exact .pair a b
  car h := by
    rcases h with h | h
    · exact .inl (hD.similar.car h)
    · exact .inl (car (p := .params) hD (.refl _) trivial (.inr (.inr rfl)) h).rel
  cdr h := by
    rcases h with h | h
    · exact .inl (hD.similar.cdr h)
    · exact .inr (cdr (p := .params) hD (.refl _) trivial (.inl trivial) h)
  inside h := by
    rcases h with h | h
    · exact hD.similar.inside h
    · rcases LispMachine.Recast.list_cases (p := .params) trivial h with
        ⟨hlone, -⟩ | ⟨_, _, _, _, ⟨a, ha, hp⟩, ⟨b, hb, hp'⟩, -, -⟩
      · cases hlone
      · cases ha
        cases hb
        exact ⟨Heap.lt_size_of_content (hD.left.code hp), Heap.lt_size_of_content (hD.right.code hp')⟩

/-- **A list of parameters comes to an end.** -/
theorem exists_end (h : K.Recast .params v v') : ∃ k, ∀ D : Duet, D.Sound → K.Le D.concord →
    (∀ j, j < k → (D.left.heap.cdr^[j] v).isPair = true) ∧ ¬ (D.left.heap.cdr^[k] v).isPair = true := by
  refine LispMachine.Recast.list_induction (p := .params) (motive := fun v _ => ∃ k, ∀ D : Duet, D.Sound →
    K.Le D.concord → (∀ j, j < k → (D.left.heap.cdr^[j] v).isPair = true) ∧
      ¬ (D.left.heap.cdr^[k] v).isPair = true) trivial rfl (fun v v' hlone _ => ?_)
    (fun v x y v' x' y' hv hv' _ _ ih => ?_) h
  · exact ⟨0, fun D _ _ => ⟨nofun, fun hpair => Bool.false_ne_true (hlone.symm.trans hpair)⟩⟩
  · obtain ⟨k, hk⟩ := ih
    refine ⟨k + 1, fun D hD le => ?_⟩
    obtain ⟨hpair, -, -, hcdr, -, -⟩ := car_cdr hD le hv hv'
    obtain ⟨hbefore, hend⟩ := hk D hD le
    refine ⟨fun j hj => ?_, ?_⟩
    · cases j with
      | zero => exact hpair
      | succ j =>
        rw [Function.iterate_succ_apply, hcdr]
        exact hbefore j (Nat.lt_of_succ_lt_succ hj)
    · rw [Function.iterate_succ_apply, hcdr]
      exact hend

/-- Parameters, as far as there are arguments, with their arguments. -/
def Paired (D : Duet) (k : Nat) (x x' : List (Value × Value) × Fit) : Prop :=
  ∃ bound bound' fit, x = (bound, fit) ∧ x' = (bound', fit) ∧ fit ≠ .endless ∧ bound.length ≤ k ∧
    List.Forall₂ (fun q q' => D.concord.Rel q.1 q'.1 ∧ D.concord.Rel q.2 q'.2) bound bound'

/-- Where there are no pairs of parameters, a symbol takes all arguments. -/
theorem paired_lone {m m' : Nat} (hlone : v.isPair = false) (h : D.concord.Rel v v') (hw : D.concord.Rel w w') :
    Paired D 1 (pairUp D.left.heap (m + 1) v w) (pairUp D.right.heap (m' + 1) v' w') := by
  have hpair : ¬ v.isPair = true := Bool.eq_false_iff.mp hlone
  rw [pairUp, pairUp, ← h.kindred.isPair_eq, ← h.kindred.isSym_eq, ← hw.kindred.isNil_eq, if_neg hpair,
    if_neg hpair]
  by_cases hsym : v.isSym = true
  · rw [if_pos hsym, if_pos hsym]
    exact ⟨_, _, _, rfl, rfl, by decide, le_rfl, .cons ⟨h, hw⟩ .nil⟩
  · rw [if_neg hsym, if_neg hsym]
    split
    · exact ⟨_, _, _, rfl, rfl, by decide, Nat.zero_le _, .nil⟩
    · exact ⟨_, _, _, rfl, rfl, by decide, Nat.zero_le _, .nil⟩

/-- Parameters that come to an end are paired alike with arguments. -/
theorem paired_of_end (hD : D.Sound) {k m m' : Nat} (h : D.concord.Recast .params v v') (hw : D.concord.Rel w w')
    (hend : ¬ (D.left.heap.cdr^[k] v).isPair = true) (hm : k < m) (hm' : k < m') :
    Paired D (k + 1) (pairUp D.left.heap m v w) (pairUp D.right.heap m' v' w') := by
  induction k generalizing v v' w w' m m' with
  | zero =>
    obtain ⟨l, rfl⟩ : ∃ l, m = l + 1 := ⟨m - 1, by omega⟩
    obtain ⟨l', rfl⟩ : ∃ l, m' = l + 1 := ⟨m' - 1, by omega⟩
    rcases LispMachine.Recast.list_cases (p := .params) trivial h with ⟨hlone, hrel⟩ | ⟨_, _, _, _, ⟨a, rfl, -⟩, -⟩
    · exact paired_lone hlone hrel hw
    · exact absurd rfl hend
  | succ k ih =>
    obtain ⟨l, rfl⟩ : ∃ l, m = l + 1 := ⟨m - 1, by omega⟩
    obtain ⟨l', rfl⟩ : ∃ l, m' = l + 1 := ⟨m' - 1, by omega⟩
    rcases LispMachine.Recast.list_cases (p := .params) trivial h with
      ⟨hlone, hrel⟩ | ⟨x, y, x', y', hv, hv', first, rest⟩
    · obtain ⟨bound, bound', fit, hleft, hright, hfit, hlength, hbound⟩ := paired_lone hlone hrel hw
      exact ⟨bound, bound', fit, hleft, hright, hfit, hlength.trans (Nat.le_add_left _ _), hbound⟩
    · obtain ⟨hp, hp', hcar, hcdr, hcar', hcdr'⟩ := car_cdr hD (.refl _) hv hv'
      rw [Function.iterate_succ_apply, hcdr] at hend
      obtain ⟨bound, bound', fit, hleft, hright, hfit, hlength, hbound⟩ :=
        ih rest (hD.similar.cdr hw) hend (Nat.lt_of_succ_lt_succ hm) (Nat.lt_of_succ_lt_succ hm')
      rw [pairUp, pairUp, if_pos hp, if_pos hp', ← hw.kindred.isPair_eq, hcar, hcar', hcdr, hcdr', hleft, hright]
      split
      · exact ⟨_, _, _, rfl, rfl, hfit, Nat.succ_le_succ hlength, .cons ⟨rel first, hD.similar.car hw⟩ hbound⟩
      · exact ⟨_, _, _, rfl, rfl, by decide, Nat.zero_le _, .nil⟩

/-- **Parameters are paired alike with arguments**, and no more of them than there are in the list. -/
theorem exists_paired (h : K.Recast .params v v') : ∃ k, ∀ D : Duet, D.Sound → K.Le D.concord →
    ∀ w w', D.concord.Rel w w' → Paired D k (pairUp D.left.heap (D.left.heap.cells.size + 1) v w)
      (pairUp D.right.heap (D.right.heap.cells.size + 1) v' w') := by
  obtain ⟨k, hk⟩ := exists_end h
  refine ⟨k + 1, fun D hD le w w' hw => ?_⟩
  obtain ⟨hbefore, hend⟩ := hk D hD le
  have hparams : D.concord.Recast .params v v' := mono h le
  obtain ⟨hle, hle'⟩ := (similar_params hD).le_of_not_pair (.inr hparams) hbefore hend
  exact paired_of_end hD hparams hw hend (Nat.lt_succ_of_le hle) (Nat.lt_succ_of_le hle')

end Concord.Recast

end LispMachine
