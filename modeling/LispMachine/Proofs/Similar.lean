import LispMachine.Environment
import LispMachine.Machine.Call
import LispMachine.Machine.Form
import LispMachine.Printer
import LispMachine.Proofs.Race
import Mathlib.Data.List.Forall2
import Mathlib.Data.Option.Basic

/-!
# Heaps that look alike from values that correspond

Two heaps may lay out the same values at different addresses, and be of different sizes:

* `Value.Kindred` -- values of one kind; of integers, the same one;
* `Heap.Similar` -- **a relation that is kept on the way to the slots of pairs**;
* `Similar.spine`, `Similar.count_eq`, `Similar.searchAlong` -- a walk that is cut off after as many
  steps as there are cells is cut off at different places in the two heaps. It has met by then whatever
  there is to be met (`LispMachine.Proofs.Walk`), so that the outcomes agree;
* `Similar.bindingIn?`, `Similar.lookup?` -- so do lookups, which are searches along bindings and frames;
* `Similar.isParameterList_eq`, `Similar.pairUp`, `Similar.takeArguments` -- lists of parameters, names
  that are paired with values, and the arguments of natives;
* `Similar.write_eq` -- texts, in which addresses leave no trace.
-/

namespace LispMachine

/-! ## 1. Values -/

/-- Values of one kind. -/
inductive Value.Kindred : Value → Value → Prop where
  | nil : Kindred .nil .nil
  | int (n : Fixnum) : Kindred (.int n) (.int n)
  | sym (i j : SymbolId) : Kindred (.sym i) (.sym j)
  | pair (a b : Addr) : Kindred (.pair a) (.pair b)
  | object (a b : Addr) : Kindred (.object a) (.object b)

theorem Value.isPair_of_isSym {v : Value} (hv : v.isSym = true) : v.isPair = false := by
  cases v <;> first | rfl | cases hv

namespace Value.Kindred

variable {v v' : Value}

theorem isPair_eq (h : v.Kindred v') : v.isPair = v'.isPair := by cases h <;> rfl

theorem isNil_eq (h : v.Kindred v') : v.isNil = v'.isNil := by cases h <;> rfl

theorem isSym_eq (h : v.Kindred v') : v.isSym = v'.isSym := by cases h <;> rfl

theorem isInt_eq (h : v.Kindred v') : v.isInt = v'.isInt := by cases h <;> rfl

theorem isTruthy_eq (h : v.Kindred v') : v.isTruthy = v'.isTruthy := by cases h <;> rfl

/-- An immediate that is no symbol is of the kind of itself only. -/
theorem rfl_of_atom (hv : v.addr? = none) : v.Kindred v := by
  cases v with
  | nil => exact .nil
  | int n => exact .int n
  | sym id => exact .sym id id
  | pair a => cases hv
  | object a => cases hv

end Value.Kindred

/-- Spines that agree. Of two that do not end it is known that whatever is found on one of them is
    found on the other, at the same position. -/
inductive Spine.Similar (R : Value → Value → Prop) : Spine → Spine → Prop where
  | at {items items' : List Value} {last last' : Value} (hi : List.Forall₂ R items items')
      (hl : R last last') :
      Similar R { items, ending := .at last } { items := items', ending := .at last' }
  | endless {items items' : List Value}
      (hf : ∀ p : Value → Bool, (∀ u u', R u u' → p u = p u') →
        items.findIdx? p = items'.findIdx? p) :
      Similar R { items, ending := .endless } { items := items', ending := .endless }

/-- Arguments of a native that are laid out on both sides, or fit on neither. -/
inductive Machine.Misfit.Agree (R : Value → Value → Prop) : Except Misfit (List Value) →
    Except Misfit (List Value) → Prop where
  | fit {args args' : List Value} (ha : List.Forall₂ R args args') : Agree R (.ok args) (.ok args')
  | misfit (e : Misfit) : Agree R (.error e) (.error e)

/-- Names and values that have been walked at once on both sides. -/
inductive Machine.Fit.Agree (R Q : Value → Value → Prop) : List (Value × Value) × Fit →
    List (Value × Value) × Fit → Prop where
  | ends {bound bound' : List (Value × Value)} (fit : Fit)
      (hb : List.Forall₂ (fun p p' => R p.1 p'.1 ∧ Q p.2 p'.2) bound bound') :
      Agree R Q (bound, fit) (bound', fit)
  | endless (bound bound' : List (Value × Value)) : Agree R Q (bound, .endless) (bound', .endless)

namespace Heap

/-! ## 2. Walks -/

/-- **Two heaps look alike from values that are related.** -/
structure Similar (R : Value → Value → Prop) (h h' : Heap) : Prop where
  kindred : ∀ {v v'}, R v v' → v.Kindred v'
  car : ∀ {v v'}, R v v' → R (h.car v) (h'.car v')
  cdr : ∀ {v v'}, R v v' → R (h.cdr v) (h'.cdr v')
  inside : ∀ {a b : Addr}, R (.pair a) (.pair b) → a < h.cells.size ∧ b < h'.cells.size

/-- What a search along a walk that does not end finds. -/
theorem findIdx?_elements {h : Heap} {v : Value} {p : Value → Bool} {size n : Nat} (hn : size ≤ n)
    (hpair : ∀ j, ∃ a : Nat, a < size ∧ h.cdr^[j] v = .pair a) (k : Nat) :
    (h.elements v n).findIdx? p = some k ↔
      p (h.car (h.cdr^[k] v)) = true ∧ ∀ j, j < k → p (h.car (h.cdr^[j] v)) = false := by
  have hget : ∀ (j : Nat) (hj : j < (h.elements v n).length),
      (h.elements v n)[j] = h.car (h.cdr^[j] v) := by
    intro j hj
    simp [Heap.elements]
  have hlen : (h.elements v n).length = n := by simp [Heap.elements]
  rw [List.findIdx?_eq_some_iff_getElem]
  constructor
  · rintro ⟨hk, hpk, hbefore⟩
    rw [hget] at hpk
    refine ⟨hpk, fun j hj => ?_⟩
    have := hbefore j hj
    rw [hget] at this
    exact Bool.not_eq_true _ ▸ this
  · rintro ⟨hpk, hbefore⟩
    have hk : k < size :=
      Heap.first_lt (P := fun u => p (h.car u) = false) hbefore (by simp [hpk]) fun j _ => hpair j
    refine ⟨hlen.symm ▸ Nat.lt_of_lt_of_le hk hn, by rw [hget]; exact hpk, fun j hj => ?_⟩
    rw [hget, hbefore j hj]
    exact Bool.false_ne_true

theorem not_isPair_of_end {v : Value} (hv : (v.isNil || v.isSym) = true) : ¬ v.isPair = true := by
  cases v <;> first | exact Bool.false_ne_true | cases hv

/-- A list of parameters: symbols up to the first value that is no pair, and there nil or a
    symbol. -/
theorem paramsValid_iff (h : Heap) (n : Nat) (v : Value) : Machine.paramsValid h n v = true ↔
    ∃ k, k ≤ n ∧ (∀ j, j < k → (h.cdr^[j] v).isPair = true ∧
      (h.car (h.cdr^[j] v)).isSym = true) ∧
      ((h.cdr^[k] v).isNil || (h.cdr^[k] v).isSym) = true := by
  induction n generalizing v with
  | zero =>
    rw [Machine.paramsValid]
    refine ⟨fun e => ⟨0, Nat.le_refl 0, fun j hj => absurd hj (Nat.not_lt_zero j), e⟩, ?_⟩
    rintro ⟨k, hk, _, hend⟩
    rwa [Nat.le_zero.mp hk] at hend
  | succ n ih =>
    rw [Machine.paramsValid]
    by_cases hv : v.isPair = true
    · rw [if_pos hv, Bool.and_eq_true, ih]
      constructor
      · rintro ⟨hsym, k, hk, hbefore, hend⟩
        refine ⟨k + 1, Nat.succ_le_succ hk, fun j hj => ?_, hend⟩
        cases j with
        | zero => exact ⟨hv, hsym⟩
        | succ j => exact hbefore j (Nat.lt_of_succ_lt_succ hj)
      · rintro ⟨k, hk, hbefore, hend⟩
        cases k with
        | zero => exact absurd hv (not_isPair_of_end hend)
        | succ k =>
          exact ⟨(hbefore 0 (Nat.zero_lt_succ k)).2, k, Nat.le_of_succ_le_succ hk,
            fun j hj => hbefore (j + 1) (Nat.succ_lt_succ hj), hend⟩
    · rw [if_neg hv]
      refine ⟨fun e => ⟨0, Nat.zero_le _, fun j hj => absurd hj (Nat.not_lt_zero j), e⟩, ?_⟩
      rintro ⟨k, hk, hbefore, hend⟩
      cases k with
      | zero => exact hend
      | succ k => exact absurd (hbefore 0 (Nat.zero_lt_succ k)).1 hv

/-! ### Lookups as searches -/

/-- The binding of a key that is in the first slot of a pair. -/
def bindingHere? (h : Heap) (key bindings : Value) : Option Value :=
  if ((h.car bindings).isPair && h.car (h.car bindings) = key) = true then some (h.car bindings)
  else none

theorem bindingAmong?_eq (h : Heap) (key : Value) (n : Nat) (v : Value) :
    h.bindingAmong? key n v = searchAlong h.cdr (h.bindingHere? key) n v := by
  induction n generalizing v with
  | zero => rfl
  | succ n ih =>
    rw [bindingAmong?, searchAlong, bindingHere?, ih]
    refine ite_congr rfl (fun _ => ?_) fun _ => rfl
    by_cases hb : ((h.car v).isPair && h.car (h.car v) = key) = true
    · simp only [if_pos hb]
    · simp only [if_neg hb]

theorem lookupAmong?_eq (h : Heap) (key : Value) (n : Nat) (v : Value) :
    h.lookupAmong? key n v = searchAlong h.car (h.bindingIn? · key) n v := by
  induction n generalizing v with
  | zero => rfl
  | succ n ih =>
    rw [lookupAmong?, searchAlong, ih]
    cases h.bindingIn? v key <;> rfl

/-- Names and values that are walked at once forever. -/
theorem pairUp_endless {h : Heap} {v w : Value} {n : Nat}
    (hall : ∀ j, (h.cdr^[j] v).isPair = true ∧ (h.cdr^[j] w).isPair = true) :
    (Machine.pairUp h n v w).2 = .endless := by
  induction n generalizing v w with
  | zero => rfl
  | succ n ih =>
    obtain ⟨hv, hw⟩ := hall 0
    replace hv : v.isPair = true := hv
    replace hw : w.isPair = true := hw
    rw [Machine.pairUp, if_pos hv, if_pos hw]
    exact ih fun j => hall (j + 1)

namespace Similar

variable {R Q : Value → Value → Prop} {h h' : Heap} {v v' w w' key key' : Value}

theorem walk (hs : Similar R h h') (hv : R v v') (k : Nat) : R (h.cdr^[k] v) (h'.cdr^[k] v') := by
  induction k with
  | zero => exact hv
  | succ k ih =>
    rw [Function.iterate_succ_apply', Function.iterate_succ_apply']
    exact hs.cdr ih

theorem nth (hs : Similar R h h') (hv : R v v') (n : Nat) : R (h.nth v n) (h'.nth v' n) := by
  induction n generalizing v v' with
  | zero => exact hs.car hv
  | succ n ih => exact ih (hs.cdr hv)

theorem lt_left (hs : Similar R h h') (hv : R v v') (hpair : v.isPair = true) :
    ∃ a : Nat, a < h.cells.size ∧ v = .pair a := by
  cases hs.kindred hv with
  | pair a b => exact ⟨a, (hs.inside hv).1, rfl⟩
  | _ => cases hpair

theorem lt_right (hs : Similar R h h') (hv : R v v') (hpair : v.isPair = true) :
    ∃ a : Nat, a < h'.cells.size ∧ v' = .pair a := by
  cases hs.kindred hv with
  | pair a b => exact ⟨b, (hs.inside hv).2, rfl⟩
  | _ => cases hpair

theorem forall₂_elements (hs : Similar R h h') (hv : R v v') (n : Nat) :
    List.Forall₂ R (h.elements v n) (h'.elements v' n) := by
  rw [Heap.elements, Heap.elements, List.forall₂_map_left_iff, List.forall₂_map_right_iff,
    List.forall₂_same]
  exact fun k _ => hs.car (hs.walk hv k)

/-- The first value of a walk that is no pair is met before either heap is used up. -/
theorem le_of_not_pair (hs : Similar R h h') (hv : R v v') {k : Nat}
    (hbefore : ∀ j, j < k → (h.cdr^[j] v).isPair = true)
    (hend : ¬ (h.cdr^[k] v).isPair = true) : k ≤ h.cells.size ∧ k ≤ h'.cells.size := by
  have hsame := hs.walk hv
  have hend' : ¬ (h'.cdr^[k] v').isPair = true := (hs.kindred (hsame k)).isPair_eq ▸ hend
  have hbefore' : ∀ j, j < k → (h'.cdr^[j] v').isPair = true := fun j hj =>
    (hs.kindred (hsame j)).isPair_eq ▸ hbefore j hj
  exact ⟨Heap.first_le (P := fun u => u.isPair = true) hbefore hend
      fun j hj => hs.lt_left (hsame j) (hbefore j hj),
    Heap.first_le (P := fun u => u.isPair = true) hbefore' hend'
      fun j hj => hs.lt_right (hsame j) (hbefore j hj)⟩

/-- **Spines agree**, wherever the walks are cut off. -/
theorem spine (hs : Similar R h h') (hv : R v v') : Spine.Similar R (h.spine v) (h'.spine v') := by
  have hsame := hs.walk hv
  by_cases hall : ∀ k, (h.cdr^[k] v).isPair = true
  · have hall' : ∀ k, (h'.cdr^[k] v').isPair = true := fun k =>
      (hs.kindred (hsame k)).isPair_eq ▸ hall k
    rw [Heap.spine, Heap.spine, Heap.spineOnto_endless fun k _ => hall k,
      Heap.spineOnto_endless fun k _ => hall' k]
    refine .endless fun p hp => Option.ext fun k => ?_
    have hpq : ∀ j, p (h.car (h.cdr^[j] v)) = p (h'.car (h'.cdr^[j] v')) :=
      fun j => hp _ _ (hs.car (hsame j))
    rw [List.reverse_nil, List.nil_append, List.nil_append,
      findIdx?_elements (Nat.le_succ _) fun j => hs.lt_left (hsame j) (hall j),
      findIdx?_elements (Nat.le_succ _) fun j => hs.lt_right (hsame j) (hall j), hpq k]
    exact and_congr_right fun _ => forall_congr' fun j => by rw [hpq j]
  · rw [not_forall] at hall
    classical
    have hend := Nat.find_spec hall
    have hbefore : ∀ j, j < Nat.find hall → (h.cdr^[j] v).isPair = true := fun j hj =>
      not_not.mp (Nat.find_min hall hj)
    generalize Nat.find hall = k at hend hbefore
    obtain ⟨hle, hle'⟩ := hs.le_of_not_pair hv hbefore hend
    have hbefore' : ∀ j, j < k → (h'.cdr^[j] v').isPair = true := fun j hj =>
      (hs.kindred (hsame j)).isPair_eq ▸ hbefore j hj
    have hend' : ¬ (h'.cdr^[k] v').isPair = true := (hs.kindred (hsame k)).isPair_eq ▸ hend
    rw [Heap.spine, Heap.spine, Heap.spineOnto_at hbefore (Bool.not_eq_true _ ▸ hend)
      (Nat.le_succ_of_le hle),
      Heap.spineOnto_at hbefore' (Bool.not_eq_true _ ▸ hend') (Nat.le_succ_of_le hle')]
    exact .at (hs.forall₂_elements hv k) (hsame k)

/-- Counts agree. -/
theorem count_eq (hs : Similar R h h') (hv : R v v') : h.count v = h'.count v' := by
  have hspine := hs.spine hv
  rw [Heap.count_eq, Heap.count_eq]
  generalize h.spine v = spine at hspine ⊢
  generalize h'.spine v' = spine' at hspine ⊢
  cases hspine with
  | «at» hi hl => simp only [Spine.count, hi.length_eq, (hs.kindred hl).isNil_eq]
  | endless _ => rfl

/-- **Searches agree**, wherever the walks are cut off. -/
theorem searchAlong {β β' : Type} {Q : β → β' → Prop} {next next' : Value → Value}
    {hit : Value → Option β} {hit' : Value → Option β'} (hs : Similar R h h')
    (hsame : ∀ k, R (next^[k] v) (next'^[k] v'))
    (hhit : ∀ k, Option.Rel Q (hit (next^[k] v)) (hit' (next'^[k] v'))) :
    Option.Rel Q (Heap.searchAlong next hit h.cells.size v)
      (Heap.searchAlong next' hit' h'.cells.size v') := by
  have hkind := fun k => (hs.kindred (hsame k)).isPair_eq
  have hnone : ∀ {k}, hit (next^[k] v) = none → hit' (next'^[k] v') = none := by
    intro k hk
    have hrel := hhit k
    rw [hk] at hrel
    generalize hit' (next'^[k] v') = found at hrel ⊢
    cases hrel
    rfl
  have hmiss : ∀ {k}, (∀ j, j < k → (next^[j] v).isPair = true ∧ hit (next^[j] v) = none) →
      ∀ j, j < k → (next'^[j] v').isPair = true ∧ hit' (next'^[j] v') = none := fun hm j hj =>
    ⟨hkind j ▸ (hm j hj).1, hnone (hm j hj).2⟩
  by_cases hall : ∀ k, (next^[k] v).isPair = true ∧ hit (next^[k] v) = none
  · rw [← Nat.add_zero h.cells.size, Heap.searchAlong_add fun j _ => hall j,
      ← Nat.add_zero h'.cells.size,
      Heap.searchAlong_add (hmiss (k := h'.cells.size) fun j _ => hall j)]
    exact .none
  · rw [not_forall] at hall
    classical
    have hend := Nat.find_spec hall
    have hbefore : ∀ j, j < Nat.find hall →
        (next^[j] v).isPair = true ∧ hit (next^[j] v) = none := fun j hj =>
      not_not.mp (Nat.find_min hall hj)
    generalize Nat.find hall = k at hend hbefore
    have hbefore' := hmiss hbefore
    have hle := Heap.first_le (P := fun u => u.isPair = true ∧ hit u = none) hbefore hend
      fun j hj => hs.lt_left (hsame j) (hbefore j hj).1
    by_cases hpair : (next^[k] v).isPair = true
    · -- something is found here, at a pair, which both walks meet before they are cut off
      have hpair' : (next'^[k] v').isPair = true := hkind k ▸ hpair
      have hfound : hit (next^[k] v) ≠ none := fun e => hend ⟨hpair, e⟩
      have hrel := hhit k
      obtain ⟨b, hb⟩ := Option.ne_none_iff_exists'.mp hfound
      rw [hb] at hrel
      obtain ⟨b', hb', hR⟩ : ∃ b', hit' (next'^[k] v') = some b' ∧ Q b b' := by
        generalize hit' (next'^[k] v') = found at hrel ⊢
        cases hrel with
        | some hR => exact ⟨_, rfl, hR⟩
      have hlt := Heap.first_lt (P := fun u => u.isPair = true ∧ hit u = none) hbefore hend
        fun j hj => hs.lt_left (hsame j) (by
          rcases Nat.lt_or_eq_of_le hj with h | rfl
          · exact (hbefore j h).1
          · exact hpair)
      have hlt' := Heap.first_lt (P := fun u => u.isPair = true ∧ hit' u = none) hbefore'
        (fun e => by rw [hb'] at e; cases e.2) fun j hj => hs.lt_right (hsame j) (by
          rcases Nat.lt_or_eq_of_le hj with h | rfl
          · exact (hbefore j h).1
          · exact hpair)
      obtain ⟨m, hm⟩ : ∃ m, h.cells.size = k + (m + 1) := ⟨h.cells.size - k - 1, by omega⟩
      obtain ⟨m', hm'⟩ : ∃ m, h'.cells.size = k + (m + 1) := ⟨h'.cells.size - k - 1, by omega⟩
      rw [hm, hm', Heap.searchAlong_add hbefore, Heap.searchAlong_add hbefore', Heap.searchAlong,
        Heap.searchAlong, if_pos hpair, if_pos hpair', hb, hb']
      exact .some hR
    · have hpair' : (next'^[k] v').isPair = false := hkind k ▸ Bool.eq_false_iff.mpr hpair
      have hle' := Heap.first_le (P := fun u => u.isPair = true ∧ hit' u = none) hbefore'
        (fun e => Bool.false_ne_true (hpair' ▸ e.1))
        fun j hj => hs.lt_right (hsame j) (hbefore j hj).1
      rw [← Nat.add_sub_cancel' hle, ← Nat.add_sub_cancel' hle', Heap.searchAlong_add hbefore,
        Heap.searchAlong_add hbefore', Heap.searchAlong_not_pair (Bool.eq_false_iff.mpr hpair),
        Heap.searchAlong_not_pair hpair']
      exact .none

/-! ### Bindings -/

/-- Frames, each in the one before it. -/
theorem climb (hs : Similar R h h') (hv : R v v') (k : Nat) : R (h.car^[k] v) (h'.car^[k] v') := by
  induction k with
  | zero => exact hv
  | succ k ih =>
    rw [Function.iterate_succ_apply', Function.iterate_succ_apply']
    exact hs.car ih

/-- **Bindings in a frame correspond**, if the keys do. -/
theorem bindingIn? (hs : Similar R h h') (hv : R v v') (hkey : ∀ {u u'}, R u u' → (u = key ↔ u' = key')) :
    Option.Rel R (h.bindingIn? v key) (h'.bindingIn? v' key') := by
  have hwalk := hs.walk (hs.cdr hv)
  rw [Heap.bindingIn?, Heap.bindingIn?, Heap.bindingAmong?_eq, Heap.bindingAmong?_eq]
  refine hs.searchAlong hwalk fun k => ?_
  have hcar := hs.car (hwalk k)
  have hdecide : decide (h.car (h.car (h.cdr^[k] (h.cdr v))) = key) =
      decide (h'.car (h'.car (h'.cdr^[k] (h'.cdr v'))) = key') := decide_eq_decide.mpr (hkey (hs.car hcar))
  rw [bindingHere?, bindingHere?, (hs.kindred hcar).isPair_eq, hdecide]
  split
  · exact .some hcar
  · exact .none

/-- **Nearest bindings correspond.** -/
theorem lookup? (hs : Similar R h h') (hv : R v v') (hkey : ∀ {u u'}, R u u' → (u = key ↔ u' = key')) :
    Option.Rel R (h.lookup? v key) (h'.lookup? v' key') := by
  have hclimb := hs.climb hv
  rw [Heap.lookup?, Heap.lookup?, Heap.lookupAmong?_eq, Heap.lookupAmong?_eq]
  exact hs.searchAlong hclimb fun k => hs.bindingIn? (hclimb k) hkey

/-! ## 3. Parameters and arguments -/

/-- **A list of parameters is one in both heaps.** -/
theorem isParameterList_eq (hs : Similar R h h') (hv : R v v') :
    Machine.isParameterList h v = Machine.isParameterList h' v' := by
  have hsame := fun k => hs.kindred (hs.walk hv k)
  have hsym : ∀ j, (h.car (h.cdr^[j] v)).isSym = (h'.car (h'.cdr^[j] v')).isSym := fun j =>
    (hs.kindred (hs.car (hs.walk hv j))).isSym_eq
  have hle : ∀ {k}, (∀ j, j < k → (h.cdr^[j] v).isPair = true ∧
      (h.car (h.cdr^[j] v)).isSym = true) →
      ((h.cdr^[k] v).isNil || (h.cdr^[k] v).isSym) = true →
      k ≤ h.cells.size ∧ k ≤ h'.cells.size := fun hbefore hend =>
    hs.le_of_not_pair hv (fun j hj => (hbefore j hj).1) (Heap.not_isPair_of_end hend)
  rw [Bool.eq_iff_iff, Machine.isParameterList, Machine.isParameterList, Heap.paramsValid_iff,
    Heap.paramsValid_iff]
  simp only [← hsym, ← (hsame _).isPair_eq, ← (hsame _).isNil_eq, ← (hsame _).isSym_eq]
  constructor
  · rintro ⟨k, _, hbefore, hend⟩
    exact ⟨k, (hle hbefore hend).2, hbefore, hend⟩
  · rintro ⟨k, _, hbefore, hend⟩
    exact ⟨k, (hle hbefore hend).1, hbefore, hend⟩

/-- Names and values that are walked at once, up to the first that is no pair. -/
theorem pairUp_ends (hs : Similar R h h') (hq : Similar Q h h') {k m m' : Nat} (hv : R v v') (hw : Q w w')
    (hbefore : ∀ j, j < k → (h.cdr^[j] v).isPair = true ∧ (h.cdr^[j] w).isPair = true)
    (hend : ¬ ((h.cdr^[k] v).isPair = true ∧ (h.cdr^[k] w).isPair = true)) (hm : k < m) (hm' : k < m') :
    Machine.Fit.Agree R Q (Machine.pairUp h m v w) (Machine.pairUp h' m' v' w') := by
  induction k generalizing v v' w w' m m' with
  | zero =>
    replace hend : ¬ (v.isPair = true ∧ w.isPair = true) := hend
    obtain ⟨l, rfl⟩ : ∃ l, m = l + 1 := ⟨m - 1, by omega⟩
    obtain ⟨l', rfl⟩ : ∃ l, m' = l + 1 := ⟨m' - 1, by omega⟩
    rw [Machine.pairUp, Machine.pairUp, ← (hs.kindred hv).isPair_eq, ← (hs.kindred hv).isSym_eq,
      ← (hq.kindred hw).isPair_eq, ← (hq.kindred hw).isNil_eq]
    by_cases hpair : v.isPair = true
    · rw [if_pos hpair, if_pos hpair, if_neg fun e => hend ⟨hpair, e⟩, if_neg fun e => hend ⟨hpair, e⟩]
      exact .ends _ .nil
    · rw [if_neg hpair, if_neg hpair]
      by_cases hsym : v.isSym = true
      · rw [if_pos hsym, if_pos hsym]
        exact .ends _ (.cons ⟨hv, hw⟩ .nil)
      · rw [if_neg hsym, if_neg hsym]
        split
        · exact .ends _ .nil
        · exact .ends _ .nil
  | succ k ih =>
    obtain ⟨hpair, hpair'⟩ := hbefore 0 (Nat.zero_lt_succ k)
    replace hpair : v.isPair = true := hpair
    replace hpair' : w.isPair = true := hpair'
    obtain ⟨l, rfl⟩ : ∃ l, m = l + 1 := ⟨m - 1, by omega⟩
    obtain ⟨l', rfl⟩ : ∃ l, m' = l + 1 := ⟨m' - 1, by omega⟩
    have hrest := ih (hs.cdr hv) (hq.cdr hw) (fun j hj => hbefore (j + 1) (Nat.succ_lt_succ hj)) hend
      (Nat.lt_of_succ_lt_succ hm) (Nat.lt_of_succ_lt_succ hm')
    have hfirst := And.intro (hs.car hv) (hq.car hw)
    rw [Machine.pairUp, Machine.pairUp, ← (hs.kindred hv).isPair_eq, ← (hq.kindred hw).isPair_eq,
      if_pos hpair, if_pos hpair, if_pos hpair', if_pos hpair']
    generalize Machine.pairUp h l (h.cdr v) (h.cdr w) = p at hrest
    generalize Machine.pairUp h' l' (h'.cdr v') (h'.cdr w') = p' at hrest
    cases hrest with
    | ends fit hb => exact .ends fit (.cons hfirst hb)
    | endless bound bound' => exact .endless _ _

/-- **Parameters and arguments are paired alike**, wherever the walks are cut off. -/
theorem pairUp (hs : Similar R h h') (hq : Similar Q h h') (hv : R v v') (hw : Q w w') :
    Machine.Fit.Agree R Q (Machine.pairUp h (h.cells.size + 1) v w)
      (Machine.pairUp h' (h'.cells.size + 1) v' w') := by
  have hsame := hs.walk hv
  have hsame' := hq.walk hw
  by_cases hall : ∀ k, (h.cdr^[k] v).isPair = true ∧ (h.cdr^[k] w).isPair = true
  · have hleft := pairUp_endless (n := h.cells.size + 1) hall
    have hright := pairUp_endless (h := h') (n := h'.cells.size + 1) (v := v') (w := w') fun j =>
      ⟨(hs.kindred (hsame j)).isPair_eq ▸ (hall j).1, (hq.kindred (hsame' j)).isPair_eq ▸ (hall j).2⟩
    generalize Machine.pairUp h _ v w = p at hleft ⊢
    generalize Machine.pairUp h' _ v' w' = p' at hright ⊢
    obtain ⟨bound, fit⟩ := p
    obtain ⟨bound', fit'⟩ := p'
    cases hleft
    cases hright
    exact .endless _ _
  · rw [not_forall] at hall
    classical
    have hend := Nat.find_spec hall
    have hbefore : ∀ j, j < Nat.find hall →
        (h.cdr^[j] v).isPair = true ∧ (h.cdr^[j] w).isPair = true := fun j hj =>
      not_not.mp (Nat.find_min hall hj)
    generalize Nat.find hall = k at hend hbefore
    -- the walk that comes to its end first does so before either heap is used up
    have hle : k ≤ h.cells.size ∧ k ≤ h'.cells.size := by
      by_cases hpair : (h.cdr^[k] v).isPair = true
      · exact hq.le_of_not_pair hw (fun j hj => (hbefore j hj).2) fun e => hend ⟨hpair, e⟩
      · exact hs.le_of_not_pair hv (fun j hj => (hbefore j hj).1) hpair
    exact hs.pairUp_ends hq hv hw hbefore hend (Nat.lt_succ_of_le hle.1) (Nat.lt_succ_of_le hle.2)

theorem takeRequired (hs : Similar R h h') (n : Nat) (hv : R v v') :
    Option.Rel (fun p p' => List.Forall₂ R p.1 p'.1 ∧ R p.2 p'.2)
      (Machine.takeRequired h n v) (Machine.takeRequired h' n v') := by
  induction n generalizing v v' with
  | zero => exact .some ⟨.nil, hv⟩
  | succ n ih =>
    have hcar := hs.car hv
    have hrest := ih (hs.cdr hv)
    rw [Machine.takeRequired, Machine.takeRequired, ← (hs.kindred hv).isPair_eq]
    split
    · generalize Machine.takeRequired h n (h.cdr v) = p at hrest
      generalize Machine.takeRequired h' n (h'.cdr v') = p' at hrest
      cases hrest with
      | none => exact .none
      | some hp => exact .some ⟨.cons hcar hp.1, hp.2⟩
    · exact .none

theorem takeOptional (hs : Similar R h h') (n : Nat) (hv : R v v') :
    List.Forall₂ R (Machine.takeOptional h n v).1 (Machine.takeOptional h' n v').1 ∧
      R (Machine.takeOptional h n v).2 (Machine.takeOptional h' n v').2 := by
  induction n generalizing v v' with
  | zero => exact ⟨.nil, hv⟩
  | succ n ih =>
    obtain ⟨hargs, hleft⟩ := ih (hs.cdr hv)
    exact ⟨.cons (hs.car hv) hargs, hleft⟩

/-- **The arguments of a native are laid out alike.** -/
theorem takeArguments (hs : Similar R h h') (arity : Arity) (hv : R v v') :
    Machine.Misfit.Agree R (Machine.takeArguments h arity v) (Machine.takeArguments h' arity v') := by
  have hreq := hs.takeRequired arity.required hv
  rw [Machine.takeArguments, Machine.takeArguments]
  generalize Machine.takeRequired h arity.required v = p at hreq
  generalize Machine.takeRequired h' arity.required v' = p' at hreq
  cases hreq with
  | none => exact .misfit _
  | @some p p' hp =>
    obtain ⟨hopt, hrest⟩ := hs.takeOptional arity.optional hp.2
    have hargs := List.rel_append hp.1 hopt
    dsimp only
    split
    · exact .fit (List.rel_append hargs (.cons hrest .nil))
    · rw [← (hs.kindred hrest).isNil_eq]
      split
      · exact .fit hargs
      · exact .misfit _

/-! ## 4. Texts -/

variable {t t' : SymbolTable}

/-- One list, of which at most so many elements more are written. -/
theorem writeSpine_eq (hs : Similar R h h') {item item' : String → Value → String}
    (hitem : ∀ out u u', R u u' → item out u = item' out u') (more : Nat) (out : String) (hv : R v v') :
    Printer.writeSpine h item more out v = Printer.writeSpine h' item' more out v' := by
  have hcdr := hs.cdr hv
  induction more generalizing out v v' with
  | zero =>
    rw [Printer.writeSpine, Printer.writeSpine, hitem _ _ _ (hs.car hv), (hs.kindred hcdr).isPair_eq]
    refine ite_congr rfl (fun _ => rfl) fun _ => ?_
    rw [Printer.writeEnd, Printer.writeEnd, (hs.kindred hcdr).isNil_eq, hitem _ _ _ hcdr]
  | succ more ih =>
    rw [Printer.writeSpine, Printer.writeSpine, hitem _ _ _ (hs.car hv), (hs.kindred hcdr).isPair_eq]
    refine ite_congr rfl (fun _ => ih _ hcdr (hs.cdr hcdr)) fun _ => ?_
    rw [Printer.writeEnd, Printer.writeEnd, (hs.kindred hcdr).isNil_eq, hitem _ _ _ hcdr]

/-- **Values that are related have the same text**, if symbols and objects have. The induction is on the
    room that is left below a value, and within one list on the elements that may still be written. -/
theorem write_eq (hs : Similar R h h')
    (hsym : ∀ {i j}, R (.sym i) (.sym j) → Printer.symbolText t i = Printer.symbolText t' j)
    (hobject : ∀ {a b}, R (.object a) (.object b) →
      Printer.objectText h t (.object a) = Printer.objectText h' t' (.object b))
    (room : Nat) (out : String) (hv : R v v') :
    Printer.write h t room out v = Printer.write h' t' room out v' := by
  induction room generalizing out v v' with
  | zero => rw [Printer.write, Printer.write]
  | succ room ih =>
    cases hs.kindred hv with
    | nil => rw [Printer.write, Printer.write]
    | int n => rw [Printer.write, Printer.write]
    | sym i j => rw [Printer.write, Printer.write, hsym hv]
    | object a b => rw [Printer.write, Printer.write, hobject hv]
    | pair a b =>
      rw [Printer.write, Printer.write]
      exact hs.writeSpine_eq (fun out u u' hu => ih out hu) _ _ hv

end Similar

end Heap

end LispMachine
