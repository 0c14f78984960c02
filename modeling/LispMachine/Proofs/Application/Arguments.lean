import LispMachine.Machine.Call
import LispMachine.Proofs.Construction.Keeping

/-!
# Two walks over a list of arguments

A function walks its names and its arguments at once, a native counts the arguments off. Both read lists
as they lie in the heap, so each walk is said by the elements of the list and by what follows them:

* `Machine.bindings`, `Machine.Fits` -- what parameters are bound to, and which numbers of arguments they
  take; `Machine.pairUp_eq` -- **the walk over names and arguments**;
* `Arity.Takes`, `Arity.given` -- the numbers of arguments that an arity takes, and what a native is
  given; `Machine.takeArguments_eq` -- **the walk that counts**.

Either is stated for any list, whatever follows its last pair, and for as much of a circular one as the
walk needs. Where nothing follows, the arguments fit or not by their number (`Machine.fits_iff`,
`Machine.takeArguments_proper`).
-/

namespace LispMachine

open Context

variable {h : Heap} {v w e last : Value} {xs names values : List Value} {as ns cells : List Addr}
variable {n : Nat} {arity : Arity}

/-! ## 1. Parts of a list -/

namespace Heap.Links

/-- What is left of a list after some of its elements. -/
theorem drop (hl : h.Links v xs as e) (hn : n ≤ xs.length) :
    h.Links (h.cdr^[n] v) (xs.drop n) (as.drop n) e := by
  induction n generalizing v xs as with
  | zero => exact hl
  | succ n ih =>
    cases hl with
    | nil => exact absurd hn (Nat.not_succ_le_zero n)
    | cons hcell hrest =>
      rw [Function.iterate_succ_apply, Heap.cdr_of_cell hcell]
      exact ih hrest (Nat.le_of_succ_le_succ hn)

/-- Where a list begins, by its pairs and by what follows them. -/
theorem begin_eq {g : Heap} (hl : h.Links v xs as e) (hl' : g.Links w xs as e) : v = w := by
  cases hl <;> cases hl' <;> rfl

/-- A list that lies in another heap just so. -/
theorem iterate_congr {g : Heap} (hl : h.Links v xs as e) (hl' : g.Links v xs as e) (hn : n ≤ xs.length) :
    g.cdr^[n] v = h.cdr^[n] v := by
  induction n generalizing v xs as with
  | zero => rfl
  | succ n ih =>
    cases hl with
    | nil => exact absurd hn (Nat.not_succ_le_zero n)
    | cons hcell hrest =>
      cases hl' with
      | cons hcell' hrest' =>
        rw [Function.iterate_succ_apply, Function.iterate_succ_apply, Heap.cdr_of_cell hcell,
          Heap.cdr_of_cell hcell']
        obtain rfl := hrest.begin_eq hrest'
        exact ih hrest hrest' (Nat.le_of_succ_le_succ hn)

/-- The end of a list, and nothing after it. -/
theorem iterate_end (he : e.isPair = false) : h.cdr^[n + 1] e = .nil := by
  have hcdr : ∀ u : Value, u.isPair = false → h.cdr u = .nil := by
    intro u hu
    cases u <;> first | rfl | cases hu
  induction n generalizing e with
  | zero => exact hcdr e he
  | succ n ih =>
    rw [Function.iterate_succ_apply, hcdr e he]
    exact ih rfl

/-- The elements along a walk over a list: nil after its end. -/
theorem elements_eq (hl : h.Links v xs as e) (he : e.isPair = false) :
    h.elements v n = xs.take n ++ List.replicate (n - xs.length) .nil := by
  have hcar : ∀ u : Value, u.isPair = false → h.car u = .nil := by
    intro u hu
    cases u <;> first | rfl | cases hu
  have hnil : ∀ n, ∀ u : Value, u.isPair = false → h.elements u n = List.replicate n .nil := by
    intro n
    induction n with
    | zero => exact fun _ _ => rfl
    | succ n ih =>
      intro u hu
      have hcdr : h.cdr u = .nil := iterate_end (n := 0) hu
      rw [Heap.elements_succ, hcar u hu, hcdr, ih .nil rfl]
      rfl
  induction hl generalizing n with
  | nil =>
    rw [List.take_nil, List.nil_append]
    exact hnil n _ he
  | @cons a x y e xs as hcell _ ih =>
    cases n with
    | zero => simp [Heap.elements]
    | succ n =>
      rw [Heap.elements_succ, Heap.car_of_cell hcell, Heap.cdr_of_cell hcell, ih he, List.take_succ_cons,
        List.length_cons, Nat.add_sub_add_right]
      rfl

end Heap.Links

/-! ## 2. Names and arguments -/

namespace Machine

/-- What the parameters of a function are bound to: the names to the arguments in order, and a symbol
    that follows them to what is left. -/
def bindings (names : List Value) (last : Value) (values : List Value) (rest : Value) : List (Value × Value) :=
  names.zip values ++ if last.isSym then [(last, rest)] else []

/-- So many arguments fit the names, and what follows these. -/
def Fits (names : List Value) (last : Value) (count : Nat) : Prop :=
  if last.isSym then names.length ≤ count else count = names.length

instance {count : Nat} : Decidable (Fits names last count) :=
  inferInstanceAs (Decidable (if last.isSym then names.length ≤ count else count = names.length))

/-- **Names and arguments are walked at once**: too few arguments are noticed first, and then, without a
    symbol for them, that something is left. -/
theorem pairUp_eq (hn : h.Links v names ns last) (hlast : last.isPair = false)
    (hw : h.Links w values cells e) (he : e.isPair = true → names.length ≤ values.length)
    (hlt : names.length < n) :
    pairUp h n v w =
      if values.length < names.length then (names.zip values, .tooFew)
      else (bindings names last values (h.cdr^[names.length] w),
        if last.isSym || (h.cdr^[names.length] w).isNil then .exact else .tooMany) := by
  obtain ⟨m, rfl⟩ : ∃ m, n = m + 1 := ⟨n - 1, by omega⟩
  induction hn generalizing w values cells m with
  | nil =>
    rw [pairUp, hlast, if_neg Bool.false_ne_true, List.length_nil, if_neg (Nat.not_lt_zero _), bindings,
      List.zip_nil_left, List.nil_append, Function.iterate_zero_apply]
    split
    · rename_i hsym
      rw [hsym]
      rfl
    · rename_i hsym
      rw [Bool.eq_false_iff.mpr hsym]
      cases w.isNil <;> rfl
  | @cons a x y last names ns hcell _ ih =>
    have hpair : (Value.pair a).isPair = true := rfl
    rw [pairUp, if_pos hpair, Heap.car_of_cell hcell, Heap.cdr_of_cell hcell]
    cases hw with
    | nil =>
      have hend : e.isPair = false := Bool.eq_false_iff.mpr fun hp => Nat.not_succ_le_zero _ (he hp)
      rw [hend, if_neg Bool.false_ne_true, List.length_nil, List.length_cons, if_pos (Nat.zero_lt_succ _),
        List.zip_nil_right]
    | @cons b u z _ values cells hcell' hrest =>
      have hpair' : (Value.pair b).isPair = true := rfl
      obtain ⟨m, rfl⟩ : ∃ k, m = k + 1 := ⟨m - 1, by rw [List.length_cons] at hlt; omega⟩
      rw [if_pos hpair', Heap.car_of_cell hcell', Heap.cdr_of_cell hcell', ih hlast hrest
        (fun hp => Nat.le_of_succ_le_succ (he hp)) m (Nat.lt_of_succ_lt_succ hlt), List.length_cons,
        List.length_cons, Function.iterate_succ_apply, Heap.cdr_of_cell hcell']
      by_cases hfew : values.length < names.length
      · rw [if_pos hfew, if_pos (Nat.succ_lt_succ hfew)]
        rfl
      · rw [if_neg hfew, if_neg fun hlt => hfew (Nat.lt_of_succ_lt_succ hlt)]
        rfl

/-- What is left of a proper list is nil, if there are not too many of its elements. -/
theorem isNil_left (hw : h.Lists w values cells) : (h.cdr^[n] w).isNil = decide (values.length ≤ n) := by
  by_cases hn : values.length ≤ n
  · rw [decide_eq_true hn]
    have hend : h.cdr^[values.length] w = .nil := hw.walk.2.1
    obtain ⟨k, rfl⟩ := Nat.exists_eq_add_of_le' hn
    rw [Function.iterate_add_apply, hend]
    cases k with
    | zero => rfl
    | succ k => rw [Heap.Links.iterate_end rfl]; rfl
  · rw [decide_eq_false hn]
    obtain ⟨a, -, ha⟩ := hw.walk.1 n (Nat.lt_of_not_le hn)
    rw [ha]
    rfl

/-- **The arguments of a proper list fit** exactly if there is one for each name, and what is left has a
    symbol, or nothing is left. -/
theorem fits_iff (hw : h.Lists w values cells) : Fits names last values.length ↔
    names.length ≤ values.length ∧ (last.isSym || (h.cdr^[names.length] w).isNil) = true := by
  rw [Fits, isNil_left hw]
  cases last.isSym with
  | true =>
    rw [if_pos rfl, Bool.true_or]
    exact (and_iff_left rfl).symm
  | false =>
    rw [if_neg Bool.false_ne_true, Bool.false_or, decide_eq_true_eq]
    omega

/-! ## 3. Arities -/

/-- **Required arguments are counted off.** -/
theorem takeRequired_eq (hw : h.Links w values cells e) (he : e.isPair = true → n ≤ values.length) :
    takeRequired h n w = if n ≤ values.length then some (h.elements w n, h.cdr^[n] w) else none := by
  induction n generalizing w values cells with
  | zero => rfl
  | succ n ih =>
    cases hw with
    | nil =>
      have hend : e.isPair = false := Bool.eq_false_iff.mpr fun hp => Nat.not_succ_le_zero _ (he hp)
      rw [takeRequired, hend, if_neg Bool.false_ne_true, List.length_nil, if_neg (Nat.not_succ_le_zero _)]
    | @cons a x y _ values cells hcell hrest =>
      have hpair : (Value.pair a).isPair = true := rfl
      rw [takeRequired, if_pos hpair, Heap.car_of_cell hcell, Heap.cdr_of_cell hcell,
        ih hrest fun hp => Nat.le_of_succ_le_succ (he hp)]
      rw [Heap.elements_succ, Function.iterate_succ_apply, Heap.car_of_cell hcell, Heap.cdr_of_cell hcell,
        List.length_cons]
      by_cases hn : n ≤ values.length
      · rw [if_pos hn, if_pos (Nat.succ_le_succ hn)]
        rfl
      · rw [if_neg hn, if_neg fun hle => hn (Nat.le_of_succ_le_succ hle)]
        rfl

/-- **Optional arguments are counted off**, nil for those that are not there. -/
theorem takeOptional_eq (h : Heap) (n : Nat) (w : Value) :
    takeOptional h n w = (h.elements w n, h.cdr^[n] w) := by
  induction n generalizing w with
  | zero => rfl
  | succ n ih => rw [takeOptional, ih, Heap.elements_succ, Function.iterate_succ_apply]

end Machine

/-- The elements along a walk, in two parts. -/
theorem Heap.elements_add (h : Heap) (w : Value) (m n : Nat) :
    h.elements w (m + n) = h.elements w m ++ h.elements (h.cdr^[m] w) n := by
  induction m generalizing w with
  | zero =>
    rw [Nat.zero_add]
    rfl
  | succ m ih =>
    rw [Nat.succ_add, Heap.elements_succ, ih, Heap.elements_succ, Function.iterate_succ_apply]
    rfl

namespace Arity

/-- So many arguments fit an arity. -/
def Takes (arity : Arity) (count : Nat) : Prop :=
  arity.required ≤ count ∧ (arity.rest = true ∨ count ≤ arity.required + arity.optional)

instance {count : Nat} : Decidable (arity.Takes count) :=
  inferInstanceAs (Decidable (arity.required ≤ count ∧ (arity.rest = true ∨ count ≤ arity.required + arity.optional)))

/-- What a native of an arity is given: the arguments in order, nil for missing optional ones, and what
    is left for the rest. -/
def given (arity : Arity) (values : List Value) (rest : Value) : List Value :=
  values.take (arity.required + arity.optional) ++
    List.replicate (arity.required + arity.optional - values.length) .nil ++
    if arity.rest then [rest] else []

theorem length_given (arity : Arity) (values : List Value) (rest : Value) :
    (arity.given values rest).length = arity.slots := by
  rw [given, slots, List.length_append, List.length_append, List.length_take, List.length_replicate]
  have hlast : (if arity.rest = true then [rest] else []).length = if arity.rest then 1 else 0 := by
    split <;> rfl
  rw [hlast]
  omega

end Arity

namespace Machine

/-- **Arguments are laid out by an arity**: too few required ones are noticed first, and then, without a
    rest, that something is left. -/
theorem takeArguments_eq (hw : h.Links w values cells e) (he : e.isPair = true → arity.required ≤ values.length) :
    takeArguments h arity w =
      let rest := h.cdr^[arity.required + arity.optional] w
      if values.length < arity.required then .error .tooFew
      else if arity.rest || rest.isNil then
        .ok (h.elements w (arity.required + arity.optional) ++ if arity.rest then [rest] else [])
      else .error .tooMany := by
  dsimp only
  rw [takeArguments, takeRequired_eq hw he]
  by_cases hfew : values.length < arity.required
  · rw [if_neg (Nat.not_le_of_lt hfew), if_pos hfew]
  · rw [if_pos (Nat.le_of_not_lt hfew), if_neg hfew]
    dsimp only
    rw [takeOptional_eq, Heap.elements_add, Nat.add_comm arity.required, Function.iterate_add_apply]
    cases arity.rest with
    | true => rfl
    | false =>
      rw [Bool.false_or]
      dsimp only
      cases (h.cdr^[arity.optional] (h.cdr^[arity.required] w)).isNil with
      | true => simp
      | false => rfl

/-- **A proper list of arguments is laid out by an arity** exactly if so many arguments fit. -/
theorem takeArguments_proper (hw : h.Lists w values cells) :
    takeArguments h arity w =
      if arity.Takes values.length then .ok (arity.given values (h.cdr^[arity.required + arity.optional] w))
      else .error (if values.length < arity.required then .tooFew else .tooMany) := by
  rw [takeArguments_eq hw nofun]
  dsimp only
  rw [isNil_left hw, hw.elements_eq rfl]
  by_cases hfew : values.length < arity.required
  · rw [if_pos hfew, if_pos hfew, if_neg fun htakes => Nat.not_le_of_lt hfew htakes.1]
  · have hmany : (arity.rest || decide (values.length ≤ arity.required + arity.optional)) = true ↔
        arity.Takes values.length := by
      rw [Bool.or_eq_true, decide_eq_true_eq, Arity.Takes, and_iff_right (Nat.le_of_not_lt hfew)]
    rw [if_neg hfew, if_neg hfew, if_congr hmany rfl rfl]
    rfl

end Machine

end LispMachine
