import LispMachine.Proofs.Similar
import LispMachine.Proofs.Twin.Shape

/-!
# What is read off corresponding values

Slots of corresponding pairs correspond, in the roles that the shape of the pair says
(`Coherent.car`, `Coherent.cdr`), and so does everything that is read by way of them: types and
contents of objects, elements of lists, bindings, and the text of a value.

A walk that is cut off after as many steps as there are cells is cut off at different places in the
two heaps. It has met by then whatever there is to be met (`LispMachine.Proofs.Walk`), so that the
outcomes agree (`Coherent.spine`, `Coherent.lookup?`).
-/

namespace LispMachine.Twin

open World

variable {lex : Lexicon} {T : Twin} {v v' : Value} {s : Shape}

/-! ## 1. Slots -/

theorem car_of_pair {h : Heap} {a : Addr} {x y : Value} (ha : h.cells[a]? = some (.pair x y)) :
    h.car (.pair a) = x := by
  rw [Heap.car, ha]

theorem cdr_of_pair {h : Heap} {a : Addr} {x y : Value} (ha : h.cells[a]? = some (.pair x y)) :
    h.cdr (.pair a) = y := by
  rw [Heap.cdr, ha]

theorem car_of_not_pair {h : Heap} (hv : v.isPair = false) : h.car v = .nil := by
  cases v <;> first | rfl | cases hv

theorem cdr_of_not_pair {h : Heap} (hv : v.isPair = false) : h.cdr v = .nil := by
  cases v <;> first | rfl | cases hv

theorem isPair_of_atom (hv : v.addr? = none) : v.isPair = false := by
  cases v <;> first | rfl | cases hv

/-- Corresponding values are of one kind. -/
theorem kindred_of_same {W : World} (h : W.Same v v') : v.Kindred v' := by
  cases h with
  | atom hv => exact .rfl_of_atom hv
  | object _ => exact .object _ _
  | pair _ => exact .pair _ _

namespace Coherent

/-- **First slots correspond**, in the role that the shape says. -/
theorem car (hT : T.Coherent lex) (h : T.world.Rel (.just s) v v') :
    T.world.Rel s.first (T.left.car v) (T.right.car v') := by
  cases h with
  | atom hv =>
    rw [car_of_not_pair (isPair_of_atom hv), car_of_not_pair (isPair_of_atom hv)]
    exact .nil
  | object _ => exact .nil
  | pair hw hs =>
    cases hs
    obtain ⟨x, y, x', y', hp⟩ := hT.pairs hw
    rw [car_of_pair hp.left, car_of_pair hp.right]
    exact hp.first

/-- **Rest slots correspond**, in the shape that the shape says. -/
theorem cdr (hT : T.Coherent lex) (h : T.world.Rel (.just s) v v') :
    T.world.Rel (.just s.rest) (T.left.cdr v) (T.right.cdr v') := by
  cases h with
  | atom hv =>
    rw [cdr_of_not_pair (isPair_of_atom hv), cdr_of_not_pair (isPair_of_atom hv)]
    exact .nil
  | object _ => exact .nil
  | pair hw hs =>
    cases hs
    obtain ⟨x, y, x', y', hp⟩ := hT.pairs hw
    rw [cdr_of_pair hp.left, cdr_of_pair hp.right]
    cases hp.rest with
    | done hv => exact hv
    | more ho _ => cases ho

theorem same_car (hT : T.Coherent lex) (h : T.world.Same v v') :
    T.world.Same (T.left.car v) (T.right.car v') := by
  cases h with
  | atom hv => exact (hT.car (s := .data) (.atom hv)).same
  | object hw => exact (hT.car (s := .data) (.object hw)).same
  | pair hw =>
    obtain ⟨x, y, x', y', hp⟩ := hT.pairs hw
    rw [car_of_pair hp.left, car_of_pair hp.right]
    exact hp.first.same

theorem same_cdr (hT : T.Coherent lex) (h : T.world.Same v v') :
    T.world.Same (T.left.cdr v) (T.right.cdr v') := by
  cases h with
  | atom hv => exact (hT.cdr (s := .data) (.atom hv)).same
  | object hw => exact (hT.cdr (s := .data) (.object hw)).same
  | pair hw =>
    obtain ⟨x, y, x', y', hp⟩ := hT.pairs hw
    rw [cdr_of_pair hp.left, cdr_of_pair hp.right]
    exact hp.rest.same

theorem same_nth (hT : T.Coherent lex) (h : T.world.Same v v') (n : Nat) :
    T.world.Same (T.left.nth v n) (T.right.nth v' n) := by
  induction n generalizing v v' with
  | zero => exact hT.same_car h
  | succ n ih => exact ih (hT.same_cdr h)

/-- The elements of a list whose rest slots have its own shape. -/
theorem nth (hT : T.Coherent lex) (hs : s.rest = s) (h : T.world.Rel (.just s) v v') (n : Nat) :
    T.world.Rel s.first (T.left.nth v n) (T.right.nth v' n) := by
  induction n generalizing v v' with
  | zero => exact hT.car h
  | succ n ih =>
    have hcdr := hT.cdr h
    rw [hs] at hcdr
    exact ih hcdr

/-- Corresponding pairs are there. -/
theorem lt_left (hT : T.Coherent lex) {v v' : Value} (h : T.world.Same v v')
    (hv : v.isPair = true) : ∃ a : Nat, a < T.left.cells.size ∧ v = .pair a := by
  cases h with
  | atom hv' => exact absurd hv (by rw [isPair_of_atom hv']; exact Bool.false_ne_true)
  | object _ => cases hv
  | pair hw =>
    obtain ⟨x, y, x', y', hp⟩ := hT.pairs hw
    exact ⟨_, (Array.getElem?_eq_some_iff.mp hp.left).1, rfl⟩

theorem lt_right (hT : T.Coherent lex) {v v' : Value} (h : T.world.Same v v')
    (hv : v.isPair = true) : ∃ a : Nat, a < T.right.cells.size ∧ v' = .pair a := by
  cases h with
  | atom hv' => exact absurd hv (by rw [isPair_of_atom hv']; exact Bool.false_ne_true)
  | object _ => cases hv
  | pair hw =>
    obtain ⟨x, y, x', y', hp⟩ := hT.pairs hw
    exact ⟨_, (Array.getElem?_eq_some_iff.mp hp.right).1, rfl⟩

/-! ## 2. Objects -/

/-- Corresponding values are of one type. -/
theorem typeOf_eq (hT : T.Coherent lex) (h : T.world.Same v v') :
    T.left.typeOf v = T.right.typeOf v' := by
  cases h with
  | atom hv => cases v <;> first | rfl | cases hv
  | object hw =>
    obtain ⟨t, p, p', hl, hr, _⟩ := hT.objects hw
    rw [Heap.typeOf, Heap.typeOf, hl, hr]
  | pair _ => rfl

/-- Corresponding strings have the same bytes. -/
theorem bytes?_eq (hT : T.Coherent lex) (h : T.world.Same v v') :
    T.left.bytes? v = T.right.bytes? v' := by
  have htype := hT.typeOf_eq h
  cases h with
  | atom hv => cases v <;> first | rfl | cases hv
  | object hw =>
    obtain ⟨t, p, p', hl, hr, ha⟩ := hT.objects hw
    rw [Heap.bytes?, Heap.bytes?, htype, Heap.payload?, Heap.payload?, hl, hr]
    cases ha <;> rfl
  | pair _ => rfl

/-- A native is one and the same primitive, and one that there is. -/
theorem procedure?_eq (hT : T.Coherent lex) (h : T.world.Same v v') :
    T.left.procedure? v = T.right.procedure? v' ∧
      ∀ p, T.left.procedure? v = some p → ∃ q, p = .primitive q ∧ lex.natives q := by
  have htype := hT.typeOf_eq h
  cases h with
  | atom hv => cases v <;> first | exact ⟨rfl, nofun⟩ | cases hv
  | object hw =>
    obtain ⟨t, p, p', hl, hr, ha⟩ := hT.objects hw
    rw [Heap.procedure?, Heap.procedure?, htype, Heap.payload?, Heap.payload?, hl, hr]
    cases ha with
    | func _ => exact ⟨rfl, nofun⟩
    | native hq =>
      refine ⟨rfl, fun p hp => ⟨_, ?_, hq⟩⟩
      show p = _
      simp only at hp
      split at hp
      · exact (Option.some.inj hp).symm
      · cases hp
    | str _ => exact ⟨rfl, nofun⟩
  | pair _ => exact ⟨rfl, nofun⟩

theorem closureParts (hT : T.Coherent lex) (h : T.world.Same v v') :
    T.world.Rel (.just .env) (T.left.closureParts v) (T.right.closureParts v') := by
  cases h with
  | atom hv =>
    have hnone : ∀ g : Heap, g.closureParts v = .nil := fun g => by
      cases v <;> first | rfl | cases hv
    rw [hnone, hnone]
    exact .nil
  | object hw =>
    obtain ⟨t, p, p', hl, hr, ha⟩ := hT.objects hw
    rw [Heap.closureParts, Heap.closureParts, Heap.payload?, Heap.payload?, hl, hr]
    cases ha with
    | func hp => exact hp
    | native _ => exact .nil
    | str _ => exact .nil
  | pair _ => exact .nil

/-- Same value, or strings of the same bytes. -/
theorem equal_eq (hT : T.Coherent lex) {w w' : Value} (h : T.world.Same v v')
    (hw : T.world.Same w w') : T.left.equal v w = T.right.equal v' w' := by
  rw [Heap.equal, Heap.equal, hT.bytes?_eq h, hT.bytes?_eq hw,
    decide_eq_decide.mpr (hT.one.eq_iff h hw)]

/-! ## 3. Walks -/

/-- Two heaps look alike from corresponding values. -/
theorem similar (hT : T.Coherent lex) : Heap.Similar T.world.Same T.left T.right where
  kindred := kindred_of_same
  car := hT.same_car
  cdr := hT.same_cdr
  inside h := by
    obtain ⟨a, ha, heq⟩ := hT.lt_left h rfl
    obtain ⟨b, hb, heq'⟩ := hT.lt_right h rfl
    cases heq
    cases heq'
    exact ⟨ha, hb⟩

theorem same_walk (hT : T.Coherent lex) (h : T.world.Same v v') (k : Nat) :
    T.world.Same (T.left.cdr^[k] v) (T.right.cdr^[k] v') :=
  hT.similar.walk h k

/-- **Spines agree**, wherever the walks are cut off. -/
theorem spine (hT : T.Coherent lex) (h : T.world.Same v v') :
    Spine.Similar T.world.Same (T.left.spine v) (T.right.spine v') :=
  hT.similar.spine h

/-- Counts agree. -/
theorem count (hT : T.Coherent lex) (h : T.world.Same v v') : T.left.count v = T.right.count v' :=
  hT.similar.count_eq h

/-- **Searches agree**, wherever the walks are cut off. -/
theorem searchAlong {β β' : Type} {R : β → β' → Prop} {next next' : Value → Value}
    {hit : Value → Option β} {hit' : Value → Option β'} (hT : T.Coherent lex)
    (hsame : ∀ k, T.world.Same (next^[k] v) (next'^[k] v'))
    (hhit : ∀ k, Option.Rel R (hit (next^[k] v)) (hit' (next'^[k] v'))) :
    Option.Rel R (Heap.searchAlong next hit T.left.cells.size v)
      (Heap.searchAlong next' hit' T.right.cells.size v') :=
  hT.similar.searchAlong hsame hhit

end Coherent

end LispMachine.Twin
