import LispMachine.Machine.Run

/-!
# The code of a function

What the evaluator walks while the body of a function runs, as it lies in the heap when the call starts:

* `Heap.Level`, `Heap.NestsWithin` -- how deep lists are nested in a value; `Heap.everyPair` finds it out;
* `Part` -- what a piece of code is there for, and whether it is in tail position;
* `Code` -- **the pieces of a body**, each with the number of pairs whose evaluation it stands in. None of
  them is nested less deep than that (`Code.level`);
* `Code.Stays` -- a context in which they still are what they were.
-/

namespace LispMachine

variable {h : Heap} {u v body : Value} {c d : Context} {k n : Nat} {tail : Bool}

/-! ## 1. Nesting -/

/-- `u` is met in `v` on a way that goes into `k` lists. -/
inductive Heap.Level (h : Heap) (v : Value) : Nat → Value → Prop where
  | whole : Level h v 0 v
  | car {k : Nat} {u : Value} (hu : Level h v k u) : Level h v (k + 1) (h.car u)
  | cdr {k : Nat} {u : Value} (hu : Level h v k u) : Level h v k (h.cdr u)

/-- Lists are nested in `v` at most `n` deep. -/
def Heap.NestsWithin (h : Heap) (v : Value) (n : Nat) : Prop :=
  ∀ k u, h.Level v k u → u.isPair = true → k ≤ n

/-- A property of the pairs that are met in a value, each at its level; the ways to them go over at most
    `fuel` slots. -/
def Heap.everyPair (h : Heap) (q : Nat → Addr → Bool) : Nat → Nat → Value → Bool
  | 0, _, v => !v.isPair
  | fuel + 1, k, .pair a =>
    q k a && h.everyPair q fuel (k + 1) (h.car (.pair a)) && h.everyPair q fuel k (h.cdr (.pair a))
  | _ + 1, _, _ => true

section EveryPair

variable {q : Nat → Addr → Bool} {fuel : Nat} {a : Addr}

theorem Heap.everyPair_pair (hq : h.everyPair q fuel k (.pair a) = true) : q k a = true ∧
    ∃ less, h.everyPair q less (k + 1) (h.car (.pair a)) = true ∧ h.everyPair q less k (h.cdr (.pair a)) = true := by
  cases fuel with
  | zero => cases hq
  | succ fuel =>
    rw [everyPair, Bool.and_eq_true, Bool.and_eq_true] at hq
    exact ⟨hq.1.1, fuel, hq.1.2, hq.2⟩

/-- **It is a property of all of them.** -/
theorem Heap.Level.of_everyPair (hu : h.Level v k u) (hq : h.everyPair q fuel 0 v = true) :
    ∃ less, h.everyPair q less k u = true := by
  induction hu with
  | whole => exact ⟨fuel, hq⟩
  | @car k u _ ih =>
    obtain ⟨less, hless⟩ := ih
    cases u with
    | pair a =>
      obtain ⟨-, less', hcar, -⟩ := everyPair_pair hless
      exact ⟨less', hcar⟩
    | _ => exact ⟨0, rfl⟩
  | @cdr k u _ ih =>
    obtain ⟨less, hless⟩ := ih
    cases u with
    | pair a =>
      obtain ⟨-, less', -, hcdr⟩ := everyPair_pair hless
      exact ⟨less', hcdr⟩
    | _ => exact ⟨0, rfl⟩

theorem Heap.nestsWithin_of_everyPair (fuel : Nat) (hq : h.everyPair (fun k _ => k ≤ n) fuel 0 v = true) :
    h.NestsWithin v n := by
  intro k u hu hpair
  obtain ⟨less, hless⟩ := hu.of_everyPair hq
  cases u with
  | pair a => exact of_decide_eq_true (everyPair_pair hless).1
  | _ => cases hpair

end EveryPair

/-! ## 2. The pieces of a body -/

/-- What a piece of code is there for. -/
inductive Part where
  /-- An expression; `tail` in tail position. -/
  | expr (tail : Bool)
  /-- Expressions of which the last is in tail position if `tail`. -/
  | forms (tail : Bool)
  /-- Expressions of which one is chosen. -/
  | arms (tail : Bool)
  /-- The arguments of an `if`. -/
  | choice (tail : Bool)
  /-- The arguments of a `define`. -/
  | definition
  /-- A name and an expression for its value. -/
  | naming
  /-- The arguments of a `let`. -/
  | scope (tail : Bool)
  /-- The bindings of a `let`. -/
  | bindings
  deriving DecidableEq, Repr

/-- What the arguments of a form are, unless none of them is evaluated. -/
def StandardForm.part? (tail : Bool) : StandardForm → Option Part
  | quote | lambda => none
  | branch => some (.choice tail)
  | define => some .definition
  | sequence | conjunction | disjunction => some (.forms tail)
  | binding => some (.scope tail)
  | assignment => some .naming

/-- **The pieces of a body**: what is evaluated while it runs, within `k` pairs that are evaluated. -/
inductive Code (c : Context) (body : Value) : Nat → Part → Value → Prop where
  | body : Code c body 0 (.forms true) body
  | form {k : Nat} {tail : Bool} {v : Value} (hv : Code c body k (.forms tail) v) :
      Code c body (k + 1) (.expr (tail && !(c.heap.cdr v).isPair)) (c.heap.car v)
  | more {k : Nat} {tail : Bool} {v : Value} (hv : Code c body k (.forms tail) v) :
      Code c body k (.forms tail) (c.heap.cdr v)
  /-- The head and the arguments of a call are evaluated alike. -/
  | call {k : Nat} {tail : Bool} {v : Value} (hv : Code c body k (.expr tail) v)
      (hcall : Machine.specialForm? c v = none) : Code c body k (.forms false) v
  | special {k : Nat} {tail : Bool} {v : Value} {f : StandardForm} {part : Part}
      (hv : Code c body k (.expr tail) v) (hform : Machine.specialForm? c v = some (.standard f))
      (hpart : f.part? tail = some part) : Code c body k part (c.heap.cdr v)
  | test {k : Nat} {tail : Bool} {v : Value} (hv : Code c body k (.choice tail) v) :
      Code c body (k + 1) (.expr false) (c.heap.car v)
  | arms {k : Nat} {tail : Bool} {v : Value} (hv : Code c body k (.choice tail) v) :
      Code c body k (.arms tail) (c.heap.cdr v)
  | arm {k : Nat} {tail : Bool} {v : Value} (hv : Code c body k (.arms tail) v) :
      Code c body (k + 1) (.expr tail) (c.heap.car v)
  | others {k : Nat} {tail : Bool} {v : Value} (hv : Code c body k (.arms tail) v) :
      Code c body k (.arms tail) (c.heap.cdr v)
  /-- The body of a function that is defined is not evaluated here. -/
  | defined {k : Nat} {v : Value} (hv : Code c body k .definition v) (hname : (c.heap.car v).isSym = true) :
      Code c body k .naming v
  | value {k : Nat} {v : Value} (hv : Code c body k .naming v) : Code c body k (.forms false) (c.heap.cdr v)
  | bindings {k : Nat} {tail : Bool} {v : Value} (hv : Code c body k (.scope tail) v) :
      Code c body k .bindings (c.heap.car v)
  | within {k : Nat} {tail : Bool} {v : Value} (hv : Code c body k (.scope tail) v) :
      Code c body k (.forms tail) (c.heap.cdr v)
  | binding {k : Nat} {v : Value} (hv : Code c body k .bindings v) : Code c body k .naming (c.heap.car v)
  | rest {k : Nat} {v : Value} (hv : Code c body k .bindings v) : Code c body k .bindings (c.heap.cdr v)

namespace Code

variable {part : Part}

/-- **A piece is nested as deep in the body as it is evaluated**, or deeper. -/
theorem level (hv : Code c body k part v) : ∃ j, k ≤ j ∧ c.heap.Level body j v := by
  induction hv with
  | body => exact ⟨0, Nat.le_refl 0, .whole⟩
  | form _ ih | test _ ih | arm _ ih =>
    obtain ⟨j, hj, hlevel⟩ := ih
    exact ⟨j + 1, Nat.succ_le_succ hj, .car hlevel⟩
  | bindings _ ih | binding _ ih =>
    obtain ⟨j, hj, hlevel⟩ := ih
    exact ⟨j + 1, Nat.le_succ_of_le hj, .car hlevel⟩
  | more _ ih | special _ _ _ ih | arms _ ih | others _ ih | value _ ih | within _ ih | rest _ ih =>
    obtain ⟨j, hj, hlevel⟩ := ih
    exact ⟨j, hj, .cdr hlevel⟩
  | call _ _ ih | defined _ _ ih => exact ih

/-- A pair that is evaluated is within the nesting of the body. -/
theorem le_nesting (hv : Code c body k part v) (hpair : v.isPair = true)
    (hnest : c.heap.NestsWithin body n) : k ≤ n := by
  obtain ⟨j, hj, hlevel⟩ := hv.level
  exact Nat.le_trans hj (hnest j v hlevel hpair)

/-- **The code is what it was**: the pairs that are walked hold what they held, and the same symbols
    stand for the same forms. -/
structure Stays (c : Context) (body : Value) (d : Context) : Prop where
  car : ∀ {k : Nat} {part : Part} {v : Value}, Code c body k part v → d.heap.car v = c.heap.car v
  cdr : ∀ {k : Nat} {part : Part} {v : Value}, Code c body k part v → d.heap.cdr v = c.heap.cdr v
  forms : d.forms = c.forms

namespace Stays

theorem specialForm? (hd : Stays c body d) (hv : Code c body k part v) :
    Machine.specialForm? d v = Machine.specialForm? c v := by
  unfold Machine.specialForm?
  rw [hd.car hv, hd.forms]

/-- The expression that follows a name. -/
theorem value (hd : Stays c body d) (hv : Code c body k .naming v) :
    d.heap.nth v 1 = c.heap.car (c.heap.cdr v) := by
  show d.heap.car (d.heap.cdr v) = _
  rw [hd.cdr hv, hd.car hv.value]

theorem congr (hd : Stays c body d) {e : Context} (hcells : e.heap.cells = d.heap.cells)
    (hforms : e.forms = d.forms) : Stays c body e where
  car {_ _ v} hv := by
    rw [← hd.car hv]
    cases v <;> simp only [Heap.car, hcells]
  cdr {_ _ v} hv := by
    rw [← hd.cdr hv]
    cases v <;> simp only [Heap.cdr, hcells]
  forms := hforms.trans hd.forms

/-- Pairs that hold what they held are found one by one. -/
theorem of_everyPair {fuel : Nat} (hforms : d.forms = c.forms)
    (hq : c.heap.everyPair (fun _ a => d.heap.car (.pair a) = c.heap.car (.pair a) ∧
      d.heap.cdr (.pair a) = c.heap.cdr (.pair a)) fuel 0 body = true) : Stays c body d := by
  have hpair : ∀ {k part a}, Code c body k part (.pair a) → d.heap.car (.pair a) = c.heap.car (.pair a) ∧
      d.heap.cdr (.pair a) = c.heap.cdr (.pair a) := fun hv => by
    obtain ⟨j, -, hlevel⟩ := hv.level
    obtain ⟨less, hless⟩ := hlevel.of_everyPair hq
    exact of_decide_eq_true (Heap.everyPair_pair hless).1
  refine ⟨fun {_ _ v} hv => ?_, fun {_ _ v} hv => ?_, hforms⟩
  · cases v with
    | pair a => exact (hpair hv).1
    | _ => rfl
  · cases v with
    | pair a => exact (hpair hv).2
    | _ => rfl

end Stays

end Code

end LispMachine
