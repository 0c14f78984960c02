import LispMachine.Proofs.Twin.Reading

/-!
# What keeps a value

Steps that wait hold values in registers, where no collection looks for them. Such a value is kept
because the root stack leads to it, on both sides alike and by way of cells that are not written
meanwhile:

* `Kind.Firm` -- cells that keep their content: those of some shapes, objects, and the lists that are
  being built in a slot below;
* `Twin.Held`, `Twin.Rooted` -- values that the first slots of the root stack lead to by way of firm
  cells;
* `Twin.Onward` -- **what may happen above a height**: the slots below it stay, and what they lead to
  does. It is all that a waiting step knows of what is done before it goes on (`Rooted.onward`).
-/

namespace LispMachine

open World

/-- Cells that are not written while the slots from `n` on are worked at; `S` says of which shapes. -/
def Kind.Firm (S : Shape → Prop) (n : Nat) : Kind → Prop
  | object => True
  | pair s none => S s
  | pair _ (some k) => k < n

namespace Twin

variable {lex : Lexicon} {T T' T'' : Twin} {S S' : Shape → Prop} {m n : Nat} {ρ : Role} {s : Shape}
variable {v v' : Value}

/-! ## 1. Kept values -/

/-- The cells that two values refer to are firm. -/
def FirmAt (S : Shape → Prop) (T : Twin) (n : Nat) (v v' : Value) : Prop :=
  ∀ a b k, v.addr? = some a → v'.addr? = some b → T.world a b k → k.Firm S n

/-- The first `n` slots of the root stack, or the pins, lead to a value by way of firm cells. -/
inductive Held (S : Shape → Prop) (T : Twin) (n : Nat) : Value → Value → Prop where
  | atom {v : Value} (hv : v.addr? = none) : Held S T n v v
  | root {i : Nat} {v v' : Value} (hi : i < n) (hl : T.left.roots[i]? = some v)
      (hr : T.right.roots[T.slot i]? = some v') (hs : T.world.Slot i v v') : Held S T n v v'
  | pin {v v' : Value} (hp : (v, v') ∈ T.left.pins.zip T.right.pins) : Held S T n v v'
  | car {v v' : Value} (h : Held S T n v v') (hf : T.FirmAt S n v v') :
      Held S T n (T.left.car v) (T.right.car v')
  | cdr {v v' : Value} (h : Held S T n v v') (hf : T.FirmAt S n v v') :
      Held S T n (T.left.cdr v) (T.right.cdr v')
  | parts {v v' : Value} (h : Held S T n v v') :
      Held S T n (T.left.closureParts v) (T.right.closureParts v')

/-- Values that correspond in a role and are kept. -/
structure Rooted (S : Shape → Prop) (T : Twin) (n : Nat) (ρ : Role) (v v' : Value) : Prop where
  rel : T.world.Rel ρ v v'
  held : T.Held S n v v'

theorem firm_mono {k : Kind} (hst : ∀ s, S s → S' s) (hmn : m ≤ n) (hk : k.Firm S m) :
    k.Firm S' n := by
  cases k with
  | object => trivial
  | pair s o =>
    cases o with
    | none => exact hst s hk
    | some k => exact Nat.lt_of_lt_of_le hk hmn

/-- More slots and more firm cells keep more. -/
theorem Held.mono (h : T.Held S m v v') (hst : ∀ s, S s → S' s) (hmn : m ≤ n) :
    T.Held S' n v v' := by
  induction h with
  | atom hv => exact .atom hv
  | root hi hl hr hs => exact .root (Nat.lt_of_lt_of_le hi hmn) hl hr hs
  | pin hp => exact .pin hp
  | car _ hf ih => exact .car ih fun a b k ha hb hw => firm_mono hst hmn (hf a b k ha hb hw)
  | cdr _ hf ih => exact .cdr ih fun a b k ha hb hw => firm_mono hst hmn (hf a b k ha hb hw)
  | parts _ ih => exact .parts ih

theorem Held.lift (h : T.Held S m v v') (hmn : m ≤ n) : T.Held S n v v' :=
  h.mono (fun _ => id) hmn

theorem Rooted.mono (h : T.Rooted S m ρ v v') (hst : ∀ s, S s → S' s) (hmn : m ≤ n) :
    T.Rooted S' n ρ v v' :=
  ⟨h.rel, h.held.mono hst hmn⟩

theorem Rooted.lift (h : T.Rooted S m ρ v v') (hmn : m ≤ n) : T.Rooted S n ρ v v' :=
  ⟨h.rel, h.held.lift hmn⟩

/-- Kept values correspond. -/
theorem Held.same (h : T.Held S n v v') (hT : T.Coherent lex) : T.world.Same v v' := by
  induction h with
  | atom hv => exact .atom hv
  | root _ _ _ hs => exact hs.same
  | pin hp => exact (List.forall₂_zip hT.pins hp).same
  | car _ _ ih => exact hT.same_car ih
  | cdr _ _ ih => exact hT.same_cdr ih
  | parts _ ih => exact (hT.closureParts ih).same

/-- A value that has a role belongs to no list that is being built. -/
theorem Coherent.not_owned (hT : T.Coherent lex) {a b : Addr} {k : Nat} (hrel : T.world.Rel ρ v v')
    (hv : v = .pair a) (hv' : v' = .pair b) : ¬ T.world a b (.pair s (some k)) := by
  intro hw
  cases hrel with
  | atom hatom => rw [hv] at hatom; cases hatom
  | object _ => cases hv
  | pair hw' _ =>
    cases hv
    cases hv'
    cases (hT.one.left hw hw').2

/-- **A kept cell of a list that is being built is a pair of that list**: its slot is one of those that
    keep it, and the walk from the value there comes to it by way of pairs. -/
theorem Held.follows (h : T.Held S n v v') (hT : T.Coherent lex) {a b : Addr} {k : Nat}
    (hv : v = .pair a) (hv' : v' = .pair b) (hw : T.world a b (.pair s (some k))) :
    k < n ∧ ∃ start j, T.left.roots[k]? = some start ∧ T.left.cdr^[j] start = v ∧
      ∀ i, i ≤ j → (T.left.cdr^[i] start).isPair = true := by
  induction h generalizing a b s with
  | atom hatom => rw [hv] at hatom; cases hatom
  | @root i u u' hi hl _ hslot =>
    rw [hv, hv'] at hslot
    cases hslot with
    | atom hatom => cases hatom
    | pair hw' ho =>
      cases (hT.one.left hw hw').2
      rcases ho with ho | ho
      · cases ho
      · obtain rfl := Option.some.inj ho
        refine ⟨hi, u, 0, hl, rfl, fun j hj => ?_⟩
        obtain rfl := Nat.le_zero.mp hj
        rw [Function.iterate_zero_apply, hv]
        rfl
  | pin hp => exact absurd hw (hT.not_owned (List.forall₂_zip hT.pins hp) hv hv')
  | @car u u' hu hf ih =>
    cases hu.same hT with
    | atom hatom => rw [car_of_not_pair (isPair_of_atom hatom)] at hv; cases hv
    | object _ => cases hv
    | pair hw' =>
      obtain ⟨x, y, x', y', hp⟩ := hT.pairs hw'
      rw [car_of_pair hp.left] at hv
      rw [car_of_pair hp.right] at hv'
      exact absurd hw (hT.not_owned hp.first hv hv')
  | @cdr u u' hu hf ih =>
    cases hu.same hT with
    | atom hatom => rw [cdr_of_not_pair (isPair_of_atom hatom)] at hv; cases hv
    | object _ => cases hv
    | pair hw' =>
      obtain ⟨x, y, x', y', hp⟩ := hT.pairs hw'
      have hy := cdr_of_pair hp.left
      rw [hy] at hv ⊢
      rw [cdr_of_pair hp.right] at hv'
      cases hp.rest with
      | done hrel => exact absurd hw (hT.not_owned hrel hv hv')
      | more ho hw'' =>
        cases hv
        cases hv'
        cases (hT.one.left hw hw'').2
        subst ho
        -- the pair before belongs to the same list, and one more step of the walk leads on from it
        obtain ⟨hk, start, j, hstart, hj, hpairs⟩ := ih rfl rfl hw'
        have hnext : T.left.cdr^[j + 1] start = .pair a := by
          rw [Function.iterate_succ_apply', hj, hy]
        refine ⟨hk, start, j + 1, hstart, hnext, fun i hi => ?_⟩
        rcases Nat.lt_or_eq_of_le hi with hlt | rfl
        · exact hpairs i (Nat.le_of_lt_succ hlt)
        · rw [hnext]
          rfl
  | parts hu ih => exact absurd hw (hT.not_owned (hT.closureParts (hu.same hT)) hv hv')

/-- A kept cell of a list that is being built belongs to a slot below. -/
theorem Held.owner_lt (h : T.Held S n v v') (hT : T.Coherent lex) {a b : Addr} {k : Nat}
    (hv : v = .pair a) (hv' : v' = .pair b) (hw : T.world a b (.pair s (some k))) : k < n :=
  (h.follows hT hv hv' hw).1

/-! ## 2. Reading kept values -/

/-- A value in a role refers to cells of that role. -/
theorem firmAt_of_rel (hT : T.Coherent lex) (h : T.world.Rel (.just s) v v') (hs : S s) :
    T.FirmAt S n v v' := by
  intro a b k ha hb hw
  cases h with
  | atom hv => rw [hv] at ha; cases ha
  | object hw' =>
    cases ha
    cases hb
    cases (hT.one.left hw hw').2
    trivial
  | pair hw' hadm =>
    cases ha
    cases hb
    cases (hT.one.left hw hw').2
    cases hadm
    exact hs

namespace Rooted

theorem atom (hv : v.addr? = none) : T.Rooted S n ρ v v := ⟨.atom hv, .atom hv⟩

/-- What is kept in a slot. -/
theorem root {i : Nat} (hi : i < n) (hl : T.left.roots[i]? = some v)
    (hr : T.right.roots[T.slot i]? = some v') (hrel : T.world.Rel ρ v v') : T.Rooted S n ρ v v' :=
  ⟨hrel, .root hi hl hr hrel.slot⟩

theorem car (h : T.Rooted S n (.just s) v v') (hT : T.Coherent lex) (hs : S s) :
    T.Rooted S n s.first (T.left.car v) (T.right.car v') :=
  ⟨hT.car h.rel, h.held.car (firmAt_of_rel hT h.rel hs)⟩

theorem cdr (h : T.Rooted S n (.just s) v v') (hT : T.Coherent lex) (hs : S s) :
    T.Rooted S n (.just s.rest) (T.left.cdr v) (T.right.cdr v') :=
  ⟨hT.cdr h.rel, h.held.cdr (firmAt_of_rel hT h.rel hs)⟩

theorem parts (h : T.Rooted S n ρ v v') (hT : T.Coherent lex) :
    T.Rooted S n (.just .env) (T.left.closureParts v) (T.right.closureParts v') :=
  ⟨hT.closureParts h.rel.same, h.held.parts⟩

end Rooted

/-! ## 3. What happens above a height -/

/-- **What may happen above a height**: the slots below it and what they lead to stay as they are. -/
structure Onward (S : Shape → Prop) (n : Nat) (T T' : Twin) : Prop where
  height : n ≤ T'.left.roots.size
  roots_left : ∀ i : Nat, i < n → T'.left.roots[i]? = T.left.roots[i]?
  slots : ∀ i : Nat, i < n → T'.slot i = T.slot i
  roots_right : ∀ i : Nat, i < n → T'.right.roots[T.slot i]? = T.right.roots[T.slot i]?
  pins : ∀ p, p ∈ T.left.pins.zip T.right.pins → p ∈ T'.left.pins.zip T'.right.pins
  kinds : ∀ {v v' a b k}, T.Held S n v v' → v.addr? = some a → v'.addr? = some b →
    T.world a b k → T'.world a b k
  cells : ∀ {v v'} {a b : Addr} {k}, T.Held S n v v' → v.addr? = some a → v'.addr? = some b →
    T.world a b k → k.Firm S n →
      T'.left.cells[a]? = T.left.cells[a]? ∧ T'.right.cells[b]? = T.right.cells[b]?

theorem Onward.refl (hn : n ≤ T.left.roots.size) : Onward S n T T where
  height := hn
  roots_left _ _ := rfl
  slots _ _ := rfl
  roots_right _ _ := rfl
  pins _ hp := hp
  kinds _ _ _ hw := hw
  cells _ _ _ _ _ := ⟨rfl, rfl⟩

/-- What stays below a height, stays below a lower one. -/
theorem Onward.mono (h : Onward S' n T T') (hst : ∀ s, S s → S' s) (hmn : m ≤ n) :
    Onward S m T T' where
  height := Nat.le_trans hmn h.height
  roots_left i hi := h.roots_left i (Nat.lt_of_lt_of_le hi hmn)
  slots i hi := h.slots i (Nat.lt_of_lt_of_le hi hmn)
  roots_right i hi := h.roots_right i (Nat.lt_of_lt_of_le hi hmn)
  pins := h.pins
  kinds hv := h.kinds (hv.mono hst hmn)
  cells hv ha hb hw hk := h.cells (hv.mono hst hmn) ha hb hw (firm_mono hst hmn hk)

/-- A kept cell that is firm still holds the same. -/
theorem Onward.car_eq (ho : Onward S n T T') (hT : T.Coherent lex) (h : T.Held S n v v')
    (hf : T.FirmAt S n v v') :
    T'.left.car v = T.left.car v ∧ T'.right.car v' = T.right.car v' := by
  cases h.same hT with
  | atom hv =>
    rw [car_of_not_pair (isPair_of_atom hv), car_of_not_pair (isPair_of_atom hv),
      car_of_not_pair (isPair_of_atom hv), car_of_not_pair (isPair_of_atom hv)]
    exact ⟨rfl, rfl⟩
  | object _ => exact ⟨rfl, rfl⟩
  | pair hw =>
    obtain ⟨hl, hr⟩ := ho.cells h rfl rfl hw (hf _ _ _ rfl rfl hw)
    rw [Heap.car, Heap.car, Heap.car, Heap.car, hl, hr]
    exact ⟨rfl, rfl⟩

theorem Onward.cdr_eq (ho : Onward S n T T') (hT : T.Coherent lex) (h : T.Held S n v v')
    (hf : T.FirmAt S n v v') :
    T'.left.cdr v = T.left.cdr v ∧ T'.right.cdr v' = T.right.cdr v' := by
  cases h.same hT with
  | atom hv =>
    rw [cdr_of_not_pair (isPair_of_atom hv), cdr_of_not_pair (isPair_of_atom hv),
      cdr_of_not_pair (isPair_of_atom hv), cdr_of_not_pair (isPair_of_atom hv)]
    exact ⟨rfl, rfl⟩
  | object _ => exact ⟨rfl, rfl⟩
  | pair hw =>
    obtain ⟨hl, hr⟩ := ho.cells h rfl rfl hw (hf _ _ _ rfl rfl hw)
    rw [Heap.cdr, Heap.cdr, Heap.cdr, Heap.cdr, hl, hr]
    exact ⟨rfl, rfl⟩

theorem Onward.parts_eq (ho : Onward S n T T') (hT : T.Coherent lex) (h : T.Held S n v v') :
    T'.left.closureParts v = T.left.closureParts v ∧
      T'.right.closureParts v' = T.right.closureParts v' := by
  cases h.same hT with
  | atom hv => cases v <;> first | exact ⟨rfl, rfl⟩ | cases hv
  | object hw =>
    obtain ⟨hl, hr⟩ := ho.cells h rfl rfl hw trivial
    rw [Heap.closureParts, Heap.closureParts, Heap.closureParts, Heap.closureParts, Heap.payload?,
      Heap.payload?, Heap.payload?, Heap.payload?, hl, hr]
    exact ⟨rfl, rfl⟩
  | pair _ => exact ⟨rfl, rfl⟩

/-- Firm cells go on being firm. -/
theorem Onward.firmAt (ho : Onward S n T T') (hT : T.Coherent lex) (hT' : T'.Coherent lex)
    (h : T.Held S n v v') (hf : T.FirmAt S m v v') : T'.FirmAt S m v v' := by
  intro a b k ha hb hw
  obtain ⟨k', hw'⟩ : ∃ k', T.world a b k' := by
    cases h.same hT with
    | atom hv => rw [hv] at ha; cases ha
    | object hw' => cases ha; cases hb; exact ⟨_, hw'⟩
    | pair hw' => cases ha; cases hb; exact ⟨_, hw'⟩
  obtain ⟨_, rfl⟩ := hT'.one.left hw (ho.kinds h ha hb hw')
  exact hf a b k ha hb hw'

/-- **What is kept below a height stays kept.** -/
theorem Held.onward (h : T.Held S m v v') (hT : T.Coherent lex) (hT' : T'.Coherent lex)
    (ho : Onward S n T T') (hmn : m ≤ n) : T'.Held S m v v' := by
  induction h with
  | atom hv => exact .atom hv
  | @root i v v' hi hl hr hs =>
    have hin : i < n := Nat.lt_of_lt_of_le hi hmn
    refine .root hi ((ho.roots_left i hin).trans hl) ?_
      (hs.transfer fun _ _ _ ha hb hw => ho.kinds (.root hin hl hr hs) ha hb hw)
    rw [ho.slots i hin]
    exact (ho.roots_right i hin).trans hr
  | pin hp => exact .pin (ho.pins _ hp)
  | car hv hf ih =>
    have hfn : T.FirmAt S n _ _ := fun a b k ha hb hw => firm_mono (fun _ => id) hmn (hf a b k ha hb hw)
    obtain ⟨hl, hr⟩ := ho.car_eq hT (hv.lift hmn) hfn
    rw [← hl, ← hr]
    exact .car ih (ho.firmAt hT hT' (hv.lift hmn) hf)
  | cdr hv hf ih =>
    have hfn : T.FirmAt S n _ _ := fun a b k ha hb hw => firm_mono (fun _ => id) hmn (hf a b k ha hb hw)
    obtain ⟨hl, hr⟩ := ho.cdr_eq hT (hv.lift hmn) hfn
    rw [← hl, ← hr]
    exact .cdr ih (ho.firmAt hT hT' (hv.lift hmn) hf)
  | parts hv ih =>
    obtain ⟨hl, hr⟩ := ho.parts_eq hT (hv.lift hmn)
    rw [← hl, ← hr]
    exact .parts ih

/-- **A kept value keeps its role.** -/
theorem Rooted.onward (h : T.Rooted S m ρ v v') (hT : T.Coherent lex) (hT' : T'.Coherent lex)
    (ho : Onward S n T T') (hmn : m ≤ n) : T'.Rooted S m ρ v v' :=
  ⟨h.rel.transfer fun _ _ _ ha hb hw => ho.kinds (h.held.lift hmn) ha hb hw,
    h.held.onward hT hT' ho hmn⟩

theorem Onward.trans (ho : Onward S n T T') (ho' : Onward S n T' T'') (hT : T.Coherent lex)
    (hT' : T'.Coherent lex) : Onward S n T T'' where
  height := ho'.height
  roots_left i hi := (ho'.roots_left i hi).trans (ho.roots_left i hi)
  slots i hi := (ho'.slots i hi).trans (ho.slots i hi)
  roots_right i hi := by
    have hr := ho'.roots_right i hi
    rw [ho.slots i hi] at hr
    exact hr.trans (ho.roots_right i hi)
  pins p hp := ho'.pins p (ho.pins p hp)
  kinds hv ha hb hw :=
    ho'.kinds (hv.onward hT hT' ho (Nat.le_refl n)) ha hb (ho.kinds hv ha hb hw)
  cells hv ha hb hw hk := by
    obtain ⟨hl, hr⟩ := ho.cells hv ha hb hw hk
    obtain ⟨hl', hr'⟩ := ho'.cells (hv.onward hT hT' ho (Nat.le_refl n)) ha hb
      (ho.kinds hv ha hb hw) hk
    exact ⟨hl'.trans hl, hr'.trans hr⟩

end Twin

end LispMachine
