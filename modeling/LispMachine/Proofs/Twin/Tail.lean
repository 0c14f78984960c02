import LispMachine.Machine.Run
import LispMachine.Proofs.Twin.Building
import LispMachine.Proofs.Twin.Lookup

/-!
# Tail position, on both sides

What is evaluated in tail position of a body has nothing waiting for its value but steps that hand it
on to that body. Which steps these are the text of the body says, and the text is kept where the body
is:

* `Shape.Fixed`, `Couple.Kept` -- the cells that are never written, and what is kept by way of them;
* `LastForm` -- the last of some forms;
* `Returning` -- **steps that only hand a value on** to the body of a call, and that body itself, which
  has come to its last form. `InTail` and `TailFrom` add the text that is evaluated in front of them;
* `Unwinds` -- the steps of calls that are under way on the right side alone. Each of them was one of
  the former, or the body of a call that goes on as another call does on the left.
-/

namespace LispMachine

/-- Cells of the shape are never written. -/
def Shape.Fixed (s : Shape) : Prop := s.isFixed = true

/-- Values in a role that the first `n` slots keep, whatever is evaluated meanwhile. -/
abbrev Couple.Kept (D : Couple) (n : Nat) (ρ : Role) (v v' : Value) : Prop :=
  D.twin.Rooted Shape.Fixed n ρ v v'

variable {lex : Lexicon} {γ γ' : Value × Value} {D D' : Couple} {b m n base base' top : Nat} {ρ : Role}
variable {s : Shape} {ps ps' : List Pending} {forms forms' v v' f g : Value}

/-! ## 1. Last forms -/

/-- The last of some forms, which are kept. -/
structure LastForm (D : Couple) (n : Nat) (forms forms' : Value) : Prop where
  kept : D.Kept n (.just .exprs) forms forms'
  last : (D.left.heap.cdr forms).isPair = false

/-- Text is never written. -/
theorem LastForm.onward (h : LastForm D n forms forms') (hD : D.Matched lex γ)
    (hD' : D'.Matched lex γ') (ho : D.twin.Onward Shape.Fixed m D'.twin) (hnm : n ≤ m) :
    LastForm D' n forms forms' where
  kept := h.kept.onward hD.coherent hD'.coherent ho hnm
  last := by
    have hfirm : D.twin.FirmAt Shape.Fixed m forms forms' :=
      Twin.firmAt_of_rel hD.coherent h.kept.rel rfl
    have hcdr : D'.left.heap.cdr forms = D.left.heap.cdr forms :=
      (ho.cdr_eq hD.coherent (h.kept.held.lift hnm) hfirm).1
    rw [hcdr]
    exact h.last

/-! ## 2. Steps that hand a value on -/

/-- **Steps that hand a value on**, from the height `m` of the left root stack, to the last form of
    the body of a call whose slots begin at `b`. -/
inductive Returning (D : Couple) (b : Nat) : Nat → List Pending → List Pending → Prop where
  | body {call call' : Call} {frame frame' forms forms' : Value} {ps ps' : List Pending}
      (hb : call.base = b) (hforms : LastForm D b forms forms') :
      Returning D b (b + 2) (.body call frame forms :: ps) (.body call' frame' forms' :: ps')
  | leave {m base base' : Nat} {ps ps' : List Pending} (hm : base < m)
      (h : Returning D b base ps ps') :
      Returning D b m (.leave base :: ps) (.leave base' :: ps')
  | release {m base base' : Nat} {ps ps' : List Pending} (hm : base < m)
      (h : Returning D b base ps ps') :
      Returning D b m (.release base :: ps) (.release base' :: ps')
  | sequence {m : Nat} {env env' forms forms' : Value} {tail : Bool} {ps ps' : List Pending}
      (hforms : LastForm D b forms forms') (h : Returning D b m ps ps') :
      Returning D b m (.sequence env forms tail :: ps) (.sequence env' forms' tail :: ps')
  | conjunction {m : Nat} {env env' forms forms' : Value} {tail : Bool} {ps ps' : List Pending}
      (hforms : LastForm D b forms forms') (h : Returning D b m ps ps') :
      Returning D b m (.conjunction env forms tail :: ps) (.conjunction env' forms' tail :: ps')
  | disjunction {m : Nat} {env env' forms forms' : Value} {tail : Bool} {ps ps' : List Pending}
      (hforms : LastForm D b forms forms') (h : Returning D b m ps ps') :
      Returning D b m (.disjunction env forms tail :: ps) (.disjunction env' forms' tail :: ps')

theorem Returning.base_le (h : Returning D b m ps ps') : b + 2 ≤ m := by
  induction h with
  | body _ _ => exact Nat.le_refl _
  | leave hm _ ih | release hm _ ih => exact Nat.le_trans ih (Nat.le_of_lt hm)
  | sequence _ _ ih | conjunction _ _ ih | disjunction _ _ ih => exact ih

theorem Returning.onward (h : Returning D b m ps ps') (hD : D.Matched lex γ)
    (hD' : D'.Matched lex γ') (ho : D.twin.Onward Shape.Fixed n D'.twin) (hbn : b ≤ n) :
    Returning D' b m ps ps' := by
  have last : ∀ {u u'}, LastForm D b u u' → LastForm D' b u u' := fun h =>
    h.onward hD hD' ho hbn
  induction h with
  | body hb hforms => exact .body hb (last hforms)
  | leave hm _ ih => exact .leave hm ih
  | release hm _ ih => exact .release hm ih
  | sequence hforms _ ih => exact .sequence (last hforms) ih
  | conjunction hforms _ ih => exact .conjunction (last hforms) ih
  | disjunction hforms _ ih => exact .disjunction (last hforms) ih

/-- **Text in tail position**: what waits for its value hands it on to the body that keeps the text. -/
def InTail (D : Couple) (m : Nat) (ps ps' : List Pending) (ρ : Role) (v v' : Value) : Prop :=
  ∃ b, Returning D b m ps ps' ∧ D.Kept b ρ v v'

/-- The same if `tail` says so, from whatever height above the first `n` slots. -/
def TailFrom (D : Couple) (n : Nat) (tail : Bool) (ps ps' : List Pending) (ρ : Role)
    (v v' : Value) : Prop :=
  tail = true → ∃ b, (∀ m, n ≤ m → Returning D b m ps ps') ∧ D.Kept b ρ v v'

namespace TailFrom

variable {tail last : Bool}

theorem inTail (h : TailFrom D n tail ps ps' ρ v v') (hm : n ≤ m) (ht : tail = true) :
    InTail D m ps ps' ρ v v' :=
  (h ht).imp fun _ h => ⟨h.1 m hm, h.2⟩

theorem mono (h : TailFrom D m tail ps ps' ρ v v') (hmn : m ≤ n) :
    TailFrom D n tail ps ps' ρ v v' := fun ht =>
  (h ht).imp fun _ h => ⟨fun k hk => h.1 k (Nat.le_trans hmn hk), h.2⟩

theorem onward (h : TailFrom D n tail ps ps' ρ v v') (hD : D.Matched lex γ)
    (hD' : D'.Matched lex γ') (ho : D.twin.Onward Shape.Fixed n D'.twin) :
    TailFrom D' n tail ps ps' ρ v v' := fun ht => by
  obtain ⟨b, hreturning, hkept⟩ := h ht
  have hb := (hreturning n (Nat.le_refl n)).base_le
  exact ⟨b, fun m hm => (hreturning m hm).onward hD hD' ho (by omega),
    hkept.onward hD.coherent hD'.coherent ho (by omega)⟩

/-- A pair is left on the way. -/
theorem leave (h : tail = true → InTail D base ps ps' ρ v v') :
    TailFrom D (base + 1) tail (.leave base :: ps) (.leave base' :: ps') ρ v v' := fun ht =>
  (h ht).imp fun _ h => ⟨fun _ hm => .leave hm h.1, h.2⟩

/-- Roots are dropped on the way. -/
theorem release (h : tail = true → InTail D base ps ps' ρ v v') :
    TailFrom D (base + 1) tail (.release base :: ps) (.release base' :: ps') ρ v v' := fun ht =>
  (h ht).imp fun _ h => ⟨fun _ hm => .release hm h.1, h.2⟩

theorem car (h : TailFrom D n tail ps ps' (.just s) v v') (hD : D.Matched lex γ) (hs : s.Fixed) :
    TailFrom D n tail ps ps' s.first (D.left.heap.car v) (D.right.heap.car v') := fun ht =>
  (h ht).imp fun _ h => ⟨h.1, h.2.car hD.coherent hs⟩

theorem cdr (h : TailFrom D n tail ps ps' (.just s) v v') (hD : D.Matched lex γ) (hs : s.Fixed) :
    TailFrom D n tail ps ps' (.just s.rest) (D.left.heap.cdr v) (D.right.heap.cdr v') := fun ht =>
  (h ht).imp fun _ h => ⟨h.1, h.2.cdr hD.coherent hs⟩

/-- The same text in another role. -/
theorem as {ρ' : Role} (h : TailFrom D n tail ps ps' ρ v v') (hv : D.world.Rel ρ' v v') :
    TailFrom D n tail ps ps' ρ' v v' := fun ht =>
  (h ht).imp fun _ h => ⟨h.1, hv, h.2.held⟩

/-- What waits is in tail position, whatever the text. -/
theorem atom {u : Value} (h : TailFrom D n tail ps ps' ρ v v') (hu : u.addr? = none) :
    TailFrom D n tail ps ps' ρ u u := fun ht =>
  (h ht).imp fun _ h => ⟨h.1, .atom hu⟩

/-- The rest of a text is what it was before. -/
theorem rest (h : TailFrom D' n tail ps ps' (.just s) v v') (hD : D.Matched lex γ)
    (hD' : D'.Matched lex γ') (ho : D.Onward Shape.Fixed n D') (hv : D.Kept n (.just s) v v')
    (hs : s.Fixed) :
    TailFrom D' n tail ps ps' (.just s.rest) (D.left.heap.cdr v) (D.right.heap.cdr v') := by
  obtain ⟨hl, hr⟩ := ho.heaps.cdr_eq hD.coherent hv.held (Twin.firmAt_of_rel hD.coherent hv.rel hs)
  have hcdr := h.cdr hD' hs
  rw [show D'.left.heap.cdr v = D.left.heap.cdr v from hl,
    show D'.right.heap.cdr v' = D.right.heap.cdr v' from hr] at hcdr
  exact hcdr

/-- An expression of a list of them. -/
theorem nth (h : TailFrom D n tail ps ps' (.just .exprs) v v') (hD : D.Matched lex γ) (i : Nat) :
    TailFrom D n tail ps ps' .code (D.left.heap.nth v i) (D.right.heap.nth v' i) := by
  induction i generalizing v v' with
  | zero => exact h.car hD rfl
  | succ i ih => exact ih (h.cdr hD rfl)

/-- **The last of some forms** is in tail position if they are. -/
theorem lastForm (h : TailFrom D n tail ps ps' (.just .exprs) v v') (hm : n ≤ m)
    (hD : D.Matched lex γ) (ht : (tail && !(D.left.heap.cdr v).isPair) = true) {qs qs' : List Pending}
    (hq : ∀ {b}, LastForm D b v v' → Returning D b m ps ps' → Returning D b m qs qs') :
    InTail D m qs qs' .code (D.left.heap.car v) (D.right.heap.car v') := by
  rw [Bool.and_eq_true, Bool.not_eq_true'] at ht
  obtain ⟨b, hreturning, hkept⟩ := h ht.1
  exact ⟨b, hq ⟨hkept, ht.2⟩ (hreturning m hm), hkept.car hD.coherent rfl⟩

end TailFrom

/-! ## 3. Calls of one side -/

/-- **Steps on the right side that only hand a value on**, from the height `top` of its root stack and
    with `f` running, until `g` runs. They leave the slots that correspond to the first `b` ones. -/
inductive Unwinds (lex : Lexicon) (D : Couple) (b : Nat) :
    Nat → Value → Value → List Pending → Prop where
  | nil {top : Nat} {f : Value} : Unwinds lex D b top f f []
  | leave {top base : Nat} {f g : Value} {ps : List Pending} (hn : lex.nested = true)
      (hbase : base ≤ top) (hslots : ∀ i < b, D.slot i < base) (h : Unwinds lex D b base f g ps) :
      Unwinds lex D b top f g (.leave base :: ps)
  | release {top base : Nat} {f g : Value} {ps : List Pending} (hn : lex.nested = true)
      (hbase : base ≤ top) (hslots : ∀ i < b, D.slot i < base) (h : Unwinds lex D b base f g ps) :
      Unwinds lex D b top f g (.release base :: ps)
  | sequence {top : Nat} {env forms forms' f g : Value} {tail : Bool} {ps : List Pending}
      (hn : lex.nested = true) (hforms : LastForm D b forms forms')
      (h : Unwinds lex D b top f g ps) : Unwinds lex D b top f g (.sequence env forms' tail :: ps)
  | conjunction {top : Nat} {env forms forms' f g : Value} {tail : Bool} {ps : List Pending}
      (hn : lex.nested = true) (hforms : LastForm D b forms forms')
      (h : Unwinds lex D b top f g ps) :
      Unwinds lex D b top f g (.conjunction env forms' tail :: ps)
  | disjunction {top : Nat} {env forms forms' f g : Value} {tail : Bool} {ps : List Pending}
      (hn : lex.nested = true) (hforms : LastForm D b forms forms')
      (h : Unwinds lex D b top f g ps) :
      Unwinds lex D b top f g (.disjunction env forms' tail :: ps)
  | body {top : Nat} {call : Call} {frame forms forms' f g : Value} {ps : List Pending}
      (hn : lex.nested = true) (hbase : call.base ≤ top) (hslots : ∀ i < b, D.slot i < call.base)
      (hforms : LastForm D b forms forms') (h : Unwinds lex D b call.base call.caller g ps) :
      Unwinds lex D b top f g (.body call frame forms' :: ps)

/-- There are none where both sides evaluate alike. -/
theorem Unwinds.eq_nil {extra : List Pending} (h : Unwinds lex D b top f g extra)
    (hplain : lex.nested = false) : extra = [] ∧ g = f := by
  cases h with
  | nil => exact ⟨rfl, rfl⟩
  | leave hn | release hn | sequence hn | conjunction hn | disjunction hn | body hn =>
    rw [hplain] at hn
    cases hn

theorem Unwinds.onward (h : Unwinds lex D b top f g ps) (hD : D.Matched lex γ)
    (hD' : D'.Matched lex γ') (ho : D.twin.Onward Shape.Fixed n D'.twin) (hbn : b ≤ n) :
    Unwinds lex D' b top f g ps := by
  have last : ∀ {u u'}, LastForm D b u u' → LastForm D' b u u' := fun h =>
    h.onward hD hD' ho hbn
  have slots : ∀ {t}, (∀ i < b, D.slot i < t) → ∀ i < b, D'.slot i < t := fun hs i hi => by
    rw [show D'.slot i = D.slot i from ho.slots i (Nat.lt_of_lt_of_le hi hbn)]
    exact hs i hi
  induction h with
  | nil => exact .nil
  | leave hn hbase hslots _ ih => exact .leave hn hbase (slots hslots) ih
  | release hn hbase hslots _ ih => exact .release hn hbase (slots hslots) ih
  | sequence hn hforms _ ih => exact .sequence hn (last hforms) ih
  | conjunction hn hforms _ ih => exact .conjunction hn (last hforms) ih
  | disjunction hn hforms _ ih => exact .disjunction hn (last hforms) ih
  | body hn hbase hslots hforms _ ih => exact .body hn hbase (slots hslots) (last hforms) ih

end LispMachine
