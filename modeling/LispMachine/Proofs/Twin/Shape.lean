import LispMachine.Proofs.Heap.FreeList
import LispMachine.SpecialForm
import Mathlib.Data.List.Forall2
import Mathlib.Order.Monotone.Basic

/-!
# Two heaps that hold the same

Two runs of one program lay their cells out differently and free them at different times. What they
have in common is said by a relation between the addresses of one heap and those of the other:

* `Shape` -- what a pair is for. The cells of source text, of functions and of evaluated forms are
  written once and never again (`Shape.isFixed`); a program writes `data` only, the evaluator frames
  and bindings;
* `Role` -- what a value may be used as: a cell of one shape, or an expression. The text of a special
  form is laid out by its operands (`StandardForm.operands`), so that what a quotation gives to the
  program is data, and nothing else of a text is;
* `Kind`, `World` -- the cells that correspond to each other, and what they are. A list that is still
  being built has an owner, the root slot that holds it;
* `World.Rel` -- values that correspond to each other in a role;
* `Twin.Coherent` -- **corresponding cells hold corresponding values**, and so do the roots. The two
  root stacks are the same, slot by slot, unless one side evaluates self tail calls otherwise than
  the other; then the right one has more slots.
-/

namespace LispMachine

/-! ## 1. Shapes -/

/-- What a pair is for. -/
inductive Shape where
  /-- Whatever a program builds and may write. -/
  | data
  /-- A parent and bindings. -/
  | frame
  | bindings
  /-- A key and its value. -/
  | binding
  /-- An expression that is called: its head, and its arguments. -/
  | call
  /-- An expression that is a special form: its symbol, and its operands. -/
  | special (form : StandardForm)
  /-- A list of expressions. -/
  | exprs
  /-- The operands of a quotation. -/
  | quoted
  /-- A name or a list of names, and expressions after it. -/
  | headed
  /-- The operands of a `let`: its bindings, and expressions. -/
  | letArgs
  | letBindings
  /-- Text that is neither evaluated nor given away. -/
  | inert
  /-- The parts of a function, each pair named after its first slot. -/
  | env
  | params
  | body
  | name
  /-- An evaluated form: a function, and its arguments. -/
  | form
  deriving DecidableEq, Repr

/-- What a value may be used as. -/
inductive Role where
  | just (s : Shape)
  /-- An expression. -/
  | code
  deriving DecidableEq, Repr

/-- What follows the symbol of a special form. -/
def StandardForm.operands : StandardForm → Shape
  | quote => .quoted
  | branch | sequence | conjunction | disjunction => .exprs
  | define | lambda | assignment => .headed
  | binding => .letArgs

namespace Shape

/-- The role of the first slot. -/
def first : Shape → Role
  | data | quoted | form => .just data
  | call | exprs => .code
  | binding | special _ | headed | inert | params | name => .just inert
  | frame | env => .just frame
  | bindings => .just binding
  | letArgs => .just letBindings
  | letBindings => .just headed
  | body => .just exprs

/-- The shape of what is in the rest slot. -/
def rest : Shape → Shape
  | data | binding | form => data
  | call | exprs | headed | letArgs => exprs
  | special f => f.operands
  | frame | bindings => bindings
  | quoted | inert | name => inert
  | letBindings => letBindings
  | env => params
  | params => body
  | body => name

/-- Cells of the shape are never written once they are finished. -/
def isFixed : Shape → Bool
  | data | frame | binding => false
  | _ => true

end Shape

/-- A role admits cells of some shapes. -/
def Role.admits : Role → Shape → Prop
  | just s, t => s = t
  | code, t => t = .call ∨ ∃ f, t = .special f

/-- What the programs of two contexts may use, and in what the two contexts may differ. -/
structure Lexicon where
  /-- The special forms by symbol. -/
  forms : SymbolId → Option StandardForm
  /-- The primitives that there are procedures for. -/
  natives : Primitive → Prop
  /-- The right side starts a call where the left one begins a body again. -/
  nested : Bool
  /-- Then it keeps more cells, and nobody may count them. -/
  uncounted : nested = true → ¬ natives .gc
  /-- A root slot that has been emptied on the left only; if the right side starts more calls, one that
      is to be filled on both sides. -/
  vacant : Option Nat := none
  /-- What has been printed on each side before the two are compared. -/
  said : String × String := ("", "")
  /-- The two heaps have the same sizes, so that the left one is not exhausted before the right one. -/
  level : Prop := False
  /-- So they are only if neither side starts more calls than the other. -/
  even : level → nested = false := by nofun

/-- The special form that a value is the symbol of. -/
def Lexicon.form? (lex : Lexicon) (v : Value) : Option StandardForm := v.sym?.bind lex.forms

/-- An expression is a special form just when its head says so. -/
def Lexicon.Fits (lex : Lexicon) (s : Shape) (head : Value) : Prop :=
  match s with
  | .call => lex.form? head = none
  | .special f => lex.form? head = some f
  | _ => True

/-! ## 2. Worlds -/

/-- What corresponding cells are. -/
inductive Kind where
  | object
  /-- A pair; if it belongs to a list that is being built, the root slot of that list. -/
  | pair (s : Shape) (owner : Option Nat)
  deriving DecidableEq, Repr

/-- The cells of two heaps that correspond to each other. -/
abbrev World := Addr → Addr → Kind → Prop

namespace World

/-- Values that correspond, in a role. -/
inductive Rel (W : World) (ρ : Role) : Value → Value → Prop where
  | atom {v : Value} (hv : v.addr? = none) : Rel W ρ v v
  | object {a b : Addr} (hw : W a b .object) : Rel W ρ (.object a) (.object b)
  | pair {a b : Addr} {s : Shape} (hw : W a b (.pair s none)) (hs : ρ.admits s) :
      Rel W ρ (.pair a) (.pair b)

/-- Values that correspond, whatever they are. -/
inductive Same (W : World) : Value → Value → Prop where
  | atom {v : Value} (hv : v.addr? = none) : Same W v v
  | object {a b : Addr} (hw : W a b .object) : Same W (.object a) (.object b)
  | pair {a b : Addr} {s : Shape} {o : Option Nat} (hw : W a b (.pair s o)) :
      Same W (.pair a) (.pair b)

/-- The rest slots of a list that may still be built. -/
inductive Tail (W : World) (o : Option Nat) (s : Shape) : Value → Value → Prop where
  | done {v v' : Value} (hv : W.Rel (.just s) v v') : Tail W o s v v'
  | more {k : Nat} {a b : Addr} (ho : o = some k) (hw : W a b (.pair s (some k))) :
      Tail W o s (.pair a) (.pair b)

/-- The values of a root slot: a list that is being built is in its own slot only. -/
inductive Slot (W : World) (i : Nat) : Value → Value → Prop where
  | atom {v : Value} (hv : v.addr? = none) : Slot W i v v
  | object {a b : Addr} (hw : W a b .object) : Slot W i (.object a) (.object b)
  | pair {a b : Addr} {s : Shape} {o : Option Nat} (hw : W a b (.pair s o))
      (ho : o = none ∨ o = some i) : Slot W i (.pair a) (.pair b)

/-- What corresponding objects hold, by type. -/
inductive Alike (lex : Lexicon) (W : World) : TypeId → Payload → Payload → Prop where
  | func {parts parts' : Value} (hp : W.Rel (.just .env) parts parts') :
      Alike lex W CoreType.func.id (.closure parts) (.closure parts')
  | native {p : Primitive} (hp : lex.natives p) :
      Alike lex W CoreType.native.id (.procedure (.primitive p)) (.procedure (.primitive p))
  | str (bytes : ByteArray) : Alike lex W CoreType.str.id (.text bytes) (.text bytes)

variable {W W' : World} {ρ : Role} {v v' w w' : Value} {s : Shape} {o : Option Nat} {i : Nat}

theorem Rel.same (h : W.Rel ρ v v') : W.Same v v' := by
  cases h with
  | atom hv => exact .atom hv
  | object hw => exact .object hw
  | pair hw _ => exact .pair hw

theorem Tail.same (h : W.Tail o s v v') : W.Same v v' := by
  cases h with
  | done hv => exact hv.same
  | more _ hw => exact .pair hw

theorem Slot.same (h : W.Slot i v v') : W.Same v v' := by
  cases h with
  | atom hv => exact .atom hv
  | object hw => exact .object hw
  | pair hw _ => exact .pair hw

theorem Rel.slot (h : W.Rel ρ v v') : W.Slot i v v' := by
  cases h with
  | atom hv => exact .atom hv
  | object hw => exact .object hw
  | pair hw _ => exact .pair hw (.inl rfl)

/-- A value that is no pair has any role. -/
theorem Rel.of_not_pair {ρ' : Role} (h : W.Rel ρ v v') (hv : v.isPair = false) :
    W.Rel ρ' v v' := by
  cases h with
  | atom hv => exact .atom hv
  | object hw => exact .object hw
  | pair _ _ => cases hv

theorem Rel.nil : W.Rel ρ .nil .nil := .atom rfl

theorem Rel.int (n : Fixnum) : W.Rel ρ (.int n) (.int n) := .atom rfl

theorem Rel.sym (id : SymbolId) : W.Rel ρ (.sym id) (.sym id) := .atom rfl

theorem Same.isPair_eq (h : W.Same v v') : v.isPair = v'.isPair := by cases h <;> rfl

theorem Same.isNil_eq (h : W.Same v v') : v.isNil = v'.isNil := by cases h <;> rfl

theorem Same.isSym_eq (h : W.Same v v') : v.isSym = v'.isSym := by cases h <;> rfl

theorem Same.isInt_eq (h : W.Same v v') : v.isInt = v'.isInt := by cases h <;> rfl

theorem Same.isTruthy_eq (h : W.Same v v') : v.isTruthy = v'.isTruthy := by cases h <;> rfl

theorem Same.sym?_eq (h : W.Same v v') : v.sym? = v'.sym? := by cases h <;> rfl

/-- Cells that go on corresponding let values do so. -/
theorem Rel.transfer (h : W.Rel ρ v v')
    (hW : ∀ a b k, v.addr? = some a → v'.addr? = some b → W a b k → W' a b k) :
    W'.Rel ρ v v' := by
  cases h with
  | atom hv => exact .atom hv
  | object hw => exact .object (hW _ _ _ rfl rfl hw)
  | pair hw hs => exact .pair (hW _ _ _ rfl rfl hw) hs

theorem Slot.transfer (h : W.Slot i v v')
    (hW : ∀ a b k, v.addr? = some a → v'.addr? = some b → W a b k → W' a b k) :
    W'.Slot i v v' := by
  cases h with
  | atom hv => exact .atom hv
  | object hw => exact .object (hW _ _ _ rfl rfl hw)
  | pair hw ho => exact .pair (hW _ _ _ rfl rfl hw) ho

theorem Tail.transfer (h : W.Tail o s v v')
    (hW : ∀ a b k, v.addr? = some a → v'.addr? = some b → W a b k → W' a b k) :
    W'.Tail o s v v' := by
  cases h with
  | done hv => exact .done (hv.transfer hW)
  | more ho hw => exact .more ho (hW _ _ _ rfl rfl hw)

/-- No cell corresponds to two cells. -/
structure OneToOne (W : World) : Prop where
  left : ∀ {a b b' k k'}, W a b k → W a b' k' → b = b' ∧ k = k'
  right : ∀ {a a' b k k'}, W a b k → W a' b k' → a = a' ∧ k = k'

theorem OneToOne.left_eq (hW : W.OneToOne) (h : W.Same v v') (h' : W.Same v w') : v' = w' := by
  cases h with
  | atom hv =>
    cases h' with
    | atom _ => rfl
    | object _ => cases hv
    | pair _ => cases hv
  | object hw =>
    cases h' with
    | atom hv => cases hv
    | object hw' => rw [(hW.left hw hw').1]
  | pair hw =>
    cases h' with
    | atom hv => cases hv
    | pair hw' => rw [(hW.left hw hw').1]

theorem OneToOne.right_eq (hW : W.OneToOne) (h : W.Same v v') (h' : W.Same w v') : v = w := by
  cases h with
  | atom hv =>
    cases h' with
    | atom _ => rfl
    | object _ => cases hv
    | pair _ => cases hv
  | object hw =>
    cases h' with
    | atom hv => cases hv
    | object hw' => rw [(hW.right hw hw').1]
  | pair hw =>
    cases h' with
    | atom hv => cases hv
    | pair hw' => rw [(hW.right hw hw').1]

/-- **Values are equal on one side just when they are on the other.** -/
theorem OneToOne.eq_iff (hW : W.OneToOne) (hv : W.Same v v') (hw : W.Same w w') :
    v = w ↔ v' = w' :=
  ⟨fun e => hW.left_eq hv (e ▸ hw), fun e => hW.right_eq hv (e ▸ hw)⟩

end World

/-! ## 3. Coherence -/

/-- What corresponding cells of a kind hold. -/
inductive World.Content (lex : Lexicon) (W : World) : Kind → Cell → Cell → Prop where
  | pair {s : Shape} {o : Option Nat} {x y x' y' : Value} (first : W.Rel s.first x x')
      (fits : lex.Fits s x) (rest : W.Tail o s.rest y y') :
      Content lex W (.pair s o) (.pair x y) (.pair x' y')
  | object {t : TypeId} {p p' : Payload} (ha : W.Alike lex t p p') :
      Content lex W .object (.object t p) (.object t p')

/-- A cell has a reference to an address. -/
def Cell.Mentions (a : Addr) : Cell → Prop
  | pair x y => x.addr? = some a ∨ y.addr? = some a
  | object _ (.closure parts) => parts.addr? = some a
  | _ => False

/-- What is mentioned on both sides goes on corresponding. -/
theorem World.Content.transfer {lex : Lexicon} {W W' : World} {k : Kind} {c c' : Cell}
    (h : W.Content lex k c c')
    (hW : ∀ a b j, c.Mentions a → c'.Mentions b → W a b j → W' a b j) : W'.Content lex k c c' := by
  cases h with
  | pair first fits rest =>
    exact .pair (first.transfer fun a b j ha hb => hW a b j (.inl ha) (.inl hb)) fits
      (rest.transfer fun a b j ha hb => hW a b j (.inr ha) (.inr hb))
  | object ha =>
    cases ha with
    | func hp => exact .object (.func (hp.transfer fun a b j => hW a b j))
    | native hp => exact .object (.native hp)
    | str bytes => exact .object (.str bytes)

/-- Two heaps, the cells that correspond, and the slot on the right that corresponds to one on the
    left. The right root stack may have slots in between that correspond to none. -/
structure Twin where
  world : World
  left : Heap
  right : Heap
  slot : Nat → Nat

namespace Twin

/-- **Corresponding cells hold corresponding values.** -/
structure Coherent (lex : Lexicon) (T : Twin) : Prop where
  one : T.world.OneToOne
  cells : ∀ {a b : Addr} {k}, T.world a b k → ∃ c c',
    T.left.cells[a]? = some c ∧ T.right.cells[b]? = some c' ∧ T.world.Content lex k c c'
  owned : ∀ {a b s k}, T.world a b (.pair s (some k)) → k < T.left.roots.size
  slots : StrictMono T.slot
  height : ∀ k, T.slot (T.left.roots.size + k) = T.right.roots.size + k
  plain : lex.nested = false → T.slot = id
  roots : ∀ {i : Nat} {v v' : Value}, T.left.roots[i]? = some v →
    T.right.roots[T.slot i]? = some v' →
      T.world.Slot i v v' ∨ (lex.vacant = some i ∧ (lex.nested = true ∨ v = .nil))
  /-- Environments are all that is pinned. -/
  pins : List.Forall₂ (T.world.Rel (.just .frame)) T.left.pins T.right.pins
  types_left : T.left.types = .core
  types_right : T.right.types = .core
  holdings_left : T.left.holdings = .none
  holdings_right : T.right.holdings = .none

/-- Corresponding pairs, and what they hold. -/
structure PairOf (lex : Lexicon) (T : Twin) (a b : Addr) (s : Shape) (o : Option Nat)
    (x y x' y' : Value) : Prop where
  left : T.left.cells[a]? = some (.pair x y)
  right : T.right.cells[b]? = some (.pair x' y')
  first : T.world.Rel s.first x x'
  fits : lex.Fits s x
  rest : T.world.Tail o s.rest y y'

variable {lex : Lexicon} {T : Twin}

/-- What is pushed next comes into corresponding slots. -/
theorem Coherent.slot_height (hT : T.Coherent lex) : T.slot T.left.roots.size = T.right.roots.size :=
  hT.height 0

theorem Coherent.slot_lt (hT : T.Coherent lex) {i : Nat} (hi : i < T.left.roots.size) :
    T.slot i < T.right.roots.size :=
  hT.slot_height ▸ hT.slots hi

theorem Coherent.slot_le (hT : T.Coherent lex) {i : Nat} (hi : i ≤ T.left.roots.size) :
    T.slot i ≤ T.right.roots.size :=
  hT.slot_height ▸ hT.slots.monotone hi

theorem Coherent.slot_inj (hT : T.Coherent lex) {i j : Nat} : T.slot i = T.slot j ↔ i = j :=
  hT.slots.injective.eq_iff

theorem Coherent.pairs (hT : T.Coherent lex) {a b : Addr} {s : Shape} {o : Option Nat}
    (hw : T.world a b (.pair s o)) : ∃ x y x' y', T.PairOf lex a b s o x y x' y' := by
  obtain ⟨c, c', hl, hr, hc⟩ := hT.cells hw
  cases hc with
  | pair first fits rest => exact ⟨_, _, _, _, hl, hr, first, fits, rest⟩

theorem Coherent.objects (hT : T.Coherent lex) {a b : Addr} (hw : T.world a b .object) :
    ∃ t p p', T.left.cells[a]? = some (.object t p) ∧ T.right.cells[b]? = some (.object t p') ∧
      T.world.Alike lex t p p' := by
  obtain ⟨c, c', hl, hr, hc⟩ := hT.cells hw
  cases hc with
  | object ha => exact ⟨_, _, _, hl, hr, ha⟩

end Twin

end LispMachine
