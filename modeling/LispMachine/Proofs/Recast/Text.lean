import LispMachine.Proofs.Datum.Basic
import LispMachine.SpecialForm

/-!
# A local frame as an applied function

A form `(let ((name expr)...) body...)` says the same as `((lambda (name...) body...) expr...)`. Which of
the forms of a program are evaluated is told by the symbols at their heads:

* `Script` -- what code is made of, in a text or in a heap;
* `Segment` -- what a piece of a form is for;
* `Recast` -- **a piece of code in which some of the evaluated `let` forms have become applied functions**;
* `Recast.mono` -- where code is kept, it stays recast;
* `Recast.list_cases`, `Recast.list_induction` -- pieces that are lists;
* `Datum.code`, `Datum.Recast.refl` -- the code of a text. None of the forms need be another one;
* `Datum.Recast.letForm` -- any of the evaluated `let` forms may be.
-/

namespace LispMachine

/-! ## 1. Code -/

/-- What code is made of. -/
structure Script (V : Type) where
  pair : V → V → V → Prop
  /-- It is no pair. -/
  lone : V → Prop
  /-- The empty list. -/
  nil : V → Prop
  symbol : V → Prop
  /-- The symbol of a special form. -/
  form : V → StandardForm → Prop
  /-- Neither a special form nor anything that might become one. -/
  plain : V → Prop

/-- Code that is part of other code. -/
structure Script.Le {V : Type} (s t : Script V) : Prop where
  pair : ∀ v x y, s.pair v x y → t.pair v x y
  lone : ∀ v, s.lone v → t.lone v
  nil : ∀ v, s.nil v → t.nil v
  symbol : ∀ v, s.symbol v → t.symbol v
  form : ∀ v f, s.form v f → t.form v f
  plain : ∀ v, s.plain v → t.plain v

/-- What a piece of a form is for. -/
inductive Segment (V : Type) where
  /-- It is evaluated. -/
  | expr
  /-- Its elements are evaluated. -/
  | exprs
  /-- Its elements stand for themselves: a name with parameters, or parameters. -/
  | params
  /-- Its first element is a name or parameters, and the others are evaluated. -/
  | headed
  /-- Its elements are a name with an expression, or a name. -/
  | bindings
  /-- Bindings, and a body. -/
  | binder
  /-- It stands for itself. -/
  | data
  /-- Bindings whose names make up a list, and whose expressions make up another one. -/
  | split (names : V)

namespace Segment

variable {V : Type}

/-- What the first element of a piece is for. -/
def first : Segment V → Segment V
  | exprs => expr
  | headed => params
  | bindings => headed
  | binder => bindings
  | _ => data

/-- What the rest of a piece is for. -/
def rest : Segment V → Segment V
  | exprs | headed | binder => exprs
  | params => params
  | bindings => bindings
  | _ => data

/-- What the arguments of a form are for. -/
def operands : StandardForm → Segment V
  | .quote => data
  | .branch | .sequence | .conjunction | .disjunction => exprs
  | .define | .lambda | .assignment => headed
  | .binding => binder

/-- A piece that is a list, if it is a pair. -/
def IsList : Segment V → Prop
  | exprs | params | headed | bindings | binder => True
  | _ => False

end Segment

/-! ## 2. Recast code -/

section

variable {V V' : Type} {s t : Script V} {s' t' : Script V'} {data data₁ : V → V' → Prop} {p : Segment V'}
variable {v : V} {v' : V'}

/-- **A piece of code in which some `let` forms have become applied functions.** What stands for itself
    corresponds to `data`. -/
inductive Recast (t : Script V) (t' : Script V') (data : V → V' → Prop) : Segment V' → V → V' → Prop where
  | data {v : V} {v' : V'} (h : data v v') : Recast t t' data .data v v'
  | atom {p : Segment V'} {v : V} {v' : V'} (hp : p.IsList ∨ p = .expr) (hv : t.lone v) (h : data v v') :
      Recast t t' data p v v'
  | list {p : Segment V'} {v x y : V} {v' x' y' : V'} (hp : p.IsList) (hv : t.pair v x y)
      (hv' : t'.pair v' x' y') (first : Recast t t' data p.first x x') (rest : Recast t t' data p.rest y y') :
      Recast t t' data p v v'
  | special {f : StandardForm} {v x y : V} {v' x' y' : V'} (hv : t.pair v x y) (hv' : t'.pair v' x' y')
      (hf : t.form x f) (hf' : t'.form x' f) (args : Recast t t' data (.operands f) y y') :
      Recast t t' data .expr v v'
  | call {v x y : V} {v' x' y' : V'} (hv : t.pair v x y) (hv' : t'.pair v' x' y') (hx : t.plain x)
      (hx' : t'.plain x') (head : Recast t t' data .expr x x') (args : Recast t t' data .exprs y y') :
      Recast t t' data .expr v v'
  /-- `(let bindings body...)` becomes `((lambda names body...) exprs...)`. -/
  | applied {v head args bs body : V} {v' func head' args' names body' exprs' : V'}
      (hv : t.pair v head args) (hargs : t.pair args bs body) (hf : t.form head .binding)
      (hv' : t'.pair v' func exprs') (hplain : t'.plain func) (hfunc : t'.pair func head' args')
      (hargs' : t'.pair args' names body') (hf' : t'.form head' .lambda)
      (hsplit : Recast t t' data (.split names) bs exprs') (hbody : Recast t t' data .exprs body body') :
      Recast t t' data .expr v v'
  | splitNil {v : V} {names v' : V'} (hv : t.nil v) (hnames : t'.nil names) (hv' : t'.nil v') :
      Recast t t' data (.split names) v v'
  /-- A name alone is bound to nil. -/
  | splitBare {v x y : V} {names x' names' v' e' y' : V'} (hv : t.pair v x y) (hnames : t'.pair names x' names')
      (hv' : t'.pair v' e' y') (hx : t.symbol x) (hname : data x x') (he' : t'.nil e')
      (hrest : Recast t t' data (.split names') y y') : Recast t t' data (.split names) v v'
  /-- A name with an expression. -/
  | splitPair {v b x z e w y : V} {names x' names' v' e' y' : V'} (hv : t.pair v b y) (hb : t.pair b x z)
      (hz : t.pair z e w) (hw : t.nil w) (hnames : t'.pair names x' names') (hv' : t'.pair v' e' y')
      (hx : t.symbol x) (hname : data x x') (hexpr : Recast t t' data .expr e e')
      (hrest : Recast t t' data (.split names') y y') : Recast t t' data (.split names) v v'

/-- **Recast code stays recast.** -/
theorem Recast.mono (ht : s.Le t) (ht' : s'.Le t') (hdata : ∀ v v', data v v' → data₁ v v')
    (h : Recast s s' data p v v') : Recast t t' data₁ p v v' := by
  induction h with
  | data h => exact .data (hdata _ _ h)
  | atom hp hv h => exact .atom hp (ht.lone _ hv) (hdata _ _ h)
  | list hp hv hv' _ _ ihx ihy => exact .list hp (ht.pair _ _ _ hv) (ht'.pair _ _ _ hv') ihx ihy
  | special hv hv' hf hf' _ ih =>
    exact .special (ht.pair _ _ _ hv) (ht'.pair _ _ _ hv') (ht.form _ _ hf) (ht'.form _ _ hf') ih
  | call hv hv' hx hx' _ _ ihx ihy =>
    exact .call (ht.pair _ _ _ hv) (ht'.pair _ _ _ hv') (ht.plain _ hx) (ht'.plain _ hx') ihx ihy
  | applied hv hargs hf hv' hplain hfunc hargs' hf' _ _ ihsplit ihbody =>
    exact .applied (ht.pair _ _ _ hv) (ht.pair _ _ _ hargs) (ht.form _ _ hf) (ht'.pair _ _ _ hv')
      (ht'.plain _ hplain) (ht'.pair _ _ _ hfunc) (ht'.pair _ _ _ hargs') (ht'.form _ _ hf') ihsplit ihbody
  | splitNil hv hnames hv' => exact .splitNil (ht.nil _ hv) (ht'.nil _ hnames) (ht'.nil _ hv')
  | splitBare hv hnames hv' hx hname he' _ ih =>
    exact .splitBare (ht.pair _ _ _ hv) (ht'.pair _ _ _ hnames) (ht'.pair _ _ _ hv') (ht.symbol _ hx)
      (hdata _ _ hname) (ht'.nil _ he') ih
  | splitPair hv hb hz hw hnames hv' hx hname _ _ ihe ih =>
    exact .splitPair (ht.pair _ _ _ hv) (ht.pair _ _ _ hb) (ht.pair _ _ _ hz) (ht.nil _ hw)
      (ht'.pair _ _ _ hnames) (ht'.pair _ _ _ hv') (ht.symbol _ hx) (hdata _ _ hname) ihe ih

/-- A piece that is a list is a pair on both sides, or on neither. -/
theorem Recast.list_cases (hp : p.IsList) (h : Recast t t' data p v v') : t.lone v ∧ data v v' ∨
    ∃ x y x' y', t.pair v x y ∧ t'.pair v' x' y' ∧ Recast t t' data p.first x x' ∧
      Recast t t' data p.rest y y' := by
  cases h with
  | atom _ hv h => exact .inl ⟨hv, h⟩
  | list _ hv hv' first rest => exact .inr ⟨_, _, _, _, hv, hv', first, rest⟩
  | _ => exact hp.elim

/-- **Induction along a list** whose rest is a list of the same kind. -/
theorem Recast.list_induction {motive : V → V' → Prop} (hp : p.IsList) (hrest : p.rest = p)
    (atom : ∀ v v', t.lone v → data v v' → motive v v')
    (list : ∀ v x y v' x' y', t.pair v x y → t'.pair v' x' y' → Recast t t' data p.first x x' →
      Recast t t' data p y y' → motive y y' → motive v v') (h : Recast t t' data p v v') : motive v v' := by
  induction h with
  | atom _ hv h => exact atom _ _ hv h
  | list _ hv hv' first rest _ ih =>
    rw [hrest] at rest ih
    exact list _ _ _ _ _ _ hv hv' first rest (ih hp hrest list)
  | _ => exact hp.elim

end

/-! ## 3. The code of a text -/

namespace Datum

/-- The code of a text. -/
def code : Script Datum where
  pair d x y := d = pair x y
  lone d := ∀ x y, d ≠ pair x y
  nil d := d = nil
  symbol d := ∃ name, d = sym name
  form d f := d = sym f.name
  plain d := ∀ f : StandardForm, d ≠ sym f.name

/-- **The same text but for `let` forms that have become applied functions.** -/
abbrev Recast (p : Segment Datum) (d d' : Datum) : Prop := LispMachine.Recast code code Eq p d d'

theorem plain_or_form (d : Datum) : code.plain d ∨ ∃ f : StandardForm, d = sym f.name := by
  rw [or_iff_not_imp_right, not_exists]
  exact id

/-- **Nothing need change.** -/
theorem Recast.refl (d : Datum) : ∀ p : Segment Datum, p.IsList ∨ p = .expr ∨ p = .data → Recast p d d := by
  have hlone : ∀ {d : Datum}, (∀ x y, d ≠ pair x y) → ∀ p : Segment Datum, p.IsList ∨ p = .expr ∨ p = .data →
      Recast p d d := fun hd p hp => by
    rcases hp with hp | rfl | rfl
    · exact .atom (.inl hp) hd rfl
    · exact .atom (.inr rfl) hd rfl
    · exact .data rfl
  induction d with
  | pair x y ihx ihy =>
    intro p hp
    have hpart : ∀ q : Segment Datum, q.IsList → (q.first.IsList ∨ q.first = .expr ∨ q.first = .data) ∧
        (q.rest.IsList ∨ q.rest = .expr ∨ q.rest = .data) := by
      rintro (_ | _ | _ | _ | _ | _ | _ | _) hq <;> simp_all [Segment.IsList, Segment.first, Segment.rest]
    rcases hp with hp | rfl | rfl
    · exact .list hp rfl rfl (ihx _ (hpart p hp).1) (ihy _ (hpart p hp).2)
    · rcases plain_or_form x with hx | ⟨f, hf⟩
      · exact .call rfl rfl hx hx (ihx _ (.inr (.inl rfl))) (ihy _ (.inl trivial))
      · refine .special rfl rfl hf hf (ihy _ ?_)
        cases f <;> simp [Segment.operands, Segment.IsList]
    · exact .data rfl
  | _ => exact hlone nofun

/-! ### One form -/

/-- A list. -/
def listed (ds : List Datum) : Datum := ds.foldr pair nil

/-- A binding: `(name expr)`, or a name alone. -/
def binding : String × Option Datum → Datum
  | (name, some expr) => listed [sym name, expr]
  | (name, none) => sym name

/-- A form `(let bindings body...)`. -/
def letForm (bindings : List (String × Option Datum)) (body : Datum) : Datum :=
  pair (sym "let") (pair (listed (bindings.map binding)) body)

/-- The applied function `((lambda (name...) body...) expr...)`, nil standing for an expression that there is not. -/
def appliedForm (bindings : List (String × Option Datum)) (body : Datum) : Datum :=
  pair (pair (sym "lambda") (pair (listed (bindings.map fun b => sym b.1)) body))
    (listed (bindings.map fun b => b.2.getD nil))

theorem Recast.split (bindings : List (String × Option Datum)) :
    Recast (.split (listed (bindings.map fun b => sym b.1))) (listed (bindings.map binding))
      (listed (bindings.map fun b => b.2.getD nil)) := by
  induction bindings with
  | nil => exact .splitNil rfl rfl rfl
  | cons b bindings ih =>
    obtain ⟨name, _ | expr⟩ := b
    · exact .splitBare rfl rfl rfl ⟨name, rfl⟩ rfl rfl ih
    · exact .splitPair rfl rfl rfl rfl rfl rfl ⟨name, rfl⟩ rfl (Recast.refl expr _ (.inr (.inl rfl))) ih

/-- **A `let` form becomes an applied function**, whatever is bound in it, and its body is recast as well. -/
theorem Recast.letForm (bindings : List (String × Option Datum)) {body body' : Datum} (h : Recast .exprs body body') :
    Recast .expr (letForm bindings body) (appliedForm bindings body') :=
  .applied rfl rfl rfl rfl nofun rfl rfl rfl (Recast.split bindings) h

end Datum

end LispMachine
