import LispMachine.Proofs.Recast.Duet
import LispMachine.Proofs.Trampoline.Meaning

/-!
# Recast code in renamed heaps

Two contexts agree, and each of them is the same as another one but for addresses. Then the other ones agree, too:

* `Script.Mirrors` -- code that stands for other code, piece by piece, and `Recast.mirror`: **recast code is
  mirrored by recast code**;
* `Context.book` -- the code of a context: all of its pairs;
* `Couple.Matched.mirrors` -- code is mirrored in a heap that is the same but for addresses;
* `Context.RecastAs` -- **contexts that hold the same but for addresses and for `let` forms that have become
  applied functions**, in the code of their functions;
* `Duet.Sound.recastAs` -- so do contexts that are the same, but for addresses, as two contexts that agree.
-/

namespace LispMachine

section

variable {V V' U U' : Type} {s : Script V} {t : Script U} {s' : Script V'} {t' : Script U'} {φ : V → U → Prop}
variable {ψ : V' → U' → Prop} {data : V → V' → Prop} {data₁ : U → U' → Prop} {p : Segment V'} {q : Segment U'}
variable {v : V} {v' : V'} {u : U} {u' : U'}

/-! ## 1. Mirrored code -/

/-- **Code that stands for other code**, piece by piece. -/
structure Script.Mirrors (φ : V → U → Prop) (s : Script V) (t : Script U) : Prop where
  pair : ∀ {v u x y}, φ v u → s.pair v x y → ∃ x₁ y₁, t.pair u x₁ y₁ ∧ φ x x₁ ∧ φ y y₁
  lone : ∀ {v u}, φ v u → s.lone v → t.lone u
  nil : ∀ {v u}, φ v u → s.nil v → t.nil u
  symbol : ∀ {v u}, φ v u → s.symbol v → t.symbol u
  form : ∀ {v u f}, φ v u → s.form v f → t.form u f
  plain : ∀ {v u}, φ v u → s.plain v → t.plain u

/-- Pieces for the same, whose names stand for one another. -/
inductive Segment.Along (ψ : V' → U' → Prop) : Segment V' → Segment U' → Prop where
  | expr : Along ψ .expr .expr
  | exprs : Along ψ .exprs .exprs
  | params : Along ψ .params .params
  | headed : Along ψ .headed .headed
  | bindings : Along ψ .bindings .bindings
  | binder : Along ψ .binder .binder
  | data : Along ψ .data .data
  | split {names : V'} {names' : U'} (h : ψ names names') : Along ψ (.split names) (.split names')

namespace Segment.Along

theorem atom (h : p.Along ψ q) (hp : p.IsList ∨ p = .expr) : q.IsList ∨ q = .expr := by
  cases h with
  | expr => exact .inr rfl
  | data | split _ => exact absurd hp (by simp [IsList])
  | _ => exact .inl trivial

/-- The pieces of a piece that is a list. -/
theorem pieces (h : p.Along ψ q) (hp : p.IsList) : q.IsList ∧ p.first.Along ψ q.first ∧ p.rest.Along ψ q.rest := by
  cases h with
  | exprs => exact ⟨hp, .expr, .exprs⟩
  | params => exact ⟨hp, .data, .params⟩
  | headed => exact ⟨hp, .params, .exprs⟩
  | bindings => exact ⟨hp, .headed, .bindings⟩
  | binder => exact ⟨hp, .bindings, .exprs⟩
  | _ => exact hp.elim

theorem operands (f : StandardForm) : (Segment.operands f).Along ψ (.operands f) := by
  cases f with
  | quote => exact .data
  | define | lambda | assignment => exact .headed
  | binding => exact .binder
  | _ => exact .exprs

end Segment.Along

/-- **Recast code is mirrored by recast code.** -/
theorem Recast.mirror (hl : s.Mirrors φ t) (hr : s'.Mirrors ψ t')
    (hdata : ∀ {v v' u u'}, φ v u → ψ v' u' → data v v' → data₁ u u') (h : Recast s s' data p v v')
    (hq : p.Along ψ q) (hu : φ v u) (hu' : ψ v' u') : Recast t t' data₁ q u u' := by
  induction h generalizing q u u' with
  | data h =>
    cases hq
    exact .data (hdata hu hu' h)
  | atom hp hv h => exact .atom (hq.atom hp) (hl.lone hu hv) (hdata hu hu' h)
  | list hp hv hv' _ _ ihx ihy =>
    obtain ⟨_, _, hpair, hx, hy⟩ := hl.pair hu hv
    obtain ⟨_, _, hpair', hx', hy'⟩ := hr.pair hu' hv'
    obtain ⟨hlist, hfirst, hrest⟩ := hq.pieces hp
    exact .list hlist hpair hpair' (ihx hfirst hx hx') (ihy hrest hy hy')
  | special hv hv' hf hf' _ ih =>
    obtain ⟨_, _, hpair, hx, hy⟩ := hl.pair hu hv
    obtain ⟨_, _, hpair', hx', hy'⟩ := hr.pair hu' hv'
    cases hq
    exact .special hpair hpair' (hl.form hx hf) (hr.form hx' hf') (ih (.operands _) hy hy')
  | call hv hv' hplain hplain' _ _ ihx ihy =>
    obtain ⟨_, _, hpair, hx, hy⟩ := hl.pair hu hv
    obtain ⟨_, _, hpair', hx', hy'⟩ := hr.pair hu' hv'
    cases hq
    exact .call hpair hpair' (hl.plain hx hplain) (hr.plain hx' hplain') (ihx .expr hx hx') (ihy .exprs hy hy')
  | applied hv hargs hf hv' hplain hfunc hargs' hf' _ _ ihsplit ihbody =>
    obtain ⟨_, _, hpair, hhead, hrest⟩ := hl.pair hu hv
    obtain ⟨_, _, hpair₁, hbindings, hbody⟩ := hl.pair hrest hargs
    obtain ⟨_, _, hpair', hfunc₁, hexprs⟩ := hr.pair hu' hv'
    obtain ⟨_, _, hpair₁', hhead', hrest'⟩ := hr.pair hfunc₁ hfunc
    obtain ⟨_, _, hpair₂', hnames, hbody'⟩ := hr.pair hrest' hargs'
    cases hq
    exact .applied hpair hpair₁ (hl.form hhead hf) hpair' (hr.plain hfunc₁ hplain) hpair₁' hpair₂' (hr.form hhead' hf')
      (ihsplit (.split hnames) hbindings hexprs) (ihbody .exprs hbody hbody')
  | splitNil hv hnames hv' =>
    cases hq with
    | split hn => exact .splitNil (hl.nil hu hv) (hr.nil hn hnames) (hr.nil hu' hv')
  | splitBare hv hnames hv' hx hname he' _ ih =>
    cases hq with
    | split hn =>
      obtain ⟨_, _, hpair, hx₁, hy⟩ := hl.pair hu hv
      obtain ⟨_, _, hpair₁, hx₁', hnames₁⟩ := hr.pair hn hnames
      obtain ⟨_, _, hpair', he₁, hy'⟩ := hr.pair hu' hv'
      exact .splitBare hpair hpair₁ hpair' (hl.symbol hx₁ hx) (hdata hx₁ hx₁' hname) (hr.nil he₁ he')
        (ih (.split hnames₁) hy hy')
  | splitPair hv hb hz hw hnames hv' hx hname _ _ ihe ih =>
    cases hq with
    | split hn =>
      obtain ⟨_, _, hpair, hb₁, hy⟩ := hl.pair hu hv
      obtain ⟨_, _, hpairb, hx₁, hz₁⟩ := hl.pair hb₁ hb
      obtain ⟨_, _, hpairz, he, hw₁⟩ := hl.pair hz₁ hz
      obtain ⟨_, _, hpair₁, hx₁', hnames₁⟩ := hr.pair hn hnames
      obtain ⟨_, _, hpair', he', hy'⟩ := hr.pair hu' hv'
      exact .splitPair hpair hpairb hpairz (hl.nil hw₁ hw) hpair₁ hpair' (hl.symbol hx₁ hx) (hdata hx₁ hx₁' hname)
        (ihe .expr he he') (ih (.split hnames₁) hy hy')

end

/-! ## 2. Code in renamed heaps -/

/-- The code of a context: all of its pairs. -/
def Context.book (c : Context) : Codebook :=
  ⟨fun a x y => c.heap.cells[a]? = some (.pair x y), c.symbols.names⟩

section

variable {lex lex' : Lexicon} {W W' : World} {c d c' d' : Context} {γ γ' : Value × Value} {σ σ' : Nat → Nat}
variable {L : Codebook} {K : Concord} {u v u' v' : Value} {xs : List Value} {x x' y y' : Cell}

namespace World

theorem Same.sym_eq {i : SymbolId} (h : W.Same v (.sym i)) : v = .sym i := by
  cases h
  rfl

theorem Same.eq_sym {i : SymbolId} (h : W.Same (.sym i) u) : u = .sym i := by
  cases h
  rfl

theorem Same.nil_eq (h : W.Same v .nil) : v = .nil := by
  cases h
  rfl

end World

namespace Couple.Matched

/-- Pairs stand for pairs. -/
theorem exists_pair (hD : (Couple.mk W c d σ).Matched lex γ) {b : Addr} (hu : W.Same v (.pair b))
    (hcell : d.heap.cells[b]? = some (.pair u u')) : ∃ a x y, v = .pair a ∧ c.heap.cells[a]? = some (.pair x y) ∧
      W.Same x u ∧ W.Same y u' := by
  generalize hw : Value.pair b = w at hu
  cases hu with
  | atom hv =>
    subst hw
    cases hv
  | object _ => cases hw
  | pair hlink =>
    cases hw
    obtain ⟨_, _, hx, hx', hcontent⟩ := hD.coherent.cells hlink
    cases hcell.symm.trans hx'
    cases hcontent with
    | pair first _ rest => exact ⟨_, _, _, rfl, hx, first.same, rest.same⟩

/-- **Code is mirrored in a heap that is the same but for addresses.** -/
theorem mirrors (hD : (Couple.mk W c d σ).Matched lex γ) (hd : Side L d) :
    Script.Mirrors (fun u v => W.Same v u) L.code c.book.code where
  pair := by
    rintro _ v y z hu ⟨b, rfl, hp⟩
    obtain ⟨a, x₁, y₁, rfl, hcell, hx, hy⟩ := hD.exists_pair hu (Heap.cell_of_content (hd.code hp))
    exact ⟨x₁, y₁, ⟨a, rfl, hcell⟩, hx, hy⟩
  lone hu hlone := hu.isPair_eq.trans hlone
  nil hu hnil := by
    subst hnil
    exact hu.nil_eq
  symbol hu hsym := hu.isSym_eq.trans hsym
  form := by
    rintro _ v f hu ⟨i, rfl, hi⟩
    exact ⟨i, hu.sym_eq, (congrArg (·[i]?) (hD.names.trans hd.names)).trans hi⟩
  plain := by
    rintro u _ hu hplain i rfl
    obtain ⟨name, hname, hne⟩ := hplain i hu.eq_sym
    exact ⟨name, (congrArg (·[i]?) (hD.names.trans hd.names)).trans hname, hne⟩

/-- The elements of a list of code. -/
theorem mirrors_lists (hD : (Couple.mk W c d σ).Matched lex γ) (hd : Side L d) (h : L.Lists u xs) (hv : W.Same v u) :
    ∃ ys, c.book.Lists v ys ∧ List.Forall₂ W.Same ys xs := by
  induction h generalizing v with
  | nil =>
    obtain rfl := hv.nil_eq
    exact ⟨[], .nil, .nil⟩
  | cons hcell _ ih =>
    obtain ⟨a, _, _, rfl, hpair, hx, hy⟩ := hD.exists_pair hv (Heap.cell_of_content (hd.code hcell))
    obtain ⟨ys, hlists, hsame⟩ := ih hy
    exact ⟨_ :: ys, .cons hpair hlists, .cons hx hsame⟩

/-- The parts of a function. -/
theorem mirrors_parts (hD : (Couple.mk W c d σ).Matched lex γ) (hd : Side L d) {f : Closure}
    (h : L.Lists u [f.env, f.params, f.body, f.name]) (hv : W.Same v u) : ∃ g : Closure,
      c.book.Lists v [g.env, g.params, g.body, g.name] ∧ W.Same g.env f.env ∧ W.Same g.params f.params ∧
        W.Same g.body f.body ∧ W.Same g.name f.name := by
  obtain ⟨ys, hlists, hsame⟩ := hD.mirrors_lists hd h hv
  cases hsame with
  | @cons env _ _ _ henv hsame =>
    cases hsame with
    | @cons params _ _ _ hparams hsame =>
      cases hsame with
      | @cons body _ _ _ hbody hsame =>
        cases hsame with
        | @cons name _ _ _ hname hsame =>
          cases hsame
          exact ⟨⟨env, params, body, name⟩, hlists, henv, hparams, hbody, hname⟩

end Couple.Matched

/-! ## 3. Contexts that agree but for addresses -/

/-- Cells that correspond by way of two others. -/
def Duet.Through (W : World) (K : Concord) (W' : World) (a a' : Addr) : Prop :=
  ∃ b b', W.Renames a b ∧ K.link b b' ∧ W'.Renames a' b'

/-- **Contexts that hold the same** but for addresses and for `let` forms in the bodies of functions that have
    become applied functions: a one-to-one correspondence of cells, from the root environment on. -/
structure Context.RecastAs (r : Addr → Addr → Prop) (c c' : Context) : Prop where
  left : ∀ {a b b'}, r a b → r a b' → b = b'
  right : ∀ {a a' b}, r a b → r a' b → a = a'
  cells : ∀ {a b : Addr}, r a b → ∃ x x', c.heap.cells[a]? = some x ∧ c'.heap.cells[b]? = some x' ∧
    (Concord.mk r c.book c'.book).Content x x'
  rootEnv : (Concord.mk r c.book c'.book).Rel c.rootEnv c'.rootEnv

section

variable (hD : (Couple.mk W c d σ).Matched lex γ) (hD' : (Couple.mk W' c' d' σ').Matched lex' γ')
variable (hK : Duet.Sound ⟨K, d, d'⟩)
include hD hD' hK

theorem Concord.Rel.through (hv : W.Same v u) (hv' : W'.Same v' u') (h : K.Rel u u') :
    (Concord.mk (Duet.Through W K W') c.book c'.book).Rel v v' := by
  cases h with
  | nil =>
    obtain rfl := hv.nil_eq
    obtain rfl := hv'.nil_eq
    exact .nil
  | int n =>
    cases hv
    cases hv'
    exact .int n
  | sym hi hj =>
    obtain rfl := hv.sym_eq
    obtain rfl := hv'.sym_eq
    exact .sym ((congrArg (·[_]?) (hD.names.trans hK.left.names)).trans hi)
      ((congrArg (·[_]?) (hD'.names.trans hK.right.names)).trans hj)
  | pair h =>
    cases hv with
    | atom hv => cases hv
    | pair hw =>
      cases hv' with
      | atom hv => cases hv
      | pair hw' => exact .pair ⟨_, _, ⟨_, hw⟩, h, _, hw'⟩
  | object h =>
    cases hv with
    | atom hv => cases hv
    | object hw =>
      cases hv' with
      | atom hv => cases hv
      | object hw' => exact .object ⟨_, _, ⟨_, hw⟩, h, _, hw'⟩

theorem Concord.Recast.through {p : Segment Value} {q : Segment Value} (hq : p.Along (fun u v => W'.Same v u) q)
    (hv : W.Same v u) (hv' : W'.Same v' u') (h : K.Recast p u u') :
    (Concord.mk (Duet.Through W K W') c.book c'.book).Recast q v v' :=
  LispMachine.Recast.mirror (hD.mirrors hK.left) (hD'.mirrors hK.right)
    (fun hu hu' hdata => Concord.Rel.through hD hD' hK hu hu' hdata) h hq hv hv'

/-- **What cells hold that correspond by way of two others.** -/
theorem Concord.Content.through {k k' : Kind} (hx : W.Content lex k x y) (hx' : W'.Content lex' k' x' y')
    (h : K.Content y y') : (Concord.mk (Duet.Through W K W') c.book c'.book).Content x x' := by
  cases h with
  | pair first rest =>
    cases hx with
    | pair hfirst _ hrest =>
      cases hx' with
      | pair hfirst' _ hrest' =>
        exact .pair (.through hD hD' hK hfirst.same hfirst'.same first) (.through hD hD' hK hrest.same hrest'.same rest)
  | text bytes =>
    cases hx with
    | object hx =>
      cases hx' with
      | object hx' =>
        cases hx
        cases hx'
        exact .text bytes
  | native hp =>
    cases hx with
    | object hx =>
      cases hx' with
      | object hx' =>
        cases hx
        cases hx'
        exact .native hp
  | @closure parts parts' f f' hl hr h =>
    cases hx with
    | object hx =>
      cases hx' with
      | object hx' =>
        cases hx with
        | func hparts =>
          cases hx' with
          | func hparts' =>
            obtain ⟨g, hlists, henv, hparams, hbody, hname⟩ := hD.mirrors_parts hK.left hl hparts.same
            obtain ⟨g', hlists', henv', hparams', hbody', hname'⟩ := hD'.mirrors_parts hK.right hr hparts'.same
            exact .closure hlists hlists' ⟨.through hD hD' hK henv henv' h.env,
              .through hD hD' hK .params hparams hparams' h.params,
              .through hD hD' hK .exprs hbody hbody' h.body, .through hD hD' hK hname hname' h.name⟩

/-- **Contexts that are the same, but for addresses, as two contexts that agree** agree but for addresses. -/
theorem Duet.Sound.recastAs : c.RecastAs (Through W K W') c' where
  left := by
    rintro a a' a'' ⟨b, b', ⟨k, hw⟩, hl, k', hw'⟩ ⟨b₁, b₁', ⟨k₁, hw₁⟩, hl₁, k₁', hw₁'⟩
    obtain rfl := (hD.coherent.one.left hw hw₁).1
    obtain rfl := hK.one_left hl hl₁
    exact (hD'.coherent.one.right hw' hw₁').1
  right := by
    rintro a a' a'' ⟨b, b', ⟨k, hw⟩, hl, k', hw'⟩ ⟨b₁, b₁', ⟨k₁, hw₁⟩, hl₁, k₁', hw₁'⟩
    obtain rfl := (hD'.coherent.one.left hw' hw₁').1
    obtain rfl := hK.one_right hl hl₁
    exact (hD.coherent.one.right hw hw₁).1
  cells := by
    rintro a a' ⟨b, b', ⟨k, hw⟩, hl, k', hw'⟩
    obtain ⟨x, y, hx, hy, hcontent⟩ := hD.coherent.cells hw
    obtain ⟨x', y', hx', hy', hcontent'⟩ := hD'.coherent.cells hw'
    obtain ⟨z, z', hz, hz', h⟩ := hK.cells hl
    cases hy.symm.trans (Heap.cell_of_content hz)
    cases hy'.symm.trans (Heap.cell_of_content hz')
    exact ⟨x, x', hx, hx', .through hD hD' hK hcontent hcontent' h⟩
  rootEnv := .through hD hD' hK hD.rootEnv.rel.same hD'.rootEnv.rel.same hK.rootEnv

end

end

end LispMachine
