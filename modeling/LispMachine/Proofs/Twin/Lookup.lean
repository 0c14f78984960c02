import LispMachine.Machine.Form
import LispMachine.Machine.Call
import LispMachine.Proofs.Twin.Holding

/-!
# What is looked up in corresponding values

* `Coherent.bindingIn?`, `Coherent.lookup?` -- **bindings correspond**: a search along the bindings
  of a frame, and one along frames;
* `Coherent.closure` -- the parts of a function;
* `Coherent.isParameterList_eq` -- a list of parameters is one in both heaps;
* `Paired`, `Coherent.pairUp` -- names and values that are walked at once;
* `Coherent.takeArguments` -- the arguments of a native, laid out by its arity.
-/

namespace LispMachine

namespace Twin

open World

variable {lex : Lexicon} {T : Twin} {S : Shape → Prop} {n : Nat} {v v' key key' : Value}

/-- The parts of corresponding functions, which are kept. -/
structure PartsAgree (S : Shape → Prop) (T : Twin) (n : Nat) (c c' : Closure) : Prop where
  env : T.Rooted S n (.just .frame) c.env c'.env
  params : T.Rooted S n (.just .inert) c.params c'.params
  body : T.Rooted S n (.just .exprs) c.body c'.body
  name : T.Rooted S n (.just .inert) c.name c'.name

/-- A name and its value, both of which are kept. -/
structure NamedAgree (S : Shape → Prop) (T : Twin) (n : Nat) (p p' : Value × Value) : Prop where
  name : T.Rooted S n (.just .inert) p.1 p'.1
  value : T.Rooted S n (.just .data) p.2 p'.2

/-- Names and values that have been paired on both sides. -/
inductive Paired (S : Shape → Prop) (T : Twin) (n : Nat) :
    List (Value × Value) × Machine.Fit → List (Value × Value) × Machine.Fit → Prop where
  | ends {bound bound' : List (Value × Value)} (fit : Machine.Fit)
      (hb : List.Forall₂ (NamedAgree S T n) bound bound') :
      Paired S T n (bound, fit) (bound', fit)
  | endless (bound bound' : List (Value × Value)) :
      Paired S T n (bound, .endless) (bound', .endless)

/-- Arguments of a native that are laid out on both sides, or fit on neither. -/
inductive ArgumentsAgree (W : World) : Except Machine.Misfit (List Value) →
    Except Machine.Misfit (List Value) → Prop where
  | fit {args args' : List Value} (ha : List.Forall₂ (W.Rel (.just .data)) args args') :
      ArgumentsAgree W (.ok args) (.ok args')
  | misfit (e : Machine.Misfit) : ArgumentsAgree W (.error e) (.error e)

namespace Coherent

/-! ## 2. Bindings -/

theorem walk (hT : T.Coherent lex) {s : Shape} (hs : s.rest = s)
    (h : T.world.Rel (.just s) v v') (k : Nat) :
    T.world.Rel (.just s) (T.left.cdr^[k] v) (T.right.cdr^[k] v') := by
  induction k with
  | zero => exact h
  | succ k ih =>
    rw [Function.iterate_succ_apply', Function.iterate_succ_apply']
    have hcdr := hT.cdr ih
    rwa [hs] at hcdr

/-- Frames, each in the one before it. -/
theorem climb (hT : T.Coherent lex) (h : T.world.Rel (.just .frame) v v') (k : Nat) :
    T.world.Rel (.just .frame) (T.left.car^[k] v) (T.right.car^[k] v') := by
  induction k with
  | zero => exact h
  | succ k ih =>
    rw [Function.iterate_succ_apply', Function.iterate_succ_apply']
    exact hT.car ih

theorem bindingHere? (hT : T.Coherent lex) (h : T.world.Rel (.just .bindings) v v')
    (hkey : T.world.Same key key') :
    Option.Rel (T.world.Rel (.just .binding)) (T.left.bindingHere? key v)
      (T.right.bindingHere? key' v') := by
  have hcar := hT.car h
  have hfirst : T.left.car (T.left.car v) = key ↔ T.right.car (T.right.car v') = key' :=
    hT.one.eq_iff (hT.car hcar).same hkey
  have hdecide : decide (T.left.car (T.left.car v) = key) =
      decide (T.right.car (T.right.car v') = key') := decide_eq_decide.mpr hfirst
  rw [Heap.bindingHere?, Heap.bindingHere?, hcar.same.isPair_eq, hdecide]
  split
  · exact .some hcar
  · exact .none

/-- **Bindings in a frame correspond.** -/
theorem bindingIn? (hT : T.Coherent lex) (h : T.world.Rel (.just .frame) v v')
    (hkey : T.world.Same key key') :
    Option.Rel (T.world.Rel (.just .binding)) (T.left.bindingIn? v key)
      (T.right.bindingIn? v' key') := by
  have hwalk := hT.walk rfl (hT.cdr h)
  rw [Heap.bindingIn?, Heap.bindingIn?, Heap.bindingAmong?_eq, Heap.bindingAmong?_eq]
  exact hT.searchAlong (fun k => (hwalk k).same) fun k => hT.bindingHere? (hwalk k) hkey

/-- **Nearest bindings correspond.** -/
theorem lookup? (hT : T.Coherent lex) (h : T.world.Rel (.just .frame) v v')
    (hkey : T.world.Same key key') :
    Option.Rel (T.world.Rel (.just .binding)) (T.left.lookup? v key) (T.right.lookup? v' key') := by
  have hclimb := hT.climb h
  rw [Heap.lookup?, Heap.lookup?, Heap.lookupAmong?_eq, Heap.lookupAmong?_eq]
  exact hT.searchAlong (fun k => (hclimb k).same) fun k => hT.bindingIn? (hclimb k) hkey

/-! ## 3. Functions and their arguments -/

theorem closure (hT : T.Coherent lex) (hst : ∀ s, s.isFixed = true → S s) {ρ : Role}
    (h : T.Rooted S n ρ v v') : PartsAgree S T n (T.left.closure v) (T.right.closure v') := by
  have henv := h.parts hT
  have hparams := henv.cdr hT (hst _ rfl)
  have hbody := hparams.cdr hT (hst _ rfl)
  have hname := hbody.cdr hT (hst _ rfl)
  exact ⟨henv.car hT (hst _ rfl), hparams.car hT (hst _ rfl), hbody.car hT (hst _ rfl),
    hname.car hT (hst _ rfl)⟩

/-- The first value of a walk that is no pair is met before either heap is used up. -/
theorem le_of_not_pair (hT : T.Coherent lex) (h : T.world.Same v v') {k : Nat}
    (hbefore : ∀ j, j < k → (T.left.cdr^[j] v).isPair = true)
    (hend : ¬ (T.left.cdr^[k] v).isPair = true) :
    k ≤ T.left.cells.size ∧ k ≤ T.right.cells.size :=
  hT.similar.le_of_not_pair h hbefore hend

/-- **A list of parameters is one in both heaps.** -/
theorem isParameterList_eq (hT : T.Coherent lex) (h : T.world.Same v v') :
    Machine.isParameterList T.left v = Machine.isParameterList T.right v' :=
  hT.similar.isParameterList_eq h

/-- They look alike from what is kept, too. -/
theorem similar_rooted (hT : T.Coherent lex) {s : Shape} (hst : S s) (hfirst : s.first = .just s)
    (hrest : s.rest = s) :
    Heap.Similar (T.Rooted S n (.just s)) T.left T.right where
  kindred h := kindred_of_same h.rel.same
  car h := by
    have hcar := h.car hT hst
    rwa [hfirst] at hcar
  cdr h := by
    have hcdr := h.cdr hT hst
    rwa [hrest] at hcdr
  inside h := hT.similar.inside h.rel.same

/-- **Parameters and arguments are paired alike**, wherever the walks are cut off. -/
theorem pairUp (hT : T.Coherent lex) (hinert : S .inert) (hdata : S .data) {w w' : Value}
    (h : T.Rooted S n (.just .inert) v v') (hw : T.Rooted S n (.just .data) w w') :
    Paired S T n (Machine.pairUp T.left (T.left.cells.size + 1) v w)
      (Machine.pairUp T.right (T.right.cells.size + 1) v' w') := by
  have hagree := (hT.similar_rooted hinert rfl rfl).pairUp (hT.similar_rooted hdata rfl rfl) h hw
  generalize Machine.pairUp T.left _ v w = p at hagree ⊢
  generalize Machine.pairUp T.right _ v' w' = p' at hagree ⊢
  cases hagree with
  | ends fit hb => exact .ends fit (hb.imp fun _ _ h => ⟨h.1, h.2⟩)
  | endless bound bound' => exact .endless bound bound'

/-- They look alike from data, too. -/
theorem similar_data (hT : T.Coherent lex) : Heap.Similar (T.world.Rel (.just .data)) T.left T.right where
  kindred h := kindred_of_same h.same
  car := hT.car
  cdr := hT.cdr
  inside h := hT.similar.inside h.same

/-- **The arguments of a native are laid out alike.** -/
theorem takeArguments (hT : T.Coherent lex) (arity : Arity)
    (h : T.world.Rel (.just .data) v v') :
    ArgumentsAgree T.world (Machine.takeArguments T.left arity v)
      (Machine.takeArguments T.right arity v') := by
  have hagree := hT.similar_data.takeArguments arity h
  generalize Machine.takeArguments T.left arity v = args at hagree ⊢
  generalize Machine.takeArguments T.right arity v' = args' at hagree ⊢
  cases hagree with
  | fit ha => exact .fit ha
  | misfit e => exact .misfit e

end Coherent

/-- **The parts of a kept function stay the same.** -/
theorem Onward.closure_eq {T' : Twin} {ρ : Role} (ho : Onward S n T T') (hT : T.Coherent lex)
    (hst : ∀ s, s.isFixed = true → S s) (h : T.Rooted S n ρ v v') :
    T'.left.closure v = T.left.closure v ∧ T'.right.closure v' = T.right.closure v' := by
  have first : ∀ {s u u'}, T.Rooted S n (.just s) u u' → S s →
      T'.left.car u = T.left.car u ∧ T'.right.car u' = T.right.car u' := fun hu hs =>
    ho.car_eq hT hu.held (firmAt_of_rel hT hu.rel hs)
  have rest : ∀ {s u u'}, T.Rooted S n (.just s) u u' → S s →
      T'.left.cdr u = T.left.cdr u ∧ T'.right.cdr u' = T.right.cdr u' := fun hu hs =>
    ho.cdr_eq hT hu.held (firmAt_of_rel hT hu.rel hs)
  have hparts := ho.parts_eq hT h.held
  have henv := h.parts hT
  have hparams := henv.cdr hT (hst _ rfl)
  have hbody := hparams.cdr hT (hst _ rfl)
  have hname := hbody.cdr hT (hst _ rfl)
  have h₁ := rest henv (hst _ rfl)
  have h₂ := rest hparams (hst _ rfl)
  have h₃ := rest hbody (hst _ rfl)
  have k₀ := first henv (hst _ rfl)
  have k₁ := first hparams (hst _ rfl)
  have k₂ := first hbody (hst _ rfl)
  have k₃ := first hname (hst _ rfl)
  constructor
  · simp only [Heap.closure, Heap.nth, hparts.1, h₁.1, h₂.1, h₃.1, k₀.1, k₁.1, k₂.1, k₃.1]
  · simp only [Heap.closure, Heap.nth, hparts.2, h₁.2, h₂.2, h₃.2, k₀.2, k₁.2, k₂.2, k₃.2]

end Twin

end LispMachine
