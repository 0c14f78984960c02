import LispMachine.Context
import LispMachine.Proofs.Action
import LispMachine.Proofs.Heap.Exhaustion
import LispMachine.Proofs.Symbols
import LispMachine.Proofs.Twin.Holding

/-!
# Two contexts that run alike

* `Couple.Matched` -- the invariant of two runs: coherent heaps, symbol tables of the same names, and
  the same state otherwise. The functions whose bodies are running are given apart from it;
* `Couple.Onward` -- what may happen to both contexts above a height of the root stack;
* `Agree` -- outcomes that agree: results in matched contexts, or the same fault after the same
  output. Once a heap is exhausted nothing is said, but that the left one of two heaps of the same
  sizes is not exhausted alone;
* `Leads` -- **actions that lead from matched contexts to outcomes that agree**, and the rules for it.
  `Leads.bind` is the one for sequences: what is known below a height is known afterwards, too.
-/

namespace LispMachine

open World

/-- Two contexts, and the cells of their heaps and the slots of their root stacks that correspond. -/
structure Couple where
  world : World
  left : Context
  right : Context
  slot : Nat → Nat

/-- A message that consists of lines of traceback in front of its cause. -/
inductive Traced (cause : String) : String → Prop where
  | bare : Traced cause cause
  | line (name : String) {message : String} (h : Traced cause message) :
      Traced cause ("In " ++ name ++ ":\n" ++ message)

/-- Messages of the same cause. They are the same unless one side has more calls under way. -/
structure SameFailure (lex : Lexicon) (message message' : String) : Prop where
  plain : lex.nested = false → message = message'
  cause : ∃ cause, Traced cause message ∧ Traced cause message'

theorem SameFailure.rfl {lex : Lexicon} {message : String} : SameFailure lex message message :=
  ⟨fun _ => Eq.refl _, _, .bare, .bare⟩

/-- The same has been printed on both sides, after what each of them has printed before. -/
def Printed (lex : Lexicon) (c c' : Context) : Prop :=
  ∃ out, c.output = lex.said.1 ++ out ∧ c'.output = lex.said.2 ++ out

/-- If that was the same, everything printed is. -/
theorem Printed.eq {lex : Lexicon} {c c' : Context} (h : Printed lex c c')
    (hsaid : lex.said.1 = lex.said.2) : c.output = c'.output := by
  obtain ⟨out, hl, hr⟩ := h
  rw [hl, hr, hsaid]

theorem Printed.append {lex : Lexicon} {c c' : Context} (h : Printed lex c c') (out : String) :
    Printed lex { c with output := c.output ++ out } { c' with output := c'.output ++ out } := by
  obtain ⟨before, hl, hr⟩ := h
  refine ⟨before ++ out, ?_, ?_⟩
  · rw [hl, String.append_assoc]
  · rw [hr, String.append_assoc]

namespace Couple

variable {lex : Lexicon} {γ : Value × Value} {D D' D'' : Couple} {S S' : Shape → Prop} {m n : Nat}

/-! ## 1. The invariant -/

/-- The heaps of two contexts. -/
def twin (D : Couple) : Twin := ⟨D.world, D.left.heap, D.right.heap, D.slot⟩

/-- The height of the left root stack. -/
def height (D : Couple) : Nat := D.left.heap.roots.size

/-- **Two contexts that a program cannot tell apart**, while the bodies of the functions `γ` are
    running. How deep the evaluation is may differ where one side starts a call and the other does
    not; then no list of arguments is on its way back. -/
structure Matched (lex : Lexicon) (γ : Value × Value) (D : Couple) : Prop where
  coherent : D.twin.Coherent lex
  valid_left : D.left.heap.Valid
  valid_right : D.right.heap.Valid
  sound_left : D.left.symbols.Sound
  sound_right : D.right.symbols.Sound
  names : D.left.symbols.names = D.right.symbols.names
  forms : D.left.forms = D.right.forms
  rootEnv : D.twin.Rooted (fun _ => False) 0 (.just .frame) D.left.rootEnv D.right.rootEnv
  current_left : D.left.current = γ.1
  current_right : D.right.current = γ.2
  looping : D.left.looping = D.right.looping
  failing : D.left.failing = D.right.failing
  failure : SameFailure lex D.left.failure D.right.failure
  settled : lex.nested = true → D.left.looping = false
  depth : lex.nested = false → D.left.depth = D.right.depth
  maxDepth : lex.nested = false → D.left.maxDepth = D.right.maxDepth
  peakDepth : lex.nested = false → D.left.peakDepth = D.right.peakDepth
  truth : D.left.truth = D.right.truth
  truth_atom : D.left.truth.addr? = none
  output : Printed lex D.left D.right
  level : lex.level → ∃ cfg, Heap.Within cfg D.left.heap ∧ Heap.Within cfg D.right.heap

/-- What may happen to two contexts above a height. -/
structure Onward (S : Shape → Prop) (n : Nat) (D D' : Couple) : Prop where
  heaps : D.twin.Onward S n D'.twin
  top : D'.slot n = D.slot n
  forms : D'.left.forms = D.left.forms
  names : ∀ (id : SymbolId) (name : String), D.left.symbols.names[id]? = some name →
    D'.left.symbols.names[id]? = some name

/-- Slots up to the height correspond as before. -/
theorem Onward.slot_eq (h : D.Onward S n D') (hmn : m ≤ n) : D'.slot m = D.slot m := by
  rcases Nat.lt_or_eq_of_le hmn with hlt | rfl
  · exact h.heaps.slots m hlt
  · exact h.top

theorem Onward.mono (h : D.Onward S' n D') (hst : ∀ s, S s → S' s) (hmn : m ≤ n) :
    D.Onward S m D' :=
  ⟨h.heaps.mono hst hmn, h.slot_eq hmn, h.forms, h.names⟩

theorem Onward.lower (h : D.Onward S n D') (hmn : m ≤ n) : D.Onward S m D' :=
  h.mono (fun _ => id) hmn

theorem Onward.trans {γ' : Value × Value} (ho : D.Onward S n D') (ho' : D'.Onward S n D'')
    (hD : D.Matched lex γ) (hD' : D'.Matched lex γ') : D.Onward S n D'' :=
  ⟨ho.heaps.trans ho'.heaps hD.coherent hD'.coherent, ho'.top.trans ho.top, ho'.forms.trans ho.forms,
    fun id name h => ho'.names id name (ho.names id name h)⟩

theorem Onward.refl (hn : n ≤ D.height) : D.Onward S n D :=
  ⟨.refl hn, rfl, rfl, fun _ _ h => h⟩

/-- **What is kept below a height stays kept.** -/
theorem Onward.rooted {γ' : Value × Value} {ρ : Role} {v v' : Value} (ho : D.Onward S n D')
    (hD : D.Matched lex γ) (hD' : D'.Matched lex γ') (h : D.twin.Rooted S m ρ v v')
    (hmn : m ≤ n) : D'.twin.Rooted S m ρ v v' :=
  h.onward hD.coherent hD'.coherent ho.heaps hmn

/-- The height of the right side. -/
theorem Matched.height_eq (hD : D.Matched lex γ) : D.right.heap.roots.size = D.slot D.height :=
  hD.coherent.slot_height.symm

/-- What is pushed comes into corresponding slots. -/
theorem Matched.slot_add (hD : D.Matched lex γ) (k : Nat) :
    D.slot (D.height + k) = D.right.heap.roots.size + k :=
  hD.coherent.height k

/-- Couples of the same heaps have the same world and height. -/
theorem world_eq (h : D'.twin = D.twin) : D'.world = D.world := congrArg Twin.world h

theorem slot_eq (h : D'.twin = D.twin) : D'.slot = D.slot := congrArg Twin.slot h

theorem height_eq (h : D'.twin = D.twin) : D'.height = D.height :=
  congrArg (fun T : Twin => T.left.roots.size) h

/-! ## 2. Other heaps -/

/-- The same contexts with other heaps. -/
def withTwin (D : Couple) (T : Twin) : Couple :=
  ⟨T.world, { D.left with heap := T.left }, { D.right with heap := T.right }, T.slot⟩

theorem Matched.withTwin {T : Twin} (hD : D.Matched lex γ) (hT : T.Coherent lex)
    (hl : D.left.heap.Succeeds T.left) (hr : D.right.heap.Succeeds T.right)
    (ho : D.twin.Onward S n T) : (D.withTwin T).Matched lex γ :=
  { hD with
    coherent := hT
    valid_left := hl.valid
    valid_right := hr.valid
    level := fun h => by
      obtain ⟨cfg, hw, hw'⟩ := hD.level h
      exact ⟨cfg, hw.resized hl.toResized, hw'.resized hr.toResized⟩
    rootEnv := hD.rootEnv.onward hD.coherent hT (ho.mono (fun _ h => h.elim) (Nat.zero_le n))
      (Nat.le_refl 0) }

theorem Onward.withTwin {T : Twin} (ho : D.twin.Onward S n T) (htop : T.slot n = D.slot n) :
    D.Onward S n (D.withTwin T) :=
  ⟨ho, htop, rfl, fun _ _ h => h⟩

end Couple

/-! ## 3. Outcomes -/

/-- **Outcomes that agree.** -/
inductive Agree {α α' : Type} (lex : Lexicon) (S : Shape → Prop) (n : Nat) (D : Couple)
    (Q : Value × Value → Couple → α → α' → Prop) :
    EStateM.Result Fault Context α → EStateM.Result Fault Context α' → Prop where
  | ok {γ : Value × Value} {W : World} {σ : Nat → Nat} {c c' : Context} {a : α} {a' : α'}
      (hg : (Couple.mk W c c' σ).Matched lex γ) (ho : D.Onward S n ⟨W, c, c', σ⟩)
      (hq : Q γ ⟨W, c, c', σ⟩ a a') : Agree lex S n D Q (.ok a c) (.ok a' c')
  | fault {e : Fault} {c c' : Context} (hout : Printed lex c c') :
      Agree lex S n D Q (.error e c) (.error e c')
  | exhausted_left {c : Context} {r' : EStateM.Result Fault Context α'}
      (hlevel : lex.level → ∃ e c', r' = .error e c') :
      Agree lex S n D Q (.error .heapExhausted c) r'
  | exhausted_right {r : EStateM.Result Fault Context α} {c' : Context} :
      Agree lex S n D Q r (.error .heapExhausted c')

/-- **Actions that lead to outcomes that agree**, whatever function is running afterwards. -/
def Steps {α α' : Type} (lex : Lexicon) (S : Shape → Prop) (n : Nat) (D : Couple) (x : Run α)
    (x' : Run α') (Q : Value × Value → Couple → α → α' → Prop) : Prop :=
  Agree lex S n D Q (x D.left) (x' D.right)

/-- The same, with the functions `γ` running afterwards. -/
abbrev Leads {α α' : Type} (lex : Lexicon) (S : Shape → Prop) (n : Nat) (γ : Value × Value)
    (D : Couple) (x : Run α) (x' : Run α') (Q : Couple → α → α' → Prop) : Prop :=
  Steps lex S n D x x' fun γ' D' a a' => γ' = γ ∧ Q D' a a'

namespace Leads

variable {α α' β β' : Type} {lex : Lexicon} {γ γ' : Value × Value} {D : Couple}
variable {S S' : Shape → Prop} {m n : Nat}
variable {x : Run α} {x' : Run α'} {f : α → Run β} {f' : α' → Run β'}
variable {Q : Couple → α → α' → Prop} {P P' : Value × Value → Couple → α → α' → Prop}
variable {R : Value × Value → Couple → β → β' → Prop}

theorem pure {a : α} {a' : α'} (hD : D.Matched lex γ) (hn : n ≤ D.height) (hq : P γ D a a') :
    Steps lex S n D (Pure.pure a) (Pure.pure a') P :=
  .ok hD (.refl hn) hq

/-- Sequences whose two parts are about contexts that correspond in ways of their own. -/
theorem andThenAs {lex' : Lexicon} (hD : D.Matched lex γ) (hsaid : lex'.said = lex.said)
    (hlevels : lex'.level → lex.level) (hx : Steps lex S m D x x' P) (hmn : n ≤ m)
    (hf : ∀ {γ' : Value × Value} {D' : Couple} {a a'}, D'.Matched lex γ' → D.Onward S m D' →
      P γ' D' a a' → Steps lex' S n D' (f a) (f' a') R) :
    Steps lex' S n D (x >>= f) (x' >>= f') R := by
  rw [Steps] at hx ⊢
  generalize hr : x D.left = r at hx
  generalize hr' : x' D.right = r' at hx
  cases hx with
  | @ok γ' W σ c c' a a' hg ho hq =>
    rw [run_bind hr, run_bind hr']
    have hrest : Agree lex' S n ⟨W, c, c', σ⟩ R (f a c) (f' a' c') := hf hg ho hq
    generalize f a c = s at hrest
    generalize f' a' c' = s' at hrest
    cases hrest with
    | ok hg' ho' hr => exact .ok hg' ((ho.lower hmn).trans ho' hD hg) hr
    | fault hout => exact .fault hout
    | exhausted_left hlevel => exact .exhausted_left hlevel
    | exhausted_right => exact .exhausted_right
  | fault hout =>
    rw [run_bind_error hr, run_bind_error hr']
    refine .fault ?_
    rw [Printed, hsaid]
    exact hout
  | exhausted_left hlevel =>
    rw [run_bind_error hr]
    refine .exhausted_left fun h => ?_
    obtain ⟨e, c', rfl⟩ := hlevel (hlevels h)
    exact ⟨e, c', run_bind_error hr'⟩
  | exhausted_right =>
    rw [run_bind_error hr']
    exact .exhausted_right

/-- **Sequences.** -/
theorem andThen (hD : D.Matched lex γ) (hx : Steps lex S m D x x' P) (hmn : n ≤ m)
    (hf : ∀ {γ' : Value × Value} {D' : Couple} {a a'}, D'.Matched lex γ' → D.Onward S m D' →
      P γ' D' a a' → Steps lex S n D' (f a) (f' a') R) :
    Steps lex S n D (x >>= f) (x' >>= f') R :=
  andThenAs hD rfl id hx hmn hf

/-- A sequence whose first action leaves the running functions known. -/
theorem bind (hD : D.Matched lex γ') (hx : Leads lex S m γ D x x' Q) (hmn : n ≤ m)
    (hf : ∀ {D' : Couple} {a a'}, D'.Matched lex γ → D.Onward S m D' → Q D' a a' →
      Steps lex S n D' (f a) (f' a') R) :
    Steps lex S n D (x >>= f) (x' >>= f') R :=
  andThen hD hx hmn fun hD' ho hq => by
    obtain ⟨rfl, hq⟩ := hq
    exact hf hD' ho hq

/-- Less may be claimed. -/
theorem relax (h : Steps lex S' m D x x' P) (hst : ∀ s, S s → S' s) (hmn : n ≤ m)
    (hP : ∀ {γ D' a a'}, D'.Matched lex γ → D.Onward S' m D' → P γ D' a a' → P' γ D' a a') :
    Steps lex S n D x x' P' := by
  rw [Steps] at h ⊢
  generalize x D.left = r at h
  generalize x' D.right = r' at h
  cases h with
  | ok hg ho hq => exact .ok hg (ho.mono hst hmn) (hP hg ho hq)
  | fault hout => exact .fault hout
  | exhausted_left hlevel => exact .exhausted_left hlevel
  | exhausted_right => exact .exhausted_right

theorem weaken (h : Leads lex S' m γ D x x' Q) (hst : ∀ s, S s → S' s) (hmn : n ≤ m)
    (hQ : ∀ {D' a a'}, D'.Matched lex γ → D.Onward S' m D' → Q D' a a' → P γ D' a a') :
    Steps lex S n D x x' P :=
  relax h hst hmn fun hD' ho hq => by
    obtain ⟨rfl, hq⟩ := hq
    exact hQ hD' ho hq

/-- Reading something off the state leaves it as it is. -/
theorem observe {g : Context → α} {g' : Context → α'}
    (h : Steps lex S n D (f (g D.left)) (f' (g' D.right)) R) :
    Steps lex S n D (LispMachine.observe g >>= f) (LispMachine.observe g' >>= f') R := h

theorem look {g : Heap → α} {g' : Heap → α'}
    (h : Steps lex S n D (f (g D.left.heap)) (f' (g' D.right.heap)) R) :
    Steps lex S n D (Context.look g >>= f) (Context.look g' >>= f') R := h

/-- A fault on both sides. -/
theorem throw (hD : D.Matched lex γ) (e : Fault) :
    Steps lex S n D (MonadExcept.throw e : Run α) (MonadExcept.throw e : Run α') P :=
  .fault hD.output

theorem ite {p p' : Prop} [Decidable p] [Decidable p'] {y : Run α} {y' : Run α'} (hp : p ↔ p')
    (hx : p → Steps lex S n D x x' P) (hy : ¬ p → Steps lex S n D y y' P) :
    Steps lex S n D (if p then x else y) (if p' then x' else y') P := by
  by_cases h : p
  · rw [if_pos h, if_pos (hp.mp h)]
    exact hx h
  · rw [if_neg h, if_neg fun e => h (hp.mpr e)]
    exact hy h

end Leads

end LispMachine
