import LispMachine.Environment
import LispMachine.Proofs.Action

/-!
# What an action leaves as it was

The evaluator keeps a root stack and a few registers. Most actions leave both as they find them:

* `Yields` -- what is true if an action comes to an end, and the rules for it;
* `Context.Registers`, `Stance` -- the registers of the evaluator, the height of the root stack, and
  the roots at its bottom;
* `Idle` -- **actions that leave all of these as they are**, and whose result has a property;
* `Idle.cons`, `Idle.func`, `Idle.define`, … -- values and environments are made by such actions.
-/

namespace LispMachine

/-! ## 1. Actions that come to an end -/

section Yields

variable {σ α β : Type}

/-- If the action comes to an end, then with `Q`. -/
def Yields (x : EStateM Fault σ α) (s : σ) (Q : α → σ → Prop) : Prop :=
  ∀ a s', x s = .ok a s' → Q a s'

namespace Yields

variable {x : EStateM Fault σ α} {f : α → EStateM Fault σ β} {s : σ} {P Q : α → σ → Prop}
variable {R : β → σ → Prop}

theorem pure {a : α} (h : Q a s) : Yields (Pure.pure a) s Q := by
  rintro _ _ ⟨⟩
  exact h

theorem bind (hx : Yields x s P) (hf : ∀ a s', P a s' → Yields (f a) s' R) :
    Yields (x >>= f) s R := by
  intro b s'' hrun
  obtain ⟨a, s', ha, hb⟩ := bind_eq_ok.mp hrun
  exact hf a s' (hx a s' ha) b s'' hb

theorem weaken (hx : Yields x s P) (h : ∀ a s', P a s' → Q a s') : Yields x s Q :=
  fun a s' hrun => h a s' (hx a s' hrun)

theorem observe {g : σ → α} (h : Yields (f (g s)) s R) : Yields (LispMachine.observe g >>= f) s R :=
  h

theorem edit {g : σ → σ} {Q : PUnit → σ → Prop} (h : Q ⟨⟩ (g s)) : Yields (modify g) s Q := by
  rintro _ _ ⟨⟩
  exact h

theorem throw (e : Fault) : Yields (MonadExcept.throw e : EStateM Fault σ α) s Q := nofun

theorem ite {p : Prop} [Decidable p] {y : EStateM Fault σ α} (hx : p → Yields x s Q)
    (hy : ¬ p → Yields y s Q) : Yields (if p then x else y) s Q := by
  split
  · exact hx ‹_›
  · exact hy ‹_›

end Yields

end Yields

/-! ## 2. The root stack of a heap -/

namespace Heap

variable {h : Heap}

theorem roots_sweepCell (marks : Array Bool) (a : Addr) (p : Heap × Nat) :
    (sweepCell marks a p).1.roots = p.1.roots := by
  obtain ⟨h, freed⟩ := p
  show (if isDoomed marks h a then (h.reclaim a, freed + 1) else (h, freed)).1.roots = h.roots
  split <;> rfl

theorem roots_sweep (marks : Array Bool) (h : Heap) : (sweep marks h).1.roots = h.roots := by
  unfold sweep
  induction h.cells.size with
  | zero => rfl
  | succ n ih =>
    rw [Nat.fold_succ, roots_sweepCell]
    exact ih

theorem roots_collect (scanRoots : Bool) : Yields (collect scanRoots) h fun _ g => g.roots = h.roots := by
  rintro _ _ ⟨⟩
  exact roots_sweep _ h

theorem roots_addChunk : Yields addChunk h fun _ g => g.roots = h.roots := by
  intro _ g hrun
  unfold addChunk at hrun
  split at hrun
  · cases hrun
  · split at hrun
    · cases hrun
    · cases hrun
      rfl

theorem roots_grow : Yields grow h fun _ g => g.roots = h.roots := by
  unfold grow
  refine .observe (.ite (fun _ => ?_) fun _ => .pure rfl)
  exact .bind roots_addChunk fun _ _ hg => .edit hg

theorem roots_popFrom (k : Nat) : Yields (popFrom k) h fun _ g => g.roots = h.roots := by
  rintro _ _ ⟨⟩
  split <;> rfl

theorem roots_popFree : Yields popFree h fun _ g => g.roots = h.roots := by
  unfold popFree
  refine .observe ?_
  split
  · exact roots_popFrom _
  · exact .pure rfl

theorem roots_makeRoom : Yields makeRoom h fun _ g => g.roots = h.roots := by
  unfold makeRoom
  refine .bind (roots_collect true) fun _ g hg => .observe (.ite (fun _ => ?_) fun _ => .pure hg)
  exact .weaken roots_grow fun _ _ hg' => hg'.trans hg

/-- **Whatever is collected before a cell is taken, the root stack stays.** -/
theorem roots_takeCell : Yields takeCell h fun _ g => g.roots = h.roots := by
  unfold takeCell
  refine .bind roots_popFree fun a? g hg => ?_
  split
  · exact .pure hg
  · refine .bind roots_makeRoom fun _ g₁ hg₁ => .bind roots_popFree fun b? g₂ hg₂ => ?_
    split
    · exact .pure (hg₂.trans (hg₁.trans hg))
    · exact .throw _

theorem shrink_push_push_size {α : Type} (xs : Array α) (x y : α) :
    ((xs.push x).push y).shrink xs.size = xs := by
  simp [Array.shrink_eq_take]

theorem roots_cons (x y : Value) : Yields (cons x y) h fun _ g => g.roots = h.roots := by
  unfold cons
  refine .observe ?_
  refine Yields.bind (P := fun _ g => g.roots = h.roots.push x) (by rintro _ _ ⟨⟩; rfl)
    fun _ g₁ hg₁ => ?_
  refine Yields.bind (P := fun _ g => g.roots = g₁.roots.push y) (by rintro _ _ ⟨⟩; rfl)
    fun _ g₂ hg₂ => ?_
  refine .bind roots_takeCell fun a g₃ hg₃ => ?_
  refine Yields.bind (P := fun _ g => g.roots = g₃.roots.shrink h.roots.size) ?_ fun _ g₄ hg₄ => ?_
  · intro _ g hrun
    unfold popRoots at hrun
    split at hrun
    · cases hrun
      rfl
    · cases hrun
  · refine Yields.bind (P := fun _ g => g.roots = g₄.roots) (.edit rfl) fun _ g₅ hg₅ => .pure ?_
    rw [hg₅, hg₄, hg₃, hg₂, hg₁, shrink_push_push_size]

theorem roots_make (type : TypeId) (payload : Payload) :
    Yields (make type payload) h fun _ g => g.roots = h.roots := by
  unfold make
  refine .observe (.ite (fun _ => ?_) fun _ => .throw _)
  exact .bind roots_takeCell fun _ g hg => Yields.bind (P := fun _ g' => g'.roots = g.roots)
    (.edit rfl) fun _ g' hg' => .pure (hg'.trans hg)

theorem roots_setCar (v x : Value) : Yields (setCar v x) h fun _ g => g.roots = h.roots := by
  unfold setCar
  split
  · exact .edit rfl
  · exact .throw _

theorem roots_setCdr (v y : Value) : Yields (setCdr v y) h fun _ g => g.roots = h.roots := by
  unfold setCdr
  split
  · exact .edit rfl
  · exact .throw _

end Heap

/-! ## 3. The registers of the evaluator -/

/-- What the evaluator keeps for itself besides the root stack. -/
structure Context.Registers where
  current : Value
  looping : Bool
  depth : Nat
  maxDepth : Nat
  peakDepth : Nat
  deriving DecidableEq, Repr

/-- The registers of a context. -/
def Context.registers (c : Context) : Context.Registers where
  current := c.current
  looping := c.looping
  depth := c.depth
  maxDepth := c.maxDepth
  peakDepth := c.peakDepth

/-- **How the evaluator stands**: the root stack is `n` high and has `base` at its bottom, and the
    registers are `κ`. -/
structure Stance (base : Array Value) (n : Nat) (κ : Context.Registers) (c : Context) : Prop where
  le : base.size ≤ n
  height : c.heap.roots.size = n
  roots : ∀ i : Nat, i < base.size → c.heap.roots[i]? = base[i]?
  registers : c.registers = κ

/-- A context stands on its own root stack. -/
theorem Stance.refl (c : Context) : Stance c.heap.roots c.heap.roots.size c.registers c :=
  ⟨Nat.le_refl _, rfl, fun _ _ => rfl, rfl⟩

/-- A root stack that is as high as its bottom is that. -/
theorem Stance.roots_eq {base : Array Value} {κ : Context.Registers} {c : Context}
    (h : Stance base base.size κ c) : c.heap.roots = base :=
  Array.ext_getElem? fun i => by
    by_cases hi : i < base.size
    · exact h.roots i hi
    · rw [Array.getElem?_eq_none (h.height ▸ Nat.le_of_not_lt hi),
        Array.getElem?_eq_none (Nat.le_of_not_lt hi)]

/-- **An action that leaves the evaluator as it stands**, and whose result has a property. -/
structure Idle {α : Type} (x : Run α) (Q : α → Prop) : Prop where
  yields : ∀ {base : Array Value} {n : Nat} {κ : Context.Registers} {c : Context},
    Stance base n κ c → Yields x c fun a c' => Stance base n κ c' ∧ Q a

section Stances

variable {α β : Type} {base : Array Value} {i n : Nat} {κ : Context.Registers} {c : Context}
variable {P Q : α → Prop} {R : β → Prop} {x : Run α} {f : α → Run β} {v : Value}

namespace Yields

theorem look {g : Heap → α} {R : β → Context → Prop} (h : Yields (f (g c.heap)) c R) :
    Yields (Context.look g >>= f) c R := h

/-- An action on the heap. -/
theorem lift {g : HeapM α} {R : α → Context → Prop}
    (hg : Yields g c.heap fun a h => R a { c with heap := h }) : Yields (liftM g : Run α) c R := by
  intro a c' hrun
  replace hrun : Context.onHeap g c = .ok a c' := hrun
  unfold Context.onHeap at hrun
  cases hr : g c.heap with
  | ok b h =>
    rw [hr] at hrun
    cases hrun
    exact hg _ _ hr
  | error e h =>
    rw [hr] at hrun
    cases hrun

/-- An action on the heap that leaves the root stack as it is. -/
theorem lift_idle {g : HeapM α} (hc : Stance base n κ c)
    (hg : Yields g c.heap fun _ h => h.roots = c.heap.roots) :
    Yields (liftM g : Run α) c fun _ c' => Stance base n κ c' := by
  refine .lift (hg.weaken fun _ h hroots => ⟨hc.le, ?_, ?_, hc.registers⟩)
  · rw [hroots]
    exact hc.height
  · rw [hroots]
    exact hc.roots

theorem rootBase {R : β → Context → Prop} {f : Nat → Run β} (hc : Stance base n κ c)
    (h : Yields (f n) c R) : Yields (liftM Heap.rootBase >>= f) c R := by
  have hrun : Yields (liftM Heap.rootBase >>= f) c R ↔ Yields (f c.heap.roots.size) c R := Iff.rfl
  rw [hrun, hc.height]
  exact h

theorem pushRoot (hc : Stance base n κ c) :
    Yields (liftM (Heap.pushRoot v) : Run Nat) c fun i c' => i = n ∧ Stance base (n + 1) κ c' := by
  rintro _ _ ⟨⟩
  refine ⟨hc.height, Nat.le_succ_of_le hc.le, ?_, fun i hi => ?_, hc.registers⟩
  · exact (Array.size_push v).trans (congrArg (· + 1) hc.height)
  · have hlt : i < c.heap.roots.size := hc.height ▸ Nat.lt_of_lt_of_le hi hc.le
    exact (Array.getElem?_push_lt hlt).trans ((Array.getElem?_eq_getElem hlt).symm.trans
      (hc.roots i hi))

theorem root : Yields (liftM (Heap.root i) : Run Value) c fun _ c' => c' = c := by
  refine .lift fun v h hrun => ?_
  unfold Heap.root at hrun
  split at hrun
  · cases hrun
    rfl
  · cases hrun

theorem setRoot (hc : Stance base n κ c) (hi : base.size ≤ i) :
    Yields (liftM (Heap.setRoot i v) : Run Unit) c fun _ c' => Stance base n κ c' := by
  refine .lift fun _ h hrun => ?_
  unfold Heap.setRoot at hrun
  split at hrun
  · cases hrun
    refine ⟨hc.le, Array.size_setIfInBounds.trans hc.height, fun j hj => ?_, hc.registers⟩
    exact (Array.getElem?_setIfInBounds_ne (by omega)).trans (hc.roots j hj)
  · cases hrun

theorem popRoots (hc : Stance base n κ c) (hi : base.size ≤ i) :
    Yields (liftM (Heap.popRoots i) : Run Unit) c fun _ c' => Stance base i κ c' := by
  refine .lift fun _ h hrun => ?_
  unfold Heap.popRoots at hrun
  split at hrun
  · rename_i hle
    cases hrun
    refine ⟨hi, ?_, fun j hj => ?_, hc.registers⟩
    · exact Array.size_shrink.trans (Nat.min_eq_left hle)
    · refine Eq.trans ?_ (hc.roots j hj)
      show (c.heap.roots.shrink i)[j]? = _
      rw [Array.shrink_eq_take, Array.take_eq_extract, Array.getElem?_extract, Nat.sub_zero,
        Nat.zero_add, if_pos (by omega)]
  · cases hrun

end Yields

/-! ## 4. Idle actions -/

namespace Idle

theorem pure {a : α} (h : Q a) : Idle (Pure.pure a) Q := ⟨fun hc => .pure ⟨hc, h⟩⟩

theorem bind (hx : Idle x P) (hf : ∀ a, P a → Idle (f a) R) : Idle (x >>= f) R :=
  ⟨fun hc => (hx.yields hc).bind fun a _ hq => (hf a hq.2).yields hq.1⟩

theorem weaken (hx : Idle x P) (h : ∀ a, P a → Q a) : Idle x Q :=
  ⟨fun hc => (hx.yields hc).weaken fun a _ hq => ⟨hq.1, h a hq.2⟩⟩

theorem observe {g : Context → α} (h : ∀ a, Idle (f a) R) : Idle (LispMachine.observe g >>= f) R :=
  ⟨fun hc => (h _).yields hc⟩

theorem look {g : Heap → α} (h : ∀ a, Idle (f a) R) : Idle (Context.look g >>= f) R :=
  ⟨fun hc => (h _).yields hc⟩

theorem throw (e : Fault) : Idle (MonadExcept.throw e : Run α) Q := ⟨fun _ => .throw e⟩

theorem ite {p : Prop} [Decidable p] {y : Run α} (hx : p → Idle x Q) (hy : ¬ p → Idle y Q) :
    Idle (if p then x else y) Q :=
  ⟨fun hc => .ite (fun hp => (hx hp).yields hc) fun hp => (hy hp).yields hc⟩

theorem lift {g : HeapM α} (hg : ∀ h, Yields g h fun _ h' => h'.roots = h.roots) :
    Idle (liftM g : Run α) fun _ => True :=
  ⟨fun hc => (Yields.lift_idle hc (hg _)).weaken fun _ _ h => ⟨h, trivial⟩⟩

/-- An action that changes neither the heap nor the registers. -/
theorem edit {g : Context → Context} (hroots : ∀ c, (g c).heap = c.heap)
    (hregisters : ∀ c, (g c).registers = c.registers) : Idle (modify g) fun _ => True :=
  ⟨fun {_ _ _ c} hc => .edit ⟨⟨hc.le, by rw [hroots]; exact hc.height,
    by rw [hroots]; exact hc.roots, (hregisters c).trans hc.registers⟩, trivial⟩⟩

theorem cons (a b : Value) : Idle (liftM (Heap.cons a b)) fun _ => True :=
  lift fun _ => Heap.roots_cons a b

theorem make (type : TypeId) (payload : Payload) : Idle (liftM (Heap.make type payload)) fun _ => True :=
  lift fun _ => Heap.roots_make type payload

theorem setCar (v x : Value) : Idle (liftM (Heap.setCar v x)) fun _ => True :=
  lift fun _ => Heap.roots_setCar v x

theorem setCdr (v y : Value) : Idle (liftM (Heap.setCdr v y)) fun _ => True :=
  lift fun _ => Heap.roots_setCdr v y

theorem collect : Idle (liftM (Heap.collect true)) fun _ => True :=
  lift fun _ => Heap.roots_collect true

/-! ## 5. Values -/

theorem fail (message : String) : Idle (Context.fail message) (· = .nil) := by
  refine ⟨fun hc v c' hrun => ?_⟩
  unfold Context.fail at hrun
  rw [run_modifyGet] at hrun
  split at hrun
  · cases hrun
    exact ⟨hc, rfl⟩
  · cases hrun
    exact ⟨⟨hc.le, hc.height, hc.roots, hc.registers⟩, rfl⟩

theorem prepend (line : String) : Idle (Context.prepend line) fun _ => True :=
  edit (fun c => by split <;> rfl) fun c => by split <;> rfl

theorem write (s : String) : Idle (Context.write s) fun _ => True := edit (fun _ => rfl) fun _ => rfl

theorem ofBool (b : Bool) : Idle (Context.ofBool b) fun _ => True := by
  refine ⟨fun hc => ?_⟩
  rintro _ _ ⟨⟩
  exact ⟨hc, trivial⟩

theorem intern (name : String) : Idle (Context.intern name) fun _ => True := by
  refine ⟨fun hc id c' hrun => ?_⟩
  unfold Context.intern at hrun
  split at hrun
  · cases hrun
    exact ⟨⟨hc.le, hc.height, hc.roots, hc.registers⟩, trivial⟩
  · cases hrun

theorem sym (name : String) : Idle (Context.sym name) fun _ => True :=
  (intern name).bind fun _ _ => pure trivial

theorem str (bytes : ByteArray) : Idle (Context.str bytes) fun _ => True := make _ _

end Idle

/-- Values are pushed one after the other. -/
theorem Yields.pushAll (vs : List Value) (hc : Stance base n κ c) :
    Yields (vs.forM fun v => do let _ ← Heap.pushRoot v : Run PUnit) c
      fun _ c' => Stance base (n + vs.length) κ c' := by
  induction vs generalizing n c with
  | nil => exact .pure hc
  | cons v vs ih =>
    have hpush : Yields (do let _ ← Heap.pushRoot v : Run PUnit) c
        fun _ c' => Stance base (n + 1) κ c' :=
      (Yields.pushRoot hc).bind fun _ _ hq => .pure hq.2
    refine hpush.bind fun _ c' hc' => ?_
    refine (ih hc').weaken fun _ _ h => ?_
    rwa [List.length_cons, Nat.add_comm vs.length, ← Nat.add_assoc]

/-- Values are consed onto a list in a slot above the bottom. -/
theorem Yields.consOnto (vs : List Value) (hc : Stance base n κ c) (hi : base.size ≤ i) :
    Yields (Context.consOnto i vs) c fun _ c' => Stance base n κ c' := by
  induction vs generalizing c with
  | nil => exact .pure hc
  | cons v vs ih =>
    refine Yields.root.bind fun tail c' hc' => ?_
    subst hc'
    refine ((Idle.cons _ _).yields hc).bind fun cell _ hc₁ => ?_
    exact (Yields.setRoot hc₁.1 hi).bind fun _ _ hc₂ => ih hc₂

namespace Idle

theorem list (items : List Value) : Idle (Context.list items) fun _ => True := by
  refine ⟨fun {base n κ c} hc => ?_⟩
  unfold Context.list
  refine .rootBase hc ((Yields.pushAll items hc).bind fun _ _ hc₁ => ?_)
  refine (Yields.pushRoot hc₁).bind fun slot _ hc₂ => ?_
  obtain ⟨rfl, hc₂⟩ := hc₂
  refine (Yields.consOnto _ hc₂ hc₁.le).bind fun _ _ hc₃ => Yields.root.bind fun out _ hout => ?_
  subst hout
  exact (Yields.popRoots hc₃ hc.le).bind fun _ _ hc₄ => .pure ⟨hc₄, trivial⟩

theorem func (env params body name : Value) : Idle (Context.func env params body name) fun _ => True := by
  refine ⟨fun {base n κ c} hc => ?_⟩
  unfold Context.func
  refine .rootBase hc (((list _).yields hc).bind fun parts _ hc₁ => ?_)
  refine (Yields.pushRoot hc₁.1).bind fun _ _ hc₂ => ((make _ _).yields hc₂.2).bind fun out _ hc₃ => ?_
  exact (Yields.popRoots hc₃.1 hc.le).bind fun _ _ hc₄ => .pure ⟨hc₄, trivial⟩

/-! ## 6. Environments -/

theorem newFrame (parent : Value) : Idle (Context.newFrame parent) fun _ => True := cons _ _

theorem define (env key value : Value) : Idle (Context.define env key value) fun _ => True := by
  refine ⟨fun {base n κ c} hc => ?_⟩
  unfold Context.define
  refine .look ?_
  split
  · exact (setCdr _ _).yields hc
  · refine .rootBase hc ((Yields.pushRoot hc).bind fun _ _ hc₁ => ?_)
    refine ((cons _ _).yields hc₁.2).bind fun binding _ hc₂ => .look ?_
    refine ((cons _ _).yields hc₂.1).bind fun bindings _ hc₃ => ?_
    refine ((setCdr _ _).yields hc₃.1).bind fun _ _ hc₄ => ?_
    exact (Yields.popRoots hc₄.1 hc.le).weaken fun _ _ h => ⟨h, trivial⟩

theorem unbound (key : Value) : Idle (Context.unbound key) fun _ => True :=
  observe fun _ => (fail _).weaken fun _ _ => trivial

theorem valueOf (env key : Value) : Idle (Context.valueOf env key) fun _ => True := by
  refine look fun found => ?_
  split
  · exact ⟨fun hc => .pure ⟨hc, trivial⟩⟩
  · exact unbound key

theorem assign (env key value : Value) : Idle (Context.assign env key value) fun _ => True := by
  refine look fun found => ?_
  split
  · exact (setCdr _ _).bind fun _ _ => pure trivial
  · exact unbound key

end Idle

end Stances

end LispMachine
