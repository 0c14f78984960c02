import LispMachine.Proofs.Construction.Builders
import LispMachine.Proofs.Environment.History

/-!
# A frame that is filled with parameters

* `TurnsInto` -- an action goes on as another one, from where the first part of it has come to;
* `Context.Opens` -- **a frame has been built** in fresh cells and stands in its root slot, and what the
  other roots lead to is as it was;
* `Attains.opens_newFrame`, `Opens.define` -- an empty frame, and one more binding;
* `Opens.forM_define` -- the frame maps each key to the last of the values it is bound to.
-/

namespace LispMachine

open Context

/-! ## 1. Actions that go on as others -/

/-- **The action turns into another one**, of which something holds, and goes on as that one does, unless
    the heap is exhausted before. -/
def TurnsInto {α : Type} (x : Run α) (c : Context) (Q : Run α → Context → Prop) : Prop :=
  (∃ c', x c = .error .heapExhausted c') ∨ ∃ y c', Q y c' ∧ x c = y c'

namespace TurnsInto

variable {α β : Type} {x : Run α} {f : α → Run β} {c c' : Context} {a : α} {P : α → Context → Prop}
variable {Q Q' : Run α → Context → Prop} {R : Run β → Context → Prop}

theorem here (hq : Q x c) : TurnsInto x c Q := .inr ⟨x, c, hq, rfl⟩

theorem weaken (hx : TurnsInto x c Q) (h : ∀ y c', Q y c' → Q' y c') : TurnsInto x c Q' := by
  rcases hx with hfault | ⟨y, c', hq, hrun⟩
  · exact .inl hfault
  · exact .inr ⟨y, c', h y c' hq, hrun⟩

/-- The same action, begun elsewhere. -/
theorem congr {x' : Run α} (hrun : x c = x' c') (hx : TurnsInto x' c' Q) : TurnsInto x c Q := by
  rwa [TurnsInto, hrun]

/-- After an action that comes to an end. -/
theorem attains (hx : Attains x c P) (hf : ∀ a c', P a c' → TurnsInto (f a) c' R) :
    TurnsInto (x >>= f) c R := by
  unfold Attains at hx
  cases hrun : x c with
  | error e c' =>
    rw [hrun] at hx
    exact .inl ⟨c', (run_bind_error hrun).trans (congrArg (EStateM.Result.error · c') hx)⟩
  | ok a c' =>
    rw [hrun] at hx
    rw [TurnsInto, run_bind hrun]
    exact hf a c' hx

theorem after (hrun : x c = .ok a c') (hf : TurnsInto (f a) c' R) : TurnsInto (x >>= f) c R := by
  rwa [TurnsInto, run_bind hrun]

/-- What follows the action follows the other one. -/
theorem bind (hx : TurnsInto x c Q) (f : α → Run β) :
    TurnsInto (x >>= f) c fun z c' => ∃ y, z = y >>= f ∧ Q y c' := by
  rcases hx with ⟨c', hrun⟩ | ⟨y, c', hq, hrun⟩
  · exact .inl ⟨c', run_bind_error hrun⟩
  · refine .inr ⟨y >>= f, c', ⟨y, rfl, hq⟩, ?_⟩
    show EStateM.bind x f c = EStateM.bind y f c'
    rw [EStateM.bind, EStateM.bind, hrun]

end TurnsInto

/-! ## 2. Frames -/

section

variable {c d d' : Context} {slot : Nat} {s : Scope} {vs : List Value} {fresh : List Addr} {l : Addr}
variable {parent key value : Value} {bound : List (Value × Value)}

/-- To write a fresh cell is to write nothing that was there. -/
theorem Context.Builds.of_written (hb : c.Builds vs fresh (some l) d) (hl : l ∈ fresh) :
    c.Builds vs fresh none d :=
  ⟨hb.keeps.of_written hl, hb.live, hb.pins, hb.symbols, hb.rest⟩

/-- **A frame has been built**, from a context in which its root slot was empty. -/
structure Context.Opens (c : Context) (slot : Nat) (s : Scope) (d : Context) : Prop where
  lies : s.Lies d.heap
  empty : c.heap.roots[slot]? = some .nil
  roots : d.heap.roots = c.heap.roots.setIfInBounds slot (.pair s.frame)
  builds : ∃ fresh, (∀ b ∈ s.cells, b ∈ fresh) ∧ c.Builds [] fresh none d

namespace Context.Opens

theorem root (ho : c.Opens slot s d) : d.heap.roots[slot]? = some (.pair s.frame) := by
  rw [ho.roots]
  exact Array.getElem?_setIfInBounds_self_of_lt (Array.getElem?_eq_some_iff.mp ho.empty).1

/-- The roots there were are among those there are. -/
theorem reaches_roots (ho : c.Opens slot s d) {ws : List Value} :
    ∀ v ∈ c.heap.rootValues true ++ [], ∀ b, v.addr? = some b →
      d.heap.Reaches (d.heap.rootValues true ++ ws) b := by
  intro v hv b hb
  obtain ⟨fresh, -, hbuilds⟩ := ho.builds
  rw [List.append_nil] at hv
  rcases Heap.mem_rootValues hv with hpin | ⟨i, hi⟩
  · exact .root (List.mem_append_left _ (Heap.mem_rootValues_of_pin (hbuilds.pins ▸ hpin))) hb
  · by_cases his : slot = i
    · rw [← his, ho.empty] at hi
      cases hi
      cases hb
    · refine .root (List.mem_append_left _ (Heap.mem_rootValues_of_root (i := i) ?_)) hb
      rw [ho.roots, Array.getElem?_setIfInBounds_ne his, hi]

/-- **One more binding.** -/
theorem define (ho : c.Opens slot s d) (key value : Value) :
    Attains (Context.define (.pair s.frame) key value) d fun _ d' => ∃ s' : Scope,
      s'.frame = s.frame ∧ s'.parent = s.parent ∧ s'.own = Function.update s.own key (some value) ∧
      c.Opens slot s' d' := by
  obtain ⟨fresh, hfresh, hbuilds⟩ := ho.builds
  have hlies := ho.lies
  cases he : Entry.find? key s.entries with
  | some e =>
    -- the binding is written, in a cell of the frame
    have hmem : e.cell ∈ s.cells := List.mem_cons_of_mem _
      (List.mem_map_of_mem (Entry.mem_contents (List.mem_of_find?_eq_some he)))
    refine .look_bind ((hlies.bindingIn? key).trans (congrArg _ he)) ?_
    refine .lift_ok rfl ⟨s.rebind key value, rfl, rfl, Scope.own_rebind he, ?_, ho.empty, ho.roots, fresh, ?_, ?_⟩
    · exact hlies.rebind he fun _ => Heap.getElem?_modify_cells
    · rwa [Scope.cells_rebind]
    · exact (hbuilds.setCdr e.cell value).of_written (hfresh _ hmem)
  | none =>
    refine (Attains.builds_define hbuilds.keeps.valid hlies.frame_cell).weaken fun _ d' h => ?_
    obtain ⟨hroots, ⟨b, hfound, -⟩ | ⟨-, a, b, hab, ha, hb, hf, hbuilt⟩⟩ := h
    · rw [hlies.bindingIn?, he] at hfound
      cases hfound
    have hreach : ∀ b ∈ s.cells, d.heap.Reaches (d.heap.rootValues true ++ [.pair s.frame, key, value]) b :=
      hlies.reaches (.root (List.mem_append_left _ (Heap.mem_rootValues_of_root ho.root)) rfl)
    have hsame : ∀ e ∈ s.cells, e ∉ [b, a] ∧ (e ≠ s.frame → d'.heap.cells[e]? = d.heap.cells[e]?) := by
      intro e he
      obtain ⟨-, hnot, hsame⟩ := hbuilt.keeps.inUse e (hlies.isAllocated e he) (hreach e he)
      exact ⟨hnot, fun hne => hsame fun heq => hne (Option.some.inj heq)⟩
    refine ⟨s.extend { link := b, cell := a, key, value }, rfl, rfl, Scope.own_extend, ?_, ho.empty,
      hroots.trans ho.roots, [b, a] ++ fresh, ?_, ?_⟩
    · refine hlies.extend he (Ne.symm hab) ?_ ?_ hf hb ha fun e he hne => (hsame e he).2 hne
      · exact fun hmem => (hsame b hmem).1 List.mem_cons_self
      · exact fun hmem => (hsame a hmem).1 (.tail _ (.head _))
    · intro e he
      rw [Scope.cells_extend] at he
      rcases List.mem_cons.mp he with rfl | he
      · exact List.mem_append_right _ (hfresh _ Scope.frame_mem_cells)
      rcases List.mem_cons.mp he with rfl | he
      · exact List.mem_cons_self
      rcases List.mem_cons.mp he with rfl | he
      · exact List.mem_cons_of_mem _ List.mem_cons_self
      · exact List.mem_append_right _ (hfresh _ (List.mem_cons_of_mem _ he))
    · refine (hbuilds.trans hbuilt ho.reaches_roots).of_written ?_
      exact List.mem_append_right _ (hfresh _ Scope.frame_mem_cells)

/-- **Keys are bound one after the other**: the last value of a key counts. -/
theorem forM_define (ho : c.Opens slot s d) {f : Addr} (hf : s.frame = f) :
    Attains (bound.forM fun (key, value) => Context.define (.pair f) key value) d fun _ d' =>
      ∃ s' : Scope, s'.frame = f ∧ s'.parent = s.parent ∧
        (∀ key, s'.own key = (bound.reverse.lookup key).or (s.own key)) ∧ c.Opens slot s' d' := by
  induction bound generalizing d s with
  | nil => exact .pure ⟨s, hf, rfl, fun _ => rfl, ho⟩
  | cons p bound ih =>
    subst hf
    refine (ho.define p.1 p.2).bind fun _ d₁ h₁ => ?_
    obtain ⟨s₁, hframe₁, hparent₁, hown₁, ho₁⟩ := h₁
    refine (ih ho₁ hframe₁).weaken fun _ d' h => ?_
    obtain ⟨s', hframe, hparent, hown, ho'⟩ := h
    refine ⟨s', hframe, hparent.trans hparent₁, fun key => ?_, ho'⟩
    rw [hown, hown₁, List.reverse_cons, List.lookup_append, Option.or_assoc, Function.update_apply]
    congr 1
    by_cases hk : key = p.1
    · rw [if_pos hk, hk, List.lookup_cons_self]
      rfl
    · rw [if_neg hk, List.lookup_cons, beq_eq_false_iff_ne.mpr hk]
      rfl

end Context.Opens

/-- **An empty frame** comes into its slot, whatever has been there. -/
theorem Attains.opens_newFrame {old : Value} (hv : c.heap.Valid)
    (hempty : c.heap.roots[slot]? = some .nil) (hd : d = c.withRoots (c.heap.roots.setIfInBounds slot old)) :
    Attains (newFrame parent) d fun v d₁ => ∃ a d₂, v = .pair a ∧
      (liftM (Heap.setRoot slot v) : Run Unit) d₁ = .ok () d₂ ∧
      c.Opens slot { frame := a, parent, entries := [] } d₂ := by
  subst hd
  have hslot := (Array.getElem?_eq_some_iff.mp hempty).1
  let c₁ := c.withRoots (c.heap.roots.setIfInBounds slot old)
  refine (Attains.builds_cons (c := c₁) (hv.withRoots _) parent .nil).weaken fun _ d₁ h => ?_
  obtain ⟨a, rfl, hcell, hroots, hb⟩ := h
  have hroots' : d₁.heap.roots.setIfInBounds slot (.pair a) = c.heap.roots.setIfInBounds slot (.pair a) := by
    rw [hroots]
    exact Array.setIfInBounds_setIfInBounds ..
  have hlt : slot < d₁.heap.roots.size := by
    rw [hroots]
    exact hslot.trans_eq Array.size_setIfInBounds.symm
  refine ⟨a, d₁.withRoots (d₁.heap.roots.setIfInBounds slot (.pair a)), rfl, ?_, ?_, hempty, hroots', [a], ?_, ?_⟩
  · show onHeap (Heap.setRoot slot (.pair a)) d₁ = _
    rw [onHeap, Heap.setRoot_eq_ok.mpr ⟨hlt, rfl⟩]
    rfl
  · exact ⟨Heap.holds_cons.mpr ⟨hcell, fun _ hmem => absurd hmem List.not_mem_nil⟩, List.nodup_singleton a, List.nodup_nil⟩
  · exact fun b hb => hb
  · refine (Context.Builds.rooted hv hb fun v hv b hb => ?_).withRoots _
    rw [List.append_nil] at hv
    rcases Heap.mem_rootValues hv with hpin | ⟨i, hi⟩
    · exact .root (List.mem_append_left _ (Heap.mem_rootValues_of_pin hpin)) hb
    · by_cases his : slot = i
      · rw [← his, hempty] at hi
        cases hi
        cases hb
      · refine .root (List.mem_append_left _ (Heap.mem_rootValues_of_root (i := i) ?_)) hb
        exact (Array.getElem?_setIfInBounds_ne his).trans hi

end

end LispMachine
