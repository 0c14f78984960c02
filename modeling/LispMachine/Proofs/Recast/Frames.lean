import LispMachine.Proofs.Recast.Meeting

/-!
# Frames and functions of contexts with recast code

* `Sound.parts` -- the parts of functions that correspond;
* `Sound.display_eq` -- values that correspond have the same text;
* `Both.define`, `Both.valueOf`, `Both.assign` -- bindings are made, read and replaced on both sides.
-/

namespace LispMachine

open Context

variable {D : Duet} {v v' w key key' env env' : Value}

/-! ## 1. Functions -/

namespace Codebook.Lists

variable {L : Codebook} {c : Context} {xs : List Value}

/-- The elements of a list of code. -/
theorem nth_eq (hc : Side L c) (h : L.Lists v xs) (n : Nat) : c.heap.nth v n = xs.getD n .nil := by
  induction h generalizing n with
  | nil =>
    induction n with
    | zero => rfl
    | succ n ih => exact ih
  | cons hcell _ ih =>
    have hx := Heap.cell_of_content (hc.code hcell)
    cases n with
    | zero => rw [Heap.nth, Heap.car_of_cell hx, List.getD_cons_zero]
    | succ n => rw [Heap.nth, Heap.cdr_of_cell hx, ih, List.getD_cons_succ]

/-- The parts of a function. -/
theorem closure_eq (hc : Side L c) {f : Closure} (hparts : c.heap.closureParts v = w)
    (h : L.Lists w [f.env, f.params, f.body, f.name]) : c.heap.closure v = f := by
  rw [Heap.closure, hparts]
  simp only [h.nth_eq hc]
  rfl

end Codebook.Lists

namespace Duet.Sound

/-- **The parts of functions that correspond.** They are the same as long as the functions are. -/
theorem exists_parts (hD : D.Sound) (h : D.concord.Rel v v') (ht : D.left.heap.typeOf v = CoreType.func.id) :
    ∃ f f', D.concord.Parts f f' ∧ ∀ D₁ : Duet, D₁.Sound → D.Alike D₁ →
      D₁.left.heap.closure v = f ∧ D₁.right.heap.closure v' = f' := by
  cases h with
  | object h =>
    obtain ⟨x, x', hx, hx', hcontent⟩ := hD.cells h
    rw [Heap.typeOf, Heap.cell_of_content hx] at ht
    cases hcontent with
    | closure hl hr hparts =>
      refine ⟨_, _, hparts, fun D₁ hD₁ hsame => ?_⟩
      have hcell := Heap.cell_of_content ((hsame.left _).trans hx)
      have hcell' := Heap.cell_of_content ((hsame.right _).trans hx')
      exact ⟨hl.closure_eq (hsame.concord ▸ hD₁.left) (by rw [Heap.closureParts, Heap.payload?, hcell]),
        hr.closure_eq (hsame.concord ▸ hD₁.right) (by rw [Heap.closureParts, Heap.payload?, hcell'])⟩
    | _ => cases ht
  | _ => cases ht

theorem parts (hD : D.Sound) (h : D.concord.Rel v v') (ht : D.left.heap.typeOf v = CoreType.func.id) :
    D.concord.Parts (D.left.heap.closure v) (D.right.heap.closure v') := by
  obtain ⟨f, f', hparts, heq⟩ := hD.exists_parts h ht
  obtain ⟨hl, hr⟩ := heq D hD ⟨rfl, fun _ => rfl, fun _ => rfl⟩
  rwa [hl, hr]

theorem symbolText_eq (hD : D.Sound) {i j : SymbolId} (h : D.concord.Rel (.sym i) (.sym j)) :
    Printer.symbolText D.left.symbols i = Printer.symbolText D.right.symbols j := by
  cases h with
  | sym hi hj =>
    rw [← hD.left.names] at hi
    rw [← hD.right.names] at hj
    rw [Printer.symbolText, Printer.symbolText, SymbolTable.name?, SymbolTable.name?, hi, hj]

theorem symbolName?_eq (hD : D.Sound) (h : D.concord.Rel v v') :
    v.sym?.bind D.left.symbols.name? = v'.sym?.bind D.right.symbols.name? := by
  cases h with
  | sym hi hj =>
    rw [← hD.left.names] at hi
    rw [← hD.right.names] at hj
    exact hi.trans hj.symm
  | _ => rfl

/-- An object is written by its type. -/
theorem objectText_eq (hD : D.Sound) (h : D.concord.Rel v v') (hv : v.isObject = true) :
    Printer.objectText D.left.heap D.left.symbols v = Printer.objectText D.right.heap D.right.symbols v' := by
  have htype := hD.typeOf_eq h
  have hbytes := hD.bytes?_eq h
  have hprocedure := (hD.procedure?_eq h).1
  have hparts := hD.parts h
  cases h with
  | object h =>
    obtain ⟨x, x', hx, hx', hcontent⟩ := hD.cells h
    have hcell := Heap.cell_of_content hx
    rw [Printer.objectText, Printer.objectText, ← htype, hbytes, hprocedure, hD.left.types, hD.right.types]
    rw [Heap.typeOf, hcell] at hparts ⊢
    cases hcontent with
    | closure _ _ _ =>
      have hname := hD.symbolName?_eq (hparts rfl).name
      rw [Heap.closure, Heap.closure] at hname
      show Printer.bracketed _ _ = Printer.bracketed _ _
      rw [hname]
    | _ => rfl
  | _ => cases hv

/-- **Values that correspond have the same text.** -/
theorem display_eq (hD : D.Sound) (h : D.concord.Rel v v') : D.left.display v = D.right.display v' :=
  hD.similar.write_eq hD.symbolText_eq (fun h => hD.objectText_eq h rfl) _ _ h

end Duet.Sound

/-! ## 2. Bindings -/

namespace Both

variable {Q : Duet → Value → Value → Prop}

/-- **A binding on both sides.** -/
theorem define (hD : D.Sound) (henv : D.concord.Rel env env') (hkey : D.concord.Rel key key')
    (hv : D.concord.Rel v v') :
    Both D 2 (Context.define env key v) (Context.define env' key' v') fun D' _ _ => D.Calm D' := by
  rw [Context.define, Context.define]
  refine look ?_
  have hfound := hD.similar.bindingIn? henv fun hu => hD.eq_iff hu hkey
  generalize D.left.heap.bindingIn? env key = found at hfound ⊢
  generalize D.right.heap.bindingIn? env' key' = found' at hfound ⊢
  cases hfound with
  | some hb => exact (setCdr hD hb hv).weaken (Nat.zero_le 2) fun _ _ _ _ _ hq => hq.2
  | none =>
    refine rootBase (pushRoot env env' ?_)
    have hD₁ : (D.withRoots (D.left.heap.roots.push env) (D.right.heap.roots.push env')).Sound := hD.withRoots
    refine (cons hD₁ hkey hv).bind (m := 1) fun D₂ u u' hD₂ later₂ hq₂ => ?_
    obtain ⟨a, b, rfl, rfl, hlink₂, calm₂⟩ := hq₂
    have henv₂ := henv.mono later₂.le
    refine look ((cons hD₂ (.pair hlink₂) (hD₂.similar.cdr henv₂)).bind (m := 0) fun D₃ u u' hD₃ later₃ hq₃ => ?_)
    obtain ⟨a', b', rfl, rfl, hlink₃, calm₃⟩ := hq₃
    refine (setCdr hD₃ (henv₂.mono later₃.le) (.pair hlink₃)).bind (m := 0) fun D₄ _ _ hD₄ later₄ hq₄ => ?_
    obtain ⟨-, calm₄⟩ := hq₄
    have calm := (calm₂.trans calm₃).trans calm₄
    have hatop : D.Atop D₄ := ((Duet.Atop.refl D).push env env').still calm.toStill
    rw [← bind_pure (liftM (Heap.popRoots D.left.heap.roots.size) : Run Unit),
      ← bind_pure (liftM (Heap.popRoots D.right.heap.roots.size) : Run Unit)]
    exact unwind hatop (pure hD₄.withRoots ⟨⟨rfl, rfl⟩, calm.failing⟩)

/-- The failure on a key that is bound nowhere. -/
theorem unbound (hD : D.Sound) (hkey : D.concord.Rel key key') :
    Both D 0 (Context.unbound key) (Context.unbound key') fun D' v v' => D'.concord.Rel v v' ∧ D.Still D' := by
  rw [Context.unbound, Context.unbound]
  refine observe ?_
  rw [hD.display_eq hkey]
  refine (fail hD _).weaken le_rfl fun D' _ _ _ _ hq => ?_
  obtain ⟨rfl, rfl, -, still⟩ := hq
  exact ⟨.nil, still⟩

/-- **The value of the nearest binding.** -/
theorem valueOf (hD : D.Sound) (henv : D.concord.Rel env env') (hkey : D.concord.Rel key key') :
    Both D 0 (Context.valueOf env key) (Context.valueOf env' key')
      fun D' v v' => D'.concord.Rel v v' ∧ D.Still D' := by
  rw [Context.valueOf, Context.valueOf]
  refine look ?_
  have hfound := hD.similar.lookup? henv fun hu => hD.eq_iff hu hkey
  generalize D.left.heap.lookup? env key = found at hfound ⊢
  generalize D.right.heap.lookup? env' key' = found' at hfound ⊢
  cases hfound with
  | some hb => exact pure hD ⟨hD.similar.cdr hb, .refl D⟩
  | none => exact unbound hD hkey

/-- **The nearest binding gets another value.** -/
theorem assign (hD : D.Sound) (henv : D.concord.Rel env env') (hkey : D.concord.Rel key key')
    (hv : D.concord.Rel v v') :
    Both D 0 (Context.assign env key v) (Context.assign env' key' v')
      fun D' v v' => D'.concord.Rel v v' ∧ D.Still D' := by
  rw [Context.assign, Context.assign]
  refine look ?_
  have hfound := hD.similar.lookup? henv fun hu => hD.eq_iff hu hkey
  generalize D.left.heap.lookup? env key = found at hfound ⊢
  generalize D.right.heap.lookup? env' key' = found' at hfound ⊢
  cases hfound with
  | some hb =>
    refine (setCdr hD hb hv).bind (m := 0) fun D' _ _ hD' later hq => ?_
    exact pure hD' ⟨hv.mono later.le, hq.2.toStill⟩
  | none => exact unbound hD hkey

end Both

end LispMachine
