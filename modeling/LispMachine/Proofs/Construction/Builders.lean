import LispMachine.Machine.Control
import LispMachine.Proofs.Balance.Evaluation
import LispMachine.Proofs.Construction.Keeping
import LispMachine.Proofs.Datum.Reading
import LispMachine.Proofs.Symbols

/-!
# Constructors with operands that nothing roots

* `Attains.builds_list`, `Attains.builds_func` -- a list, and a function;
* `Attains.builds_define` -- a binding, new or in place of one;
* `Attains.builds_quotation`, `Attains.builds_append` -- what the reader builds;
* `Heap.Arises.constructors` -- **every constructor gives a structure of its operands, and frees nothing
  that operands, pins or roots lead to**, whichever of its allocations collects.
-/

namespace LispMachine

open Context

section

variable {c c' : Context} {vs xs : List Value} {as fresh : List Addr} {written : Option Addr}
variable {a b f l : Addr} {v w x y : Value} {slot base : Nat}

/-! ## 1. The root stack -/

/-- A context with another root stack. -/
def Context.withRoots (c : Context) (roots : Array Value) : Context :=
  { c with heap := { c.heap with roots } }

theorem Heap.Valid.withRoots (hv : c.heap.Valid) (roots : Array Value) : (c.withRoots roots).heap.Valid :=
  ⟨hv.toLaid.congr rfl rfl rfl hv.pins_nodup rfl, hv.cursor_lt⟩

/-- The root stack is changed before a construction: what that starts from leads to the roots that there
    were, and to the operands. -/
theorem Context.Builds.rooted {roots : Array Value} (hv : c.heap.Valid)
    (hb : (c.withRoots roots).Builds ws fresh written c')
    (hvs : ∀ v ∈ c.heap.rootValues true ++ vs, ∀ b, v.addr? = some b →
      (c.withRoots roots).heap.Reaches ((c.withRoots roots).heap.rootValues true ++ ws) b) :
    c.Builds vs fresh written c' := by
  have hk : c.heap.Keeps (c.heap.rootValues true ++ vs) [] none (c.withRoots roots).heap :=
    .of_cells (hv.withRoots roots) rfl rfl rfl
  refine .of_keeps ?_ hb.pins hb.symbols hb.rest
  have hall := hk.trans hb.keeps hvs
  rwa [List.append_nil] at hall

/-- The root stack is changed after a construction. -/
theorem Context.Builds.withRoots (hb : c.Builds vs fresh written c') (roots : Array Value) :
    c.Builds vs fresh written (c'.withRoots roots) := by
  refine .of_keeps (hb.keeps.congr (hb.keeps.valid.withRoots roots) rfl rfl rfl) hb.pins hb.symbols ?_
  conv_lhs => rw [hb.rest]
  rfl

/-- **One construction after another.** -/
theorem Context.Builds.trans {c₁ : Context} {more : List Addr} (hb : c.Builds vs fresh none c₁)
    (hb' : c₁.Builds ws more written c')
    (hvs : ∀ v ∈ c.heap.rootValues true ++ vs, ∀ b, v.addr? = some b →
      c₁.heap.Reaches (c₁.heap.rootValues true ++ ws) b) :
    c.Builds vs (more ++ fresh) written c' := by
  refine .of_keeps (hb.keeps.trans hb'.keeps hvs) (hb'.pins.trans hb.pins)
    (fun hs => ?_) ?_
  · obtain ⟨hsound, hnames⟩ := hb.symbols hs
    exact (hb'.symbols hsound).imp_right fun hnames' => hnames'.trans hnames
  · rw [hb'.rest, hb.rest]

/-! ## 2. Lists and functions -/

/-- Values are pushed one after the other. -/
theorem run_pushAll (vs : List Value) (c : Context) :
    (vs.forM fun v => do let _ ← Heap.pushRoot v : Run PUnit) c =
      .ok () (c.withRoots (c.heap.roots ++ vs.toArray)) := by
  induction vs generalizing c with
  | nil =>
    show EStateM.Result.ok () c = .ok () (c.withRoots (c.heap.roots ++ #[]))
    rw [Array.append_empty]
    rfl
  | cons v vs ih =>
    have hpush : (do let _ ← Heap.pushRoot v : Run PUnit) c =
        .ok () (c.withRoots (c.heap.roots.push v)) := rfl
    refine (run_bind hpush).trans ((ih _).trans ?_)
    have hroots : c.heap.roots.push v ++ vs.toArray = c.heap.roots ++ (v :: vs).toArray := by simp
    exact congrArg (fun roots => EStateM.Result.ok () (c.withRoots roots)) hroots

/-- A root, or a pin. -/
theorem Heap.mem_rootValues {h : Heap} (hv : v ∈ h.rootValues true) :
    v ∈ h.pins ∨ ∃ i : Nat, h.roots[i]? = some v :=
  (List.mem_append.mp hv).imp_right fun hmem => Array.mem_iff_getElem?.mp (Array.mem_def.mpr hmem)

theorem setIfInBounds_self {roots : Array Value} (hroot : roots[slot]? = some w) :
    roots.setIfInBounds slot w = roots := by
  refine Array.ext_getElem? fun i => ?_
  by_cases hi : slot = i
  · rw [← hi, hroot, Array.getElem?_setIfInBounds_self_of_lt (Array.getElem?_eq_some_iff.mp hroot).1]
  · rw [Array.getElem?_setIfInBounds_ne hi]

/-- **Values are consed onto the list in a root slot.** -/
theorem Attains.builds_consOnto {items : List Value} (hv : c.heap.Valid)
    (hroot : c.heap.roots[slot]? = some w) (hl : c.heap.Lists w xs as) :
    Attains (consOnto slot items) c fun _ c' => ∃ w' fresh,
      c'.heap.Lists w' (items.reverse ++ xs) (fresh ++ as) ∧
      c'.heap.roots = c.heap.roots.setIfInBounds slot w' ∧ c.Builds [] fresh none c' := by
  induction items generalizing c w xs as with
  | nil =>
    refine .pure ⟨w, [], hl, ?_, .of_keeps (.of_cells hv rfl rfl rfl) rfl (⟨·, .refl _⟩) rfl⟩
    exact (setIfInBounds_self hroot).symm
  | cons v items ih =>
    have hslot := (Array.getElem?_eq_some_iff.mp hroot).1
    refine Attains.root hroot ((Attains.builds_cons hv v w).bind fun u c₁ h₁ => ?_)
    obtain ⟨a, rfl, hcell, hroots₁, hb₁⟩ := h₁
    refine Attains.lift_bind (Heap.setRoot_eq_ok.mpr ⟨by rwa [hroots₁], rfl⟩) ?_
    have hl₁ : c₁.heap.Lists (.pair a) (v :: xs) (a :: as) := by
      refine .cons hcell (hl.congr fun b hb => (hb₁.same ?_ (hl.isAllocated b hb)).2)
      exact hl.reaches (fun d hd => .root (List.mem_append_right _ (.tail _ (.head _))) hd) b hb
    -- the fresh pair is in the slot now, and leads to what was there before
    let c₂ := c₁.withRoots (c₁.heap.roots.setIfInBounds slot (.pair a))
    have hroot₂ : c₂.heap.roots[slot]? = some (.pair a) :=
      Array.getElem?_setIfInBounds_self_of_lt (by rwa [hroots₁])
    have hb₂ : c.Builds [v, w] [a] none c₂ := hb₁.withRoots _
    have hnone : c.Builds [] [a] none c₂ := hb₂.mono nofun
    refine (ih hb₂.keeps.valid hroot₂ (hl₁.congr fun _ _ => rfl)).weaken fun _ c' h => ?_
    obtain ⟨w', fresh, hl', hroots', hb'⟩ := h
    refine ⟨w', fresh ++ [a], ?_, ?_, hnone.trans hb' fun u hu b hb => ?_⟩
    · rwa [List.reverse_cons, List.append_assoc, List.append_assoc]
    · rw [hroots']
      show (c₁.heap.roots.setIfInBounds slot (.pair a)).setIfInBounds slot w' = _
      rw [hroots₁, Array.setIfInBounds_setIfInBounds]
    · rw [List.append_nil] at hu ⊢
      rcases Heap.mem_rootValues hu with hpin | ⟨i, hi⟩
      · exact .root (Heap.mem_rootValues_of_pin (hb₂.pins ▸ hpin)) hb
      by_cases his : i = slot
      · subst his
        rw [hroot] at hi
        cases hi
        exact .step (.root (Heap.mem_rootValues_of_root hroot₂) rfl) (.cdr hcell hb)
      · refine .root (Heap.mem_rootValues_of_root (i := i) ?_) hb
        show (c₁.heap.roots.setIfInBounds slot (.pair a))[i]? = _
        rw [Array.getElem?_setIfInBounds_ne (Ne.symm his), hroots₁, hi]

/-- The root stack is cut back to what it was. -/
theorem shrink_eq {xs ys : Array Value} (hle : xs.size ≤ ys.size)
    (hsame : ∀ j, j < xs.size → ys[j]? = xs[j]?) : ys.shrink xs.size = xs := by
  refine Array.ext_getElem? fun j => ?_
  rw [Array.shrink_eq_take, Array.take_eq_extract, Array.getElem?_extract, Nat.sub_zero, Nat.zero_add]
  by_cases hj : j < xs.size
  · rw [if_pos (by omega), hsame j hj]
  · rw [if_neg (by omega), Array.getElem?_eq_none (Nat.le_of_not_lt hj)]

theorem shrink_push_size (xs : Array Value) (x : Value) : (xs.push x).shrink xs.size = xs :=
  shrink_eq (by simp) fun _ hj => Array.getElem?_push_lt hj ▸ (Array.getElem?_eq_getElem hj).symm

/-- **A proper list.** -/
theorem Attains.builds_list (hv : c.heap.Valid) (items : List Value) :
    Attains (Context.list items) c fun v c' => ∃ cells, c'.heap.Lists v items cells ∧
      c'.heap.roots = c.heap.roots ∧ c.Builds items cells none c' := by
  let c₁ := c.withRoots ((c.heap.roots ++ items.toArray).push .nil)
  have hslot : c₁.heap.roots[(c.heap.roots ++ items.toArray).size]? = some .nil :=
    Array.getElem?_push_size
  have hle : c.heap.roots.size ≤ (c.heap.roots ++ items.toArray).size := by simp
  unfold Context.list
  refine .rootBase (.after (run_pushAll items c) (.lift_bind (h := c₁.heap) rfl ?_))
  refine (Attains.builds_consOnto (c := c₁) (hv.withRoots _) hslot .nil).bind fun _ c₂ h₂ => ?_
  obtain ⟨out, cells, hl, hroots, hb⟩ := h₂
  rw [List.reverse_reverse, List.append_nil, List.append_nil] at hl
  have hbelow : ∀ j, j < c.heap.roots.size → c₂.heap.roots[j]? = c.heap.roots[j]? := by
    intro j hj
    rw [hroots, Array.getElem?_setIfInBounds_ne (by omega)]
    show ((c.heap.roots ++ items.toArray).push .nil)[j]? = _
    rw [Array.getElem?_push, if_neg (by omega), Array.getElem?_append_left hj]
  have hout : c₂.heap.roots[(c.heap.roots ++ items.toArray).size]? = some out := by
    rw [hroots]
    exact Array.getElem?_setIfInBounds_self_of_lt (Array.getElem?_eq_some_iff.mp hslot).1
  have hpop : c.heap.roots.size ≤ c₂.heap.roots.size :=
    hle.trans (Array.getElem?_eq_some_iff.mp hout).1.le
  refine .root hout (.lift_bind (Heap.popRoots_eq_ok.mpr ⟨hpop, rfl⟩) (.pure ⟨cells, ?_, ?_, ?_⟩))
  · exact hl.congr fun _ _ => rfl
  · exact shrink_eq hpop hbelow
  · refine Context.Builds.withRoots (Context.Builds.rooted hv hb fun v hv b hb => ?_) _
    have hvalues : c₁.heap.rootValues true = c.heap.rootValues true ++ items ++ [Value.nil] := by
      simp [c₁, Context.withRoots, Heap.rootValues]
    refine .root ?_ hb
    rw [hvalues]
    exact List.mem_append_left _ (List.mem_append_left _ hv)

theorem Heap.closureParts_of_cell {h : Heap} {t : TypeId} {parts : Value}
    (hc : h.cells[a]? = some (.object t (.closure parts))) : h.closureParts (.object a) = parts := by
  rw [Heap.closureParts, Heap.payload?, hc]

/-- A value that is pushed is a root. -/
theorem Heap.rootValues_push (c : Context) (v : Value) :
    (c.withRoots (c.heap.roots.push v)).heap.rootValues true = c.heap.rootValues true ++ [v] := by
  simp [Context.withRoots, Heap.rootValues]

/-- **A function.** -/
theorem Attains.builds_func (hv : c.heap.Valid) (ht : c.heap.IsMakeable CoreType.func.id)
    (env params body name : Value) :
    Attains (Context.func env params body name) c fun v c' => ∃ a cells,
      v = .object a ∧ c'.heap.typeOf v = CoreType.func.id ∧
      c'.heap.Lists (c'.heap.closureParts v) [env, params, body, name] cells ∧
      c'.heap.roots = c.heap.roots ∧ c.Builds [env, params, body, name] (a :: cells) none c' := by
  unfold Context.func
  -- which values they are does not matter
  generalize [env, params, body, name] = items
  refine .rootBase ((Attains.builds_list hv items).bind fun parts c₁ h₁ => ?_)
  obtain ⟨cells, hl₁, hroots₁, hb₁⟩ := h₁
  let c₂ := c₁.withRoots (c₁.heap.roots.push parts)
  have hb₂ : c.Builds items cells none c₂ := hb₁.withRoots _
  have ht₂ : c₂.heap.IsMakeable CoreType.func.id := by
    rw [Heap.IsMakeable, hb₂.keeps.types]
    exact ht
  refine .lift_bind (h := c₂.heap) rfl ?_
  refine (Attains.builds_make (c := c₂) hb₂.keeps.valid ht₂ (.closure parts)).bind fun v c₃ h₃ => ?_
  obtain ⟨a, rfl, hcell, hroots₃, hb₃⟩ := h₃
  have hroots : c₃.heap.roots = c.heap.roots.push parts := hroots₃.trans (congrArg (·.push parts) hroots₁)
  have hparts : c₂.heap.Lists parts items cells := hl₁.congr fun _ _ => rfl
  refine .lift_bind (Heap.popRoots_eq_ok.mpr ⟨by rw [hroots]; simp, rfl⟩)
    (.pure ⟨a, cells, rfl, ?_, ?_, ?_, ?_⟩)
  · rw [Heap.typeOf, hcell]
  · have hkept : c₃.heap.Lists parts items cells := hparts.congr fun b hb => by
      refine (hb₃.same (hparts.reaches (fun d hd => .root ?_ hd) b hb) (hparts.isAllocated b hb)).2
      rw [List.append_nil, Heap.rootValues_push]
      exact List.mem_append_right _ List.mem_cons_self
    let c₄ := c₃.withRoots (c₃.heap.roots.shrink c.heap.roots.size)
    have hclosure : c₄.heap.closureParts (.object a) = parts := Heap.closureParts_of_cell hcell
    have hlist : c₄.heap.Lists parts items cells := hkept.congr fun _ _ => rfl
    exact hclosure.symm ▸ hlist
  · show c₃.heap.roots.shrink c.heap.roots.size = _
    rw [hroots]
    exact shrink_push_size _ _
  · refine (hb₂.trans hb₃ fun v hv b hb => ?_).withRoots _
    rw [List.append_nil, Heap.rootValues_push, hb₁.rootValues hroots₁]
    rcases List.mem_append.mp hv with hv | hv
    · exact .root (List.mem_append_left _ hv) hb
    · exact hparts.reaches_item (fun d hd => .root (List.mem_append_right _ List.mem_cons_self) hd) hv hb

/-! ## 3. Bindings -/

/-- A binding that is found is a pair of its key. -/
theorem Heap.pair_of_bindingAmong? {h : Heap} {key bindings binding : Value} {n : Nat}
    (hb : h.bindingAmong? key n bindings = some binding) : ∃ b, binding = .pair b ∧ h.car binding = key := by
  induction n generalizing bindings with
  | zero => cases hb
  | succ n ih =>
    rw [Heap.bindingAmong?] at hb
    dsimp only at hb
    split at hb
    · split at hb
      · rename_i hfound
        cases hb
        obtain ⟨hpair, hkey⟩ := (Bool.and_eq_true _ _).mp hfound
        cases hcar : h.car bindings with
        | pair b => exact ⟨b, rfl, hcar ▸ of_decide_eq_true hkey⟩
        | nil | int n | sym id | object a =>
          rw [hcar] at hpair
          cases hpair
      · exact ih hb
    · cases hb

/-- The rest slot of a pair is written at the end of a construction. -/
theorem Context.Builds.setCdr (hb : c.Builds vs fresh none c') (l : Addr) (y : Value) :
    c.Builds vs fresh (some l)
      { c' with heap := { c'.heap with cells := c'.heap.cells.modify l (Heap.withCdr y) } } := by
  refine .of_keeps (hb.keeps.setCdr l y) hb.pins hb.symbols ?_
  conv_lhs => rw [hb.rest]

/-- A new binding is put in front of those of a frame, and roots are dropped. -/
theorem Attains.builds_binding {parent bindings key value : Value} (hv : c.heap.Valid)
    (hframe : c.heap.cells[f]? = some (.pair parent bindings))
    (hroot : .pair f ∈ c.heap.rootValues true) (hbase : base ≤ c.heap.roots.size) :
    Attains (do
        let binding ← Heap.cons key value
        let bindings ← Heap.cons binding (← look (·.cdr (.pair f)))
        Heap.setCdr (.pair f) bindings
        Heap.popRoots base) c fun _ c' => ∃ a b, a ≠ b ∧
      c'.heap.cells[a]? = some (.pair key value) ∧ c'.heap.cells[b]? = some (.pair (.pair a) bindings) ∧
      c'.heap.cells[f]? = some (.pair parent (.pair b)) ∧ c'.heap.roots = c.heap.roots.shrink base ∧
      c.Builds [key, value] [b, a] (some f) c' := by
  have hfr : ∀ {d : Context} {ws : List Value}, .pair f ∈ d.heap.rootValues true →
      d.heap.Reaches (d.heap.rootValues true ++ ws) f := fun hmem => .root (List.mem_append_left _ hmem) rfl
  have hfal : c.heap.isAllocated f = true := Heap.isAllocated_iff.mpr ⟨_, hframe, rfl⟩
  refine (Attains.builds_cons hv key value).bind fun _ c₁ h₁ => ?_
  obtain ⟨a, rfl, hcell₁, hroots₁, hb₁⟩ := h₁
  obtain ⟨hfa, hf₁⟩ := hb₁.same (hfr hroot) hfal
  have hframe₁ := hf₁.trans hframe
  have hroot₁ : .pair f ∈ c₁.heap.rootValues true := hb₁.rootValues hroots₁ ▸ hroot
  show Attains (liftM (Heap.cons (.pair a) (c₁.heap.cdr (.pair f))) >>= _) c₁ _
  rw [Heap.cdr_of_cell hframe₁]
  refine (Attains.builds_cons hb₁.keeps.valid (.pair a) bindings).bind fun _ c₂ h₂ => ?_
  obtain ⟨b, rfl, hcell₂, hroots₂, hb₂⟩ := h₂
  obtain ⟨hfb, hf₂⟩ := hb₂.same (hfr hroot₁) (Heap.isAllocated_iff.mpr ⟨_, hframe₁, rfl⟩)
  have ha₁ : c₁.heap.Reaches (c₁.heap.rootValues true ++ [.pair a, bindings]) a :=
    .root (List.mem_append_right _ List.mem_cons_self) rfl
  obtain ⟨hab, ha₂⟩ := hb₂.same ha₁ (Heap.isAllocated_iff.mpr ⟨_, hcell₁, rfl⟩)
  have hne : ∀ {d : Addr}, f ∉ [d] → (c₂.heap.cells.modify f (Heap.withCdr (.pair b)))[d]? =
      c₂.heap.cells[d]? := fun hd =>
    Heap.getElem?_modify_cells.trans (if_neg fun heq : f = _ => hd (heq ▸ List.mem_cons_self))
  have hboth : c.Builds [key, value] [b, a] none c₂ := by
    refine hb₁.trans hb₂ fun v hv d hd => ?_
    rw [hb₁.rootValues hroots₁]
    rcases List.mem_append.mp hv with hv | hv
    · exact .root (List.mem_append_left _ hv) hd
    have hfresh : c₁.heap.Reaches (c.heap.rootValues true ++ [.pair a, bindings]) a :=
      .root (List.mem_append_right _ List.mem_cons_self) rfl
    rcases List.mem_cons.mp hv with rfl | hv
    · exact .step hfresh (.car hcell₁ hd)
    · obtain rfl := List.mem_singleton.mp hv
      exact .step hfresh (.cdr hcell₁ hd)
  have hroots := hroots₂.trans hroots₁
  refine .lift_bind (h := { c₂.heap with cells := c₂.heap.cells.modify f (Heap.withCdr (.pair b)) }) rfl
    (.lift_ok (Heap.popRoots_eq_ok.mpr ⟨by rwa [hroots], rfl⟩)
      ⟨a, b, fun heq => hab (heq ▸ List.mem_cons_self), (hne hfa).trans (ha₂.trans hcell₁),
      (hne hfb).trans hcell₂, ?_, congrArg (·.shrink base) hroots, (hboth.setCdr f (.pair b)).withRoots _⟩)
  refine Heap.getElem?_modify_cells.trans ?_
  rw [if_pos rfl, hf₂.trans hframe₁]
  rfl

/-- **A binding**: the one that the key has in the frame is written, or else a new one is put in
    front. -/
theorem Attains.builds_define {parent bindings key value : Value} (hv : c.heap.Valid)
    (hframe : c.heap.cells[f]? = some (.pair parent bindings)) :
    Attains (Context.define (.pair f) key value) c fun _ c' => c'.heap.roots = c.heap.roots ∧
      ((∃ b, c.heap.bindingIn? (.pair f) key = some (.pair b) ∧
        (∀ x y, c.heap.cells[b]? = some (.pair x y) → c'.heap.cells[b]? = some (.pair key value)) ∧
        c.Builds [.pair f, key, value] [] (some b) c') ∨
      (c.heap.bindingIn? (.pair f) key = none ∧ ∃ a b, a ≠ b ∧
        c'.heap.cells[a]? = some (.pair key value) ∧ c'.heap.cells[b]? = some (.pair (.pair a) bindings) ∧
        c'.heap.cells[f]? = some (.pair parent (.pair b)) ∧
        c.Builds [.pair f, key, value] [b, a] (some f) c')) := by
  refine Attains.look_bind rfl ?_
  cases hfound : c.heap.bindingIn? (.pair f) key with
  | some binding =>
    obtain ⟨b, rfl, hkey⟩ := Heap.pair_of_bindingAmong? hfound
    have hb : c.Builds [.pair f, key, value] [] none c := .of_keeps (.of_cells hv rfl rfl rfl) rfl (⟨·, .refl _⟩) rfl
    refine .lift_ok rfl ⟨rfl, .inl ⟨b, rfl, fun x y hcell => ?_, hb.setCdr b value⟩⟩
    refine Heap.getElem?_modify_cells.trans ?_
    rw [if_pos rfl, hcell, ← hkey, Heap.car_of_cell hcell]
    rfl
  | none =>
    let c₁ := c.withRoots (c.heap.roots.push (.pair f))
    have hvalues : c₁.heap.rootValues true = c.heap.rootValues true ++ [Value.pair f] := Heap.rootValues_push c _
    refine .lift_bind (h := c.heap) rfl (.lift_bind (h := c₁.heap) rfl ?_)
    have hroot : .pair f ∈ c₁.heap.rootValues true := hvalues ▸ List.mem_append_right _ List.mem_cons_self
    have hbase : c.heap.roots.size ≤ c₁.heap.roots.size := by
      show _ ≤ (c.heap.roots.push (.pair f)).size
      simp
    refine (Attains.builds_binding (c := c₁) (hv.withRoots _) hframe hroot hbase).weaken fun _ c' h => ?_
    obtain ⟨a, b, hab, ha, hb, hf, hroots, hbuilt⟩ := h
    refine ⟨hroots.trans (shrink_push_size _ _), .inr ⟨rfl, a, b, hab, ha, hb, hf, ?_⟩⟩
    refine Context.Builds.rooted hv hbuilt fun v hv d hd => .root ?_ hd
    rw [hvalues]
    simpa using hv

/-! ## 4. What the reader builds -/

/-- The halves of a fresh pair are reached from it. -/
theorem Context.Builds.reaches_pair {u : Value} (hb : c.Builds [x, y] [a] none c')
    (hcell : c'.heap.cells[a]? = some (.pair x y)) (hroots : c'.heap.roots = c.heap.roots)
    (ha : .pair a ∈ ws) (hu : u ∈ c.heap.rootValues true ++ [x, y]) (hub : u.addr? = some b) :
    c'.heap.Reaches (c'.heap.rootValues true ++ ws) b := by
  rw [hb.rootValues hroots]
  have hpair : c'.heap.Reaches (c.heap.rootValues true ++ ws) a := .root (List.mem_append_right _ ha) rfl
  rcases List.mem_append.mp hu with hu | hu
  · exact .root (List.mem_append_left _ hu) hub
  rcases List.mem_cons.mp hu with rfl | hu
  · exact .step hpair (.car hcell hub)
  · obtain rfl := List.mem_singleton.mp hu
    exact .step hpair (.cdr hcell hub)

/-- Symbols are found during a construction. -/
theorem Context.Builds.withSymbols (hb : c.Builds vs fresh written c') {symbols : SymbolTable}
    (hs : symbols.Sound) (hn : symbols.Extends c'.symbols) :
    c.Builds vs fresh written { c' with symbols } := by
  refine .of_keeps hb.keeps hb.pins (fun hsound => ⟨hs, hn.trans (hb.symbols hsound).2⟩) ?_
  conv_lhs => rw [hb.rest]

/-- **A quotation**: a list of the symbol `quote` and a value. -/
theorem Attains.builds_quotation (hv : c.heap.Valid) (hs : c.symbols.Sound) (v : Value) :
    Attains (Reader.quotation v) c fun u c' => ∃ id cells, c'.symbols.names[id]? = some "quote" ∧
      c'.heap.Lists u [.sym id, v] cells ∧ c'.heap.roots = c.heap.roots ∧
      c.Builds [v] cells none c' := by
  let c₁ := c.withRoots (c.heap.roots.push v)
  have hvalues : c₁.heap.rootValues true = c.heap.rootValues true ++ [v] := Heap.rootValues_push c v
  unfold Reader.quotation
  refine .rootBase (.lift_bind (h := c₁.heap) rfl ?_)
  refine (Attains.builds_cons (c := c₁) (hv.withRoots _) v .nil).bind fun _ c₂ h₂ => ?_
  obtain ⟨a, rfl, hcell₂, hroots₂, hb₂⟩ := h₂
  obtain ⟨id, symbols, hsym, hsound, hextends, hname⟩ := run_sym (hb₂.symbols hs).1 "quote"
  let c₃ : Context := { c₂ with symbols }
  have hb₃ : c₁.Builds [v, .nil] [a] none c₃ := hb₂.withSymbols hsound hextends
  replace hsym : Context.sym "quote" c₂ = .ok (.sym id) c₃ := hsym
  refine .after hsym ?_
  refine (Attains.builds_cons (c := c₃) hb₂.keeps.valid (.sym id) (.pair a)).bind fun _ c₄ h₄ => ?_
  obtain ⟨b, rfl, hcell₄, hroots₄, hb₄⟩ := h₄
  have hroots : c₄.heap.roots = c.heap.roots.push v := hroots₄.trans hroots₂
  have ha : c₃.heap.Reaches (c₃.heap.rootValues true ++ [Value.sym id, .pair a]) a :=
    .root (List.mem_append_right _ (.tail _ (.head _))) rfl
  have hcell : c₄.heap.cells[a]? = some (.pair v .nil) :=
    (hb₄.same ha (Heap.isAllocated_iff.mpr ⟨_, hcell₂, rfl⟩)).2.trans hcell₂
  refine .lift_bind (Heap.popRoots_eq_ok.mpr ⟨by rw [hroots]; simp, rfl⟩)
    (.pure ⟨id, [b, a], ?_, .cons hcell₄ (.cons hcell .nil), ?_, ?_⟩)
  · exact (hb₄.symbols hsound).2 _ _ hname
  · exact (congrArg (·.shrink c.heap.roots.size) hroots).trans (shrink_push_size _ _)
  · have hboth := hb₃.trans hb₄ fun u hu d hd =>
      hb₃.reaches_pair hcell₂ hroots₂ (.tail _ (.head _)) hu hd
    refine (Context.Builds.rooted hv hboth fun u hu d hd => .root ?_ hd).withRoots _
    rw [hvalues]
    exact List.mem_append_left _ hu

/-- **An element is appended** to the list in a root slot, whose last pair is written. -/
theorem Attains.builds_append (hv : c.heap.Valid) (hroot : c.heap.roots[slot]? = some w)
    (hl : c.heap.Lists w xs as) (v : Value) :
    Attains (Reader.append slot ((as.getLast?.map Value.pair).getD .nil) v) c fun u c' => ∃ a w',
      u = .pair a ∧ c'.heap.Lists w' (xs ++ [v]) (as ++ [a]) ∧
      c'.heap.roots = c.heap.roots.setIfInBounds slot w' ∧ (as ≠ [] → w' = w) ∧
      c.Builds [v] [a] as.getLast? c' := by
  unfold Reader.append
  refine (Attains.builds_cons hv v .nil).bind fun _ c₁ h₁ => ?_
  obtain ⟨a, rfl, hcell, hroots₁, hb₁⟩ := h₁
  have hb : c.Builds [v] [a] none c₁ := hb₁.mono fun u hu => List.mem_append_left [Value.nil] hu
  have hcells : ∀ b ∈ as, b ∉ [a] ∧ c₁.heap.cells[b]? = c.heap.cells[b]? := by
    intro b hb
    refine hb₁.same (hl.reaches (fun d hd => .root ?_ hd) b hb) (hl.isAllocated b hb)
    exact List.mem_append_left _ (Heap.mem_rootValues_of_root hroot)
  cases hlast : as.getLast? with
  | none =>
    obtain rfl := List.getLast?_eq_none_iff.mp hlast
    cases hl
    have hslot : slot < c₁.heap.roots.size := hroots₁ ▸ (Array.getElem?_eq_some_iff.mp hroot).1
    refine .lift_bind (Heap.setRoot_eq_ok.mpr ⟨hslot, rfl⟩)
      (.pure ⟨a, .pair a, rfl, .cons hcell .nil, ?_, fun hne => absurd rfl hne, hb.withRoots _⟩)
    exact congrArg (·.setIfInBounds slot (.pair a)) hroots₁
  | some l =>
    have hlmem := List.mem_of_getLast? hlast
    obtain ⟨z, hz⟩ := hl.last_cell hlast
    refine .lift_bind (g := Heap.setCdr (.pair l) (.pair a)) rfl
      (.pure ⟨a, w, rfl, hl.append rfl hlast ?_ (fun b hb hne => ?_) ?_, ?_, fun _ => rfl, hb.setCdr l _⟩)
    · refine Heap.getElem?_modify_cells.trans ?_
      rw [if_pos rfl, (hcells l hlmem).2]
    · exact (Heap.getElem?_modify_cells.trans (if_neg fun heq : l = b => hne heq.symm)).trans (hcells b hb).2
    · refine (Heap.getElem?_modify_cells.trans (if_neg fun heq : l = a => ?_)).trans hcell
      exact (hcells l hlmem).1 (heq ▸ List.mem_cons_self)
    · exact hroots₁.trans (setIfInBounds_self hroot).symm

/-- **The tail of a list** follows its dot: the last pair is written. -/
theorem Attains.builds_tail (hv : c.heap.Valid) (hcell : c.heap.cells[l]? = some (.pair x y)) (v : Value) :
    Attains (liftM (Heap.setCdr (.pair l) v) : Run Unit) c fun _ c' =>
      c'.heap.cells[l]? = some (.pair x v) ∧ c'.heap.roots = c.heap.roots ∧ c.Builds [v] [] (some l) c' := by
  have hb : c.Builds [v] [] none c := .of_keeps (.of_cells hv rfl rfl rfl) rfl (⟨·, .refl _⟩) rfl
  refine .lift_ok rfl ⟨?_, rfl, hb.setCdr l v⟩
  refine Heap.getElem?_modify_cells.trans ?_
  rw [if_pos rfl, hcell]
  rfl

end

/-! ## 5. Every constructor -/

/-- A type stays what it was registered as. -/
theorem Heap.Operation.types_kept {h h' : Heap} {op : Heap.Operation} {t : TypeId} {entry : TypeEntry}
    (hv : h.Valid) (hop : op.perform h = .ok () h') (ht : h.types.entries[t]? = some entry) :
    h'.types.entries[t]? = some entry := by
  cases op with
  | cons x y =>
    rcases Heap.cons_cases hv x y with ⟨a, g, htaken, hrun⟩ | ⟨g, hrun⟩
    · rw [perform, run_bind hrun] at hop
      cases hop
      rw [Heap.filled, htaken.frame]
      exact ht
    · rw [perform, run_bind_error hrun] at hop
      cases hop
  | make type p =>
    rcases Heap.make_cases hv type p with ⟨_, a, g, htaken, hrun⟩ | ⟨_, g, hrun⟩ | ⟨_, hrun⟩
    · rw [perform, run_bind hrun] at hop
      cases hop
      rw [Heap.filled, htaken.frame]
      exact ht
    · rw [perform, run_bind_error hrun] at hop
      cases hop
    · rw [perform, run_bind_error hrun] at hop
      cases hop
  | setCar v x => cases v <;> cases hop; exact ht
  | setCdr v y => cases v <;> cases hop; exact ht
  | pin v =>
    cases hop
    show (if v ∈ h.pins then h else { h with pins := v :: h.pins }).types.entries[t]? = _
    split <;> exact ht
  | unpin v => cases hop; exact ht
  | pushRoot v => cases hop; exact ht
  | setRoot slot v =>
    obtain ⟨-, rfl⟩ := Heap.setRoot_eq_ok.mp hop
    exact ht
  | popRoots base =>
    obtain ⟨-, rfl⟩ := Heap.popRoots_eq_ok.mp hop
    exact ht
  | registerType entry' =>
    cases hop
    show (h.types.entries.push entry')[t]? = _
    rw [Array.getElem?_push, if_neg (Array.getElem?_eq_some_iff.mp ht).1.ne, ht]
  | collect scanRoots =>
    obtain ⟨freed, g, hrun, hc⟩ := Heap.collect_spec hv scanRoots
    rw [perform, run_bind hrun] at hop
    cases hop
    rw [hc.frame]
    exact ht
  | rehold holdings => cases hop; exact ht

/-- **The core types of every heap that arises.** -/
theorem Heap.Arises.core_types {cfg : Config} {ops : List Heap.Operation} {h : Heap}
    (ha : Heap.Arises cfg ops h) (t : CoreType) :
    h.types.entries[t.id]? = some (TypeTable.coreEntry t) := by
  induction ha with
  | create hc =>
    obtain ⟨rfl, -⟩ := Heap.create_eq hc
    cases t <;> rfl
  | perform ha op hop ih => exact Heap.Operation.types_kept ha.kept.valid hop ih

/-- Objects of the core types may be made. -/
theorem Heap.Arises.isMakeable {cfg : Config} {ops : List Heap.Operation} {h : Heap}
    (ha : Heap.Arises cfg ops h) (t : CoreType) (ht : t ≠ .nil) : h.IsMakeable t.id := by
  refine ⟨by cases t <;> first | exact absurd rfl ht | decide, decide_eq_true ?_⟩
  exact (Array.getElem?_eq_some_iff.mp (ha.core_types t)).1

section Every

-- a list of four values is short enough to be built in the middle of a proof
seal Attains

variable {c : Context}

/-- **Constructors are safe with operands that nothing roots.** Whatever the heap, and whichever of its
    allocations collects, a constructor comes to an end, unless the heap is exhausted, with a structure of
    just its operands in fresh cells. What the operands, the pins and the roots lead to is allocated still
    and unchanged, the written slot apart, so a collection frees nothing else than what they do not lead to;
    and the root stack is as it was. -/
theorem Heap.Arises.constructors {cfg : Config} {ops : List Heap.Operation}
    (ha : Heap.Arises cfg ops c.heap) (hs : c.symbols.Sound) :
    (∀ x y, Attains (liftM (Heap.cons x y) : Run Value) c fun v c' => ∃ a, v = .pair a ∧
      c'.heap.cells[a]? = some (.pair x y) ∧ c'.heap.roots = c.heap.roots ∧
      c.Builds [x, y] [a] none c') ∧
    (∀ items, Attains (Context.list items) c fun v c' => ∃ cells, c'.heap.Lists v items cells ∧
      c'.heap.roots = c.heap.roots ∧ c.Builds items cells none c') ∧
    (∀ env params body name, Attains (Context.func env params body name) c fun v c' => ∃ a cells,
      v = .object a ∧ c'.heap.typeOf v = CoreType.func.id ∧
      c'.heap.Lists (c'.heap.closureParts v) [env, params, body, name] cells ∧
      c'.heap.roots = c.heap.roots ∧ c.Builds [env, params, body, name] (a :: cells) none c') ∧
    (∀ parent, Attains (Context.newFrame parent) c fun v c' => ∃ a, v = .pair a ∧
      c'.heap.cells[a]? = some (.pair parent .nil) ∧ c'.heap.roots = c.heap.roots ∧
      c.Builds [parent] [a] none c') ∧
    (∀ (f : Addr) (parent bindings key value : Value), c.heap.cells[f]? = some (.pair parent bindings) →
      Attains (Context.define (.pair f) key value) c fun _ c' => c'.heap.roots = c.heap.roots ∧
        ((∃ b, c.heap.bindingIn? (.pair f) key = some (.pair b) ∧
          (∀ x y, c.heap.cells[b]? = some (.pair x y) → c'.heap.cells[b]? = some (.pair key value)) ∧
          c.Builds [.pair f, key, value] [] (some b) c') ∨
        (c.heap.bindingIn? (.pair f) key = none ∧ ∃ a b, a ≠ b ∧
          c'.heap.cells[a]? = some (.pair key value) ∧
          c'.heap.cells[b]? = some (.pair (.pair a) bindings) ∧
          c'.heap.cells[f]? = some (.pair parent (.pair b)) ∧
          c.Builds [.pair f, key, value] [b, a] (some f) c'))) ∧
    (∀ v, Attains (Reader.quotation v) c fun u c' => ∃ id cells, c'.symbols.names[id]? = some "quote" ∧
      c'.heap.Lists u [.sym id, v] cells ∧ c'.heap.roots = c.heap.roots ∧
      c.Builds [v] cells none c') ∧
    (∀ slot w xs as v, c.heap.roots[slot]? = some w → c.heap.Lists w xs as →
      Attains (Reader.append slot ((as.getLast?.map Value.pair).getD .nil) v) c fun u c' => ∃ a w',
        u = .pair a ∧ c'.heap.Lists w' (xs ++ [v]) (as ++ [a]) ∧
        c'.heap.roots = c.heap.roots.setIfInBounds slot w' ∧ (as ≠ [] → w' = w) ∧
        c.Builds [v] [a] as.getLast? c') ∧
    (∀ (l : Addr) (x y v : Value), c.heap.cells[l]? = some (.pair x y) →
      Attains (liftM (Heap.setCdr (.pair l) v) : Run Unit) c fun _ c' =>
        c'.heap.cells[l]? = some (.pair x v) ∧ c'.heap.roots = c.heap.roots ∧
        c.Builds [v] [] (some l) c') := by
  have hv := ha.kept.valid
  refine ⟨Attains.builds_cons hv, Attains.builds_list hv, Attains.builds_func hv (ha.isMakeable .func nofun),
    fun parent => ?_, fun f parent bindings key value => Attains.builds_define hv,
    Attains.builds_quotation hv hs,
    fun slot w xs as v hroot hl => Attains.builds_append hv hroot hl v,
    fun l x y v hcell => Attains.builds_tail hv hcell v⟩
  · refine (Attains.builds_cons hv parent .nil).weaken fun v c' h => ?_
    obtain ⟨a, rfl, hcell, hroots, hb⟩ := h
    exact ⟨a, rfl, hcell, hroots, hb.mono fun u hu => List.mem_append_left [Value.nil] hu⟩

/-- A full heap: the pair `0` is held by nothing but the one who builds, the others by nobody. -/
def Context.crowded : Context :=
  { Context.within with
    heap := { Context.within.heap with
      growth := .fixed
      cells := #[.pair (.int 1) .nil, .pair .nil .nil, .pair .nil .nil, .pair .nil .nil]
      chunks := #[{ head := none, freeCount := 0 }]
      stats := { chunks := 1 } }
    symbols := SymbolTable.empty 1 }

theorem Context.arises_crowded : Heap.Arises { chunkCells := 4, growth := .fixed }
    [.cons .nil .nil, .cons .nil .nil, .cons .nil .nil, .cons (.int 1) .nil] Context.crowded.heap :=
  .perform (.perform (.perform (.perform (.create rfl) _ rfl) _ rfl) _ rfl) _ rfl

/-- The first of the two cells of a list is there after a collection only, which leaves the pair in it. -/
theorem Context.list_crowded : ∃ v c', Context.list [.pair 0, .int 5] Context.crowded = .ok v c' ∧
    c'.heap.stats.collections = 1 ∧ c'.heap.stats.lastFreed = 3 ∧
    c'.heap.spine v = { items := [.pair 0, .int 5], ending := .at .nil } ∧
    c'.heap.isLive (.pair 0) = true ∧ c'.heap.roots = #[] := by
  have hend : endsWith (Context.list [.pair 0, .int 5]) Context.crowded (fun _ c' =>
      decide (c'.heap.stats.collections = 1 ∧ c'.heap.stats.lastFreed = 3)) = true := by decide +kernel
  obtain ⟨v, c', hrun, hstats⟩ := exists_of_endsWith hend
  obtain ⟨-, hlist, -⟩ := Context.arises_crowded.constructors (SymbolTable.sound_empty 1)
  obtain ⟨cells, hl, hroots, hb⟩ := (hlist [.pair 0, .int 5]).ok hrun
  obtain ⟨hcollections, hfreed⟩ := of_decide_eq_true hstats
  exact ⟨v, c', hrun, hcollections, hfreed, hl.spine rfl, hb.live _ List.mem_cons_self rfl, hroots⟩

end Every

end LispMachine
