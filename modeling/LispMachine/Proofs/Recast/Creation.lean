import LispMachine.Proofs.Quiet.Following
import LispMachine.Proofs.Quiet.Reading
import LispMachine.Proofs.Recast.Code
import LispMachine.Proofs.Twin.Creation

/-!
# The standard context in a heap that is never collected

A context that has just been made has nothing in its heap but its root environment and natives:

* `Context.Bindable` -- what is bound in its root environment: symbols and natives;
* `Context.Newborn` -- **what there is in a context while it is furnished**, and the steps that keep it;
* `Serves.furnishWith` -- so it is in the end, with the special forms under their names;
* `Context.Newborn.sound` -- such a context agrees with itself;
* `Context.exists_newborn` -- **a context of any size is led by one that was never collected**, and contexts of
  two sizes by the same one.
-/

namespace LispMachine

open Context

variable {natives : List Primitive} {s : Scope} {c d : Context} {v key value : Value} {t : SymbolTable}
variable {fs : List StandardForm} {p : Primitive}

/-! ## 1. What there is -/

theorem Binds.mem_put {bs : Binds} {q : Value × Value} (hq : q ∈ bs.put key value) : q ∈ bs ∨ q = (key, value) := by
  unfold put at hq
  split at hq
  · clear * - hq
    induction bs with
    | nil => exact .inl hq
    | cons r bs ih =>
      rw [List.replaceF] at hq
      by_cases hr : r.1 = key
      · rw [if_pos hr] at hq
        rcases List.mem_cons.mp hq with rfl | hq
        · exact .inr rfl
        · exact .inl (List.mem_cons_of_mem r hq)
      · rw [if_neg hr] at hq
        rcases List.mem_cons.mp hq with rfl | hq
        · exact .inl List.mem_cons_self
        · exact (ih hq).imp_left (List.mem_cons_of_mem r)
  · rcases List.mem_cons.mp hq with rfl | hq
    · exact .inr rfl
    · exact .inl hq

/-- What a frame is made of. -/
theorem Scope.Lies.exists_pairs {h : Heap} {P : Value → Prop} (hs : s.Lies h) (hnil : P .nil) (hparent : P s.parent)
    (hbound : ∀ q ∈ s.bound, P q.1 ∧ P q.2) (hcells : ∀ a ∈ s.cells, P (.pair a)) :
    ∀ a ∈ s.cells, ∃ x y, h.content a = some (.pair x y) ∧ P x ∧ P y := by
  have hentries : ∀ es : List Entry, (∀ q ∈ es.map fun e => (e.key, e.value), P q.1 ∧ P q.2) →
      (∀ a ∈ Entry.cells es, P (.pair a)) → P (Entry.list es) ∧
        ∀ q ∈ Entry.contents es, ∃ x y, q.2 = .pair x y ∧ P x ∧ P y := by
    intro es
    induction es with
    | nil => exact fun _ _ => ⟨hnil, nofun⟩
    | cons e es ih =>
      intro hbound hcells
      obtain ⟨he, hbound⟩ := List.forall_mem_cons.mp hbound
      obtain ⟨hlink, hcells⟩ := List.forall_mem_cons.mp hcells
      obtain ⟨hcell, hcells⟩ := List.forall_mem_cons.mp hcells
      obtain ⟨hlist, hcontents⟩ := ih hbound hcells
      refine ⟨hlink, List.forall_mem_cons.mpr ⟨⟨_, _, rfl, hcell, hlist⟩, List.forall_mem_cons.mpr ⟨⟨_, _, rfl, he⟩,
        hcontents⟩⟩⟩
  obtain ⟨hframe, hrest⟩ := List.forall_mem_cons.mp hcells
  obtain ⟨hlist, hcontents⟩ := hentries s.entries hbound hrest
  intro a ha
  obtain ⟨q, hq, rfl⟩ := List.mem_map.mp ha
  obtain ⟨x, y, hx, hp⟩ : ∃ x y, q.2 = .pair x y ∧ P x ∧ P y := by
    rcases List.mem_cons.mp hq with rfl | hq
    · exact ⟨_, _, rfl, hparent, hlist⟩
    · exact hcontents q hq
  exact ⟨x, y, Heap.content_pair.mpr ((hs.content q hq).trans (congrArg some hx)), hp⟩

theorem Scope.Lies.exists_pair {h : Heap} (hs : s.Lies h) : ∀ a ∈ s.cells, ∃ x y, h.content a = some (.pair x y) :=
  fun a ha => by
    obtain ⟨x, y, hx, -⟩ := hs.exists_pairs (P := fun _ => True) trivial trivial (fun _ _ => ⟨trivial, trivial⟩)
      (fun _ _ => trivial) a ha
    exact ⟨x, y, hx⟩

namespace Context

/-- What is bound in a root environment. -/
inductive Bindable (natives : List Primitive) (c : Context) : Value → Prop where
  | symbol {i : SymbolId} {name : String} (hi : c.symbols.names[i]? = some name) : Bindable natives c (.sym i)
  | native {a : Addr} {p : Primitive} (hp : p ∈ natives)
      (ha : c.heap.content a = some (.object CoreType.native.id (.procedure (.primitive p)))) :
      Bindable natives c (.object a)

theorem Bindable.kept (h : c.Bindable natives v) (ht : d.symbols.Extends c.symbols)
    (hkept : ∀ a x y, c.heap.content a = some (.object x y) → d.heap.content a = some (.object x y)) :
    d.Bindable natives v := by
  cases h with
  | symbol hi => exact .symbol (ht _ _ hi)
  | native hp ha => exact .native hp (hkept _ _ _ ha)

/-- **A context that holds its root environment, and natives.** -/
structure Newborn (natives : List Primitive) (s : Scope) (c : Context) : Prop where
  types : c.heap.types = .core
  sound : c.symbols.Sound
  settled : c.looping = false
  forms : ∀ p ∈ c.forms, ∃ f, p.2 = .standard f ∧ c.symbols.names[p.1]? = some f.name
  rootEnv : c.rootEnv = .pair s.frame
  lies : s.Lies c.heap
  parent : s.parent = .nil
  bound : ∀ q ∈ s.bound, c.Bindable natives q.1 ∧ c.Bindable natives q.2
  truth : c.Bindable natives c.truth
  cells : ∀ {a x}, c.heap.content a = some x → a ∈ s.cells ∨
    ∃ p ∈ natives, x = .object CoreType.native.id (.procedure (.primitive p))

theorem Furnished.kept (h : c.Furnished fs) (hforms : d.forms = c.forms) (ht : d.symbols.Extends c.symbols) :
    d.Furnished fs where
  standard := hforms ▸ h.standard
  named f hf := by
    obtain ⟨i, hi, hlookup⟩ := h.named f hf
    exact ⟨i, ht _ _ hi, hforms ▸ hlookup⟩

namespace Newborn

theorem withRoots (h : Newborn natives s c) (roots : Array Value) : Newborn natives s (c.withRoots roots) :=
  ⟨h.types, h.sound, h.settled, h.forms, h.rootEnv, h.lies.congr fun _ _ => rfl, h.parent,
    fun q hq => ⟨(h.bound q hq).1.kept (.refl _) fun _ _ _ => id, (h.bound q hq).2.kept (.refl _) fun _ _ _ => id⟩,
    h.truth.kept (.refl _) fun _ _ _ => id, h.cells⟩

/-- Names are learnt. -/
theorem learn (h : Newborn natives s c) (hsound : t.Sound) (ht : t.Extends c.symbols) :
    Newborn natives s { c with symbols := t } where
  types := h.types
  sound := hsound
  settled := h.settled
  forms p hp := by
    obtain ⟨f, hf, hname⟩ := h.forms p hp
    exact ⟨f, hf, ht _ _ hname⟩
  rootEnv := h.rootEnv
  lies := h.lies
  parent := h.parent
  bound q hq := ⟨(h.bound q hq).1.kept ht fun _ _ _ => id, (h.bound q hq).2.kept ht fun _ _ _ => id⟩
  truth := h.truth.kept ht fun _ _ _ => id
  cells := h.cells

/-- What an action on the root environment leaves there. -/
theorem define (h : Newborn natives s c) (hkey : c.Bindable natives key) (hvalue : c.Bindable natives value) :
    Serves 2 (Context.define (.pair s.frame) key value) c fun _ d => ∃ s', Newborn natives s' d ∧
      d.heap.roots = c.heap.roots ∧ d.forms = c.forms ∧ d.symbols = c.symbols := by
  refine (Serves.define h.lies key value).weaken le_rfl fun _ d hq => ?_
  obtain ⟨s', hfilled, hcells⟩ := hq
  have hsymbols : d.symbols = c.symbols := hfilled.alters.rest.symbols
  have hforms : d.forms = c.forms := hfilled.alters.rest.forms
  have hkept : ∀ a x y, c.heap.content a = some (.object x y) → d.heap.content a = some (.object x y) := by
    intro a x y ha
    refine (hfilled.alters.content a fun hmem => ?_).trans ha
    rcases hfilled.cells a hmem with hmem | hnone
    · obtain ⟨u, w, hpair⟩ := h.lies.exists_pair a hmem
      rw [ha] at hpair
      cases hpair
    · rw [ha] at hnone
      cases hnone
  have hbindable : ∀ {v : Value}, c.Bindable natives v → d.Bindable natives v := fun hv =>
    hv.kept (hsymbols ▸ .refl _) hkept
  refine ⟨s', ?_, hfilled.roots, hforms, hsymbols⟩
  exact
    { types := hfilled.alters.types.trans h.types
      sound := hsymbols ▸ h.sound
      settled := hfilled.alters.rest.looping.trans h.settled
      forms := by
        rw [hforms, hsymbols]
        exact h.forms
      rootEnv := by rw [hfilled.alters.rest.rootEnv, h.rootEnv, hfilled.frame]
      lies := hfilled.lies
      parent := hfilled.parent.trans h.parent
      bound := fun q hq => by
        rw [hfilled.bound] at hq
        rcases Binds.mem_put hq with hq | rfl
        · exact ⟨hbindable (h.bound q hq).1, hbindable (h.bound q hq).2⟩
        · exact ⟨hbindable hkey, hbindable hvalue⟩
      truth := by
        rw [hfilled.alters.rest.truth]
        exact hbindable h.truth
      cells := fun {a x} ha => by
        by_cases hmem : a ∈ s'.cells
        · exact .inl hmem
        · rw [hfilled.alters.content a hmem] at ha
          exact (h.cells ha).imp_left (hcells a) }

/-- A native has been made. -/
theorem made {a : Addr} (h : Newborn natives s c) (hp : p ∈ natives)
    (hmade : Serves.Made c a (.object CoreType.native.id (.procedure (.primitive p))) d) :
    Newborn natives s d ∧ d.Bindable natives (.object a) := by
  have hsymbols : d.symbols = c.symbols := hmade.adds.alters.rest.symbols
  have hbindable : ∀ {v : Value}, c.Bindable natives v → d.Bindable natives v := fun hv =>
    hv.kept (hsymbols ▸ .refl _) fun _ _ _ => hmade.adds.kept
  refine ⟨?_, .native hp hmade.holds⟩
  exact
    { types := hmade.adds.alters.types.trans h.types
      sound := hsymbols ▸ h.sound
      settled := hmade.adds.alters.rest.looping.trans h.settled
      forms := by
        rw [hmade.adds.alters.rest.forms, hsymbols]
        exact h.forms
      rootEnv := hmade.adds.alters.rest.rootEnv.trans h.rootEnv
      lies := h.lies.congr fun b hb => by
        obtain ⟨x, hx⟩ := h.lies.exists_content b hb
        rw [Heap.cell_of_content hx, Heap.cell_of_content (hmade.adds.kept hx)]
      parent := h.parent
      bound := fun q hq => ⟨hbindable (h.bound q hq).1, hbindable (h.bound q hq).2⟩
      truth := by
        rw [hmade.adds.alters.rest.truth]
        exact hbindable h.truth
      cells := fun {b x} hb => by
        by_cases hba : b = a
        · subst hba
          rw [hmade.holds] at hb
          exact .inr ⟨p, hp, (Option.some.inj hb).symm⟩
        · rw [hmade.adds.alters.content b fun hmem => hba (List.mem_singleton.mp hmem)] at hb
          exact h.cells hb }

/-- **A primitive is bound.** -/
theorem definePrimitive (h : Newborn natives s c) (hfurnished : c.Furnished fs) (hp : p ∈ natives) :
    Serves 3 (defineProcedure (.primitive p)) c fun _ d => ∃ s', Newborn natives s' d ∧ d.Furnished fs := by
  have htype : c.heap.IsMakeable CoreType.native.id := by
    rw [Heap.IsMakeable, h.types]
    exact ⟨by decide, rfl⟩
  unfold defineProcedure
  refine (Serves.make htype _).bind (m := 2) fun v c₁ h₁ => ?_
  obtain ⟨a, rfl, hmade⟩ := h₁
  obtain ⟨hnew, hnative⟩ := h.made hp hmade
  refine .rootBase (.pushRoot (.object a) (.sym (hnew.withRoots _).sound _ fun i t hsound hextends hname => ?_))
  have hnew₂ := (hnew.withRoots (c₁.heap.roots.push (.object a))).learn hsound hextends
  refine .observe ?_
  nth_rewrite 1 [hnew₂.rootEnv]
  refine (hnew₂.define (.symbol hname) (hnative.kept hextends fun _ _ _ => id)).bind (m := 0) fun _ c₃ h₃ => ?_
  obtain ⟨s', hnew₃, hroots, hforms, hsymbols⟩ := h₃
  have hsize : c₁.heap.roots.size ≤ c₃.heap.roots.size := by
    rw [hroots]
    show _ ≤ (c₁.heap.roots.push (.object a)).size
    rw [Array.size_push]
    exact Nat.le_succ _
  rw [← bind_pure (liftM (Heap.popRoots c₁.heap.roots.size) : Run Unit)]
  refine .popRoots hsize (.pure ⟨s', hnew₃.withRoots _, hfurnished.kept ?_ ?_⟩)
  · exact hforms.trans hmade.adds.alters.rest.forms
  · show c₃.symbols.Extends c.symbols
    rw [hsymbols, ← hmade.adds.alters.rest.symbols]
    exact hextends

theorem definePrimitives {ps : List Primitive} (h : Newborn natives s c) (hfurnished : c.Furnished fs)
    (hps : ∀ p ∈ ps, p ∈ natives) : Serves (3 * ps.length) (ps.forM fun p => defineProcedure (.primitive p)) c
      fun _ d => ∃ s', Newborn natives s' d ∧ d.Furnished fs := by
  induction ps generalizing c s with
  | nil => exact .pure ⟨s, h, hfurnished⟩
  | cons p ps ih =>
    obtain ⟨hp, hps⟩ := List.forall_mem_cons.mp hps
    rw [List.length_cons, Nat.mul_add, Nat.add_comm]
    refine (h.definePrimitive hfurnished hp).bind fun _ d hq => ?_
    obtain ⟨s₁, h₁, hfurnished₁⟩ := hq
    exact ih h₁ hfurnished₁ hps

/-- **The special forms get their names.** -/
theorem defineForms {gs : List StandardForm} (h : Newborn natives s c) (hfurnished : c.Furnished fs) :
    Serves 0 (gs.forM fun f => defineForm f.name (.standard f)) c
      fun _ d => Newborn natives s d ∧ d.Furnished (gs.reverse ++ fs) := by
  induction gs generalizing c fs with
  | nil => exact .pure ⟨h, hfurnished⟩
  | cons f gs ih =>
    rw [List.reverse_cons, List.append_assoc]
    obtain ⟨i, t, hrun, hsound, hextends, hname⟩ := exists_intern h.sound f.name
    have hnew := h.learn hsound hextends
    have hform : defineForm f.name (.standard f) c = .ok () { c with
        symbols := t
        forms := (i, .standard f) :: c.forms } := by
      rw [defineForm, run_bind hrun]
      rfl
    have hnew₂ : Newborn natives s { c with
        symbols := t
        forms := (i, .standard f) :: c.forms } :=
      { hnew with
        forms := List.forall_mem_cons.mpr ⟨⟨f, rfl, hname⟩, hnew.forms⟩
        bound := fun q hq => ⟨(hnew.bound q hq).1.kept (.refl _) fun _ _ _ => id,
          (hnew.bound q hq).2.kept (.refl _) fun _ _ _ => id⟩
        truth := hnew.truth.kept (.refl _) fun _ _ _ => id }
    refine .after hform (fun _ => id) (ih hnew₂ ?_)
    exact (hfurnished.kept (d := { c with symbols := t }) rfl hextends).add hname

end Newborn

end Context

/-- A value is pinned. -/
theorem Serves.pin {β : Type} {n : Nat} {f : Unit → Run β} {R : β → Context → Prop} (v : Value)
    (hf : ∀ pins, Serves n (f ()) { c with heap := { c.heap with pins } } R) :
    Serves n ((liftM (Heap.pin v) : Run Unit) >>= f) c R := by
  refine operation (h := if v ∈ c.heap.pins then c.heap else { c.heap with pins := v :: c.heap.pins }) (.pin v) rfl
    rfl rfl ?_
  split
  · exact hf c.heap.pins
  · exact hf (v :: c.heap.pins)

/-- **What there is once a context has been furnished.** -/
theorem Serves.furnishWith (hsound : c.symbols.Sound) (htypes : c.heap.types = .core) (hforms : c.forms = [])
    (hsettled : c.looping = false) (hempty : ∀ a, c.heap.content a = none) :
    Serves (1 + (2 + (0 + 3 * natives.length))) (Context.furnishWith natives) c
      fun _ d => ∃ s, Newborn natives s d ∧ d.Furnished StandardForm.all := by
  unfold Context.furnishWith
  refine (Serves.newFrame .nil).bind fun _ c₁ h₁ => ?_
  obtain ⟨a, rfl, hlies, hmade⟩ := h₁
  have hsymbols : c₁.symbols = c.symbols := hmade.adds.alters.rest.symbols
  have hforms₁ : c₁.forms = [] := hmade.adds.alters.rest.forms.trans hforms
  refine .pin (.pair a) fun pins => .after rfl (fun _ => id) ?_
  refine .sym (hsymbols ▸ hsound) "t" fun i t ht hextends hname => .after rfl (fun _ => id) ?_
  have hnew : Newborn natives ⟨a, .nil, []⟩ { c₁ with
      heap := { c₁.heap with pins }
      rootEnv := .pair a
      symbols := t
      truth := .sym i } :=
    { types := hmade.adds.alters.types.trans htypes
      sound := ht
      settled := hmade.adds.alters.rest.looping.trans hsettled
      forms := fun q hq => absurd (hforms₁ ▸ hq) List.not_mem_nil
      rootEnv := rfl
      lies := hlies.congr fun _ _ => rfl
      parent := rfl
      bound := fun q hq => absurd hq List.not_mem_nil
      truth := .symbol hname
      cells := fun {b x} hb => by
        refine .inl ?_
        by_contra hne
        have hnone : c₁.heap.content b = none := (hmade.adds.alters.content b hne).trans (hempty b)
        rw [show c₁.heap.content b = some x from hb] at hnone
        cases hnone }
  refine (hnew.define (.symbol hname) (.symbol hname)).bind fun _ c₂ h₂ => ?_
  obtain ⟨s, hnew₂, -, hforms₂, -⟩ := h₂
  have hnone : c₂.Furnished [] := ⟨fun q hq => absurd (hforms₁ ▸ hforms₂ ▸ hq) List.not_mem_nil, nofun⟩
  refine (hnew₂.defineForms hnone).bind fun _ c₃ h₃ => ?_
  exact h₃.1.definePrimitives (h₃.2.mono (by simp)) fun _ => id

/-! ## 2. A context and itself -/

/-- What is named is called so. -/
theorem StandardForm.name_of_named {f : StandardForm} {name : String} (h : named name = some f) : f.name = name :=
  of_decide_eq_true (List.find?_some (p := fun f : StandardForm => decide (f.name = name)) h)

namespace Context

/-- The names of a context, and no code. -/
def nameless (c : Context) : Codebook := ⟨fun _ _ _ => False, c.symbols.names⟩

/-- A context and itself, each cell being its own counterpart. -/
def doubled (c : Context) : Duet :=
  ⟨⟨fun a b => a = b ∧ ∃ x, c.heap.content a = some x, c.nameless, c.nameless⟩, c, c⟩

/-- The special forms of a context that has been furnished are told by their names. -/
theorem Newborn.lookup_eq (h : Newborn natives s c) (hfurnished : c.Furnished StandardForm.all) {i : SymbolId}
    {name : String} (hi : c.symbols.names[i]? = some name) :
    c.forms.lookup i = (StandardForm.named name).map .standard := by
  cases hf : StandardForm.named name with
  | some f =>
    obtain ⟨j, hj, hlookup⟩ := hfurnished.named f (by cases f <;> decide)
    rw [StandardForm.name_of_named hf] at hj
    rw [h.sound.one i j name hi hj, hlookup]
    rfl
  | none =>
    cases hl : c.forms.lookup i with
    | none => rfl
    | some form =>
      obtain ⟨f, -, hname⟩ := h.forms _ (mem_of_lookup hl)
      rw [show c.symbols.names[i]? = some f.name from hname] at hi
      rw [← Option.some.inj hi, StandardForm.named_name] at hf
      cases hf

theorem Newborn.side (h : Newborn natives s c) (hfurnished : c.Furnished StandardForm.all) (hv : c.heap.Valid) :
    Side c.nameless c where
  valid := hv
  code hp := hp.elim
  names := rfl
  sound := h.sound
  forms hi := h.lookup_eq hfurnished hi
  known f := by
    obtain ⟨i, hi, -⟩ := hfurnished.named f (by cases f <;> decide)
    exact ⟨i, hi⟩
  bare {i} hi := by
    cases hl : c.forms.lookup i with
    | none => rfl
    | some form =>
      obtain ⟨f, -, hname⟩ := h.forms _ (mem_of_lookup hl)
      cases (show c.symbols.names[i]? = some f.name from hname).symm.trans hi
  settled := h.settled
  types := h.types

/-- What is bound corresponds to itself. -/
theorem Bindable.rel (h : c.Bindable natives v) : c.doubled.concord.Rel v v := by
  cases h with
  | symbol hi => exact .sym hi hi
  | native _ ha => exact .object ⟨rfl, _, ha⟩

/-- **A context that has just been furnished agrees with itself.** -/
theorem Newborn.sound_doubled (h : Newborn natives s c) (hfurnished : c.Furnished StandardForm.all) (hv : c.heap.Valid)
    (huncounted : .gc ∉ natives) : c.doubled.Sound where
  left := h.side hfurnished hv
  right := h.side hfurnished hv
  one_left hl hl' := hl.1.symm.trans hl'.1
  one_right hl hl' := hl.1.trans hl'.1.symm
  cells := by
    rintro a b ⟨rfl, x, hx⟩
    refine ⟨x, x, hx, hx, ?_⟩
    rcases h.cells hx with hmem | ⟨p, hp, rfl⟩
    · have hrel : ∀ b ∈ s.cells, c.doubled.concord.Rel (.pair b) (.pair b) := fun b hb =>
        .pair ⟨rfl, h.lies.exists_content b hb⟩
      obtain ⟨u, w, hpair, hu, hw⟩ := h.lies.exists_pairs (P := fun v => c.doubled.concord.Rel v v) .nil
        (h.parent ▸ .nil) (fun q hq => ⟨(h.bound q hq).1.rel, (h.bound q hq).2.rel⟩) hrel a hmem
      rw [hpair] at hx
      cases hx
      exact .pair hu hw
    · exact .native fun he => huncounted (he ▸ hp)
  apart_left _ hp := hp
  apart_right _ hp := hp
  rootEnv := by
    rw [show c.doubled.left.rootEnv = .pair s.frame from h.rootEnv,
      show c.doubled.right.rootEnv = .pair s.frame from h.rootEnv]
    exact .pair ⟨rfl, h.lies.exists_content _ Scope.frame_mem_cells⟩
  truth := h.truth.rel
  failing := rfl
  failure := rfl
  output := rfl

end Context

/-! ## 3. Contexts of any size -/

/-- Nothing is in the cells of a heap that has just been made. -/
theorem Heap.content_create {cfg : Config} {h : Heap} (hh : create cfg = .ok h) (a : Addr) : h.content a = none := by
  have hbirths := (create_kept hh).births
  have hnone : h.allocatedCount = 0 := by omega
  rw [content, Option.filter_eq_none_iff]
  intro x hx hallocated
  have ha : h.isAllocated a = true := isAllocated_iff.mpr ⟨x, hx, hallocated⟩
  exact List.countP_eq_zero.mp hnone a (List.mem_range.mpr (lt_size_of_isAllocated ha)) ha

/-- A machine is led by another one, which starts every call. Nothing has been printed before. -/
def Machine.LedAlong (σ τ : State) : Prop :=
  ∃ lex : Lexicon, lex.nested = true ∧ lex.vacant = none ∧ lex.said = ("", "") ∧ Led lex σ τ

namespace Context

variable {cfg cfg' : Config} {c' : Context} {h : Heap} {k : Nat}

/-- **A context is led by one that had room enough** while it was furnished. -/
theorem createWith_led (huncounted : .gc ∉ natives) (hc : createWith natives cfg = .ok c)
    (hh : Heap.create cfg' = .ok h) (ht : SymbolTable.create cfg'.symbolCapacity = .ok t)
    (hd : furnishWith natives ((bare h t cfg'.maxDepth).roomy k 0) = .ok () d) (source : List Char) (echo : Bool) :
    Machine.LedAlong ⟨c, .exec source echo, []⟩ ⟨d, .exec source echo, []⟩ := by
  obtain ⟨h₀, t₀, hh₀, ht₀, hf⟩ := createWith_eq hc
  let lex : Lexicon :=
    { forms := c.formOf, natives := (· ∈ natives), nested := true, uncounted := fun _ => huncounted, level := False,
      even := False.elim }
  have hbare : (Couple.mk (fun _ _ _ => False) (bare h₀ t₀ cfg.maxDepth) (bare h t cfg'.maxDepth) id).Matched lex
      (.nil, .nil) :=
    Couple.matched_bare nofun rfl False.elim hh₀ hh ht₀ ht
  obtain ⟨_, W, σ, hD, rfl, hfurnished⟩ :=
    Leads.furnish (fun _ hp => hp) (hbare.widened (S := Shape.Fixed) rfl k 0).1 rfl _ _ _ _ hf hd
  exact ⟨lex, rfl, rfl, rfl, .begun hD (hfurnished.lexical rfl)⟩

/-- **Contexts of two sizes are led by one and the same**, in which nothing was ever collected. -/
theorem exists_newborn (huncounted : .gc ∉ natives) (hc : createWith natives cfg = .ok c)
    (hc' : createWith natives cfg' = .ok c') : ∃ d, d.doubled.Sound ∧
      (∀ source echo, Machine.LedAlong ⟨c, .exec source echo, []⟩ ⟨d, .exec source echo, []⟩) ∧
      ∀ source echo, Machine.LedAlong ⟨c', .exec source echo, []⟩ ⟨d, .exec source echo, []⟩ := by
  obtain ⟨h, t, hh, ht, -⟩ := createWith_eq hc
  have hvalid := (Heap.create_kept hh).valid
  have htypes : h.types = .core := by
    obtain ⟨rfl, -⟩ := Heap.create_eq hh
    rfl
  obtain ⟨k, hstocked⟩ := Heap.exists_stocked_grown hvalid (1 + (2 + (0 + 3 * natives.length)))
  obtain ⟨-, hcontent, -, htypes'⟩ := Heap.grown_iterate hvalid k
  obtain ⟨⟨⟩, d, hd, -, hdvalid, s, hnew, hfurnished⟩ :=
    (Serves.furnishWith (c := (bare h t cfg.maxDepth).roomy k 0) (SymbolTable.sound_create ht)
      (htypes'.trans htypes) rfl rfl fun a => (hcontent a).trans (Heap.content_create hh a)).valid 0 hstocked
  exact ⟨d, hnew.sound_doubled hfurnished hdvalid huncounted, createWith_led huncounted hc hh ht hd,
    createWith_led huncounted hc' hh ht hd⟩

end Context

end LispMachine
