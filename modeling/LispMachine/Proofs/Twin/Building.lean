import LispMachine.Proofs.Twin.Actions
import LispMachine.Reader.Basic

/-!
# Lists that are being built

The reader and the evaluator build lists from the front: the list is in a slot of the root stack, and
its last pair is at hand. Until the slot is cut off, the pairs belong to it, so that nobody else has
them.

* `Role.shapeFor` -- what the first pair of a list in a role is, by its head: an expression is a
  special form just if its head is the symbol of one;
* `Twin.Started`, `Twin.Building` -- the list in a slot, and its last pair. `Started.finished` says
  that it has its role once the slot is cut off;
* `Leads.append` -- **one more element**;
* `Leads.func` -- a function, whose parts are consed from the back.
-/

namespace LispMachine

open World

/-! ## 1. The first pair of a list -/

/-- The role of the first element of a list in a role. -/
def Role.head : Role → Role
  | just s => s.first
  | code => code

/-- What the first pair of a list in a role is. -/
def Role.shapeFor (lex : Lexicon) (ρ : Role) (head : Value) : Shape :=
  match ρ with
  | just s => s
  | code =>
    match lex.form? head with
    | some f => .special f
    | none => .call

/-- Lists of these shapes may have any head. -/
def Shape.IsPlain : Shape → Prop
  | call | special _ => False
  | _ => True

def Role.IsPlain : Role → Prop
  | just s => s.IsPlain
  | code => True

namespace Shape

variable {lex : Lexicon} {s : Shape} {v : Value}

theorem rest_isPlain (s : Shape) : s.rest.IsPlain := by
  cases s with
  | special f => cases f <;> trivial
  | _ => trivial

theorem first_isPlain (s : Shape) : s.first.IsPlain := by
  cases s <;> trivial

theorem IsPlain.fits (hs : s.IsPlain) : lex.Fits s v := by
  cases s <;> trivial

end Shape

variable {lex : Lexicon} {γ : Value × Value} {D : Couple} {T T' : Twin} {S : Shape → Prop}
variable {m n k : Nat} {ρ : Role} {s : Shape} {σ : Option Shape} {v v' last last' : Value}

namespace Role

theorem shapeFor_fits (hρ : ρ.IsPlain) (v : Value) : lex.Fits (ρ.shapeFor lex v) v := by
  cases ρ with
  | just s => exact Shape.IsPlain.fits hρ
  | code =>
    rw [shapeFor]
    cases hf : lex.form? v with
    | none => exact hf
    | some f => exact hf

theorem admits_shapeFor (lex : Lexicon) (ρ : Role) (v : Value) : ρ.admits (ρ.shapeFor lex v) := by
  cases ρ with
  | just s => rfl
  | code =>
    rw [shapeFor]
    cases lex.form? v with
    | none => exact .inl rfl
    | some f => exact .inr ⟨f, rfl⟩

end Role

/-- The head of a list has the role that the shape of the first pair gives it. -/
theorem World.Rel.head {W : World} (h : W.Rel ρ.head v v') :
    W.Rel (ρ.shapeFor lex v).first v v' := by
  cases ρ with
  | just s => exact h
  | code =>
    rw [Role.shapeFor]
    cases hf : lex.form? v with
    | none => exact h
    | some f =>
      -- a head that makes a special form is a symbol
      refine h.of_not_pair ?_
      cases v <;> first | rfl | cases hf

/-! ## 2. The list in a slot -/

/-- The shape of the next pair of a list, after a pair of shape `σ`. -/
def nextShape (lex : Lexicon) (ρ : Role) (head : Value) : Option Shape → Shape
  | none => ρ.shapeFor lex head
  | some s => s.rest

/-- The role of the next element. -/
def nextRole (ρ : Role) : Option Shape → Role
  | none => ρ.head
  | some s => s.rest.first

namespace Twin

/-- A list in a role is built in the slot `k`. -/
inductive Started (T : Twin) (k : Nat) (ρ : Role) : Prop where
  | empty (hl : T.left.roots[k]? = some .nil) (hr : T.right.roots[T.slot k]? = some .nil)
  | head {a b : Addr} {s : Shape} (hl : T.left.roots[k]? = some (.pair a))
      (hr : T.right.roots[T.slot k]? = some (.pair b)) (hw : T.world a b (.pair s (some k)))
      (hs : ρ.admits s)

/-- The last pair of the list in the slot `k`, and its shape; nil before the first. -/
inductive Building (S : Shape → Prop) (T : Twin) (k : Nat) (ρ : Role) :
    Option Shape → Value → Value → Prop where
  | empty (hl : T.left.roots[k]? = some .nil) (hr : T.right.roots[T.slot k]? = some .nil) :
      Building S T k ρ none .nil .nil
  | last {a b : Addr} {s : Shape} {x x' : Value} (hstart : T.Started k ρ)
      (hw : T.world a b (.pair s (some k))) (hl : T.left.cells[a]? = some (.pair x .nil))
      (hr : T.right.cells[b]? = some (.pair x' .nil)) (hheld : T.Held S (k + 1) (.pair a) (.pair b)) :
      Building S T k ρ (some s) (.pair a) (.pair b)

theorem Building.started (h : T.Building S k ρ σ last last') : T.Started k ρ := by
  cases h with
  | empty hl hr => exact .empty hl hr
  | last hstart _ _ _ _ => exact hstart

theorem Started.lt (h : T.Started k ρ) : k < T.left.roots.size := by
  cases h with
  | empty hl _ => exact (Array.getElem?_eq_some_iff.mp hl).1
  | head hl _ _ _ => exact (Array.getElem?_eq_some_iff.mp hl).1

/-- A list is kept while something happens above its slot. -/
theorem Started.onward (h : T.Started k ρ) (ho : Onward S n T T') (hk : k < n) :
    T'.Started k ρ := by
  have hright : ∀ {u}, T.right.roots[T.slot k]? = some u → T'.right.roots[T'.slot k]? = some u :=
    fun hr => by
      rw [ho.slots k hk]
      exact (ho.roots_right k hk).trans hr
  cases h with
  | empty hl hr => exact .empty ((ho.roots_left k hk).trans hl) (hright hr)
  | head hl hr hw hs =>
    exact .head ((ho.roots_left k hk).trans hl) (hright hr) (ho.kinds (.root hk hl hr (.pair hw (.inr rfl))) rfl rfl hw) hs

theorem Building.onward (h : T.Building S k ρ σ last last') (hT : T.Coherent lex)
    (hT' : T'.Coherent lex) (ho : Onward S n T T') (hk : k < n) :
    T'.Building S k ρ σ last last' := by
  cases h with
  | empty hl hr =>
    refine .empty ((ho.roots_left k hk).trans hl) ?_
    rw [ho.slots k hk]
    exact (ho.roots_right k hk).trans hr
  | last hstart hw hl hr hheld =>
    have hn := hheld.lift (n := n) hk
    obtain ⟨hcl, hcr⟩ := ho.cells hn rfl rfl hw hk
    exact .last (hstart.onward ho hk) (ho.kinds hn rfl rfl hw) (hcl.trans hl) (hcr.trans hr)
      (hheld.onward hT hT' ho hk)

/-- **A list has its role once its slot is cut off.** -/
theorem Started.finished (h : T.Started k ρ) (hl : T.left.roots[k]? = some v)
    (hr : T.right.roots[T.slot k]? = some v') : (T.world.released k).Rel ρ v v' := by
  cases h with
  | empty hl' hr' =>
    cases hl.symm.trans hl'
    cases hr.symm.trans hr'
    exact .nil
  | head hl' hr' hw hs =>
    cases hl.symm.trans hl'
    cases hr.symm.trans hr'
    refine .pair ⟨_, hw, ?_⟩ hs
    rw [Kind.release_some, if_pos (Nat.le_refl k)]

/-- The kind of a pair is that of a pair. -/
theorem same_of_pair {a b : Addr} {j : Kind} {x y : Value} (hT : T.Coherent lex)
    (hw : T.world a b j) (hl : T.left.cells[a]? = some (.pair x y)) :
    T.world.Same (.pair a) (.pair b) := by
  cases j with
  | pair s o => exact .pair hw
  | object =>
    obtain ⟨_, _, _, hl', _⟩ := hT.objects hw
    rw [hl] at hl'
    cases hl'

section Filled

variable {h : Heap} {a : Addr} {x y z u : Value}

/-- Writing the rest slot of a pair changes no first slot. -/
theorem car_filled (ha : h.cells[a]? = some (.pair x z)) :
    (h.filled a (.pair x y)).car u = h.car u := by
  cases u with
  | pair c =>
    rw [Heap.car, Heap.car]
    by_cases hc : a = c
    · subst hc
      rw [Heap.filled, Array.getElem?_setIfInBounds_self_of_lt (Array.getElem?_eq_some_iff.mp ha).1, ha]
    · rw [Heap.filled, Array.getElem?_setIfInBounds_ne hc]
  | nil => rfl
  | int n => rfl
  | sym id => rfl
  | object c => rfl

theorem cdr_filled (hu : u ≠ .pair a) : (h.filled a (.pair x y)).cdr u = h.cdr u := by
  cases u with
  | pair c =>
    have hc : a ≠ c := fun e => hu (e ▸ rfl)
    rw [Heap.cdr, Heap.cdr, Heap.filled, Array.getElem?_setIfInBounds_ne hc]
  | nil => rfl
  | int n => rfl
  | sym id => rfl
  | object c => rfl

theorem closureParts_filled (ha : h.cells[a]? = some (.pair x z)) :
    (h.filled a (.pair x y)).closureParts u = h.closureParts u := by
  cases u with
  | object c =>
    rw [Heap.closureParts, Heap.closureParts, Heap.payload?, Heap.payload?]
    by_cases hc : a = c
    · subst hc
      rw [Heap.filled, Array.getElem?_setIfInBounds_self_of_lt (Array.getElem?_eq_some_iff.mp ha).1, ha]
    · rw [Heap.filled, Array.getElem?_setIfInBounds_ne hc]
  | nil => rfl
  | int n => rfl
  | sym id => rfl
  | pair c => rfl

end Filled

/-- What led to a value goes on leading to it when a list is extended: nothing was reached by way of
    the rest slot that is written. -/
theorem Held.extended {a b : Addr} {j : Kind} {x x' y y' : Value} (h : T.Held S n v v')
    (hT : T.Coherent lex) (hw : T.world a b j) (hl : T.left.cells[a]? = some (.pair x .nil))
    (hr : T.right.cells[b]? = some (.pair x' .nil)) :
    (T.put a b j (.pair x y) (.pair x' y')).Held S n v v' := by
  have hfirm : ∀ {u u'}, T.FirmAt S n u u' →
      (T.put a b j (.pair x y) (.pair x' y')).FirmAt S n u u' := by
    intro u u' hf c d i hc hd hw'
    refine hf c d i hc hd ?_
    rw [← World.with_self hw]
    exact hw'
  induction h with
  | atom hv => exact .atom hv
  | root hi hl' hr' hs => exact .root hi hl' hr' (hs.transfer fun _ _ _ _ _ hw' => .inl hw')
  | pin hp => exact .pin hp
  | @car u u' hu hf ih =>
    have hnew := ih.car (hfirm hf)
    rwa [show (T.put a b j (.pair x y) (.pair x' y')).left.car u = T.left.car u from car_filled hl,
      show (T.put a b j (.pair x y) (.pair x' y')).right.car u' = T.right.car u' from
        car_filled hr] at hnew
  | @cdr u u' hu hf ih =>
    by_cases hua : u = .pair a
    · -- the rest slot that is written was nil
      have hub : u' = .pair b := hT.one.left_eq (hua ▸ hu.same hT) (same_of_pair hT hw hl)
      rw [hua, hub, cdr_of_pair hl, cdr_of_pair hr]
      exact .atom rfl
    · have hub : u' ≠ .pair b := fun e =>
        hua (hT.one.right_eq (e ▸ hu.same hT) (same_of_pair hT hw hl))
      have hnew := ih.cdr (hfirm hf)
      rwa [show (T.put a b j (.pair x y) (.pair x' y')).left.cdr u = T.left.cdr u from
        cdr_filled hua, show (T.put a b j (.pair x y) (.pair x' y')).right.cdr u' = T.right.cdr u'
        from cdr_filled hub] at hnew
  | @parts u u' hu ih =>
    have hnew := ih.parts
    rwa [show (T.put a b j (.pair x y) (.pair x' y')).left.closureParts u = T.left.closureParts u from
      closureParts_filled hl,
      show (T.put a b j (.pair x y) (.pair x' y')).right.closureParts u' = T.right.closureParts u'
      from closureParts_filled hr] at hnew

/-- A fresh pair becomes the last one: it is reached from the slot by way of the one before. -/
theorem Building.extended {a b c d : Addr} {x x' y y' : Value} (hT : T.Coherent lex)
    (hstart : T.Started k ρ) (hw : T.world c d (.pair s (some k)))
    (hl : T.left.cells[c]? = some (.pair x .nil)) (hr : T.right.cells[d]? = some (.pair x' .nil))
    (hheld : T.Held S (k + 1) (.pair c) (.pair d)) (hw' : T.world a b (.pair s.rest (some k)))
    (hl' : T.left.cells[a]? = some (.pair y .nil)) (hr' : T.right.cells[b]? = some (.pair y' .nil))
    (hca : c ≠ a) (hdb : d ≠ b) :
    (T.put c d (.pair s (some k)) (.pair x (.pair a)) (.pair x' (.pair b))).Building S k ρ
      (some s.rest) (.pair a) (.pair b) := by
  have hself : (T.left.filled c (.pair x (.pair a))).cells[c]? = some (.pair x (.pair a)) :=
    Array.getElem?_setIfInBounds_self_of_lt (Array.getElem?_eq_some_iff.mp hl).1
  have hself' : (T.right.filled d (.pair x' (.pair b))).cells[d]? = some (.pair x' (.pair b)) :=
    Array.getElem?_setIfInBounds_self_of_lt (Array.getElem?_eq_some_iff.mp hr).1
  have hfirm : (T.put c d (.pair s (some k)) (.pair x (.pair a)) (.pair x' (.pair b))).FirmAt S
      (k + 1) (.pair c) (.pair d) := by
    rintro _ _ j ⟨⟩ ⟨⟩ (hj | ⟨_, _, rfl⟩)
    · obtain ⟨_, rfl⟩ := hT.one.left hw hj
      exact Nat.lt_succ_self k
    · exact Nat.lt_succ_self k
  have hsame : (T.put c d (.pair s (some k)) (.pair x (.pair a)) (.pair x' (.pair b))).Held S (k + 1)
      (.pair c) (.pair d) := hheld.extended hT hw hl hr
  have hnew := hsame.cdr hfirm
  rw [show (T.put c d _ _ _).left.cdr (.pair c) = .pair a from cdr_of_pair hself,
    show (T.put c d _ _ _).right.cdr (.pair d) = .pair b from cdr_of_pair hself'] at hnew
  refine .last ?_ (.inl hw') ((Array.getElem?_setIfInBounds_ne hca).trans hl')
    ((Array.getElem?_setIfInBounds_ne hdb).trans hr') hnew
  cases hstart with
  | empty hnil hnil' => exact .empty hnil hnil'
  | head hsl hsr hsw hs => exact .head hsl hsr (.inl hsw) hs

end Twin

/-- A list is begun in a slot of its own. -/
theorem Couple.building_pushed (hD : D.Matched lex γ) :
    (D.pushed .nil .nil).twin.Building S D.height ρ none .nil .nil := by
  refine .empty Array.getElem?_push_size ?_
  show (D.right.heap.roots.push .nil)[D.slot D.height]? = _
  rw [← hD.height_eq]
  exact Array.getElem?_push_size

/-! ## 3. One more element -/

theorem nextShape_fits (hρ : ρ.IsPlain) : lex.Fits (nextShape lex ρ v σ) v := by
  cases σ with
  | none => exact Role.shapeFor_fits hρ v
  | some s => exact s.rest_isPlain.fits

theorem World.Rel.next {W : World} (h : W.Rel (nextRole ρ σ) v v') :
    W.Rel (nextShape lex ρ v σ).first v v' := by
  cases σ with
  | none => exact h.head
  | some s => exact h

namespace Leads

/-- **A list gets one more element**, as the rest of its last pair, or in its slot. -/
theorem append (hD : D.Matched lex γ) (hn : n ≤ k) (hρ : ρ.IsPlain)
    (hb : D.twin.Building S k ρ σ last last') (hv : D.world.Rel (nextRole ρ σ) v v') :
    Leads lex S n γ D (Reader.append k last v) (Reader.append (D.slot k) last' v')
      (fun D' c c' => D'.height = D.height ∧
        D'.twin.Building S k ρ (some (nextShape lex ρ v σ)) c c') := by
  have hk : k < D.height := hb.started.lt
  rw [Reader.append, Reader.append]
  refine bind hD (cons (o := some k) hD (Nat.le_refl _) hv.next (nextShape_fits hρ) .nil ?_)
    (Nat.le_trans hn (Nat.le_of_lt hk)) fun hD₁ ho₁ hq => ?_
  · rintro _ ⟨⟩
    exact hk
  obtain ⟨hheight, a, b, rfl, rfl, hw, hl, hr, hnew⟩ := hq
  have hb₁ := hb.onward hD.coherent hD₁.coherent ho₁.heaps hk
  have hk₁ := hb₁.started.lt
  have hk₁' := hD₁.coherent.slot_lt hk₁
  rw [← ho₁.slot_eq (Nat.le_of_lt hk)]
  cases hb with
  | empty hnil hnil' =>
    refine bind hD₁ (setRoot hD₁ hn hk₁ (.pair hw (.inr rfl))) (Nat.le_refl n)
      fun hD₂ ho₂ hq => ?_
    subst hq
    have hslot := Array.getElem?_setIfInBounds_self_of_lt (a := Value.pair a) hk₁
    have hslot' := Array.getElem?_setIfInBounds_self_of_lt (a := Value.pair b) hk₁'
    refine pure hD₂ ho₂.heaps.height ⟨rfl, (Couple.height_slotSet _ _ _ _).trans hheight, ?_⟩
    exact .last (.head hslot hslot' hw (Role.admits_shapeFor lex ρ v)) hw hl hr
      (.root (Nat.lt_succ_self k) hslot hslot' (.pair hw (.inr rfl)))
  | @last c d s _ _ _ _ _ _ hheld =>
    obtain ⟨hca, hdb⟩ := hnew _ _ (hheld.lift hk)
    cases hb₁ with
    | @last _ _ _ x x' hstart hw₁ hl₁ hr₁ hheld₁ =>
      have hfirm : ¬ (Kind.pair s (some k)).Firm S n := Nat.not_lt_of_le hn
      refine bind hD₁ (setCdr hD₁ (Nat.le_trans hn (Nat.le_of_lt hk₁)) hw₁ hl₁ hr₁
        (.more rfl hw) hfirm) (Nat.le_refl n) fun hD₂ ho₂ hq => ?_
      subst hq
      refine pure hD₂ ho₂.heaps.height ⟨rfl, hheight, ?_⟩
      exact .extended hD₁.coherent hstart hw₁ hl₁ hr₁ hheld₁ hw hl hr
        (fun e => hca (congrArg Value.pair e)) fun e => hdb (congrArg Value.pair e)

/-! ## 4. Functions -/

/-- The values in a slot have a role. -/
def InSlot (D : Couple) (i : Nat) (ρ : Role) : Prop :=
  ∃ v v', D.left.heap.roots[i]? = some v ∧ D.right.heap.roots[D.slot i]? = some v' ∧
    D.world.Rel ρ v v'

/-- The values in a slot are kept. -/
theorem InSlot.rooted {i : Nat} (h : InSlot D i ρ) (hl : D.left.heap.roots[i]? = some v)
    (hr : D.right.heap.roots[D.slot i]? = some v') (hi : i < n) : D.twin.Rooted S n ρ v v' := by
  obtain ⟨u, u', hu, hu', hrel⟩ := h
  cases hl.symm.trans hu
  cases hr.symm.trans hu'
  exact .root hi hl hr hrel

/-- One more pair in front of the list in a slot. -/
theorem consOnto_cons {i : Nat} {earlier earlier' : List Value}
    {R : Value × Value → Couple → Unit → Unit → Prop} (hD : D.Matched lex γ) (hi : n ≤ i) (hlt : i < D.height)
    (hv : D.twin.Rooted S i s.first v v') (hs : s.IsPlain) (hslot : InSlot D i (.just s.rest))
    (hnext : ∀ {D' : Couple}, D'.Matched lex γ → D.Onward S i D' → D'.height = D.height →
      InSlot D' i (.just s) →
      Steps lex S n D' (Context.consOnto i earlier) (Context.consOnto (D'.slot i) earlier') R) :
    Steps lex S n D (Context.consOnto i (v :: earlier))
      (Context.consOnto (D.slot i) (v' :: earlier')) R := by
  rw [Context.consOnto, Context.consOnto]
  refine root hD hlt fun u u' hu hu' => ?_
  have hrest := hslot.rooted (S := S) hu hu' (Nat.lt_succ_self i)
  refine bind hD (cons_rel (s := s) hD (Nat.le_of_lt hlt) hv.rel hs.fits hrest.rel) hi
    fun hD₁ ho₁ hq => ?_
  obtain ⟨hheight, hcell⟩ := hq
  have hlt₁ := hheight.symm ▸ hlt
  rw [← ho₁.top]
  refine bind hD₁ (setRoot hD₁ (Nat.le_refl i) hlt₁ hcell.slot) hi
    fun hD₂ ho₂ hq => ?_
  subst hq
  refine hnext hD₂ (ho₁.trans ho₂ hD hD₁) ((Couple.height_slotSet _ _ _ _).trans hheight)
    ⟨_, _, ?_, ?_, hcell⟩
  · exact Array.getElem?_setIfInBounds_self_of_lt hlt₁
  · exact Array.getElem?_setIfInBounds_self_of_lt (hD₁.coherent.slot_lt hlt₁)

/-- Several roots are pushed. -/
theorem pushAll {W : World} {vs vs' : List Value} (hD : D.Matched lex γ) (hn : n ≤ D.height)
    (hW : D.world = W) (hvs : List.Forall₂ (fun v v' => ∃ ρ, W.Rel ρ v v') vs vs') :
    Leads lex S n γ D (vs.forM fun v => do let _ ← Heap.pushRoot v)
      (vs'.forM fun v => do let _ ← Heap.pushRoot v)
      (fun D' _ _ => D'.world = D.world ∧ D'.slot = D.slot ∧ D'.height = D.height + vs.length ∧
        D'.left.heap.roots.toList = D.left.heap.roots.toList ++ vs ∧
        D'.right.heap.roots.toList = D.right.heap.roots.toList ++ vs') := by
  induction hvs generalizing D n with
  | nil => exact pure hD hn ⟨rfl, rfl, rfl, rfl, (List.append_nil _).symm, (List.append_nil _).symm⟩
  | @cons v v' vs vs' hv hvs ih =>
    obtain ⟨ρ, hv⟩ := hv
    rw [← hW] at hv
    have hpush : Leads lex S n γ D (do let _ ← Heap.pushRoot v) (do let _ ← Heap.pushRoot v')
        (fun D' _ _ => D' = D.pushed v v') := by
      refine bind hD (pushRoot hD hn hv.slot) (Nat.le_refl n) fun hD₁ ho₁ hq => ?_
      exact pure hD₁ ho₁.heaps.height ⟨rfl, hq.1⟩
    refine bind hD hpush (Nat.le_refl n) fun hD₁ ho₁ hq => ?_
    subst hq
    refine (ih hD₁ ho₁.heaps.height hW).weaken (fun _ => id) (Nat.le_refl n) fun _ _ hq => ?_
    obtain ⟨hworld, hslot, hheight, hl, hr⟩ := hq
    refine ⟨rfl, hworld, hslot, ?_, ?_, ?_⟩
    · rw [hheight, Couple.height_pushed, List.length_cons, Nat.add_assoc, Nat.add_comm 1]
    · rw [hl]
      show (D.left.heap.roots.push v).toList ++ vs = _
      rw [Array.toList_push, List.append_assoc]
      rfl
    · rw [hr]
      show (D.right.heap.roots.push v').toList ++ vs' = _
      rw [Array.toList_push, List.append_assoc]
      rfl

theorem getElem?_append_at {xs ys : List Value} {i : Nat} (hm : xs.length = m) :
    (xs ++ ys)[m + i]? = ys[i]? := by
  subst hm
  rw [List.getElem?_append_right (Nat.le_add_right _ _), Nat.add_sub_cancel_left]

/-- A value that has been pushed with others is kept. -/
theorem rooted_of_append {D' : Couple} {vs vs' : List Value} {i : Nat} (hD : D.Matched lex γ)
    (hslot : D'.slot = D.slot) (hl : D'.left.heap.roots.toList = D.left.heap.roots.toList ++ vs)
    (hr : D'.right.heap.roots.toList = D.right.heap.roots.toList ++ vs')
    (hv : vs[i]? = some v) (hv' : vs'[i]? = some v') (hrel : D'.world.Rel ρ v v')
    (hi : D.height + i < n) : D'.twin.Rooted S n ρ v v' := by
  refine .root hi ?_ ?_ hrel
  · show D'.left.heap.roots[D.height + i]? = some v
    rw [← Array.getElem?_toList, hl, getElem?_append_at (m := D.height) rfl, hv]
  · show D'.right.heap.roots[D'.slot (D.height + i)]? = some v'
    rw [hslot, hD.slot_add, ← Array.getElem?_toList, hr,
      getElem?_append_at (m := D.right.heap.roots.size) rfl, hv']

/-- The list of the parts of a function. -/
theorem parts {env env' params params' body body' name name' : Value} (hD : D.Matched lex γ)
    (hn : n ≤ D.height) (henv : D.world.Rel (.just .frame) env env')
    (hparams : D.world.Rel (.just .inert) params params')
    (hbody : D.world.Rel (.just .exprs) body body')
    (hname : D.world.Rel (.just .inert) name name') :
    Leads lex S n γ D (Context.list [env, params, body, name])
      (Context.list [env', params', body', name'])
      (fun D' v v' => D'.height = D.height ∧ D'.world.Rel (.just .env) v v') := by
  rw [Context.list, Context.list]
  refine rootBase hD ?_
  refine bind hD (pushAll hD (Nat.le_refl _) rfl (.cons ⟨_, henv⟩ (.cons ⟨_, hparams⟩
    (.cons ⟨_, hbody⟩ (.cons ⟨_, hname⟩ .nil))))) hn fun {D₁ _ _} hD₁ ho₁ hq => ?_
  obtain ⟨hworld, hslots, hheight, hl, hr⟩ := hq
  rw [← hworld] at henv hparams hbody hname
  replace hheight : D₁.height = D.height + 4 := hheight
  have kept : ∀ {i ρ v v'}, [env, params, body, name][i]? = some v →
      [env', params', body', name'][i]? = some v' → D₁.world.Rel ρ v v' → D.height + i < D₁.height →
      D₁.twin.Rooted S D₁.height ρ v v' := fun hv hv' hrel hi =>
    rooted_of_append hD hslots hl hr hv hv' hrel hi
  have henv₁ := kept (i := 0) rfl rfl henv (by omega)
  have hparams₁ := kept (i := 1) rfl rfl hparams (by omega)
  have hbody₁ := kept (i := 2) rfl rfl hbody (by omega)
  have hname₁ := kept (i := 3) rfl rfl hname (by omega)
  refine bind hD₁ (pushNil hD₁ (Nat.le_refl _)) (by omega)
    fun {D₂ _ _} hD₂ ho₂ hq => ?_
  obtain ⟨hD₂eq, rfl, rfl⟩ := hq
  have hlt : D₁.height < D₂.height := by
    rw [hD₂eq, Couple.height_pushed]
    exact Nat.lt_succ_self _
  have hslot : InSlot D₂ D₁.height (.just .inert) := by
    subst hD₂eq
    refine ⟨_, _, Array.getElem?_push_size, ?_, .nil⟩
    show (D₁.right.heap.roots.push .nil)[D₁.slot D₁.height]? = _
    rw [← hD₁.height_eq]
    exact Array.getElem?_push_size
  have hkeep : ∀ {ρ v v'}, D₁.twin.Rooted S D₁.height ρ v v' →
      D₂.twin.Rooted S D₁.height ρ v v' := fun h => ho₂.rooted hD₁ hD₂ h (Nat.le_refl _)
  have hcons : Leads lex S D₁.height γ D₂ (Context.consOnto D₁.height [name, body, params, env])
      (Context.consOnto (D₁.slot D₁.height) [name', body', params', env'])
      (fun D' _ _ => D₁.height < D'.height ∧ InSlot D' D₁.height (.just .env)) := by
    rw [← ho₂.top]
    refine consOnto_cons (s := .name) hD₂ (Nat.le_refl _) hlt (hkeep hname₁) trivial hslot
      fun {D₃} hD₃ ho₃ hheight₃ hslot₃ => ?_
    have hlt₃ := hheight₃.symm ▸ hlt
    have hbody₃ := ho₃.rooted hD₂ hD₃ (hkeep hbody₁) (Nat.le_refl _)
    have hparams₃ := ho₃.rooted hD₂ hD₃ (hkeep hparams₁) (Nat.le_refl _)
    have henv₃ := ho₃.rooted hD₂ hD₃ (hkeep henv₁) (Nat.le_refl _)
    refine consOnto_cons (s := .body) hD₃ (Nat.le_refl _) hlt₃ hbody₃ trivial hslot₃
      fun {D₄} hD₄ ho₄ hheight₄ hslot₄ => ?_
    have hlt₄ := hheight₄.symm ▸ hlt₃
    have hparams₄ := ho₄.rooted hD₃ hD₄ hparams₃ (Nat.le_refl _)
    have henv₄ := ho₄.rooted hD₃ hD₄ henv₃ (Nat.le_refl _)
    refine consOnto_cons (s := .params) hD₄ (Nat.le_refl _) hlt₄ hparams₄ trivial hslot₄
      fun {D₅} hD₅ ho₅ hheight₅ hslot₅ => ?_
    have hlt₅ := hheight₅.symm ▸ hlt₄
    have henv₅ := ho₅.rooted hD₄ hD₅ henv₄ (Nat.le_refl _)
    refine consOnto_cons (s := .env) hD₅ (Nat.le_refl _) hlt₅ henv₅ trivial hslot₅
      fun {D₆} hD₆ ho₆ hheight₆ hslot₆ => ?_
    exact pure hD₆ ho₆.heaps.height ⟨rfl, hheight₆.symm ▸ hlt₅, hslot₆⟩
  refine bind hD₂ hcons (by omega) fun {D₇ _ _} hD₇ ho₇ hq => ?_
  obtain ⟨hlt₇, hslot₇⟩ := hq
  have hb : D.height ≤ D₇.height := by omega
  have hbase : D₇.slot D.height = D.slot D.height := by
    rw [ho₇.slot_eq (by omega), ho₂.slot_eq (by omega), hslots]
  rw [← (ho₇.slot_eq (Nat.le_refl _)).trans ho₂.top, ← hbase]
  refine root hD₇ hlt₇ fun v v' hv hv' => ?_
  have hout := (hslot₇.rooted (S := S) hv hv' (Nat.lt_succ_self _)).rel
  refine bind hD₇ (popRoots hD₇ (Nat.le_refl D.height) hb) hn fun hD₈ ho₈ hq => ?_
  subst hq
  exact pure hD₈ (hn.trans ho₈.heaps.height) ⟨rfl, Couple.height_popped hb, Twin.Rel.released hout⟩

/-- **A function** over an environment. -/
theorem func {env env' params params' body body' name name' : Value} (hD : D.Matched lex γ)
    (hn : n ≤ D.height) (henv : D.world.Rel (.just .frame) env env')
    (hparams : D.world.Rel (.just .inert) params params')
    (hbody : D.world.Rel (.just .exprs) body body')
    (hname : D.world.Rel (.just .inert) name name') :
    Leads lex S n γ D (Context.func env params body name)
      (Context.func env' params' body' name')
      (fun D' v v' => D'.height = D.height ∧ D'.world.Rel (.just .data) v v') := by
  rw [Context.func, Context.func]
  refine rootBase hD ?_
  refine bind hD (parts hD (Nat.le_refl _) henv hparams hbody hname) hn fun {D₁ _ _} hD₁ ho₁ hq => ?_
  obtain ⟨hheight, hparts⟩ := hq
  refine bind hD₁ (pushRoot hD₁ (Nat.le_refl _) hparts.slot) (hheight.symm ▸ hn)
    fun {D₂ _ _} hD₂ ho₂ hq => ?_
  obtain ⟨rfl, -, -⟩ := hq
  have hkept := Couple.rooted_pushed (S := S) hD₁ hparts
  refine bind hD₂ (make hD₂ (Nat.le_refl _) (Nat.le_of_eq (D₁.height_pushed _ _).symm)
    (.func hkept.rel) fun hT ho => .func (hkept.onward hD₂.coherent hT ho (Nat.le_refl _)).rel)
    (by omega) fun {D₃ _ _} hD₃ ho₃ hq => ?_
  obtain ⟨hheight₃, a, b, rfl, rfl, hw⟩ := hq
  have hb : D.height ≤ D₃.height := by
    rw [hheight₃, Couple.height_pushed]
    omega
  have hbase : D₃.slot D.height = D.slot D.height := by
    rw [ho₃.slot_eq (by omega), Couple.slot_pushed, ho₁.top]
  rw [← hbase]
  refine bind hD₃ (popRoots hD₃ (Nat.le_refl D.height) hb) hn fun hD₄ ho₄ hq => ?_
  subst hq
  exact pure hD₄ (hn.trans ho₄.heaps.height)
    ⟨rfl, Couple.height_popped hb, Twin.Rel.released (.object hw)⟩

end Leads

end LispMachine
