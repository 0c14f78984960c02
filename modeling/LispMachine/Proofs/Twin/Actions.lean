import LispMachine.Proofs.Heap.History
import LispMachine.Proofs.Twin.Couple
import LispMachine.Proofs.Twin.Editing
import LispMachine.Proofs.Twin.Freeing

/-!
# The actions that everything is made of

For each action on the heap or on the context one lemma that says where it leads from matched
contexts. What is simple is described exactly (`Couple.pushed`, `Couple.popped`, `Couple.slotSet`,
`Couple.put`). An action that takes a cell may collect on either side, so all that is known afterwards
is the new cell, and what was kept (`Leads.cons`, `Leads.make`).
-/

namespace LispMachine

open World

variable {lex : Lexicon} {γ : Value × Value} {D : Couple} {S : Shape → Prop} {m n : Nat}
variable {v v' x x' y y' : Value} {ρ : Role} {s : Shape} {o : Option Nat}

namespace Twin

variable {T : Twin} {g g' : Heap} {a b : Addr}

/-- Neither address has a counterpart. -/
def Unmet (W : World) (a b : Addr) : Prop := ∀ c d j, W c d j → c ≠ a ∧ d ≠ b

theorem Unmet.fresh {W : World} {k : Kind} (h : Unmet W a b) : Fresh W a b k := by
  intro c d j hw hcd
  rcases hcd with hc | hd
  · exact absurd hc (h _ _ _ hw).1
  · exact absurd hd (h _ _ _ hw).2

theorem Unmet.released {W : World} {base : Nat} (h : Unmet W a b) :
    Unmet (W.released base) a b := by
  rintro c d j ⟨i, hw, _⟩
  exact h _ _ _ hw

/-- A cell that has been taken corresponds to none yet. -/
theorem unmet_freed (ha : g.IsFree a) (hb : g'.IsFree b) : Unmet (T.freed g g').world a b := by
  rintro c d j ⟨_, hc, hd⟩
  refine ⟨?_, ?_⟩
  · rintro rfl
    rw [ha.not_isAllocated] at hc
    cases hc
  · rintro rfl
    rw [hb.not_isAllocated] at hd
    cases hd

/-- The halves of a pair are in the two topmost slots while it is made. -/
theorem getElem?_rooting_first (h : Heap) (x y : Value) :
    (h.rooting x y).roots[h.roots.size]? = some x := by
  show ((h.roots.push x).push y)[h.roots.size]? = some x
  rw [Array.getElem?_push, if_neg (by rw [Array.size_push]; omega), Array.getElem?_push_size]

theorem getElem?_rooting_second (h : Heap) (x y : Value) :
    (h.rooting x y).roots[h.roots.size + 1]? = some y := by
  show ((h.roots.push x).push y)[h.roots.size + 1]? = some y
  rw [Array.getElem?_push, if_pos (by rw [Array.size_push])]

/-- A pair is made: its halves are rooted, a cell is taken on each side, the roots are dropped, and
    the cells are filled. -/
theorem Coherent.paired (hT : T.Coherent lex) (hn : n ≤ T.left.roots.size)
    (ht : Heap.Taken (T.left.rooting x y) a g) (ht' : Heap.Taken (T.right.rooting x' y') b g')
    (hx : T.world.Rel s.first x x') (hfits : lex.Fits s x) (hy : T.world.Rel (.just s.rest) y y')
    (ho : ∀ k, o = some k → k < T.left.roots.size) :
    ∃ W : World,
      (Twin.mk W ({ g with roots := T.left.roots }.filled a (.pair x y))
        ({ g' with roots := T.right.roots }.filled b (.pair x' y')) T.slot).Coherent lex ∧
      T.Onward S n ⟨W, { g with roots := T.left.roots }.filled a (.pair x y),
        { g' with roots := T.right.roots }.filled b (.pair x' y'), T.slot⟩ ∧
      W a b (.pair s o) ∧ ∀ u u', T.Held S n u u' → u ≠ .pair a ∧ u' ≠ .pair b := by
  have hT₁ : (T.pushed x x').Coherent lex := hT.pushed hx.slot
  have ho₁ : T.Onward S n (T.pushed x x') := .pushed hT hn
  have hT₂ : ((T.pushed x x').pushed y y').Coherent lex := hT₁.pushed hy.slot
  have ho₂ : (T.pushed x x').Onward S n ((T.pushed x x').pushed y y') := .pushed hT₁ ho₁.height
  generalize hdef : (T.pushed x x').pushed y y' = T₂ at hT₂ ho₂
  have hW : T₂.world = T.world := by rw [← hdef]; rfl
  have hl : T₂.left = T.left.rooting x y := by rw [← hdef]; rfl
  have hr : T₂.right = T.right.rooting x' y' := by rw [← hdef]; rfl
  have hslot : T₂.slot = T.slot := by rw [← hdef]; rfl
  have hf : T₂.left.Freed g := hl ▸ ht.freed
  have hf' : T₂.right.Freed g' := hr ▸ ht'.freed
  have hsize : T₂.left.roots.size = T.left.roots.size + 2 := by
    rw [hl, Heap.rooting, Array.size_push, Array.size_push]
  have hT₃ := hT₂.freed hf hf'
  have ho₃ : T₂.Onward S (T.left.roots.size + 2) (T₂.freed g g') :=
    .freed hT₂ hf hf' (Nat.le_of_eq hsize.symm)
  -- the halves are in the two topmost slots, so that they are kept
  have hx₃ : (T₂.freed g g').world.Rel s.first x x' := by
    refine (Rooted.onward (m := T.left.roots.size + 2) (n := T.left.roots.size + 2) ?_ hT₂ hT₃ ho₃
      (Nat.le_refl _)).rel
    refine .root (i := T.left.roots.size) (by omega) ?_ ?_ (hW ▸ hx)
    · rw [hl]
      exact getElem?_rooting_first T.left x y
    · rw [hr, hslot, hT.slot_height]
      exact getElem?_rooting_first T.right x' y'
  have hy₃ : (T₂.freed g g').world.Rel (.just s.rest) y y' := by
    refine (Rooted.onward (m := T.left.roots.size + 2) (n := T.left.roots.size + 2) ?_ hT₂ hT₃ ho₃
      (Nat.le_refl _)).rel
    refine .root (i := T.left.roots.size + 1) (by omega) ?_ ?_ (hW ▸ hy)
    · rw [hl]
      exact getElem?_rooting_second T.left x y
    · rw [hr, hslot, hT.height 1]
      exact getElem?_rooting_second T.right x' y'
  have hbase : T.left.roots.size ≤ (T₂.freed g g').left.roots.size := by
    show T.left.roots.size ≤ g.roots.size
    rw [hf.roots, hsize]
    exact Nat.le_add_right _ 2
  have hT₄ := hT₃.popped hbase
  have ho₄ : (T₂.freed g g').Onward S n ((T₂.freed g g').popped T.left.roots.size) :=
    (Onward.popped hT₃ hbase).mono (fun _ => id) hn
  have hroots : g.roots.shrink T.left.roots.size = T.left.roots := by
    rw [hf.roots, hl, Heap.rooting, Heap.shrink_push_push]
  have hroots' : g'.roots.shrink (T₂.slot T.left.roots.size) = T.right.roots := by
    rw [hf'.roots, hr, Heap.rooting, hslot, hT.slot_height, Heap.shrink_push_push]
  have hslots : cut T₂.slot T.left.roots.size (T₂.slot T.left.roots.size) = T.slot := by
    rw [hslot]
    exact cut_self fun k => by rw [hT.height, hT.slot_height]
  have hunmet : Unmet ((T₂.freed g g').popped T.left.roots.size).world a b :=
    Unmet.released (unmet_freed ht.isFree ht'.isFree)
  have hT₅ : (((T₂.freed g g').popped T.left.roots.size).put a b (.pair s o) (.pair x y)
      (.pair x' y')).Coherent lex := hT₄.put hunmet.fresh ht.isFree.lt_size ht'.isFree.lt_size
    (Content.with (.pair (Rel.released hx₃) hfits (.done (Rel.released hy₃)))) fun s' i hi => by
      show i < (g.roots.shrink T.left.roots.size).size
      rw [hroots]
      cases hi
      exact ho i rfl
  have ho₅ : Onward S n ((T₂.freed g g').popped T.left.roots.size)
      (((T₂.freed g g').popped T.left.roots.size).put a b (.pair s o) (.pair x y) (.pair x' y')) :=
    .put hunmet.fresh ho₄.height fun hw => absurd rfl (hunmet _ _ _ hw).1
  have hbefore := (ho₁.trans ho₂ hT hT₁).trans ((ho₃.mono (fun _ => id) (by omega)).trans
    ho₄ hT₂ hT₃) hT hT₂
  have hnew : ∀ u u', T.Held S n u u' → u ≠ .pair a ∧ u' ≠ .pair b := fun u u' hu => by
    cases hu.same hT with
    | atom hv =>
      refine ⟨?_, ?_⟩
      · rintro rfl
        cases hv
      · rintro rfl
        cases hv
    | object _ => exact ⟨by rintro ⟨⟩, by rintro ⟨⟩⟩
    | pair hw =>
      obtain ⟨hca, hdb⟩ := hunmet _ _ _ (hbefore.kinds hu rfl rfl hw)
      exact ⟨fun e => hca (Value.pair.inj e), fun e => hdb (Value.pair.inj e)⟩
  have hall := hbefore.trans ho₅ hT hT₄
  rw [Twin.put, Twin.popped, Twin.freed] at hT₅ hall
  dsimp only at hT₅ hall
  rw [hroots, hroots', hslots] at hT₅ hall
  exact ⟨_, hT₅, hall, .inr ⟨rfl, rfl, rfl⟩, hnew⟩

/-- An object is made. -/
theorem Coherent.made {t : TypeId} {p p' : Payload} (hT : T.Coherent lex)
    (hm : m ≤ T.left.roots.size) (ht : Heap.Taken T.left a g) (ht' : Heap.Taken T.right b g')
    (hkept : ∀ {T' : Twin}, T'.Coherent lex → T.Onward S m T' → T'.world.Alike lex t p p') :
    ∃ W : World,
      (Twin.mk W (g.filled a (.object t p)) (g'.filled b (.object t p')) T.slot).Coherent lex ∧
      T.Onward S m ⟨W, g.filled a (.object t p), g'.filled b (.object t p'), T.slot⟩ ∧
      W a b .object := by
  have hT₁ := hT.freed ht.freed ht'.freed
  have ho₁ : T.Onward S m (T.freed g g') := .freed hT ht.freed ht'.freed hm
  have hunmet : Unmet (T.freed g g').world a b := unmet_freed ht.isFree ht'.isFree
  have hT₂ : ((T.freed g g').put a b .object (.object t p) (.object t p')).Coherent lex :=
    hT₁.put hunmet.fresh ht.isFree.lt_size ht'.isFree.lt_size
      (Content.with (.object (hkept hT₁ ho₁))) nofun
  have ho₂ : Onward S m (T.freed g g') ((T.freed g g').put a b .object (.object t p) (.object t p')) :=
    .put hunmet.fresh ho₁.height fun hw => absurd rfl (hunmet _ _ _ hw).1
  exact ⟨_, hT₂, ho₁.trans ho₂ hT hT₁, .inr ⟨rfl, rfl, rfl⟩⟩

end Twin

namespace Couple

/-- The contexts after an action on both root stacks or heaps. -/
def pushed (D : Couple) (v v' : Value) : Couple := D.withTwin (D.twin.pushed v v')

def popped (D : Couple) (base : Nat) : Couple := D.withTwin (D.twin.popped base)

def slotSet (D : Couple) (i : Nat) (v v' : Value) : Couple := D.withTwin (D.twin.slotSet i v v')

def put (D : Couple) (a b : Addr) (k : Kind) (c c' : Cell) : Couple :=
  D.withTwin (D.twin.put a b k c c')

end Couple

/-- What has been pushed is kept. -/
theorem Couple.rooted_pushed (hD : D.Matched lex γ) (hv : D.world.Rel ρ v v') :
    (D.pushed v v').twin.Rooted S (D.height + 1) ρ v v' := by
  refine .root (Nat.lt_succ_self D.height) ?_ ?_ hv
  · exact Array.getElem?_push_size
  · show (D.right.heap.roots.push v')[D.slot D.height]? = _
    rw [← hD.height_eq]
    exact Array.getElem?_push_size

theorem Couple.height_pushed (D : Couple) (v v' : Value) :
    (D.pushed v v').height = D.height + 1 := Array.size_push v

theorem Couple.height_popped {base : Nat} (hb : base ≤ D.height) :
    (D.popped base).height = base := by
  show (D.left.heap.roots.shrink base).size = base
  rw [Array.size_shrink]
  exact Nat.min_eq_left hb

@[simp] theorem Couple.slot_pushed (D : Couple) (v v' : Value) : (D.pushed v v').slot = D.slot := rfl

theorem Couple.height_slotSet (D : Couple) (i : Nat) (v v' : Value) :
    (D.slotSet i v v').height = D.height := Array.size_setIfInBounds

/-- What is in a slot that has been set is kept. -/
theorem Couple.rooted_slotSet {i : Nat} (hD : D.Matched lex γ) (hi : i < D.height)
    (hv : D.world.Rel ρ v v') : (D.slotSet i v v').twin.Rooted S (i + 1) ρ v v' := by
  refine .root (Nat.lt_succ_self i) ?_ ?_ hv
  · exact Array.getElem?_setIfInBounds_self_of_lt hi
  · exact Array.getElem?_setIfInBounds_self_of_lt (hD.coherent.slot_lt hi)

namespace Leads

/-! ## 1. The heap -/

/-- An action on the heap that comes to an end. -/
theorem run_lift {α : Type} {f : HeapM α} {c : Context} {a : α} {h : Heap}
    (hf : f c.heap = .ok a h) : (liftM f : Run α) c = .ok a { c with heap := h } := by
  show Context.onHeap f c = _
  rw [Context.onHeap, hf]

theorem run_lift_error {α : Type} {f : HeapM α} {c : Context} {e : Fault} {h : Heap}
    (hf : f c.heap = .error e h) : (liftM f : Run α) c = .error e { c with heap := h } := by
  show Context.onHeap f c = _
  rw [Context.onHeap, hf]

section Lift

variable {α α' : Type} {f : HeapM α} {f' : HeapM α'} {a : α} {a' : α'} {T : Twin}
variable {Q : Couple → α → α' → Prop}

/-- An action on the heaps that comes to an end on both sides. -/
theorem lift (hD : D.Matched lex γ) (hf : f D.left.heap = .ok a T.left)
    (hf' : f' D.right.heap = .ok a' T.right) (hT : T.Coherent lex)
    (hl : D.left.heap.Succeeds T.left) (hr : D.right.heap.Succeeds T.right)
    (ho : D.twin.Onward S n T) (htop : T.slot n = D.slot n)
    (hq : Q (D.withTwin T) a a') : Leads lex S n γ D (liftM f) (liftM f') Q := by
  rw [Leads, Steps, run_lift hf, run_lift hf']
  exact .ok (hD.withTwin hT hl hr ho) (.withTwin ho htop) ⟨rfl, hq⟩

/-- An action on the heaps that ends in the same fault on both sides. -/
theorem lift_fault {e : Fault} {g g' : Heap} (hD : D.Matched lex γ)
    (hf : f D.left.heap = .error e g) (hf' : f' D.right.heap = .error e g') :
    Leads lex S n γ D (liftM f) (liftM f') Q := by
  rw [Leads, Steps, run_lift_error hf, run_lift_error hf']
  exact .fault hD.output

/-- The left heap is exhausted, and if the heaps have the same sizes the right one is so, too. -/
theorem lift_exhausted_left {g : Heap} (hD : D.Matched lex γ) {vs vs' : List Value}
    (hvs : List.Forall₂ D.world.Same vs vs') (hf : f D.left.heap = .error .heapExhausted g)
    (hiff : (∃ g, f D.left.heap = .error .heapExhausted g) ↔
      D.left.heap.Full (D.left.heap.rootValues true ++ vs))
    (hiff' : (∃ g, f' D.right.heap = .error .heapExhausted g) ↔
      D.right.heap.Full (D.right.heap.rootValues true ++ vs')) :
    Leads lex S n γ D (liftM f) (liftM f') Q := by
  rw [Leads, Steps, run_lift_error hf]
  refine .exhausted_left fun hlevel => ?_
  obtain ⟨cfg, hw, hw'⟩ := hD.level hlevel
  obtain ⟨g', hg'⟩ := hiff'.mpr (hw.full_of_le hw' hD.valid_right
    (hD.coherent.inUse_le (lex.even hlevel) hvs) (hiff.mp ⟨g, hf⟩))
  exact ⟨_, _, run_lift_error hg'⟩

theorem lift_exhausted_right {g : Heap} (hf : f' D.right.heap = .error .heapExhausted g) :
    Leads lex S n γ D (liftM f) (liftM f') Q := by
  rw [Leads, Steps, run_lift_error hf]
  exact .exhausted_right

end Lift

/-! ## 2. The root stack -/

theorem rootBase {β β' : Type} {f : Nat → Run β} {f' : Nat → Run β'}
    {R : Value × Value → Couple → β → β' → Prop} (hD : D.Matched lex γ)
    (h : Steps lex S n D (f D.height) (f' (D.slot D.height)) R) :
    Steps lex S n D (liftM Heap.rootBase >>= f) (liftM Heap.rootBase >>= f') R := by
  have hrun : Steps lex S n D (liftM Heap.rootBase >>= f) (liftM Heap.rootBase >>= f') R ↔
      Steps lex S n D (f D.height) (f' D.right.heap.roots.size) R := Iff.rfl
  rw [hrun, hD.height_eq]
  exact h

theorem pushRoot (hD : D.Matched lex γ) (hn : n ≤ D.height) (hv : D.world.Slot D.height v v') :
    Leads lex S n γ D (liftM (Heap.pushRoot v)) (liftM (Heap.pushRoot v'))
      (fun D' i i' => D' = D.pushed v v' ∧ i = D.height ∧ i' = D.slot D.height) :=
  lift hD rfl rfl (hD.coherent.pushed hv) (Heap.Operation.succeeds (.pushRoot v) hD.valid_left rfl)
    (Heap.Operation.succeeds (.pushRoot v') hD.valid_right rfl) (.pushed hD.coherent hn) rfl
    ⟨rfl, rfl, hD.height_eq⟩

/-- Nil is pushed, in the place of a value that is to come. -/
theorem pushNil (hD : D.Matched lex γ) (hn : n ≤ D.height) :
    Leads lex S n γ D (liftM (Heap.pushRoot .nil)) (liftM (Heap.pushRoot .nil))
      (fun D' i i' => D' = D.pushed .nil .nil ∧ i = D.height ∧ i' = D.slot D.height) :=
  pushRoot hD hn (.atom rfl)

/-- What is in a slot. -/
theorem root {β β' : Type} {i : Nat} {f : Value → Run β} {f' : Value → Run β'}
    {R : Value × Value → Couple → β → β' → Prop} (hD : D.Matched lex γ) (hi : i < D.height)
    (h : ∀ v v', D.left.heap.roots[i]? = some v → D.right.heap.roots[D.slot i]? = some v' →
      Steps lex S n D (f v) (f' v') R) :
    Steps lex S n D (liftM (Heap.root i) >>= f) (liftM (Heap.root (D.slot i)) >>= f') R := by
  have hl : D.left.heap.roots[i]? = some D.left.heap.roots[i] := Array.getElem?_eq_getElem hi
  have hi' : D.slot i < D.right.heap.roots.size := hD.coherent.slot_lt hi
  have hr : D.right.heap.roots[D.slot i]? = some D.right.heap.roots[D.slot i] :=
    Array.getElem?_eq_getElem hi'
  have hf : (liftM (Heap.root i) : Run Value) D.left = .ok D.left.heap.roots[i] D.left :=
    run_lift (by rw [Heap.root, hl])
  have hf' : (liftM (Heap.root (D.slot i)) : Run Value) D.right =
      .ok D.right.heap.roots[D.slot i] D.right :=
    run_lift (by rw [Heap.root, hr])
  rw [Steps, run_bind hf, run_bind hf']
  exact h _ _ hl hr

theorem setRoot {i : Nat} (hD : D.Matched lex γ) (hn : n ≤ i) (hi : i < D.height)
    (hv : D.world.Slot i v v') :
    Leads lex S n γ D (liftM (Heap.setRoot i v)) (liftM (Heap.setRoot (D.slot i) v'))
      (fun D' _ _ => D' = D.slotSet i v v') := by
  have hl : Heap.setRoot i v D.left.heap = .ok () (D.twin.slotSet i v v').left := if_pos hi
  have hr : Heap.setRoot (D.slot i) v' D.right.heap = .ok () (D.twin.slotSet i v v').right :=
    if_pos (hD.coherent.slot_lt hi)
  exact lift hD hl hr (hD.coherent.slotSet hv)
    (Heap.Operation.succeeds (.setRoot i v) hD.valid_left hl)
    (Heap.Operation.succeeds (.setRoot (D.slot i) v') hD.valid_right hr)
    (.slotSet hD.coherent hn (Nat.le_trans hn (Nat.le_of_lt hi))) rfl rfl

theorem popRoots {base : Nat} (hD : D.Matched lex γ) (hn : n ≤ base) (hb : base ≤ D.height) :
    Leads lex S n γ D (liftM (Heap.popRoots base)) (liftM (Heap.popRoots (D.slot base)))
      (fun D' _ _ => D' = D.popped base) := by
  have htop : (D.popped base).slot n = D.slot n := by
    rcases Nat.lt_or_eq_of_le hn with hlt | rfl
    · exact Twin.cut_of_lt hlt
    · exact Twin.cut_add D.slot n (D.slot n) 0
  have hl : Heap.popRoots base D.left.heap = .ok () (D.twin.popped base).left := if_pos hb
  have hr : Heap.popRoots (D.slot base) D.right.heap = .ok () (D.twin.popped base).right :=
    if_pos (hD.coherent.slot_le hb)
  exact lift hD hl hr (hD.coherent.popped hb)
    (Heap.Operation.succeeds (.popRoots base) hD.valid_left hl)
    (Heap.Operation.succeeds (.popRoots (D.slot base)) hD.valid_right hr)
    ((Twin.Onward.popped hD.coherent hb).mono (fun _ => id) hn) htop rfl

/-! ## 3. Fresh cells -/

/-- What is known of a fresh pair: its kind and content, and that nothing kept is the same pair. -/
def Fresh (S : Shape → Prop) (n : Nat) (D : Couple) (s : Shape) (o : Option Nat)
    (x y x' y' : Value) (D' : Couple) (v v' : Value) : Prop :=
  ∃ a b : Addr, v = .pair a ∧ v' = .pair b ∧ D'.world a b (.pair s o) ∧
    D'.left.heap.cells[a]? = some (.pair x y) ∧ D'.right.heap.cells[b]? = some (.pair x' y') ∧
    ∀ u u', D.twin.Held S n u u' → u ≠ .pair a ∧ u' ≠ .pair b

/-- **A fresh pair**, whatever is collected before its cell is taken. -/
theorem cons (hD : D.Matched lex γ) (hn : n ≤ D.height) (hx : D.world.Rel s.first x x')
    (hfits : lex.Fits s x) (hy : D.world.Rel (.just s.rest) y y')
    (ho : ∀ k, o = some k → k < D.height) :
    Leads lex S n γ D (liftM (Heap.cons x y)) (liftM (Heap.cons x' y'))
      (fun D' v v' => D'.height = D.height ∧ Fresh S n D s o x y x' y' D' v v') := by
  rcases Heap.cons_cases hD.valid_left x y with ⟨a, g, ht, hrun⟩ | ⟨g, hrun⟩
  · rcases Heap.cons_cases hD.valid_right x' y' with ⟨b, g', ht', hrun'⟩ | ⟨g', hrun'⟩
    · obtain ⟨W, hT, hT', hw, hnew⟩ := hD.coherent.paired (S := S) hn ht ht' hx hfits hy ho
      refine lift (T := ⟨W, _, _, D.slot⟩) hD hrun hrun' hT ?_ ?_ hT' rfl
        ⟨rfl, a, b, rfl, rfl, hw, ?_, ?_, hnew⟩
      · exact Heap.Operation.succeeds (.cons x y) hD.valid_left (run_bind hrun)
      · exact Heap.Operation.succeeds (.cons x' y') hD.valid_right (run_bind hrun')
      · exact Array.getElem?_setIfInBounds_self_of_lt ht.isFree.lt_size
      · exact Array.getElem?_setIfInBounds_self_of_lt ht'.isFree.lt_size
    · exact lift_exhausted_right hrun'
  · exact lift_exhausted_left hD (.cons hx.same (.cons hy.same .nil)) hrun
      (Heap.cons_exhausted_iff hD.valid_left x y) (Heap.cons_exhausted_iff hD.valid_right x' y')

/-- The same, for a pair of no list that is being built. -/
theorem cons_rel (hD : D.Matched lex γ) (hn : n ≤ D.height) (hx : D.world.Rel s.first x x')
    (hfits : lex.Fits s x) (hy : D.world.Rel (.just s.rest) y y') :
    Leads lex S n γ D (liftM (Heap.cons x y)) (liftM (Heap.cons x' y'))
      (fun D' v v' => D'.height = D.height ∧ D'.world.Rel (.just s) v v') := by
  refine (cons (o := none) hD hn hx hfits hy nofun).weaken (fun _ => id) (Nat.le_refl n)
    fun _ _ hq => ?_
  obtain ⟨hheight, a, b, rfl, rfl, hw, _⟩ := hq
  exact ⟨rfl, hheight, .pair hw rfl⟩

/-- **A fresh object**, whatever is collected before its cell is taken; what it holds is kept. -/
theorem make {t : TypeId} {p p' : Payload} (hD : D.Matched lex γ) (hn : n ≤ m) (hm : m ≤ D.height)
    (hp : D.world.Alike lex t p p')
    (hkept : ∀ {T : Twin}, T.Coherent lex → D.twin.Onward S m T → T.world.Alike lex t p p') :
    Leads lex S n γ D (liftM (Heap.make t p)) (liftM (Heap.make t p'))
      (fun D' v v' => D'.height = D.height ∧
        ∃ a b : Addr, v = .object a ∧ v' = .object b ∧ D'.world a b .object) := by
  have hmake : ∀ h : Heap, h.types = .core → h.IsMakeable t := fun h hcore => by
    rw [Heap.IsMakeable, hcore]
    cases hp <;> exact ⟨by decide, rfl⟩
  have hml := hmake _ hD.coherent.types_left
  have hmr := hmake _ hD.coherent.types_right
  rcases Heap.make_cases hD.valid_left t p with ⟨_, a, g, ht, hrun⟩ | ⟨_, g, hrun⟩ | ⟨hno, _⟩
  · rcases Heap.make_cases hD.valid_right t p' with ⟨_, b, g', ht', hrun'⟩ | ⟨_, g', hrun'⟩ | ⟨hno, _⟩
    · obtain ⟨W, hT, hT', hw⟩ := hD.coherent.made (S := S) hm ht ht' hkept
      refine lift (T := ⟨W, _, _, D.slot⟩) hD hrun hrun' hT ?_ ?_ (hT'.mono (fun _ => id) hn) rfl
        ⟨?_, a, b, rfl, rfl, hw⟩
      · exact Heap.Operation.succeeds (.make t p) hD.valid_left (run_bind hrun)
      · exact Heap.Operation.succeeds (.make t p') hD.valid_right (run_bind hrun')
      · show g.roots.size = D.left.heap.roots.size
        rw [ht.freed.roots]
    · exact lift_exhausted_right hrun'
    · exact absurd hmr hno
  · refine lift_exhausted_left hD .nil hrun ?_ ?_
    · rw [List.append_nil]
      exact Heap.make_exhausted_iff hD.valid_left hml p
    · rw [List.append_nil]
      exact Heap.make_exhausted_iff hD.valid_right hmr p'
  · exact absurd hml hno

/-- **A collection on both sides** leaves equally many cells. -/
theorem collect (hD : D.Matched lex γ) (hplain : lex.nested = false) (hfull : lex.vacant = none)
    (hn : n ≤ D.height) :
    Leads lex S n γ D (liftM (Heap.collect true)) (liftM (Heap.collect true))
      (fun D' _ _ => D'.left.heap.liveCount = D'.right.heap.liveCount ∧ D'.height = D.height) := by
  obtain ⟨k, g, hrun, hc⟩ := Heap.collect_spec hD.valid_left true
  obtain ⟨k', g', hrun', hc'⟩ := Heap.collect_spec hD.valid_right true
  refine lift (T := D.twin.freed g g') hD hrun hrun' (hD.coherent.freed hc.freed hc'.freed)
    ⟨hc.resized, hc.valid⟩ ⟨hc'.resized, hc'.valid⟩ (.freed hD.coherent hc.freed hc'.freed hn) rfl ⟨?_, ?_⟩
  · show g.liveCount = g'.liveCount
    rw [hc.valid.liveCount_eq, hc'.valid.liveCount_eq]
    exact hD.coherent.allocatedCount_eq hplain hfull hc hc'
  · show g.roots.size = D.left.heap.roots.size
    rw [hc.freed.roots]

/-! ## 4. Writing -/

theorem modify_eq_set {cells : Array Cell} {f : Cell → Cell} {c : Cell} {a : Nat}
    (hc : cells[a]? = some c) : cells.modify a f = cells.setIfInBounds a (f c) := by
  refine Array.ext_getElem? fun i => ?_
  rw [Array.getElem?_modify, Array.getElem?_setIfInBounds]
  refine ite_congr rfl (fun hi => ?_) fun _ => rfl
  rw [if_pos (hi ▸ (Array.getElem?_eq_some_iff.mp hc).1), ← hi, hc]
  rfl

theorem setCar_run {h : Heap} {a : Addr} (ha : h.cells[a]? = some (.pair x y)) (z : Value) :
    Heap.setCar (.pair a) z h = .ok () (h.filled a (.pair z y)) := by
  rw [Heap.setCar, run_modify, modify_eq_set ha]
  rfl

theorem setCdr_run {h : Heap} {a : Addr} (ha : h.cells[a]? = some (.pair x y)) (z : Value) :
    Heap.setCdr (.pair a) z h = .ok () (h.filled a (.pair x z)) := by
  rw [Heap.setCdr, run_modify, modify_eq_set ha]
  rfl

/-- A cell that corresponds to another corresponds to no third one. -/
theorem fresh_of_one {W : World} {a b : Addr} {k : Kind} (hW : W.OneToOne) (hw : W a b k) :
    Twin.Fresh W a b k := by
  rintro c d j hw' (rfl | rfl)
  · obtain ⟨rfl, rfl⟩ := hW.left hw' hw
    exact ⟨rfl, rfl, rfl⟩
  · obtain ⟨rfl, rfl⟩ := hW.right hw' hw
    exact ⟨rfl, rfl, rfl⟩

/-- **The rest slot of corresponding pairs is written.** -/
theorem setCdr {a b : Addr} {u z u' z' : Value} (hD : D.Matched lex γ) (hn : n ≤ D.height)
    (hw : D.world a b (.pair s o)) (hl : D.left.heap.cells[a]? = some (.pair u z))
    (hr : D.right.heap.cells[b]? = some (.pair u' z')) (hy : D.world.Tail o s.rest y y')
    (hfirm : ¬ (Kind.pair s o).Firm S n) :
    Leads lex S n γ D (liftM (Heap.setCdr (.pair a) y)) (liftM (Heap.setCdr (.pair b) y'))
      (fun D' _ _ => D' = D.put a b (.pair s o) (.pair u y) (.pair u' y')) := by
  obtain ⟨_, _, _, _, hp⟩ := hD.coherent.pairs hw
  cases hl.symm.trans hp.left
  cases hr.symm.trans hp.right
  have hf := fresh_of_one hD.coherent.one hw
  have hT := hD.coherent.put hf (Array.getElem?_eq_some_iff.mp hl).1
    (Array.getElem?_eq_some_iff.mp hr).1
    (Twin.Content.with (.pair hp.first hp.fits hy)) fun s' i hi => by
      cases hi
      exact hD.coherent.owned hw
  exact lift (T := D.twin.put a b (.pair s o) (.pair u y) (.pair u' y')) hD (setCdr_run hl y)
    (setCdr_run hr y') hT (Heap.Operation.succeeds (.setCdr (.pair a) y) hD.valid_left
      (setCdr_run hl y))
    (Heap.Operation.succeeds (.setCdr (.pair b) y') hD.valid_right (setCdr_run hr y'))
    (.put hf hn fun _ => hfirm) rfl rfl

/-- The same for values in a role; there is a fault if they are no pairs. -/
theorem setCdr_rel (hD : D.Matched lex γ) (hn : n ≤ D.height) (hv : D.world.Rel (.just s) v v')
    (hy : D.world.Rel (.just s.rest) y y') (hst : ¬ S s) :
    Leads lex S n γ D (liftM (Heap.setCdr v y)) (liftM (Heap.setCdr v' y'))
      (fun D' _ _ => D'.world = D.world ∧ D'.height = D.height) := by
  cases hv with
  | atom hatom =>
    have hf : ∀ (u : Value) (h : Heap), Heap.setCdr v u h = .error .setCdrOfNonPair h :=
      fun u h => by cases v <;> first | rfl | cases hatom
    exact lift_fault hD (hf _ _) (hf _ _)
  | object hw => exact lift_fault hD rfl rfl
  | pair hw hs =>
    cases hs
    obtain ⟨u, z, u', z', hp⟩ := hD.coherent.pairs hw
    refine (setCdr hD hn hw hp.left hp.right (.done hy) hst).weaken (fun _ => id) (Nat.le_refl n)
      fun _ _ hq => ?_
    subst hq
    exact ⟨rfl, World.with_self hw, rfl⟩

/-- **The first slot of corresponding data is written.** -/
theorem setCar_rel (hD : D.Matched lex γ) (hn : n ≤ D.height)
    (hv : D.world.Rel (.just .data) v v') (hx : D.world.Rel (.just .data) x x')
    (hst : ¬ S .data) :
    Leads lex S n γ D (liftM (Heap.setCar v x)) (liftM (Heap.setCar v' x'))
      (fun D' _ _ => D'.world = D.world ∧ D'.height = D.height) := by
  cases hv with
  | atom hatom =>
    have hf : ∀ (u : Value) (h : Heap), Heap.setCar v u h = .error .setCarOfNonPair h :=
      fun u h => by cases v <;> first | rfl | cases hatom
    exact lift_fault hD (hf _ _) (hf _ _)
  | object hw => exact lift_fault hD rfl rfl
  | @pair a b _ hw hs =>
    cases hs
    obtain ⟨u, z, u', z', hp⟩ := hD.coherent.pairs hw
    have hl : Heap.setCar (.pair a) x D.left.heap = .ok () (D.left.heap.filled a (.pair x z)) :=
      setCar_run hp.left x
    have hr : Heap.setCar (.pair b) x' D.right.heap =
        .ok () (D.right.heap.filled b (.pair x' z')) :=
      setCar_run hp.right x'
    have hf := fresh_of_one hD.coherent.one hw
    have hT := hD.coherent.put hf (Array.getElem?_eq_some_iff.mp hp.left).1
      (Array.getElem?_eq_some_iff.mp hp.right).1
      (Twin.Content.with (.pair (s := .data) hx trivial hp.rest)) nofun
    exact lift (T := D.twin.put a b (.pair .data none) (.pair x z) (.pair x' z')) hD hl hr hT
      (Heap.Operation.succeeds (.setCar (.pair a) x) hD.valid_left hl)
      (Heap.Operation.succeeds (.setCar (.pair b) x') hD.valid_right hr)
      (.put hf hn fun _ => hst) rfl ⟨World.with_self hw, rfl⟩

/-! ## 5. The rest of the state -/

/-- **A failure**, with the same message. -/
theorem fail {message message' : String} (hD : D.Matched lex γ) (hn : n ≤ D.height)
    (hm : message = message') :
    Leads lex S n γ D (Context.fail message) (Context.fail message')
      (fun D' v v' => D'.twin = D.twin ∧ v = .nil ∧ v' = .nil) := by
  subst hm
  rw [Leads, Steps, Context.fail, run_modifyGet, run_modifyGet, ← hD.failing]
  cases hfail : D.left.failing with
  | true => exact .ok hD (.refl hn) ⟨rfl, rfl, rfl, rfl⟩
  | false =>
    exact .ok (σ := D.slot) { hD with failing := rfl, failure := .rfl }
      ⟨.refl hn, rfl, rfl, fun _ _ h => h⟩ ⟨rfl, rfl, rfl, rfl⟩

/-- What depends on the state of failure. -/
theorem isFailing {α α' : Type} {f : Bool → Run α} {f' : Bool → Run α'}
    {P : Value × Value → Couple → α → α' → Prop} (hD : D.Matched lex γ)
    (h : Steps lex S n D (f D.left.failing) (f' D.left.failing) P) :
    Steps lex S n D (Context.isFailing >>= f) (Context.isFailing >>= f') P := by
  have hrun : Steps lex S n D (Context.isFailing >>= f) (Context.isFailing >>= f') P ↔
      Steps lex S n D (f D.left.failing) (f' D.right.failing) P := Iff.rfl
  rw [hrun, ← hD.failing]
  exact h

/-- **A name has the same id**, and the id it had before. -/
theorem intern (hD : D.Matched lex γ) (hn : n ≤ D.height) (name : String) :
    Leads lex S n γ D (Context.intern name) (Context.intern name)
      (fun D' id id' => D'.twin = D.twin ∧ id' = id ∧ D'.left.symbols.names[id]? = some name) := by
  obtain ⟨id, t, hrun, ht, hid, hnames⟩ := hD.sound_left.intern name
  obtain ⟨id', t', hrun', ht', hid', hnames'⟩ := hD.sound_right.intern name
  have hsame : id' = id ∧ t'.names = t.names := by
    rcases hnames with rfl | ⟨hnew, rfl, hpush⟩
    · rcases hnames' with rfl | ⟨hnew', _, _⟩
      · exact ⟨ht'.one id' id name hid' (hD.names ▸ hid), hD.names.symm⟩
      · exact absurd (hD.names ▸ hid) (hnew' id)
    · rcases hnames' with rfl | ⟨_, rfl, hpush'⟩
      · exact absurd (hD.names ▸ hid') (hnew id')
      · exact ⟨by rw [hD.names], by rw [hpush', hpush, hD.names]⟩
  have hl : Context.intern name D.left = .ok id { D.left with symbols := t } := by
    rw [Context.intern, hrun]
  have hr : Context.intern name D.right = .ok id' { D.right with symbols := t' } := by
    rw [Context.intern, hrun']
  rw [Leads, Steps, hl, hr]
  refine .ok (W := D.world) (σ := D.slot) { hD with sound_left := ht, sound_right := ht', names := hsame.2.symm }
    ⟨.refl hn, rfl, rfl, fun i s hi => ?_⟩ ⟨rfl, rfl, hsame.1, hid⟩
  show t.names[i]? = some s
  rcases hnames with rfl | ⟨_, _, hpush⟩
  · exact hi
  · rw [hpush, Array.getElem?_push, if_neg (Nat.ne_of_lt (Array.getElem?_eq_some_iff.mp hi).1)]
    exact hi

theorem sym (hD : D.Matched lex γ) (hn : n ≤ D.height) (name : String) :
    Leads lex S n γ D (Context.sym name) (Context.sym name)
      (fun D' v v' => D'.twin = D.twin ∧ ∃ id, v = .sym id ∧ v' = .sym id ∧
        D'.left.symbols.names[id]? = some name) := by
  refine bind hD (intern hD hn name) (Nat.le_refl n) fun hD' ho hq => ?_
  obtain ⟨htwin, rfl, hid⟩ := hq
  exact pure hD' ho.heaps.height ⟨rfl, htwin, _, rfl, rfl, hid⟩

/-- A truth value is the same immediate. -/
theorem ofBool {β β' : Type} {b b' : Bool} {f : Value → Run β} {f' : Value → Run β'}
    {R : Value × Value → Couple → β → β' → Prop} (hD : D.Matched lex γ) (hb : b = b')
    (h : ∀ v : Value, v.addr? = none → Steps lex S n D (f v) (f' v) R) :
    Steps lex S n D (Context.ofBool b >>= f) (Context.ofBool b' >>= f') R := by
  subst hb
  have hrun : Steps lex S n D (Context.ofBool b >>= f) (Context.ofBool b >>= f') R ↔
      Steps lex S n D (f (if b then D.left.truth else .nil))
        (f' (if b then D.right.truth else .nil)) R := Iff.rfl
  rw [hrun, ← hD.truth]
  refine h _ ?_
  cases b with
  | true => exact hD.truth_atom
  | false => rfl

theorem write {out out' : String} (hD : D.Matched lex γ) (hn : n ≤ D.height) (hout : out = out') :
    Leads lex S n γ D (Context.write out) (Context.write out') (fun D' _ _ => D'.twin = D.twin) := by
  subst hout
  exact .ok (W := D.world) (σ := D.slot) { hD with output := hD.output.append out }
    ⟨.refl hn, rfl, rfl, fun _ _ h => h⟩ ⟨rfl, rfl⟩

end Leads

end LispMachine
