import LispMachine.Proofs.Datum.Denotes
import LispMachine.Proofs.Environment.Steps
import LispMachine.Proofs.Symbols
import LispMachine.Proofs.Walk

/-!
# What constructions leave as it was

A construction takes one cell after the other, and at each of them a collection may free what nothing
holds. What matters is which values it is safe to go on with:

* `Heap.Links`, `Heap.Lists` -- a list, and a proper one, with its elements and its pairs;
* `Heap.Keeps` -- what some values lead to stays as it was, while cells are taken and one is written;
* `Keeps.trans` -- **one construction after another**, if what the first starts from is reached from
  what the second starts from;
* `Context.Builds` -- the values are the roots, the pins and the operands of a construction;
* `Attains.builds_cons`, `Attains.builds_make` -- a pair, and an object.
-/

namespace LispMachine

open Context

namespace Heap

variable {h h' g : Heap} {v w x y e : Value} {vs ws xs : List Value} {as fresh more : List Addr}
variable {a b l : Addr} {written : Option Addr}

/-! ## 1. Lists -/

/-- A list: its elements, its pairs, and what follows the last of them. -/
inductive Links (h : Heap) : Value → List Value → List Addr → Value → Prop where
  | nil {e : Value} : Links h e [] [] e
  | cons {a : Addr} {x y e : Value} {xs : List Value} {as : List Addr}
      (hc : h.cells[a]? = some (.pair x y)) (hl : Links h y xs as e) : Links h (.pair a) (x :: xs) (a :: as) e

/-- A proper list: its elements, and its pairs. -/
abbrev Lists (h : Heap) (v : Value) (xs : List Value) (as : List Addr) : Prop := h.Links v xs as .nil

namespace Links

theorem congr (hl : h.Links v xs as e) (hc : ∀ a ∈ as, h'.cells[a]? = h.cells[a]?) : h'.Links v xs as e := by
  induction hl with
  | nil => exact .nil
  | @cons a x y e xs as hcell _ ih =>
    exact .cons ((hc a List.mem_cons_self).trans hcell) (ih fun b hb => hc b (List.mem_cons_of_mem a hb))

theorem isAllocated (hl : h.Links v xs as e) : ∀ a ∈ as, h.isAllocated a = true := by
  induction hl with
  | nil => exact fun a ha => by cases ha
  | cons hcell _ ih => exact List.forall_mem_cons.mpr ⟨isAllocated_iff.mpr ⟨_, hcell, rfl⟩, ih⟩

/-- What leads to a list leads to its pairs. -/
theorem reaches (hl : h.Links v xs as e) (hv : ∀ a, v.addr? = some a → h.Reaches vs a) :
    ∀ a ∈ as, h.Reaches vs a := by
  induction hl with
  | nil => exact fun a ha => by cases ha
  | cons hcell _ ih =>
    have hfirst := hv _ rfl
    exact List.forall_mem_cons.mpr ⟨hfirst, ih fun b hb => .step hfirst (.cdr hcell hb)⟩

/-- What leads to a list leads to what its elements lead to. -/
theorem reaches_item (hl : h.Links v xs as e) (hv : ∀ a, v.addr? = some a → h.Reaches vs a) (hx : x ∈ xs)
    (hb : x.addr? = some b) : h.Reaches vs b := by
  induction hl with
  | nil => cases hx
  | cons hcell _ ih =>
    have hfirst := hv _ rfl
    rcases List.mem_cons.mp hx with rfl | hx
    · exact .step hfirst (.car hcell hb)
    · exact ih (fun d hd => .step hfirst (.cdr hcell hd)) hx

/-- A list as a walk along rest slots. -/
theorem walk (hl : h.Links v xs as e) :
    (∀ j, j < xs.length → ∃ a, a < h.cells.size ∧ h.cdr^[j] v = .pair a) ∧
      h.cdr^[xs.length] v = e ∧ h.elements v xs.length = xs := by
  induction hl with
  | nil => exact ⟨fun j hj => absurd hj (Nat.not_lt_zero j), rfl, rfl⟩
  | @cons a x y e xs as hcell _ ih =>
    obtain ⟨hpairs, hend, helements⟩ := ih
    have hcdr := cdr_of_cell hcell
    refine ⟨fun j hj => ?_, ?_, ?_⟩
    · cases j with
      | zero => exact ⟨a, (Array.getElem?_eq_some_iff.mp hcell).1, rfl⟩
      | succ j =>
        rw [Function.iterate_succ_apply, hcdr]
        exact hpairs j (Nat.lt_of_succ_lt_succ hj)
    · rw [List.length_cons, Function.iterate_succ_apply, hcdr]
      exact hend
    · rw [List.length_cons, elements_succ, car_of_cell hcell, hcdr, helements]

theorem isPair_of_lt (hl : h.Links v xs as e) {j : Nat} (hj : j < xs.length) :
    (h.cdr^[j] v).isPair = true := by
  obtain ⟨a, -, ha⟩ := hl.walk.1 j hj
  rw [ha]
  rfl

/-- A list that ends is no longer than there are cells. -/
theorem length_le (hl : h.Links v xs as e) (he : e.isPair = false) : xs.length ≤ h.cells.size := by
  obtain ⟨hpairs, hend, -⟩ := hl.walk
  refine first_le (P := fun u => u.isPair = true) (fun j hj => hl.isPair_of_lt hj) ?_ hpairs
  rw [hend, he]
  exact Bool.false_ne_true

/-- **The spine of a list.** -/
theorem spine (hl : h.Links v xs as e) (he : e.isPair = false) :
    h.spine v = { items := xs, ending := .at e } := by
  obtain ⟨-, hend, helements⟩ := hl.walk
  rw [Heap.spine, spineOnto_at (fun j hj => hl.isPair_of_lt hj) (hend.symm ▸ he)
    (Nat.le_succ_of_le (hl.length_le he)), hend, helements]
  rfl

/-- What follows the last pair of a list. -/
theorem last_cell (hl : h.Links v xs as e) (hlast : as.getLast? = some l) :
    ∃ x, h.cells[l]? = some (.pair x e) := by
  induction hl with
  | nil => cases hlast
  | cons hcell hrest ih =>
    cases hrest with
    | nil =>
      cases hlast
      exact ⟨_, hcell⟩
    | cons _ _ => exact ih (by rwa [List.getLast?_cons_cons] at hlast)

/-- **An element is appended**: the last pair is written. -/
theorem append (hl : h.Links v xs as e) (he : e.isPair = false) (hlast : as.getLast? = some l)
    (hw : h'.cells[l]? = (h.cells[l]?).map (withCdr (.pair a)))
    (hother : ∀ b ∈ as, b ≠ l → h'.cells[b]? = h.cells[b]?)
    (ha : h'.cells[a]? = some (.pair x .nil)) : h'.Lists v (xs ++ [x]) (as ++ [a]) := by
  induction hl with
  | nil => cases hlast
  | @cons b u y e xs as hcell hrest ih =>
    cases hrest with
    | nil =>
      obtain rfl : b = l := Option.some.inj hlast
      rw [hcell] at hw
      exact .cons hw (.cons ha .nil)
    | @cons b' u' y' _ xs as hcell' hrest =>
      rw [List.getLast?_cons_cons] at hlast
      obtain ⟨z, hz⟩ := (Links.cons hcell' hrest).last_cell hlast
      have hne : b ≠ l := by
        rintro rfl
        rw [hcell] at hz
        cases hz
        cases he
      exact .cons ((hother b List.mem_cons_self hne).trans hcell)
        (ih he hlast fun d hd => hother d (List.mem_cons_of_mem b hd))

end Links

/-! ## 2. What is kept -/

theorem isAllocated_withCdr :
    { g with cells := g.cells.modify l (withCdr y) }.isAllocated b = g.isAllocated b := by
  simp only [isAllocated, getElem?_modify_cells]
  by_cases hb : l = b
  · rw [if_pos hb]
    cases g.cells[b]? with
    | none => rfl
    | some c => cases c <;> rfl
  · rw [if_neg hb]

/-- **What the values `vs` lead to stays as it was**, but for the cell `written`. The cells `fresh` have
    been taken, and every other cell in use was so before. -/
structure Keeps (h : Heap) (vs : List Value) (fresh : List Addr) (written : Option Addr) (h' : Heap) :
    Prop where
  valid : h'.Valid
  types : h'.types = h.types
  holdings : h'.holdings = h.holdings
  /-- A collection frees nothing that the values lead to. -/
  inUse : ∀ b, h.isAllocated b = true → h.Reaches vs b →
    h'.isAllocated b = true ∧ b ∉ fresh ∧ (some b ≠ written → h'.cells[b]? = h.cells[b]?)
  other : ∀ b, h'.isAllocated b = true → b ∉ fresh →
    h.isAllocated b = true ∧ (some b ≠ written → h'.cells[b]? = h.cells[b]?)

namespace Keeps

/-- A heap of the same cells. -/
theorem of_cells (hv : h'.Valid) (hc : h'.cells = h.cells) (ht : h'.types = h.types)
    (hd : h'.holdings = h.holdings) : h.Keeps vs [] none h' where
  valid := hv
  types := ht
  holdings := hd
  inUse b hal _ := ⟨by rwa [isAllocated, hc], List.not_mem_nil, fun _ => by rw [hc]⟩
  other b hal _ := ⟨by rwa [isAllocated, hc] at hal, fun _ => by rw [hc]⟩

/-- One cell has been taken. -/
theorem of_granted {c : Cell} (hg : h.Granted vs a c h') (hv : h'.Valid) (ht : h'.types = h.types)
    (hd : h'.holdings = h.holdings) : h.Keeps vs [a] none h' where
  valid := hv
  types := ht
  holdings := hd
  inUse b hal hr := by
    obtain ⟨hne, hsame⟩ := hg.same hal hr
    exact ⟨hg.survives b hal hr, fun hb => hne (List.mem_singleton.mp hb), fun _ => hsame⟩
  other b hal hb := by
    obtain ⟨hal', hsame⟩ := hg.kept b (fun heq => hb (List.mem_singleton.mpr heq)) hal
    exact ⟨hal', fun _ => hsame⟩

/-- What is reached is reached still. -/
theorem reaches (hk : h.Keeps vs fresh none g) (hr : h.Reaches vs b) : g.Reaches vs b :=
  hr.transfer (fun b hb hal => (hk.inUse b hal hb).2.2 nofun) (heldBy_congr hk.types hk.holdings)

/-- **One construction after another.** Every value that the first one starts from is reached from those
    that the second one starts from. -/
theorem trans (hk : h.Keeps vs fresh none g) (hk' : g.Keeps ws more written h')
    (hvs : ∀ v ∈ vs, ∀ b, v.addr? = some b → g.Reaches ws b) :
    h.Keeps vs (more ++ fresh) written h' where
  valid := hk'.valid
  types := hk'.types.trans hk.types
  holdings := hk'.holdings.trans hk.holdings
  inUse b hal hr := by
    obtain ⟨hal₁, hfresh, hsame⟩ := hk.inUse b hal hr
    obtain ⟨hal₂, hmore, hsame'⟩ := hk'.inUse b hal₁ ((hk.reaches hr).of_roots hvs)
    refine ⟨hal₂, fun hb => (List.mem_append.mp hb).elim hmore hfresh, fun hne => ?_⟩
    exact (hsame' hne).trans (hsame nofun)
  other b hal hb := by
    obtain ⟨hal₁, hsame'⟩ := hk'.other b hal fun hmem => hb (List.mem_append_left fresh hmem)
    obtain ⟨hal₀, hsame⟩ := hk.other b hal₁ fun hmem => hb (List.mem_append_right more hmem)
    exact ⟨hal₀, fun hne => (hsame' hne).trans (hsame nofun)⟩

/-- Fewer values. -/
theorem mono (hk : h.Keeps ws fresh written h') (hvs : ∀ v ∈ vs, v ∈ ws) : h.Keeps vs fresh written h' :=
  { hk with inUse := fun b hal hr => hk.inUse b hal (hr.congr hvs rfl rfl rfl) }

/-- A heap of the same cells in place of the one that is led to. -/
theorem congr (hk : h.Keeps vs fresh written g) (hv : h'.Valid) (hc : h'.cells = g.cells)
    (ht : h'.types = g.types) (hd : h'.holdings = g.holdings) : h.Keeps vs fresh written h' where
  valid := hv
  types := ht.trans hk.types
  holdings := hd.trans hk.holdings
  inUse b hal hr := by
    rw [isAllocated, hc]
    exact hk.inUse b hal hr
  other b hal hb := by
    rw [isAllocated, hc] at hal
    rw [hc]
    exact hk.other b hal hb

/-- The rest slot of a pair is written at the end. -/
theorem setCdr (hk : h.Keeps vs fresh none g) (l : Addr) (y : Value) :
    h.Keeps vs fresh (some l) { g with cells := g.cells.modify l (withCdr y) } where
  valid := Operation.valid (.setCdr (.pair l) y) hk.valid rfl
  types := hk.types
  holdings := hk.holdings
  inUse b hal hr := by
    obtain ⟨hal', hfresh, hsame⟩ := hk.inUse b hal hr
    refine ⟨isAllocated_withCdr.trans hal', hfresh, fun hne => ?_⟩
    exact (getElem?_modify_cells.trans (if_neg fun heq => hne (congrArg some heq.symm))).trans (hsame nofun)
  other b hal hb := by
    obtain ⟨hal', hsame⟩ := hk.other b (isAllocated_withCdr.symm.trans hal) hb
    refine ⟨hal', fun hne => ?_⟩
    exact (getElem?_modify_cells.trans (if_neg fun heq => hne (congrArg some heq.symm))).trans (hsame nofun)

/-- To write a fresh cell is to write nothing that was there. -/
theorem of_written (hk : h.Keeps vs fresh (some l) h') (hl : l ∈ fresh) : h.Keeps vs fresh none h' where
  valid := hk.valid
  types := hk.types
  holdings := hk.holdings
  inUse b hal hr := by
    obtain ⟨hal', hb, hsame⟩ := hk.inUse b hal hr
    exact ⟨hal', hb, fun _ => hsame fun heq => hb (Option.some.inj heq ▸ hl)⟩
  other b hal hb := by
    obtain ⟨hal', hsame⟩ := hk.other b hal hb
    exact ⟨hal', fun _ => hsame fun heq => hb (Option.some.inj heq ▸ hl)⟩

/-- A live value stays live. -/
theorem isLive (hk : h.Keeps vs fresh written h') (hv : v ∈ vs) (hlive : h.isLive v = true) :
    h'.isLive v = true := by
  unfold Heap.isLive at hlive ⊢
  cases ha : v.addr? with
  | none => rfl
  | some a =>
    rw [ha] at hlive
    exact (hk.inUse a hlive (.root hv ha)).1

end Keeps

end Heap

/-! ## 3. Constructions -/

/-- **A construction with the operands `vs`** leaves what they, the pins and the root stack lead to as it
    was, but for the cell `written`, and takes the cells `fresh`. -/
structure Context.Builds (c : Context) (vs : List Value) (fresh : List Addr) (written : Option Addr)
    (c' : Context) : Prop where
  keeps : c.heap.Keeps (c.heap.rootValues true ++ vs) fresh written c'.heap
  /-- The operands are allocated still. -/
  live : ∀ v ∈ vs, c.heap.isLive v = true → c'.heap.isLive v = true
  pins : c'.heap.pins = c.heap.pins
  /-- No name is lost. -/
  symbols : c.symbols.Sound → c'.symbols.Sound ∧ c'.symbols.Extends c.symbols
  /-- Nothing but the heap and the symbols has changed. -/
  rest : c' = { c with heap := c'.heap, symbols := c'.symbols }

section Builds

variable {c c' : Context} {vs ws : List Value} {fresh : List Addr} {written : Option Addr} {a b : Addr}
variable {x y : Value}

theorem Context.Builds.of_keeps (hk : c.heap.Keeps (c.heap.rootValues true ++ vs) fresh written c'.heap)
    (hp : c'.heap.pins = c.heap.pins) (hs : c.symbols.Sound → c'.symbols.Sound ∧ c'.symbols.Extends c.symbols)
    (hr : c' = { c with heap := c'.heap, symbols := c'.symbols }) :
    c.Builds vs fresh written c' :=
  ⟨hk, fun _ hv hlive => hk.isLive (List.mem_append_right _ hv) hlive, hp, hs, hr⟩

/-- Fewer operands. -/
theorem Context.Builds.mono (hb : c.Builds ws fresh written c') (hvs : ∀ v ∈ vs, v ∈ ws) :
    c.Builds vs fresh written c' := by
  refine .of_keeps (hb.keeps.mono fun v hv => ?_) hb.pins hb.symbols hb.rest
  exact List.mem_append.mpr ((List.mem_append.mp hv).imp_right (hvs v))

/-- The roots and pins after a construction that leaves the root stack as it was. -/
theorem Context.Builds.rootValues (hb : c.Builds vs fresh written c') (hr : c'.heap.roots = c.heap.roots) :
    c'.heap.rootValues true = c.heap.rootValues true := by
  rw [Heap.rootValues, Heap.rootValues, hr, hb.pins]

/-- What the roots and the operands lead to is there, and is no fresh cell. -/
theorem Context.Builds.same (hb : c.Builds vs fresh none c')
    (hr : c.heap.Reaches (c.heap.rootValues true ++ vs) b) (hal : c.heap.isAllocated b = true) :
    b ∉ fresh ∧ c'.heap.cells[b]? = c.heap.cells[b]? :=
  (hb.keeps.inUse b hal hr).2.imp_right fun hsame => hsame nofun

namespace Attains

/-- **A fresh pair.** -/
theorem builds_cons (hv : c.heap.Valid) (x y : Value) : Attains (liftM (Heap.cons x y) : Run Value) c
    fun v c' => ∃ a, v = .pair a ∧ c'.heap.cells[a]? = some (.pair x y) ∧
      c'.heap.roots = c.heap.roots ∧ c.Builds [x, y] [a] none c' := by
  rcases Heap.cons_cases hv x y with ⟨a, g, ht, hrun⟩ | ⟨g, hrun⟩
  · obtain ⟨b, hb, hg⟩ := Heap.cons_granted hv hrun
    obtain rfl : a = b := Value.pair.inj hb
    have hvalid := Heap.Operation.valid (.cons x y) hv (run_bind hrun)
    refine lift_ok hrun ⟨a, rfl, hg.content, rfl, .of_keeps (.of_granted hg hvalid ?_ ?_) ?_ (⟨·, .refl _⟩) rfl⟩ <;>
    · rw [Heap.filled, ht.frame]
      rfl
  · exact lift_exhausted hrun

/-- **A fresh object** of a type that objects may have. What it holds is not looked after. -/
theorem builds_make {t : TypeId} (hv : c.heap.Valid) (ht : c.heap.IsMakeable t) (p : Payload) :
    Attains (liftM (Heap.make t p) : Run Value) c fun v c' => ∃ a, v = .object a ∧
      c'.heap.cells[a]? = some (.object t p) ∧ c'.heap.roots = c.heap.roots ∧
      c.Builds [] [a] none c' := by
  rcases Heap.make_cases hv t p with ⟨_, a, g, htaken, hrun⟩ | ⟨_, g, hrun⟩ | ⟨hnot, _⟩
  · obtain ⟨b, hb, hg⟩ := Heap.make_granted hv hrun
    obtain rfl : a = b := Value.object.inj hb
    have hvalid := Heap.Operation.valid (.make t p) hv (run_bind hrun)
    refine lift_ok hrun ⟨a, rfl, hg.content, ?_, .of_keeps ?_ ?_ (⟨·, .refl _⟩) rfl⟩
    · rw [Heap.filled, htaken.frame]
    · rw [List.append_nil]
      refine .of_granted hg hvalid ?_ ?_ <;> rw [Heap.filled, htaken.frame]
    · rw [Heap.filled, htaken.frame]
  · exact lift_exhausted hrun
  · exact absurd ht hnot

end Attains

end Builds

end LispMachine
