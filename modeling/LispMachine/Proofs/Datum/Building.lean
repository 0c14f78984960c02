import LispMachine.Proofs.Attains
import LispMachine.Proofs.Datum.Denotes
import LispMachine.Proofs.Datum.Parse
import LispMachine.Proofs.Heap.History

/-!
# Data that are being built

While the reader builds a list, its last pair is written once more. What is finished already must not
change then, nor when a cell is taken and others are freed:

* `Context.Sane` -- the invariants of heap and symbol table;
* `Owner`, `Holds`, `Chain` -- **each pair of an unfinished list belongs to the root slot of the list**,
  and no pair of a finished datum belongs to any;
* `Nested` -- the nests of the reader and the frames of `Datum.parse`;
* `Preserved` -- what a step leaves as it was, and what follows for values, lists and nests;
* `Rewrites` -- the last pair of a list is written: the list goes on, or ends.
-/

namespace LispMachine

open Context

/-! ## 1. Finished and unfinished data -/

/-- **The invariants of a context**: its heap is laid out well and can hold strings, and its symbol table
    finds its names. -/
structure Context.Sane (c : Context) : Prop where
  valid : c.heap.Valid
  sound : c.symbols.Sound
  strings : c.heap.IsMakeable CoreType.str.id

/-- The root slot of the unfinished list that a cell belongs to. -/
abbrev Owner := Addr → Option Nat

/-- A value stands for a datum, and none of its cells belongs to an unfinished list. -/
inductive Holds (c : Context) (own : Owner) : Value → Datum → Prop where
  | nil : Holds c own .nil .nil
  | int (n : Fixnum) : Holds c own (.int n) (.int n)
  | sym {id : SymbolId} {name : String} (hname : c.symbols.names[id]? = some name) :
      Holds c own (.sym id) (.sym name)
  | text {a : Addr} {s : String} (ho : own a = none)
      (hcell : c.heap.cells[a]? = some (.object CoreType.str.id (.text s.toUTF8))) :
      Holds c own (.object a) (.text s)
  | pair {a : Addr} {x y : Value} {d e : Datum} (ho : own a = none)
      (hcell : c.heap.cells[a]? = some (.pair x y)) (hx : Holds c own x d) (hy : Holds c own y e) :
      Holds c own (.pair a) (.pair d e)

/-- **An unfinished list**: its elements so far, and its last pair. All of its pairs belong to its
    slot. -/
inductive Chain (c : Context) (own : Owner) (slot : Nat) : Value → List Datum → Addr → Prop where
  | last {a : Addr} {x : Value} {d : Datum} (ho : own a = some slot)
      (hcell : c.heap.cells[a]? = some (.pair x .nil)) (hx : Holds c own x d) :
      Chain c own slot (.pair a) [d] a
  | more {a b last : Addr} {x : Value} {d : Datum} {ds : List Datum} (ho : own a = some slot)
      (hcell : c.heap.cells[a]? = some (.pair x (.pair b))) (hx : Holds c own x d)
      (h : Chain c own slot (.pair b) ds last) : Chain c own slot (.pair a) (d :: ds) last

/-- **The nests of the reader build what the frames say**, with the root stack `n` high, and `m` high
    outside of all nests. -/
inductive Nested (c : Context) (own : Owner) (m : Nat) : Nat → List Nest → List Frame → Prop where
  | outermost : Nested c own m m [] []
  | quotation {n : Nat} {nests : List Nest} {frames : List Frame} (h : Nested c own m n nests frames) :
      Nested c own m n (.quotation :: nests) (.quotation :: frames)
  | empty {slot : Nat} {nests : List Nest} {frames : List Frame}
      (hroot : c.heap.roots[slot]? = some .nil) (h : Nested c own m slot nests frames) :
      Nested c own m (slot + 1) (.elements slot .nil :: nests) (.elements [] :: frames)
  | elements {slot : Nat} {v : Value} {ds : List Datum} {last : Addr} {nests : List Nest}
      {frames : List Frame} (hroot : c.heap.roots[slot]? = some v) (hds : Chain c own slot v ds last)
      (h : Nested c own m slot nests frames) :
      Nested c own m (slot + 1) (.elements slot (.pair last) :: nests) (.elements ds.reverse :: frames)
  | dotted {slot : Nat} {v : Value} {ds : List Datum} {last : Addr} {nests : List Nest}
      {frames : List Frame} (hroot : c.heap.roots[slot]? = some v) (hds : Chain c own slot v ds last)
      (h : Nested c own m slot nests frames) :
      Nested c own m (slot + 1) (.dotted slot (.pair last) :: nests) (.dotted ds.reverse :: frames)
  | closing {slot : Nat} {v : Value} {d : Datum} {nests : List Nest} {frames : List Frame}
      (hroot : c.heap.roots[slot]? = some v) (hv : Holds c own v d)
      (h : Nested c own m slot nests frames) :
      Nested c own m (slot + 1) (.closing slot :: nests) (.closing d :: frames)

/-! ## 2. What a step leaves as it was -/

/-- **What a step leaves as it was**: of the cells `P`, those that belong to no unfinished list, or to one
    in a slot below `n`. Whatever such a cell refers to is one of them. -/
structure Preserved (P : Addr → Prop) (n : Nat) (c : Context) (own : Owner) (c' : Context)
    (own' : Owner) : Prop where
  names : c'.symbols.Extends c.symbols
  cells : ∀ a, P a → c.heap.isAllocated a = true → (∀ k, own a = some k → k < n) →
    c'.heap.cells[a]? = c.heap.cells[a]? ∧ own' a = own a
  closed : ∀ (a : Addr) (x y : Value), P a → c.heap.cells[a]? = some (.pair x y) →
    (∀ b, x.addr? = some b → P b) ∧ ∀ b, y.addr? = some b → P b

section Preserved

variable {P : Addr → Prop} {k m n slot : Nat} {c c' : Context} {own own' : Owner} {v : Value} {d e : Datum}
variable {ds : List Datum} {last : Addr} {nests : List Nest} {frames : List Frame}

theorem isAllocated_of_cell {h : Heap} {a : Addr} {cell : Cell} (hcell : h.cells[a]? = some cell)
    (hal : cell.isAllocated = true) : h.isAllocated a = true :=
  Heap.isAllocated_iff.mpr ⟨cell, hcell, hal⟩

theorem Preserved.mono (hp : Preserved P n c own c' own') (hkn : k ≤ n) : Preserved P k c own c' own' :=
  ⟨hp.names, fun a ha hal ho => hp.cells a ha hal fun i hi => Nat.lt_of_lt_of_le (ho i hi) hkn, hp.closed⟩

theorem Holds.preserved (h : Holds c own v d) (hp : Preserved P n c own c' own')
    (hv : ∀ a, v.addr? = some a → P a) : Holds c' own' v d := by
  induction h with
  | nil => exact .nil
  | int k => exact .int k
  | sym hname => exact .sym (hp.names _ _ hname)
  | @text a s ho hcell =>
    obtain ⟨hsame, howner⟩ := hp.cells a (hv a rfl) (isAllocated_of_cell hcell rfl)
      (by intro k hk; rw [ho] at hk; cases hk)
    exact .text (howner.trans ho) (hsame.trans hcell)
  | @pair a x y d e ho hcell _ _ ihx ihy =>
    obtain ⟨hsame, howner⟩ := hp.cells a (hv a rfl) (isAllocated_of_cell hcell rfl)
      (by intro k hk; rw [ho] at hk; cases hk)
    obtain ⟨hx, hy⟩ := hp.closed a x y (hv a rfl) hcell
    exact .pair (howner.trans ho) (hsame.trans hcell) (ihx hx) (ihy hy)

theorem Chain.preserved (h : Chain c own slot v ds last) (hp : Preserved P n c own c' own')
    (hslot : slot < n) (hv : ∀ a, v.addr? = some a → P a) : Chain c' own' slot v ds last := by
  have hbelow : ∀ {a : Addr}, own a = some slot → ∀ k, own a = some k → k < n := by
    intro a ho k hk
    rw [ho] at hk
    cases hk
    exact hslot
  induction h with
  | @last a x d ho hcell hx =>
    obtain ⟨hsame, howner⟩ := hp.cells a (hv a rfl) (isAllocated_of_cell hcell rfl) (hbelow ho)
    have hfirst := (hp.closed a x .nil (hv a rfl) hcell).1
    exact .last (howner.trans ho) (hsame.trans hcell) (hx.preserved hp hfirst)
  | @more a b last x d ds ho hcell hx _ ih =>
    obtain ⟨hsame, howner⟩ := hp.cells a (hv a rfl) (isAllocated_of_cell hcell rfl) (hbelow ho)
    obtain ⟨hfirst, hrest⟩ := hp.closed a x (.pair b) (hv a rfl) hcell
    exact .more (howner.trans ho) (hsame.trans hcell) (hx.preserved hp hfirst) (ih hrest)

/-- **Nests are kept** by a step that keeps their roots. -/
theorem Nested.preserved (h : Nested c own m n nests frames) (hp : Preserved P n c own c' own')
    (hroots : ∀ i : Nat, i < n → c'.heap.roots[i]? = c.heap.roots[i]?)
    (hreach : ∀ (i : Nat) (v : Value) (a : Addr), i < n → c.heap.roots[i]? = some v →
      v.addr? = some a → P a) : Nested c' own' m n nests frames := by
  induction h with
  | outermost => exact .outermost
  | quotation _ ih => exact .quotation (ih hp hroots hreach)
  | @empty slot nests frames hroot _ ih =>
    have hrest := ih (hp.mono (Nat.le_succ slot)) (fun i hi => hroots i (Nat.lt_succ_of_lt hi))
      fun i v a hi => hreach i v a (Nat.lt_succ_of_lt hi)
    exact .empty ((hroots slot (Nat.lt_succ_self slot)).trans hroot) hrest
  | @elements slot v ds last nests frames hroot hds _ ih =>
    have hrest := ih (hp.mono (Nat.le_succ slot)) (fun i hi => hroots i (Nat.lt_succ_of_lt hi))
      fun i v a hi => hreach i v a (Nat.lt_succ_of_lt hi)
    have hv := fun a => hreach slot v a (Nat.lt_succ_self slot) hroot
    exact .elements ((hroots slot (Nat.lt_succ_self slot)).trans hroot)
      (hds.preserved hp (Nat.lt_succ_self slot) hv) hrest
  | @dotted slot v ds last nests frames hroot hds _ ih =>
    have hrest := ih (hp.mono (Nat.le_succ slot)) (fun i hi => hroots i (Nat.lt_succ_of_lt hi))
      fun i v a hi => hreach i v a (Nat.lt_succ_of_lt hi)
    have hv := fun a => hreach slot v a (Nat.lt_succ_self slot) hroot
    exact .dotted ((hroots slot (Nat.lt_succ_self slot)).trans hroot)
      (hds.preserved hp (Nat.lt_succ_self slot) hv) hrest
  | @closing slot v d nests frames hroot hv _ ih =>
    have hrest := ih (hp.mono (Nat.le_succ slot)) (fun i hi => hroots i (Nat.lt_succ_of_lt hi))
      fun i v a hi => hreach i v a (Nat.lt_succ_of_lt hi)
    have hv' := fun a => hreach slot v a (Nat.lt_succ_self slot) hroot
    exact .closing ((hroots slot (Nat.lt_succ_self slot)).trans hroot) (hv.preserved hp hv') hrest

theorem Holds.denotes (h : Holds c own v d) : c.Denotes v d := by
  induction h with
  | nil => exact .nil
  | int k => exact .int k
  | sym hname => exact .sym hname
  | text _ hcell => exact .text hcell
  | pair _ hcell _ _ ihx ihy => exact .pair hcell ihx ihy

theorem Nested.length_eq (h : Nested c own m n nests frames) : nests.length = frames.length := by
  induction h with
  | outermost => rfl
  | quotation _ ih => exact congrArg (· + 1) ih
  | empty _ _ ih => exact congrArg (· + 1) ih
  | elements _ _ _ ih => exact congrArg (· + 1) ih
  | dotted _ _ _ ih => exact congrArg (· + 1) ih
  | closing _ _ _ ih => exact congrArg (· + 1) ih

theorem Nested.le (h : Nested c own m n nests frames) : m ≤ n := by
  induction h with
  | outermost => exact Nat.le_refl m
  | quotation _ ih => exact ih
  | empty _ _ ih => exact Nat.le_succ_of_le ih
  | elements _ _ _ ih => exact Nat.le_succ_of_le ih
  | dotted _ _ _ ih => exact Nat.le_succ_of_le ih
  | closing _ _ _ ih => exact Nat.le_succ_of_le ih

/-! ## 3. The last pair of a list -/

/-- The last pair of an unfinished list has nothing after it. -/
theorem Chain.last_cell (h : Chain c own slot v ds last) :
    own last = some slot ∧ ∃ x, c.heap.cells[last]? = some (.pair x .nil) := by
  induction h with
  | last ho hcell _ => exact ⟨ho, _, hcell⟩
  | more _ _ _ _ ih => exact ih

theorem Chain.ne_nil (h : Chain c own slot v ds last) : ds ≠ [] := by
  cases h <;> exact List.cons_ne_nil _ _

/-- The rest slot of a cell is written, and nothing else. -/
structure Rewrites (c : Context) (last : Addr) (y : Value) (c' : Context) : Prop where
  names : c'.symbols.Extends c.symbols
  other : ∀ b : Addr, b ≠ last → c'.heap.cells[b]? = c.heap.cells[b]?
  written : ∀ x, c.heap.cells[last]? = some (.pair x .nil) → c'.heap.cells[last]? = some (.pair x y)

/-- What belongs to no list does not change when the last pair of one is written. -/
theorem Holds.rewritten (h : Holds c own v d) (hw : Rewrites c last e' c') (hlast : own last = some slot)
    (hown : ∀ a, own a = none → own' a = none) : Holds c' own' v d := by
  have hne : ∀ {a : Addr}, own a = none → a ≠ last := fun ho heq => by
    rw [heq, hlast] at ho
    cases ho
  induction h with
  | nil => exact .nil
  | int k => exact .int k
  | sym hname => exact .sym (hw.names _ _ hname)
  | text ho hcell => exact .text (hown _ ho) ((hw.other _ (hne ho)).trans hcell)
  | pair ho hcell _ _ ihx ihy => exact .pair (hown _ ho) ((hw.other _ (hne ho)).trans hcell) ihx ihy

/-- A pair that is not the last one of a list is not written. -/
theorem Chain.ne_last {a b : Addr} {x : Value} (h : Chain c own slot v ds last)
    (hcell : c.heap.cells[a]? = some (.pair x (.pair b))) : a ≠ last := by
  intro heq
  obtain ⟨_, u, hlast⟩ := h.last_cell
  rw [heq, hlast] at hcell
  cases hcell

/-- **An element is appended.** -/
theorem Chain.append {a : Addr} {x : Value} (h : Chain c own slot v ds last)
    (hw : Rewrites c last (.pair a) c') (ha : own a = some slot)
    (hcell : c'.heap.cells[a]? = some (.pair x .nil)) (hx : Holds c' own x d) :
    Chain c' own slot v (ds ++ [d]) a := by
  induction h with
  | @last b u d' ho hcell' hu =>
    exact .more ho (hw.written u hcell') (hu.rewritten hw ho fun _ => id) (.last ha hcell hx)
  | @more b b' last u d' ds ho hcell' hu hrest ih =>
    obtain ⟨hlast, -⟩ := hrest.last_cell
    have hsame := hw.other b (hrest.ne_last hcell')
    exact .more ho (hsame.trans hcell') (hu.rewritten hw hlast fun _ => id) (ih hw)

/-- **A list is finished**, with a tail. -/
theorem Chain.finish {y : Value} (h : Chain c own slot v ds last) (hw : Rewrites c last y c')
    (hown : ∀ a, own a = none ∨ own a = some slot → own' a = none) (hy : Holds c' own' y e) :
    Holds c' own' v (Datum.onto e ds.reverse) := by
  induction h with
  | @last b u d' ho hcell' hu =>
    exact .pair (hown b (.inr ho)) (hw.written u hcell')
      (hu.rewritten hw ho fun a ha => hown a (.inl ha)) hy
  | @more b b' last u d' ds ho hcell' hu hrest ih =>
    obtain ⟨hlast, -⟩ := hrest.last_cell
    have hsame := hw.other b (hrest.ne_last hcell')
    rw [List.reverse_cons, Datum.onto_concat]
    exact .pair (hown b (.inr ho)) (hsame.trans hcell')
      (hu.rewritten hw hlast fun a ha => hown a (.inl ha)) (ih hw)

end Preserved

end LispMachine
