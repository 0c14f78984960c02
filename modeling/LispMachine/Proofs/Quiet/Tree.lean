import LispMachine.Proofs.Datum.Building
import LispMachine.Proofs.Quiet.Effect
import Mathlib.Data.Multiset.UnionInter

/-!
# Data that are built in cells of their own

In a heap that is never collected the reader builds every datum in fresh cells, and in each cell only once:

* `Context.Built` -- **a value stands for a datum, in these cells**;
* `Context.Strand` -- an unfinished list: its last pair may be written (`Strand.append`, `Strand.finish`);
* `Context.Nesting` -- what the reader is inside of, with the root stack.
-/

namespace LispMachine

open Context

variable {c c' : Context} {v x y : Value} {d e : Datum} {as bs : Multiset Addr} {a last : Addr} {ds : List Datum}

/-! ## 1. Values -/

/-- **A value stands for a datum, in these cells**, one for each pair and each text. -/
inductive Context.Built (c : Context) : Value → Datum → Multiset Addr → Prop where
  | nil : Built c .nil .nil 0
  | int (n : Fixnum) : Built c (.int n) (.int n) 0
  | sym {id : SymbolId} {name : String} (hname : c.symbols.names[id]? = some name) : Built c (.sym id) (.sym name) 0
  | text {a : Addr} {s : String} (hcell : c.heap.content a = some (.object CoreType.str.id (.text s.toUTF8))) :
      Built c (.object a) (.text s) {a}
  | pair {a : Addr} {x y : Value} {d e : Datum} {as bs : Multiset Addr} (hcell : c.heap.content a = some (.pair x y))
      (hx : Built c x d as) (hy : Built c y e bs) : Built c (.pair a) (.pair d e) (a ::ₘ (as + bs))

/-- **An unfinished list** of at least one datum, with its last pair. -/
inductive Context.Strand (c : Context) : Value → List Datum → Addr → Multiset Addr → Prop where
  | last {a : Addr} {x : Value} {d : Datum} {as : Multiset Addr} (hcell : c.heap.content a = some (.pair x .nil))
      (hx : Built c x d as) : Strand c (.pair a) [d] a (a ::ₘ as)
  | more {a last : Addr} {x y : Value} {d : Datum} {ds : List Datum} {as bs : Multiset Addr}
      (hcell : c.heap.content a = some (.pair x y)) (hx : Built c x d as) (hy : Strand c y ds last bs) :
      Strand c (.pair a) (d :: ds) last (a ::ₘ (as + bs))

/-- **What the reader is inside of.** The innermost list is rooted on top. -/
inductive Context.Nesting (c : Context) (base : Array Value) :
    Array Value → List Nest → List Frame → Multiset Addr → Prop where
  | outermost : Nesting c base base [] [] 0
  | quotation {roots : Array Value} {nests : List Nest} {frames : List Frame} {as : Multiset Addr}
      (h : Nesting c base roots nests frames as) : Nesting c base roots (.quotation :: nests) (.quotation :: frames) as
  | empty {roots : Array Value} {nests : List Nest} {frames : List Frame} {as : Multiset Addr}
      (h : Nesting c base roots nests frames as) :
      Nesting c base (roots.push .nil) (.elements roots.size .nil :: nests) (.elements [] :: frames) as
  | elements {roots : Array Value} {nests : List Nest} {frames : List Frame} {as bs : Multiset Addr} {v : Value}
      {ds : List Datum} {last : Addr} (h : Nesting c base roots nests frames as) (hds : Strand c v ds last bs) :
      Nesting c base (roots.push v) (.elements roots.size (.pair last) :: nests) (.elements ds.reverse :: frames)
        (bs + as)
  | dotted {roots : Array Value} {nests : List Nest} {frames : List Frame} {as bs : Multiset Addr} {v : Value}
      {ds : List Datum} {last : Addr} (h : Nesting c base roots nests frames as) (hds : Strand c v ds last bs) :
      Nesting c base (roots.push v) (.dotted roots.size (.pair last) :: nests) (.dotted ds.reverse :: frames) (bs + as)
  | closing {roots : Array Value} {nests : List Nest} {frames : List Frame} {as bs : Multiset Addr} {v : Value}
      {d : Datum} (h : Nesting c base roots nests frames as) (hv : Built c v d bs) :
      Nesting c base (roots.push v) (.closing roots.size :: nests) (.closing d :: frames) (bs + as)

/-- What some cells hold, and the names of symbols, are kept. -/
structure Context.Retains (c : Context) (as : Multiset Addr) (c' : Context) : Prop where
  names : c'.symbols.Extends c.symbols
  cells : ∀ a ∈ as, ∀ x, c.heap.content a = some x → c'.heap.content a = some x

theorem Context.Retains.mono (h : c.Retains as c') (hle : ∀ a ∈ bs, a ∈ as) : c.Retains bs c' :=
  ⟨h.names, fun a ha => h.cells a (hle a ha)⟩

theorem Context.Retains.left (h : c.Retains (as + bs) c') : c.Retains as c' :=
  h.mono fun _ ha => Multiset.mem_add.mpr (.inl ha)

theorem Context.Retains.right (h : c.Retains (as + bs) c') : c.Retains bs c' :=
  h.mono fun _ ha => Multiset.mem_add.mpr (.inr ha)

namespace Context.Built

theorem kept (h : Built c v d as) (hk : c.Retains as c') : Built c' v d as := by
  induction h with
  | nil => exact .nil
  | int n => exact .int n
  | sym hname => exact .sym (hk.names _ _ hname)
  | text hcell => exact .text (hk.cells _ (Multiset.mem_singleton_self _) _ hcell)
  | pair hcell _ _ ihx ihy =>
    have hrest := hk.mono fun _ => Multiset.mem_cons_of_mem
    exact .pair (hk.cells _ (Multiset.mem_cons_self _ _) _ hcell) (ihx hrest.left) (ihy hrest.right)

theorem withRoots (h : Built c v d as) (roots : Array Value) : Built (c.withRoots roots) v d as :=
  h.kept ⟨.refl _, fun _ _ _ => id⟩

/-- The cells are taken. -/
theorem exists_content (h : Built c v d as) : ∀ a ∈ as, ∃ x, c.heap.content a = some x := by
  induction h with
  | text hcell => exact fun a ha => ⟨_, Multiset.mem_singleton.mp ha ▸ hcell⟩
  | pair hcell _ _ ihx ihy =>
    intro a ha
    rcases Multiset.mem_cons.mp ha with rfl | ha
    · exact ⟨_, hcell⟩
    · exact (Multiset.mem_add.mp ha).elim (ihx a) (ihy a)
  | _ => exact fun a ha => absurd ha (Multiset.notMem_zero a)

end Context.Built

/-! ## 2. Unfinished lists -/

/-- The last pair of a list is written, and what the other cells hold is kept. -/
structure Context.Continues (c : Context) (last : Addr) (y : Value) (as : Multiset Addr) (c' : Context) : Prop where
  names : c'.symbols.Extends c.symbols
  cells : ∀ a ∈ as, a ≠ last → ∀ x, c.heap.content a = some x → c'.heap.content a = some x
  written : ∀ x, c.heap.content last = some (.pair x .nil) → c'.heap.content last = some (.pair x y)

/-- Nothing is written where nothing follows. -/
theorem Context.Continues.refl (c : Context) (last : Addr) (as : Multiset Addr) : Continues c last .nil as c :=
  ⟨.refl _, fun _ _ _ _ => id, fun _ => id⟩

theorem Context.Continues.retains (h : Context.Continues c last y as c') (hnot : last ∉ as) : c.Retains as c' :=
  ⟨h.names, fun a ha => h.cells a ha fun e => hnot (e ▸ ha)⟩

theorem Context.Continues.mono (h : Context.Continues c last y as c') (hle : ∀ a ∈ bs, a ∈ as) :
    Context.Continues c last y bs c' :=
  ⟨h.names, fun a ha => h.cells a (hle a ha), h.written⟩

namespace Context.Strand

theorem kept (h : Strand c v ds last as) (hk : c.Retains as c') : Strand c' v ds last as := by
  induction h with
  | last hcell hx =>
    exact .last (hk.cells _ (Multiset.mem_cons_self _ _) _ hcell) (hx.kept (hk.mono fun _ => Multiset.mem_cons_of_mem))
  | more hcell hx _ ih =>
    have hrest := hk.mono fun _ => Multiset.mem_cons_of_mem
    exact .more (hk.cells _ (Multiset.mem_cons_self _ _) _ hcell) (hx.kept hrest.left) (ih hrest.right)

theorem last_mem (h : Strand c v ds last as) : last ∈ as := by
  induction h with
  | last _ _ => exact Multiset.mem_cons_self _ _
  | more _ _ _ ih => exact Multiset.mem_cons_of_mem (Multiset.mem_add.mpr (.inr ih))

theorem ne_nil (h : Strand c v ds last as) : ds ≠ [] := by
  cases h <;> exact List.cons_ne_nil _ _

theorem last_cell (h : Strand c v ds last as) : ∃ x, c.heap.content last = some (.pair x .nil) := by
  induction h with
  | last hcell _ => exact ⟨_, hcell⟩
  | more _ _ _ ih => exact ih

/-- **An element is appended.** -/
theorem append (h : Strand c v ds last as) (hnodup : as.Nodup) (hw : Context.Continues c last (.pair a) as c')
    (hcell : c'.heap.content a = some (.pair x .nil)) (hx : Built c' x d bs) :
    Strand c' v (ds ++ [d]) a (as + (a ::ₘ bs)) := by
  induction h with
  | @last b u d' as' hcell' hu =>
    rw [Multiset.cons_add]
    have hnot := (Multiset.nodup_cons.mp hnodup).1
    exact .more (hw.written u hcell') (hu.kept ((hw.mono fun _ => Multiset.mem_cons_of_mem).retains hnot))
      (.last hcell hx)
  | @more b last u w d' ds as' bs' hcell' hu hrest ih =>
    obtain ⟨hb, hnodup⟩ := Multiset.nodup_cons.mp hnodup
    obtain ⟨hnodupx, hnodupy, hdisjoint⟩ := Multiset.nodup_add.mp hnodup
    have hne : b ≠ last := fun e => hb (Multiset.mem_add.mpr (.inr (e ▸ hrest.last_mem)))
    have hnot : last ∉ as' := fun hm => Multiset.disjoint_left.mp hdisjoint hm hrest.last_mem
    rw [Multiset.cons_add, add_assoc]
    refine .more (hw.cells b (Multiset.mem_cons_self _ _) hne _ hcell')
      (hu.kept ((hw.mono fun a ha => ?_).retains hnot)) (ih hnodupy (hw.mono fun a ha => ?_))
    · exact Multiset.mem_cons_of_mem (Multiset.mem_add.mpr (.inl ha))
    · exact Multiset.mem_cons_of_mem (Multiset.mem_add.mpr (.inr ha))

/-- **A list is finished**, with a tail. -/
theorem finish (h : Strand c v ds last as) (hnodup : as.Nodup) (hw : Context.Continues c last y as c')
    (hy : Built c' y e bs) : Built c' v (Datum.onto e ds.reverse) (as + bs) := by
  induction h with
  | @last b u d' as' hcell' hu =>
    rw [Multiset.cons_add]
    have hnot := (Multiset.nodup_cons.mp hnodup).1
    exact .pair (hw.written u hcell') (hu.kept ((hw.mono fun _ => Multiset.mem_cons_of_mem).retains hnot)) hy
  | @more b last u w d' ds as' bs' hcell' hu hrest ih =>
    obtain ⟨hb, hnodup⟩ := Multiset.nodup_cons.mp hnodup
    obtain ⟨hnodupx, hnodupy, hdisjoint⟩ := Multiset.nodup_add.mp hnodup
    have hne : b ≠ last := fun e => hb (Multiset.mem_add.mpr (.inr (e ▸ hrest.last_mem)))
    have hnot : last ∉ as' := fun hm => Multiset.disjoint_left.mp hdisjoint hm hrest.last_mem
    rw [Multiset.cons_add, add_assoc, List.reverse_cons, Datum.onto_concat]
    refine .pair (hw.cells b (Multiset.mem_cons_self _ _) hne _ hcell')
      (hu.kept ((hw.mono fun a ha => ?_).retains hnot)) (ih hnodupy (hw.mono fun a ha => ?_))
    · exact Multiset.mem_cons_of_mem (Multiset.mem_add.mpr (.inl ha))
    · exact Multiset.mem_cons_of_mem (Multiset.mem_add.mpr (.inr ha))

end Context.Strand

/-! ## 3. Nests -/

namespace Context.Nesting

variable {base roots : Array Value} {nests : List Nest} {frames : List Frame}

theorem kept (h : Nesting c base roots nests frames as) (hk : c.Retains as c') :
    Nesting c' base roots nests frames as := by
  induction h with
  | outermost => exact .outermost
  | quotation _ ih => exact .quotation (ih hk)
  | empty _ ih => exact .empty (ih hk)
  | elements _ hds ih => exact .elements (ih hk.right) (hds.kept hk.left)
  | dotted _ hds ih => exact .dotted (ih hk.right) (hds.kept hk.left)
  | closing _ hv ih => exact .closing (ih hk.right) (hv.kept hk.left)

theorem withRoots (h : Nesting c base roots nests frames as) (roots' : Array Value) :
    Nesting (c.withRoots roots') base roots nests frames as :=
  h.kept ⟨.refl _, fun _ _ _ => id⟩

theorem length_eq (h : Nesting c base roots nests frames as) : nests.length = frames.length := by
  induction h with
  | outermost => rfl
  | _ => rename_i ih; exact congrArg (· + 1) ih

theorem atEnd_eq (h : Nesting c base roots nests frames as) : Reader.atEnd nests = Datum.atEnd frames := by
  cases h <;> rfl

/-- The root stack has grown. -/
theorem exists_roots (h : Nesting c base roots nests frames as) : ∃ xs, roots = base ++ xs := by
  induction h with
  | outermost => exact ⟨#[], (Array.append_empty).symm⟩
  | quotation _ ih => exact ih
  | empty _ ih =>
    obtain ⟨xs, rfl⟩ := ih
    exact ⟨xs.push .nil, Array.append_push.symm⟩
  | elements _ _ ih | dotted _ _ ih | closing _ _ ih =>
    obtain ⟨xs, rfl⟩ := ih
    exact ⟨xs.push _, Array.append_push.symm⟩

end Context.Nesting

end LispMachine
