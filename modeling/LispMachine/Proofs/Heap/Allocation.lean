import LispMachine.Proofs.Action
import LispMachine.Proofs.Heap.Collection

/-!
# What an allocation does

* `Heap.exists_head_iff` -- some chunk has a head on its list just when some cell is free, and
  `chunkFrom` finds such a chunk wherever the cursor stands (`chunkFrom_eq_none_iff`);
* `Heap.Room` -- **all that can happen before a cell is taken**: nothing, a collection, or a
  collection and a new chunk. `takeCell_ok` and `takeCell_error` say that a cell is taken off a
  list of such a heap, or that such a heap has no free cell;
* `Heap.Taken` -- what follows of the heap afterwards: the cell was free, and no allocated cell has
  changed, and none is lost that the roots reach;
* `Heap.cons_ok`, `Heap.make_ok` -- a fresh pair and a fresh object.
-/

namespace LispMachine.Heap

variable {h h' g : Heap} {out : Option Addr} {a b k n : Nat}

/-! ## 1. Finding a chunk -/

/-- A free cell is on the list of its chunk, which has a head then. -/
theorem Laid.exists_head_iff (hl : h.Laid none) :
    (∃ a, h.IsFree a) ↔ ∃ (k : Nat) (a : Addr), h.chunks[k]?.bind Chunk.head = some a := by
  constructor
  · rintro ⟨a, hf⟩
    have hlt := hl.div_lt hf.lt_size
    have hk : h.chunks[a / h.chunkCells]? = some h.chunks[a / h.chunkCells] :=
      Array.getElem?_eq_getElem hlt
    obtain ⟨l, hlist⟩ := hl.listed _ _ hk
    have hmem : a ∈ l := (hlist.mem_iff a).mpr ⟨rfl, hf, by simp⟩
    have hsome := hlist.linked.isSome_head.mpr (List.ne_nil_of_mem hmem)
    obtain ⟨b, hb⟩ := Option.isSome_iff_exists.mp hsome
    exact ⟨a / h.chunkCells, b, by rw [hk, Option.bind_some, hb]⟩
  · rintro ⟨k, a, hk⟩
    exact ⟨a, (hl.head_isFree hk).1⟩

theorem chunkFrom_eq_some {chunks : Array Chunk} {j : Nat} (hj : chunkFrom chunks k n = some j) :
    ∃ a, chunks[j]?.bind Chunk.head = some a := by
  fun_induction chunkFrom chunks k n with
  | case1 => cases hj
  | case2 k n a hk =>
    cases hj
    exact ⟨a, hk⟩
  | case3 k n hk ih => exact ih hj

/-- A search that finds nothing has passed by every chunk on its way. -/
theorem chunkFrom_eq_none {chunks : Array Chunk} (hk : k < chunks.size)
    (hn : chunkFrom chunks k n = none) :
    ∀ i, i < n → chunks[(k + i) % chunks.size]?.bind Chunk.head = none := by
  fun_induction chunkFrom chunks k n with
  | case1 => exact fun i hi => absurd hi (Nat.not_lt_zero i)
  | case2 => cases hn
  | case3 k n hhead ih =>
    intro i hi
    cases i with
    | zero => rwa [Nat.add_zero, Nat.mod_eq_of_lt hk]
    | succ i =>
      have hstep := ih (Nat.mod_lt _ (by omega)) hn i (by omega)
      rwa [Nat.mod_add_mod, Nat.add_assoc, Nat.add_comm 1 i] at hstep

/-- **The search finds a chunk with a free cell, whichever has one.** -/
theorem chunkFrom_eq_none_iff {chunks : Array Chunk} (hk : k < chunks.size) :
    chunkFrom chunks k chunks.size = none ↔ ∀ j : Nat, chunks[j]?.bind Chunk.head = none := by
  constructor
  · intro hn j
    by_cases hj : j < chunks.size
    · have hpass := chunkFrom_eq_none hk hn ((j + (chunks.size - k)) % chunks.size)
        (Nat.mod_lt _ (by omega))
      rwa [Nat.add_mod_mod, show k + (j + (chunks.size - k)) = j + chunks.size by omega,
        Nat.add_mod_right, Nat.mod_eq_of_lt hj] at hpass
    · rw [Array.getElem?_eq_none (by omega)]
      rfl
  · intro hall
    cases hc : chunkFrom chunks k chunks.size with
    | none => rfl
    | some j =>
      obtain ⟨a, ha⟩ := chunkFrom_eq_some hc
      rw [hall j] at ha
      cases ha

/-! ## 2. Taking a free cell -/

theorem popFree_run (h : Heap) : popFree h =
    match chunkFrom h.chunks h.cursor h.chunkCount with
    | some k => popFrom k h
    | none => .ok none h := by
  rw [popFree, run_bind (run_observe _ h)]
  cases chunkFrom h.chunks h.cursor h.chunkCount <;> rfl

/-- Either there is a head to take off, or no cell is free. -/
theorem popFree_cases (hv : h.Valid) :
    (∃ k a, h.chunks[k]?.bind Chunk.head = some a ∧ popFree h = .ok (some a) (h.takeOff k a)) ∨
    ((∀ a, ¬ h.IsFree a) ∧ popFree h = .ok none h) := by
  rw [popFree_run]
  cases hc : chunkFrom h.chunks h.cursor h.chunkCount with
  | some k =>
    obtain ⟨a, ha⟩ := chunkFrom_eq_some hc
    refine .inl ⟨k, a, ha, ?_⟩
    show popFrom k h = _
    unfold popFrom
    rw [run_modifyGet, ha]
  | none =>
    refine .inr ⟨fun a ha => ?_, rfl⟩
    obtain ⟨k, b, hk⟩ := hv.toLaid.exists_head_iff.mp ⟨a, ha⟩
    rw [(chunkFrom_eq_none_iff hv.cursor_lt).mp hc k] at hk
    cases hk

theorem ValidBut.takeOff (hv : h.Valid) (hk : h.chunks[k]?.bind Chunk.head = some a) :
    (h.takeOff k a).ValidBut (some a) where
  toLaid := hv.toLaid.takeOff hk
  cursor_lt := by
    obtain ⟨chunk, hchunk, _⟩ := Option.bind_eq_some_iff.mp hk
    show k < (h.chunks.modify k _).size
    rw [Array.size_modify]
    exact (Array.getElem?_eq_some_iff.mp hchunk).1

/-! ## 3. Making room -/

/-- A heap with one more chunk, which is the next to give a cell. -/
def grown (h : Heap) : Heap := { h.withChunk with cursor := h.chunkCount }

theorem ValidBut.grown (hv : h.Valid) : h.grown.Valid where
  toLaid := hv.toLaid.withChunk.congr rfl rfl rfl hv.pins_nodup rfl
  cursor_lt := by
    show h.chunkCount < h.withChunk.chunkCount
    rw [chunkCount_withChunk]
    exact Nat.lt_succ_self _

theorem grow_run (hv : h.Valid) :
    grow h = if h.mayGrow = true then .ok () h.grown else .ok () h := by
  rw [grow, run_bind (run_observe _ h), run_ite]
  split
  · rw [run_bind (addChunk_run hv.toLaid), run_modify, chunkCount_withChunk, Nat.add_sub_cancel]
    rfl
  · rfl

/-- **All that can happen before a cell is taken.** -/
inductive Room (h : Heap) : Heap → Prop where
  /-- A cell is free. -/
  | here (hf : ∃ a, h.IsFree a) : Room h h
  /-- A collection. -/
  | collected {n : Nat} {g : Heap} (hf : ∀ a, ¬ h.IsFree a) (hc : Collected h true n g)
      (hg : ¬ (g.isCrowded = true ∧ g.mayGrow = true)) : Room h g
  /-- A collection that leaves the heap crowded, and a new chunk. -/
  | grown {n : Nat} {g : Heap} (hf : ∀ a, ¬ h.IsFree a) (hc : Collected h true n g)
      (hg : g.isCrowded = true ∧ g.mayGrow = true) : Room h g.grown

theorem makeRoom_run (hv : h.Valid) (hf : ∀ a, ¬ h.IsFree a) :
    ∃ g, makeRoom h = .ok () g ∧ Room h g := by
  obtain ⟨n, g, hrun, hc⟩ := collect_spec hv true
  have hmake : makeRoom h = if g.isCrowded = true then grow g else .ok () g := by
    rw [makeRoom, run_bind hrun, run_bind (run_observe _ g), run_ite]
    rfl
  rw [hmake, grow_run hc.valid]
  by_cases hg : g.isCrowded = true ∧ g.mayGrow = true
  · exact ⟨g.grown, by rw [if_pos hg.1, if_pos hg.2], .grown hf hc hg⟩
  · refine ⟨g, ?_, .collected hf hc hg⟩
    split
    · rw [if_neg fun e => hg ⟨‹_›, e⟩]
    · rfl

/-- **How a cell is taken**: off a list of the heap with room, or not at all. -/
theorem takeCell_cases (hv : h.Valid) : ∃ g, Room h g ∧ g.Valid ∧
    ((∃ k a, g.chunks[k]?.bind Chunk.head = some a ∧ takeCell h = .ok a (g.takeOff k a)) ∨
      ((∀ a, ¬ g.IsFree a) ∧ takeCell h = .error .heapExhausted g)) := by
  rcases popFree_cases hv with ⟨k, a, hk, hrun⟩ | ⟨hf, hrun⟩
  · refine ⟨h, .here ⟨a, (hv.head_isFree hk).1⟩, hv, .inl ⟨k, a, hk, ?_⟩⟩
    rw [takeCell, run_bind hrun]
    rfl
  · obtain ⟨g, hmake, hroom⟩ := makeRoom_run hv hf
    have hg : g.Valid := by
      cases hroom with
      | here => exact hv
      | collected _ hc _ => exact hc.valid
      | grown _ hc _ => exact hc.valid.grown
    rcases popFree_cases hg with ⟨k, a, hk, hrun'⟩ | ⟨hf', hrun'⟩
    · refine ⟨g, hroom, hg, .inl ⟨k, a, hk, ?_⟩⟩
      rw [takeCell, run_bind hrun]
      simp only [run_bind hmake, run_bind hrun']
      rfl
    · refine ⟨g, hroom, hg, .inr ⟨hf', ?_⟩⟩
      rw [takeCell, run_bind hrun]
      simp only [run_bind hmake, run_bind hrun']
      rfl

/-! ## 4. The heap afterwards -/

/-- The cell `a` of a heap has been taken, and is not filled yet. -/
structure Taken (h : Heap) (a : Addr) (h' : Heap) : Prop where
  valid : h'.ValidBut (some a)
  isFree : h'.IsFree a
  /-- Nothing but cells, free lists, the cursor, totals and the record of ended objects changes. -/
  frame : h' = { h with
    cells := h'.cells, chunks := h'.chunks, cursor := h'.cursor, stats := h'.stats,
    reclaimed := h'.reclaimed }
  size_le : h.cells.size ≤ h'.cells.size
  /-- What is allocated was so before, with the same content. -/
  kept : ∀ b, h'.isAllocated b = true → h.isAllocated b = true ∧ h'.cells[b]? = h.cells[b]?
  /-- What the roots reach is still allocated. -/
  survives : ∀ b, h.isAllocated b = true → h.Reaches (h.rootValues true) b →
    h'.isAllocated b = true
  /-- So is what an allocated cell refers to. -/
  closed : ∀ b c, h'.isAllocated b = true → h.Refers b c → h.isAllocated c = true →
    h'.isAllocated c = true
  /-- Cells are lost to collections only, which count them and record their ends. -/
  totals : h'.allocatedCount + h'.stats.totalFreed = h.allocatedCount + h.stats.totalFreed
  reclaimed : h'.reclaimed = ((h.ended h').filterMap h.record?).reverse ++ h.reclaimed
  /-- There is no collection while a cell is free. -/
  unchanged : (∃ b, h.IsFree b) → h'.cells = h.cells ∧ h'.stats = h.stats

theorem ended_self (hc : h'.isAllocated = h.isAllocated) : h.ended h' = [] := by
  rw [List.eq_nil_iff_forall_not_mem]
  intro a ha
  rw [mem_ended, hc] at ha
  exact absurd ha.2 (by simp [ha.1])

/-- A new chunk has no allocated cells. -/
theorem isAllocated_grown (hv : h.Valid) : h.grown.isAllocated = h.isAllocated := by
  funext a
  by_cases ha : a < h.cells.size
  · simp only [isAllocated, grown, getElem?_withChunk ha]
  · have hout : h.isAllocated a = false :=
      Bool.eq_false_iff.mpr fun hal => ha (lt_size_of_isAllocated hal)
    rw [hout, Bool.eq_false_iff]
    intro hal
    obtain ⟨c, hc, hca⟩ := isAllocated_iff.mp hal
    replace hc : h.withChunk.cells[a]? = some c := hc
    have hlt : a < h.withChunk.cells.size := (Array.getElem?_eq_some_iff.mp hc).1
    have hdiv := hv.toLaid.withChunk.div_lt hlt
    rw [chunkCount_withChunk] at hdiv
    have hge : ¬ a / h.chunkCells < h.chunkCount := fun e => ha (hv.lt_size e)
    have hlast : a / h.chunkCells = h.chunkCount :=
      Nat.le_antisymm (Nat.le_of_lt_succ hdiv) (Nat.le_of_not_lt hge)
    exact Bool.false_ne_true ((isFree_withChunk hv.toLaid hlast).not_isAllocated.symm.trans hal)

theorem Room.taken (hr : Room h g) (hg : g.Valid)
    (hk : g.chunks[k]?.bind Chunk.head = some a) : Taken h a (g.takeOff k a) := by
  have hfree : g.IsFree a := (hg.head_isFree hk).1
  have hnot : (∀ b, ¬ h.IsFree b) → (∃ b, h.IsFree b) → (g.takeOff k a).cells = h.cells ∧
      (g.takeOff k a).stats = h.stats := fun hf ⟨b, hb⟩ => absurd hb (hf b)
  cases hr with
  | here hf =>
    refine ⟨hg.takeOff hk, hfree, rfl, Nat.le_refl _, fun b hb => ⟨hb, rfl⟩, fun b hb _ => hb,
      fun b c _ _ hal => hal, rfl, ?_, fun _ => ⟨rfl, rfl⟩⟩
    have hsame : (h.takeOff k a).isAllocated = h.isAllocated := rfl
    rw [ended_self hsame]
    rfl
  | @collected n _ hf hc _ =>
    refine ⟨hg.takeOff hk, hfree, ?_, Nat.le_of_eq hc.size.symm, fun b hb => ?_, fun b hb hr => ?_,
      hc.closed, ?_, hc.reclaimed, hnot hf⟩
    · rw [takeOff, hc.frame]
    · exact ⟨((hc.isAllocated_iff b).mp hb).1, hc.kept b hb⟩
    · exact (hc.isAllocated_iff b).mpr ⟨hb, hr⟩
    · have := hc.allocatedCount
      show g.allocatedCount + g.stats.totalFreed = _
      rw [hc.totalFreed]
      omega
  | @grown n c hf hc _ =>
    have hal : (c.grown.takeOff k a).isAllocated = c.isAllocated := isAllocated_grown hc.valid
    refine ⟨hg.takeOff hk, hfree, ?_, ?_, fun b hb => ?_, fun b hb hr => ?_, fun b b' hb hbb' hal' => ?_,
      ?_, ?_, hnot hf⟩
    · rw [takeOff, Heap.grown, withChunk, hc.frame]
    · show h.cells.size ≤ (c.cells ++ _).size
      rw [Array.size_append, hc.size]
      exact Nat.le_add_right _ _
    · rw [hal] at hb
      have hcell : (c.grown.takeOff k a).cells[b]? = c.cells[b]? :=
        getElem?_withChunk (lt_size_of_isAllocated hb)
      exact ⟨((hc.isAllocated_iff b).mp hb).1, hcell.trans (hc.kept b hb)⟩
    · rw [hal]
      exact (hc.isAllocated_iff b).mpr ⟨hb, hr⟩
    · rw [hal] at hb ⊢
      exact hc.closed b b' hb hbb' hal'
    · have := hc.allocatedCount
      rw [allocatedCount_congr hal]
      show c.allocatedCount + c.stats.totalFreed = _
      rw [hc.totalFreed]
      omega
    · rw [ended, hal]
      exact hc.reclaimed

/-- **A cell that is taken was free, and no other cell changes.** -/
theorem takeCell_ok (hv : h.Valid) (ht : takeCell h = .ok a h') : Taken h a h' := by
  obtain ⟨g, hroom, hg, ⟨k, b, hk, hrun⟩ | ⟨_, hrun⟩⟩ := takeCell_cases hv
  · rw [hrun] at ht
    cases ht
    exact hroom.taken hg hk
  · rw [hrun] at ht
    cases ht

/-- No cell is taken only if the heap is exhausted. -/
theorem takeCell_error {e : Fault} (hv : h.Valid) (ht : takeCell h = .error e h') :
    e = .heapExhausted := by
  obtain ⟨g, _, _, ⟨k, b, _, hrun⟩ | ⟨_, hrun⟩⟩ := takeCell_cases hv
  · rw [hrun] at ht
    cases ht
  · rw [hrun] at ht
    cases ht
    rfl

/-! ## 5. Pairs and objects -/

/-- A heap while a pair is made: the halves are on the root stack. -/
def rooting (h : Heap) (x y : Value) : Heap := { h with roots := (h.roots.push x).push y }

theorem ValidBut.rooting (hv : h.ValidBut out) (x y : Value) : (h.rooting x y).ValidBut out where
  toLaid := hv.toLaid.congr rfl rfl rfl hv.pins_nodup rfl
  cursor_lt := hv.cursor_lt

/-- The cell `a` of a heap has been filled. -/
def filled (h : Heap) (a : Addr) (c : Cell) : Heap :=
  { h with cells := h.cells.setIfInBounds a c }

theorem ValidBut.filled {c : Cell} (hv : h.ValidBut (some a)) (hc : c.isAllocated = true)
    (ht : ∀ t p, c = .object t p → t ≠ CoreType.nil.id ∧ h.types.isRegistered t = true) :
    (h.filled a c).Valid where
  toLaid := hv.toLaid.fill hc ht
  cursor_lt := hv.cursor_lt

/-- Values that a heap takes as roots besides its own. -/
theorem rootValues_rooting (h : Heap) (x y : Value) :
    (h.rooting x y).rootValues true = h.rootValues true ++ [x, y] := by
  simp [rootValues, rooting]

/-- What is reached does not depend on the root stack. -/
theorem Reaches.congr {vs ws : List Value} (hr : h.Reaches vs a) (hvs : ∀ v ∈ vs, v ∈ ws)
    (hc : h'.cells = h.cells) (ht : h'.types = h.types) (hd : h'.holdings = h.holdings) :
    h'.Reaches ws a := by
  induction hr with
  | root hv ha => exact .root (hvs _ hv) ha
  | step _ hab ih =>
    refine .step ih ?_
    cases hab with
    | car hcell hx => exact .car (hc ▸ hcell) hx
    | cdr hcell hy => exact .cdr (hc ▸ hcell) hy
    | held hcell hv hb => exact .held (hc ▸ hcell) (heldBy_congr ht hd ▸ hv) hb

theorem shrink_push_push {α : Type} (xs : Array α) (x y : α) :
    ((xs.push x).push y).shrink xs.size = xs := by
  rw [Array.shrink_eq_take, ← Array.toList_inj]
  simp

/-- The root stack goes back to what it was before two values were pushed. -/
theorem popRoots_rooting {x y : Value} (hr : g.roots = (h.rooting x y).roots) :
    popRoots h.roots.size g = .ok () { g with roots := h.roots } := by
  have hle : h.roots.size ≤ g.roots.size := by
    rw [hr, rooting, Array.size_push, Array.size_push]
    omega
  rw [popRoots, if_pos hle, hr, rooting, shrink_push_push]

theorem cons_of_taken {x y : Value} (ht : takeCell (h.rooting x y) = .ok a g)
    (hr : g.roots = (h.rooting x y).roots) :
    cons x y h = .ok (.pair a) ({ g with roots := h.roots }.filled a (.pair x y)) := by
  have hbase : rootBase h = .ok h.roots.size h := rfl
  have hx : pushRoot x h = .ok h.roots.size { h with roots := h.roots.push x } := rfl
  have hy : pushRoot y { h with roots := h.roots.push x } = .ok _ (h.rooting x y) := rfl
  rw [cons, run_bind hbase, run_bind hx, run_bind hy, run_bind ht, run_bind (popRoots_rooting hr)]
  rfl

theorem cons_of_fault {x y : Value} {e : Fault} (ht : takeCell (h.rooting x y) = .error e g) :
    cons x y h = .error e g := by
  have hbase : rootBase h = .ok h.roots.size h := rfl
  have hx : pushRoot x h = .ok h.roots.size { h with roots := h.roots.push x } := rfl
  have hy : pushRoot y { h with roots := h.roots.push x } = .ok _ (h.rooting x y) := rfl
  rw [cons, run_bind hbase, run_bind hx, run_bind hy, run_bind_error ht]

/-- **A fresh pair**: its cell is taken while the halves are rooted; or the heap is exhausted. -/
theorem cons_cases (hv : h.Valid) (x y : Value) :
    (∃ a g, Taken (h.rooting x y) a g ∧
      cons x y h = .ok (.pair a) ({ g with roots := h.roots }.filled a (.pair x y))) ∨
    ∃ g, cons x y h = .error .heapExhausted g := by
  cases ht : takeCell (h.rooting x y) with
  | ok a g =>
    have htaken := takeCell_ok (hv.rooting x y) ht
    exact .inl ⟨a, g, htaken, cons_of_taken ht (by rw [htaken.frame])⟩
  | error e g =>
    cases takeCell_error (hv.rooting x y) ht
    exact .inr ⟨g, cons_of_fault ht⟩

/-- A type that an object may have. -/
def IsMakeable (h : Heap) (t : TypeId) : Prop :=
  t ≠ CoreType.nil.id ∧ h.types.isRegistered t = true

theorem make_run (t : TypeId) (p : Payload) (h : Heap) :
    make t p h =
      if (t != CoreType.nil.id && h.types.isRegistered t) = true then
        match takeCell h with
        | .ok a g => .ok (.object a) (g.filled a (.object t p))
        | .error e g => .error e g
      else .error (.badType t) h := by
  rw [make, run_bind (run_observe _ h), run_ite]
  refine ite_congr rfl (fun _ => ?_) fun _ => rfl
  cases ht : takeCell h with
  | ok a g =>
    rw [run_bind ht]
    rfl
  | error e g => exact run_bind_error ht

/-- **A fresh object** of a type that objects may have; or a fault. -/
theorem make_cases (hv : h.Valid) (t : TypeId) (p : Payload) :
    (h.IsMakeable t ∧ ∃ a g, Taken h a g ∧
      make t p h = .ok (.object a) (g.filled a (.object t p))) ∨
    (h.IsMakeable t ∧ ∃ g, make t p h = .error .heapExhausted g) ∨
    (¬ h.IsMakeable t ∧ make t p h = .error (.badType t) h) := by
  rw [make_run]
  by_cases hm : h.IsMakeable t
  · rw [if_pos (by simpa [IsMakeable] using hm)]
    cases ht : takeCell h with
    | ok a g => exact .inl ⟨hm, a, g, takeCell_ok hv ht, rfl⟩
    | error e g =>
      cases takeCell_error hv ht
      exact .inr (.inl ⟨hm, g, rfl⟩)
  · rw [if_neg (by simpa [IsMakeable] using hm)]
    exact .inr (.inr ⟨hm, rfl⟩)

end LispMachine.Heap
