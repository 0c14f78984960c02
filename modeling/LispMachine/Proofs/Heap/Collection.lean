import LispMachine.Proofs.Heap.Count
import LispMachine.Proofs.Heap.Operation
import LispMachine.Proofs.Heap.Tracing

/-!
# What a collection does

* `Heap.Swept` -- the state after the first `n` addresses have been swept, and `swept_sweep`, by
  induction on `n`;
* `Heap.Collected` -- everything that is true of a collection from the roots: which cells are left,
  what has changed and what has not, the number it gives, and the record of ended objects;
* `Heap.collect_spec` -- a collection always comes to an end, in such a state;
* `Reaches.transfer` -- reachability depends on the reachable cells only, so that a second
  collection from the same roots finds nothing to free (`Collected.again`).
-/

namespace LispMachine.Heap

variable {h h' h'' : Heap} {a b n m : Nat} {marks : Array Bool} {scanRoots : Bool}

/-! ## 1. Sweeping -/

/-- The first `n` addresses of a heap have been swept. -/
structure Swept (marks : Array Bool) (h : Heap) (n : Nat) (s : Heap × Nat) : Prop where
  laid : s.1.Laid none
  frame : s.1 = { h with
    cells := s.1.cells, chunks := s.1.chunks, reclaimed := s.1.reclaimed }
  chunkCount : s.1.chunkCount = h.chunkCount
  freed : ∀ a, a < n → isDoomed marks h a = true → s.1.IsFree a
  kept : ∀ a, ¬ (a < n ∧ isDoomed marks h a = true) → s.1.cells[a]? = h.cells[a]?
  count : s.2 = (List.range n).countP (isDoomed marks h)
  reclaimed : s.1.reclaimed =
    (((List.range n).filter (isDoomed marks h)).filterMap h.record?).reverse ++ h.reclaimed

theorem swept_zero (hl : h.Laid none) : Swept marks h 0 (h, 0) where
  laid := hl
  frame := rfl
  chunkCount := rfl
  freed _ ha := absurd ha (Nat.not_lt_zero _)
  kept _ _ := rfl
  count := rfl
  reclaimed := rfl

theorem isFree_reclaim (ha : a < h.cells.size) : (h.reclaim a).IsFree a :=
  ⟨h.chunks[a / h.chunkCells]?.bind Chunk.head, Array.getElem?_setIfInBounds_self_of_lt ha⟩

theorem getElem?_reclaim_ne (hab : a ≠ b) : (h.reclaim a).cells[b]? = h.cells[b]? :=
  Array.getElem?_setIfInBounds_ne hab

theorem chunkCount_reclaim (h : Heap) (a : Addr) : (h.reclaim a).chunkCount = h.chunkCount :=
  Array.size_modify

/-- One more address. -/
theorem Swept.succ {s : Heap × Nat} (hs : Swept marks h n s) :
    Swept marks h (n + 1) (sweepCell marks n s) := by
  obtain ⟨g, freed⟩ := s
  have hcell : g.cells[n]? = h.cells[n]? := hs.kept n fun e => Nat.lt_irrefl n e.1
  have hdoomed : isDoomed marks g n = isDoomed marks h n := by
    simp only [isDoomed, isAllocated, hcell]
  have hframe : g = _ := hs.frame
  by_cases hd : isDoomed marks h n = true
  · have hal : g.isAllocated n = true := by
      rw [← hdoomed] at hd
      exact (Bool.and_eq_true_iff.mp hd).2
    have hrec : g.record? n = h.record? n := by
      rw [record?, record?, hcell, hframe]
    rw [sweepCell, hdoomed, if_pos hd]
    refine ⟨hs.laid.reclaim hal, ?_, ?_, fun a ha hda => ?_, fun a ha => ?_, ?_, ?_⟩
    · show g.reclaim n = _
      rw [hframe]
      rfl
    · exact (chunkCount_reclaim g n).trans hs.chunkCount
    · by_cases han : n = a
      · subst han
        exact isFree_reclaim (lt_size_of_isAllocated hal)
      · obtain ⟨next, hn⟩ := hs.freed a (by omega) hda
        exact ⟨next, (getElem?_reclaim_ne han).trans hn⟩
    · have hne : n ≠ a := fun e => ha ⟨by omega, e ▸ hd⟩
      exact (getElem?_reclaim_ne hne).trans (hs.kept a fun e => ha ⟨by omega, e.2⟩)
    · show freed + 1 = _
      rw [List.range_succ, List.countP_append, ← hs.count, List.countP_singleton, if_pos hd]
    · show (g.record? n).toList ++ g.reclaimed = _
      rw [hrec, hs.reclaimed, List.range_succ, List.filter_append, List.filterMap_append,
        List.filter_cons_of_pos hd, List.filter_nil, List.reverse_append, List.append_assoc]
      cases hr : h.record? n <;> simp [hr]
  · rw [sweepCell, hdoomed, if_neg hd]
    refine ⟨hs.laid, hs.frame, hs.chunkCount, fun a ha hda => ?_, fun a ha => ?_, ?_, ?_⟩
    · have hne : a ≠ n := fun e => hd (e ▸ hda)
      exact hs.freed a (by omega) hda
    · exact hs.kept a fun e => ha ⟨by omega, e.2⟩
    · show freed = _
      rw [List.range_succ, List.countP_append, ← hs.count, List.countP_singleton, if_neg hd]
      rfl
    · show g.reclaimed = _
      rw [hs.reclaimed, List.range_succ, List.filter_append, List.filter_cons_of_neg hd,
        List.filter_nil, List.append_nil]

/-- **A sweep frees what is allocated without mark**, and nothing else. -/
theorem swept_sweep (hl : h.Laid none) : Swept marks h h.cells.size (sweep marks h) := by
  have hrun : ∀ n, Swept marks h n (n.fold (fun a _ => sweepCell marks a) (h, 0)) := by
    intro n
    induction n with
    | zero => exact swept_zero hl
    | succ n ih =>
      rw [Nat.fold_succ]
      exact ih.succ
  exact hrun _

/-! ## 2. A collection -/

/-- The addresses of the cells that are allocated in a heap and no longer in a later one. -/
def ended (h h' : Heap) : List Addr :=
  (List.range h.cells.size).filter fun a => h.isAllocated a && !h'.isAllocated a

theorem mem_ended : a ∈ h.ended h' ↔ h.isAllocated a = true ∧ h'.isAllocated a = false := by
  rw [ended, List.mem_filter, List.mem_range, Bool.and_eq_true, Bool.not_eq_true']
  exact ⟨And.right, fun hal => ⟨lt_size_of_isAllocated hal.1, hal⟩⟩

/-- What is true of a collection that gives the number `n`. -/
structure Collected (h : Heap) (scanRoots : Bool) (n : Nat) (h' : Heap) : Prop where
  valid : h'.Valid
  /-- What is left is what can be reached. -/
  isAllocated_iff : ∀ a, h'.isAllocated a = true ↔
    h.isAllocated a = true ∧ h.Reaches (h.rootValues scanRoots) a
  kept : ∀ a, h'.isAllocated a = true → h'.cells[a]? = h.cells[a]?
  /-- Nothing but cells, free lists, totals and the record of ended objects changes. -/
  frame : h' = { h with
    cells := h'.cells, chunks := h'.chunks, stats := h'.stats, reclaimed := h'.reclaimed }
  size : h'.cells.size = h.cells.size
  chunkCount : h'.chunkCount = h.chunkCount
  count : n = (h.ended h').length
  collections : h'.stats.collections = h.stats.collections + 1
  totalFreed : h'.stats.totalFreed = h.stats.totalFreed + n
  reclaimed : h'.reclaimed = ((h.ended h').filterMap h.record?).reverse ++ h.reclaimed

theorem isDoomed_reachable_iff :
    isDoomed (h.reachable scanRoots) h a = true ↔
      h.isAllocated a = true ∧ ¬ h.Reaches (h.rootValues scanRoots) a := by
  rw [isDoomed, Bool.and_eq_true, bne_iff_ne, ne_eq, marked_iff, and_comm, not_and]
  exact and_congr_right fun hal => ⟨fun e => e hal, fun e _ => e⟩

theorem collect_run (scanRoots : Bool) (h : Heap) :
    collect scanRoots h = .ok (sweep (h.reachable scanRoots) h).2
      ((sweep (h.reachable scanRoots) h).1.withTotals (sweep (h.reachable scanRoots) h).2) := rfl

/-- **A collection comes to an end, and frees what cannot be reached from its roots.** -/
theorem collect_spec (hv : h.Valid) (scanRoots : Bool) :
    ∃ n h', collect scanRoots h = .ok n h' ∧ Collected h scanRoots n h' := by
  have hs : Swept (h.reachable scanRoots) h h.cells.size _ := swept_sweep hv.toLaid
  refine ⟨_, _, collect_run scanRoots h, ?_⟩
  generalize sweep (h.reachable scanRoots) h = s at hs ⊢
  obtain ⟨g, freed⟩ := s
  have hframe : g = _ := hs.frame
  have hcells : ∀ a, g.isAllocated a = true ↔
      h.isAllocated a = true ∧ h.Reaches (h.rootValues scanRoots) a := by
    intro a
    by_cases hd : isDoomed (h.reachable scanRoots) h a = true
    · have hdr := isDoomed_reachable_iff.mp hd
      have hfree := hs.freed a (lt_size_of_isAllocated hdr.1) hd
      rw [hfree.not_isAllocated]
      exact iff_of_false (by simp) fun e => hdr.2 e.2
    · have hsame : g.isAllocated a = h.isAllocated a := by
        rw [isAllocated, isAllocated, hs.kept a fun e => hd e.2]
      rw [hsame]
      refine ⟨fun hal => ⟨hal, ?_⟩, And.left⟩
      exact Classical.byContradiction fun hr => hd (isDoomed_reachable_iff.mpr ⟨hal, hr⟩)
  have hdoomed : ∀ a, (h.isAllocated a && !g.isAllocated a) = isDoomed (h.reachable scanRoots) h a := by
    intro a
    rw [Bool.eq_iff_iff, isDoomed_reachable_iff, Bool.and_eq_true, Bool.not_eq_true',
      ← Bool.not_eq_true, hcells a, not_and]
    exact and_congr_right fun hal => ⟨fun e => e hal, fun e _ => e⟩
  refine ⟨⟨hs.laid.congr rfl rfl rfl hs.laid.pins_nodup rfl, ?_⟩, hcells, fun a ha => ?_, ?_, ?_,
    hs.chunkCount, ?_, ?_, ?_, ?_⟩
  · show g.cursor < g.chunkCount
    rw [hs.chunkCount, hframe]
    exact hv.cursor_lt
  · refine hs.kept a fun e => ?_
    exact (isDoomed_reachable_iff.mp e.2).2 ((hcells a).mp ha).2
  · show g.withTotals freed = _
    rw [hframe]
    rfl
  · show g.cells.size = h.cells.size
    rw [hs.laid.size, hv.size, capacity, capacity, hs.chunkCount, hframe]
  · show freed = (h.ended g).length
    rw [ended, funext hdoomed, ← List.countP_eq_length_filter]
    exact hs.count
  · show g.stats.collections + 1 = _
    rw [hframe]
  · show g.stats.totalFreed + freed = _
    rw [hframe]
  · show g.reclaimed = ((h.ended g).filterMap h.record?).reverse ++ h.reclaimed
    rw [ended, funext hdoomed]
    exact hs.reclaimed

/-- What is left refers to what is left. -/
theorem Collected.closed (hc : Collected h scanRoots n h') (a b : Addr)
    (ha : h'.isAllocated a = true) (hab : h.Refers a b) (hb : h.isAllocated b = true) :
    h'.isAllocated b = true :=
  (hc.isAllocated_iff b).mpr ⟨hb, .step ((hc.isAllocated_iff a).mp ha).2 hab⟩

/-- The cells that were allocated are still so, or have ended. -/
theorem Collected.allocatedCount (hc : Collected h scanRoots n h') :
    h'.allocatedCount + n = h.allocatedCount := by
  have hsplit := List.length_eq_countP_add_countP h'.isAllocated
    (l := (List.range h.cells.size).filter h.isAllocated)
  rw [← List.countP_eq_length_filter, List.countP_filter, List.countP_filter] at hsplit
  rw [hc.count, ended, ← List.countP_eq_length_filter, Heap.allocatedCount, Heap.allocatedCount,
    hsplit, hc.size]
  congr 1
  · refine List.countP_congr fun a _ => ?_
    rw [Bool.and_eq_true]
    exact ⟨fun hal => ⟨hal, ((hc.isAllocated_iff a).mp hal).1⟩, And.left⟩
  · refine List.countP_congr fun a _ => ?_
    cases h.isAllocated a <;> cases h'.isAllocated a <;> simp

/-! ## 3. A second collection -/

/-- Reachability depends on the reachable cells only. -/
theorem Reaches.transfer {vs : List Value} (hr : h.Reaches vs a)
    (hc : ∀ b, h.Reaches vs b → h.isAllocated b = true → h'.cells[b]? = h.cells[b]?)
    (hh : h'.heldBy = h.heldBy) : h'.Reaches vs a := by
  induction hr with
  | root hv ha => exact .root hv ha
  | step hr hab ih =>
    have hsame := hc _ hr hab.isAllocated
    refine .step ih ?_
    cases hab with
    | car hcell hx => exact .car (hsame.trans hcell) hx
    | cdr hcell hy => exact .cdr (hsame.trans hcell) hy
    | held hcell hv hb => exact .held (hsame.trans hcell) (hh ▸ hv) hb

theorem heldBy_congr (ht : h'.types = h.types) (hd : h'.holdings = h.holdings) :
    h'.heldBy = h.heldBy := by
  funext t p
  unfold heldBy
  rw [ht, hd]

/-- **A second collection from the same roots frees nothing.** -/
theorem Collected.again (hc : Collected h scanRoots n h') (hc' : Collected h' scanRoots m h'') :
    m = 0 := by
  rw [hc'.count, List.length_eq_zero_iff, List.eq_nil_iff_forall_not_mem]
  intro a ha
  rw [mem_ended] at ha
  obtain ⟨hal, hend⟩ := ha
  have hroots : h'.rootValues scanRoots = h.rootValues scanRoots := by
    rw [hc.frame]
    rfl
  have hr := ((hc.isAllocated_iff a).mp hal).2
  refine absurd ((hc'.isAllocated_iff a).mpr
    ⟨hal, hroots ▸ hr.transfer (fun b hb hbal => ?_) ?_⟩) (by simp [hend])
  · exact hc.kept b ((hc.isAllocated_iff b).mpr ⟨hbal, hb⟩)
  · refine heldBy_congr ?_ ?_ <;> rw [hc.frame]

end LispMachine.Heap
