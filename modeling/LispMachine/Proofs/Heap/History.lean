import LispMachine.Proofs.Heap.Allocation

/-!
# The invariant along a history

* `Heap.Kept` -- the representation invariant holds, and a number of births is accounted for by the
  cells that are allocated and those that were freed;
* `Operation.kept` -- what one operation does to it;
* `Arises.kept` -- and so every heap that arises keeps it;
* `Arises.collect_exact` -- **what a collection does to a heap that arises**.
-/

namespace LispMachine.Heap

variable {cfg : Config} {ops : List Operation} {h h' : Heap} {n : Nat}

/-! ## 1. A fresh heap -/

theorem bare_laid (hpos : cfg.chunkCells ≠ 0) (hfits : chunkFits cfg.chunkCells = true) :
    (bare cfg).Laid none where
  size := (Nat.zero_mul _).symm
  chunkCells_pos := Nat.pos_of_ne_zero hpos
  fits := hfits
  listed k chunk hk := by cases hk
  pins_nodup := List.nodup_nil
  typed a t p ha := by cases ha

theorem create_eq (hc : create cfg = .ok h) : h = (bare cfg).withChunk ∧ (bare cfg).Laid none := by
  rw [create, addChunk] at hc
  split at hc
  · rename_i heq
    split at heq
    · cases heq
    · rename_i hpos
      split at heq
      · cases heq
      · rename_i hfits
        cases heq
        cases hc
        rw [Bool.not_eq_true', Bool.not_eq_false] at hfits
        exact ⟨rfl, bare_laid hpos hfits⟩
  · cases hc

/-- The births that led to a heap are accounted for. -/
structure Kept (n : Nat) (h : Heap) : Prop where
  valid : h.Valid
  births : h.allocatedCount + h.stats.totalFreed = n

theorem create_kept (hc : create cfg = .ok h) : Kept 0 h := by
  obtain ⟨rfl, hl⟩ := create_eq hc
  refine ⟨⟨hl.withChunk, ?_⟩, ?_⟩
  · show 0 < (bare cfg).withChunk.chunkCount
    rw [chunkCount_withChunk]
    exact Nat.succ_pos _
  · have hnone : (bare cfg).withChunk.isAllocated = (bare cfg).isAllocated := by
      funext a
      show (bare cfg).withChunk.isAllocated a = false
      rw [Bool.eq_false_iff]
      intro hal
      have hdiv := hl.withChunk.div_lt (lt_size_of_isAllocated hal)
      rw [chunkCount_withChunk] at hdiv
      have hfirst : a / (bare cfg).chunkCells = (bare cfg).chunkCount := Nat.lt_one_iff.mp hdiv
      rw [(isFree_withChunk hl hfirst).not_isAllocated] at hal
      cases hal
    rw [allocatedCount_congr hnone]
    rfl

/-! ## 2. One operation -/

theorem getElem?_modify_cells {f : Cell → Cell} {a b : Nat} :
    (h.cells.modify a f)[b]? = if a = b then h.cells[b]?.map f else h.cells[b]? := by
  rw [Array.getElem?_modify]

/-- Writing a slot keeps the invariant: a free cell stays free with its link, an object stays what
    it is, and a pair stays a pair. -/
theorem Kept.write {f : Cell → Cell} {a : Nat} (hk : Kept n h)
    (hfree : ∀ next, f (.free next) = .free next) (hobj : ∀ t p, f (.object t p) = .object t p)
    (hpair : ∀ x y, ∃ x' y', f (.pair x y) = .pair x' y') :
    Kept n { h with cells := h.cells.modify a f } := by
  have hcell : ∀ (b : Nat) (c : Cell), { h with cells := h.cells.modify a f }.cells[b]? = some c →
      ∃ d, h.cells[b]? = some d ∧ (c = d ∨ c = f d) := by
    intro b c hc
    replace hc : (h.cells.modify a f)[b]? = some c := hc
    rw [getElem?_modify_cells] at hc
    split at hc
    · obtain ⟨d, hd, rfl⟩ := Option.map_eq_some_iff.mp hc
      exact ⟨d, hd, .inr rfl⟩
    · exact ⟨c, hc, .inl rfl⟩
  have hlink : ∀ (b : Nat) (next : Option Addr), { h with cells := h.cells.modify a f }.cells[b]? = some (.free next) ↔
      h.cells[b]? = some (.free next) := by
    intro b next
    show (h.cells.modify a f)[b]? = _ ↔ _
    rw [getElem?_modify_cells]
    split
    · rename_i hab
      rw [Option.map_eq_some_iff]
      constructor
      · rintro ⟨d, hd, hfd⟩
        cases d with
        | free next' =>
          rw [hfree] at hfd
          rw [hd, hfd]
        | pair x y =>
          obtain ⟨x', y', hxy⟩ := hpair x y
          rw [hxy] at hfd
          cases hfd
        | object t p =>
          rw [hobj] at hfd
          cases hfd
      · exact fun hd => ⟨_, hd, hfree next⟩
    · exact Iff.rfl
  have hlinked : ∀ {head l}, Linked h.cells head l →
      Linked (h.cells.modify a f) head l := by
    intro head l hl
    induction hl with
    | nil => exact .nil
    | cons ha _ ih => exact .cons ((hlink _ _).mpr ha) ih
  have hal : { h with cells := h.cells.modify a f }.isAllocated = h.isAllocated := by
    funext b
    by_cases hb : b < h.cells.size
    · have hb' : b < { h with cells := h.cells.modify a f }.cells.size := by
        rwa [Array.size_modify]
      rcases isFree_or_isAllocated hb with hf | hb1 <;>
        rcases isFree_or_isAllocated hb' with hf' | hb2
      · rw [hf.not_isAllocated, hf'.not_isAllocated]
      · obtain ⟨next, hn⟩ := hf
        have hf' : { h with cells := h.cells.modify a f }.IsFree b := ⟨next, (hlink b next).mpr hn⟩
        rw [hf'.not_isAllocated] at hb2
        cases hb2
      · obtain ⟨next, hn⟩ := hf'
        have hf : h.IsFree b := ⟨next, (hlink b next).mp hn⟩
        rw [hf.not_isAllocated] at hb1
        cases hb1
      · rw [hb1, hb2]
    · have hnone : ∀ g : Heap, ¬ b < g.cells.size → g.isAllocated b = false := fun g hg =>
        Bool.eq_false_iff.mpr fun hal => hg (lt_size_of_isAllocated hal)
      rw [hnone h hb, hnone _ (by rwa [Array.size_modify])]
  have hv := hk.valid
  refine ⟨⟨⟨?_, hv.chunkCells_pos, hv.fits, fun k chunk hchunk => ?_, hv.pins_nodup, ?_⟩,
    hv.cursor_lt⟩, ?_⟩
  · show (h.cells.modify a f).size = _
    rw [Array.size_modify]
    exact hv.size
  · obtain ⟨l, hl⟩ := hv.listed k chunk hchunk
    refine ⟨l, hlinked hl.linked, hl.nodup, hl.count, fun b => ?_⟩
    rw [hl.mem_iff b]
    exact and_congr_right fun _ => and_congr_left fun _ => exists_congr fun next => (hlink b next).symm
  · intro b t p hb
    obtain ⟨d, hd, hcd⟩ := hcell b _ hb
    cases d with
    | free next => simp [hfree] at hcd
    | pair x y =>
      obtain ⟨x', y', hxy⟩ := hpair x y
      simp [hxy] at hcd
    | object t' p' =>
      simp only [hobj, or_self, Cell.object.injEq] at hcd
      obtain ⟨rfl, rfl⟩ := hcd
      exact hv.typed b t p hd
  · rw [allocatedCount_congr hal]
    exact hk.births

/-- Pins, roots, types and holdings may change freely. -/
theorem Kept.congr (hk : Kept n h) {pins : List Value} (hp : pins.Nodup) {roots : Array Value}
    {holdings : Holdings} : Kept n { h with pins, roots, holdings } :=
  ⟨⟨hk.valid.toLaid.congr rfl rfl rfl hp rfl, hk.valid.cursor_lt⟩, hk.births⟩

/-- A type table may grow. -/
theorem Kept.register (hk : Kept n h) (entry : TypeEntry) :
    Kept n { h with types := (h.types.register entry).2 } := by
  have hv := hk.valid
  refine ⟨⟨⟨hv.size, hv.chunkCells_pos, hv.fits, fun k chunk hchunk => ?_, hv.pins_nodup, ?_⟩,
    hv.cursor_lt⟩, hk.births⟩
  · obtain ⟨l, hl⟩ := hv.listed k chunk hchunk
    exact ⟨l, hl.transfer rfl (fun _ _ => rfl) fun _ _ => Iff.rfl⟩
  · intro a t p ha
    obtain ⟨h1, h2⟩ := hv.typed a t p ha
    refine ⟨h1, ?_⟩
    have h2 : t < h.types.size := of_decide_eq_true h2
    refine decide_eq_true (?_ : t < (h.types.entries.push entry).size)
    rw [Array.size_push]
    exact Nat.lt_succ_of_lt h2

/-- A cell that is taken and filled is one birth. -/
theorem Taken.kept_filled {a : Nat} {c : Cell} (hk : Kept n h) (ht : Taken h a h')
    (hc : c.isAllocated = true) (hm : ∀ t p, c = .object t p → h'.IsMakeable t) :
    Kept (n + 1) (h'.filled a c) := by
  refine ⟨ht.valid.filled hc hm, ?_⟩
  rw [filled, allocatedCount_fill ht.isFree hc]
  show h'.allocatedCount + 1 + h'.stats.totalFreed = n + 1
  have := ht.totals
  have := hk.births
  omega

theorem Taken.isMakeable {a : Nat} {t : TypeId} (ht : Taken h a h') (hm : h.IsMakeable t) :
    h'.IsMakeable t := by
  rw [IsMakeable, ht.frame]
  exact hm

/-- What a write to the root stack does. -/
theorem setRoot_eq_ok {slot : Nat} {v : Value} : setRoot slot v h = .ok () h' ↔
    slot < h.roots.size ∧ h' = { h with roots := h.roots.setIfInBounds slot v } := by
  by_cases hs : slot < h.roots.size
  · rw [setRoot, if_pos hs]
    exact ⟨fun e => ⟨hs, by cases e; rfl⟩, fun e => e.2 ▸ rfl⟩
  · rw [setRoot, if_neg hs]
    exact iff_of_false (by rintro ⟨⟩) fun e => hs e.1

/-- What cutting the root stack does. -/
theorem popRoots_eq_ok {base : Nat} : popRoots base h = .ok () h' ↔
    base ≤ h.roots.size ∧ h' = { h with roots := h.roots.shrink base } := by
  by_cases hs : base ≤ h.roots.size
  · rw [popRoots, if_pos hs]
    exact ⟨fun e => ⟨hs, by cases e; rfl⟩, fun e => e.2 ▸ rfl⟩
  · rw [popRoots, if_neg hs]
    exact iff_of_false (by rintro ⟨⟩) fun e => hs e.1

/-- **What one operation does**: the invariant stays, and every cell it allocates is counted. -/
theorem Operation.kept {op : Operation} (hk : Kept n h) (hop : op.perform h = .ok () h') :
    Kept (n + op.births) h' := by
  cases op with
  | cons x y =>
    rcases cons_cases hk.valid x y with ⟨a, g, ht, hrun⟩ | ⟨g, hrun⟩
    · rw [perform, run_bind hrun] at hop
      cases hop
      have hr : Kept n (h.rooting x y) := ⟨hk.valid.rooting x y, hk.births⟩
      have hfilled : Kept (n + 1) (g.filled a (.pair x y)) := ht.kept_filled hr rfl nofun
      exact hfilled.congr hfilled.valid.pins_nodup
    · rw [perform, run_bind_error hrun] at hop
      cases hop
  | make t p =>
    rcases make_cases hk.valid t p with ⟨hm, a, g, ht, hrun⟩ | ⟨_, g, hrun⟩ | ⟨_, hrun⟩
    · rw [perform, run_bind hrun] at hop
      cases hop
      refine ht.kept_filled hk rfl fun t' p' e => ?_
      cases e
      exact ht.isMakeable hm
    · rw [perform, run_bind_error hrun] at hop
      cases hop
    · rw [perform, run_bind_error hrun] at hop
      cases hop
  | setCar v x =>
    cases v <;> cases hop
    exact hk.write (fun _ => rfl) (fun _ _ => rfl) fun _ y => ⟨x, y, rfl⟩
  | setCdr v y =>
    cases v <;> cases hop
    exact hk.write (fun _ => rfl) (fun _ _ => rfl) fun x _ => ⟨x, y, rfl⟩
  | pin v =>
    cases hop
    show Kept n (if v ∈ h.pins then h else { h with pins := v :: h.pins })
    split
    · exact hk
    · exact hk.congr (List.nodup_cons.mpr ⟨‹_›, hk.valid.pins_nodup⟩)
  | unpin v =>
    cases hop
    exact hk.congr (hk.valid.pins_nodup.erase v)
  | pushRoot v =>
    cases hop
    exact hk.congr hk.valid.pins_nodup
  | setRoot slot v =>
    obtain ⟨-, rfl⟩ := setRoot_eq_ok.mp hop
    exact hk.congr hk.valid.pins_nodup
  | popRoots base =>
    obtain ⟨-, rfl⟩ := popRoots_eq_ok.mp hop
    exact hk.congr hk.valid.pins_nodup
  | registerType entry =>
    cases hop
    exact hk.register entry
  | collect scanRoots =>
    obtain ⟨freed, g, hrun, hc⟩ := collect_spec hk.valid scanRoots
    rw [perform, run_bind hrun] at hop
    cases hop
    refine ⟨hc.valid, ?_⟩
    have := hc.allocatedCount
    have := hk.births
    have := hc.totalFreed
    show h'.allocatedCount + h'.stats.totalFreed = n
    omega
  | rehold holdings =>
    cases hop
    exact hk.congr hk.valid.pins_nodup

/-- **Every operation keeps the invariant.** -/
theorem Operation.valid (op : Operation) (hv : h.Valid) (hop : op.perform h = .ok () h') :
    h'.Valid :=
  (Operation.kept ⟨hv, rfl⟩ hop).valid

/-! ## 3. A history -/

/-- **Every heap that arises keeps the invariant**, and all births are accounted for. -/
theorem Arises.kept (ha : Arises cfg ops h) : Kept (births ops) h := by
  induction ha with
  | create hc => exact create_kept hc
  | perform ha op hop ih =>
    have hstep := Operation.kept ih hop
    rwa [Nat.add_comm] at hstep

/-- **A collection of a heap that arises comes to an end.** A cell is allocated afterwards just when
    it was before and can be reached; what is left keeps its content, and pins, roots, types and
    capacity are as they were. The number is that of the cells that became free, and another
    collection from the same roots frees nothing. -/
theorem Arises.collect_exact (ha : Arises cfg ops h) (scanRoots : Bool) :
    ∃ n h', collect scanRoots h = .ok n h' ∧
      (∀ a, h'.isAllocated a = true ↔
        h.isAllocated a = true ∧ h.Reaches (h.rootValues scanRoots) a) ∧
      (∀ a : Addr, h'.isAllocated a = true → h'.cells[a]? = h.cells[a]?) ∧
      h'.pins = h.pins ∧ h'.roots = h.roots ∧ h'.types = h.types ∧
      h'.cells.size = h.cells.size ∧ h'.capacity = h.capacity ∧
      n = (h.ended h').length ∧ (∀ a ∈ h.ended h', h'.IsFree a) ∧
      ∃ h'', collect scanRoots h' = .ok 0 h'' := by
  obtain ⟨n, h', hrun, hc⟩ := collect_spec ha.kept.valid scanRoots
  have hframe : h' = _ := hc.frame
  refine ⟨n, h', hrun, hc.isAllocated_iff, hc.kept, ?_, ?_, ?_, hc.size, ?_, hc.count,
    fun a hend => ?_, ?_⟩
  · rw [hframe]
  · rw [hframe]
  · rw [hframe]
  · rw [← hc.valid.size, hc.size, ha.kept.valid.size]
  · obtain ⟨hal, hnot⟩ := mem_ended.mp hend
    rcases isFree_or_isAllocated (hc.size ▸ lt_size_of_isAllocated hal) with hf | hal'
    · exact hf
    · rw [hnot] at hal'
      cases hal'
  · obtain ⟨m, h'', hrun', hc'⟩ := collect_spec hc.valid scanRoots
    rw [hc.again hc'] at hrun'
    exact ⟨h'', hrun'⟩

/-- Four cells: a pinned pair that refers to itself, a pair that nothing refers to, and a root
    whose cell is free. -/
def pinnedCycle : Heap :=
  { chunkCells := 4
    growth := .fixed
    cells := #[.pair .nil (.pair 0), .pair (.int 1) (.pair 0), .free (some 3), .free none]
    chunks := #[{ head := some 2, freeCount := 2 }]
    cursor := 0
    pins := [.pair 0]
    roots := #[.pair 3]
    types := .core
    holdings := .none
    stats := { chunks := 1 }
    reclaimed := [] }

theorem arises_pinnedCycle : Arises { chunkCells := 4, growth := .fixed }
    [.pushRoot (.pair 3), .cons (.int 1) (.pair 0), .setCdr (.pair 0) (.pair 0), .pin (.pair 0),
      .cons .nil .nil] pinnedCycle :=
  .perform (.perform (.perform (.perform (.perform (.create rfl) _ rfl) _ rfl) _ rfl) _ rfl) _ rfl

/-- The pair that nothing refers to is freed. -/
theorem collect_pinnedCycle : ∃ h', collect true pinnedCycle = .ok 1 h' ∧
    h'.isAllocated 0 = true ∧ h'.isAllocated 1 = false ∧ h'.roots = #[.pair 3] ∧
    ∃ h'', collect true h' = .ok 0 h'' := by
  obtain ⟨n, h', hrun, _, _, _, hroots, _, _, _, hn, _, hagain⟩ :=
    arises_pinnedCycle.collect_exact true
  have hc : collect true pinnedCycle = .ok 1 { pinnedCycle with
      cells := #[.pair .nil (.pair 0), .free (some 2), .free (some 3), .free none]
      chunks := #[{ head := some 1, freeCount := 3 }]
      stats := { collections := 1, lastFreed := 1, totalFreed := 1, live := 1, chunks := 1 } } := by
    with_unfolding_all rfl
  rw [hrun] at hc
  cases hc
  exact ⟨_, hrun, rfl, rfl, hroots, hagain⟩

end LispMachine.Heap
