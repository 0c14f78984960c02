import LispMachine.Proofs.Heap.Representation
import Mathlib.Data.Set.Card

/-!
# When a heap is exhausted

* `Growth.most` -- the most chunks that a policy allows, and `Arises.within`: there are never more;
* `Heap.inUse` -- the number of allocated cells that can be reached from values;
* `Heap.takeCell_exhausted_iff` -- **no cell is taken just when every cell is in use and no chunk is
  added**. A chunk is added when less than an eighth of the heap is free, and an eighth of fewer than
  eight cells is none, so that a heap of fewer than eight cells never grows;
* `Heap.Arises.exhausted_iff` -- the same of allocations, and with chunks of eight cells or more in
  terms of the policy alone;
* `Heap.exhausted_twoPinned` -- a heap of two cells that is exhausted while three chunks are left.
-/

namespace LispMachine

/-- The most chunks that a policy allows; the first one is there in any case. -/
def Growth.most : Growth → Nat
  | fixed => 1
  | upTo maxChunks => max 1 maxChunks

namespace Heap

variable {cfg : Config} {ops : List Operation} {h h' g : Heap} {vs : List Value} {n : Nat}

/-! ## 1. Cells in use -/

/-- The number of allocated cells that can be reached from values. -/
noncomputable def inUse (h : Heap) (vs : List Value) : Nat :=
  Set.ncard {a : Addr | h.isAllocated a = true ∧ h.Reaches vs a}

theorem ncard_isAllocated (h : Heap) : Set.ncard {a : Addr | h.isAllocated a = true} =
    h.allocatedCount := by
  have hset : {a : Addr | h.isAllocated a = true} =
      (((List.range h.cells.size).filter h.isAllocated).toFinset : Set Nat) := by
    ext a
    rw [Set.mem_ofPred_eq, Finset.mem_coe, List.mem_toFinset, List.mem_filter, List.mem_range]
    exact ⟨fun hal => ⟨lt_size_of_isAllocated hal, hal⟩, And.right⟩
  rw [hset, Set.ncard_coe_finset, List.toFinset_card_of_nodup (List.nodup_range.filter _),
    allocatedCount, List.countP_eq_length_filter]

/-- What a collection leaves is what was in use. -/
theorem Collected.inUse_eq (hc : Collected h true n g) :
    h.inUse (h.rootValues true) = g.allocatedCount := by
  rw [← ncard_isAllocated, inUse]
  exact congrArg Set.ncard (Set.ext fun a => (hc.isAllocated_iff a).symm)

/-- Every cell is allocated just when none is free. -/
theorem allocatedCount_eq_size_iff : h.allocatedCount = h.cells.size ↔ ∀ a, ¬ h.IsFree a := by
  have hlen : h.cells.size = (List.range h.cells.size).length := by simp
  rw [allocatedCount]
  conv_lhs => rhs; rw [hlen]
  rw [List.countP_eq_length]
  constructor
  · intro hall a hf
    have hal := hall a (List.mem_range.mpr hf.lt_size)
    rw [hf.not_isAllocated] at hal
    cases hal
  · intro hnone a ha
    exact (isFree_or_isAllocated (List.mem_range.mp ha)).resolve_left (hnone a)

theorem allocatedCount_le_size (h : Heap) : h.allocatedCount ≤ h.cells.size := by
  rw [allocatedCount]
  exact List.countP_le_length.trans_eq List.length_range

theorem inUse_le_allocatedCount (h : Heap) (vs : List Value) :
    h.inUse vs ≤ h.allocatedCount := by
  rw [← ncard_isAllocated, inUse]
  exact Set.ncard_le_ncard (fun _ ha => ha.1)
    ((Set.finite_lt_nat h.cells.size).subset fun _ ha => lt_size_of_isAllocated ha)

/-- While a cell is free, not every cell is in use. -/
theorem inUse_ne_size (hf : ∃ a, h.IsFree a) (vs : List Value) : h.inUse vs ≠ h.cells.size := by
  have hle := h.inUse_le_allocatedCount vs
  have hlt := h.allocatedCount_le_size
  intro heq
  obtain ⟨a, ha⟩ := hf
  exact allocatedCount_eq_size_iff.mp (by omega) a ha

/-! ## 2. When no cell is taken -/

/-- A heap without free cells counts none. -/
theorem freeCells_eq_zero (hv : h.Valid) (hf : ∀ a, ¬ h.IsFree a) : h.freeCells = 0 := by
  rw [freeCells, hv.liveCount_eq, allocatedCount_eq_size_iff.mpr hf, hv.size, Nat.sub_self]

theorem exists_isFree_grown (hv : h.Valid) : ∃ a, h.grown.IsFree a :=
  ⟨h.chunkCount * h.chunkCells,
    isFree_withChunk hv.toLaid (Nat.mul_div_cancel _ hv.chunkCells_pos)⟩

/-- **No cell is taken just when every cell is in use**, and the heap may not grow, or has too few
    cells to do so. -/
theorem takeCell_exhausted_iff (hv : h.Valid) :
    (∃ g, takeCell h = .error .heapExhausted g) ↔
      h.inUse (h.rootValues true) = h.capacity ∧ (h.mayGrow = false ∨ h.capacity < 8) := by
  obtain ⟨g, hroom, hg, htake⟩ := takeCell_cases hv
  have hfault : (∃ g, takeCell h = .error .heapExhausted g) ↔ ∀ a, ¬ g.IsFree a := by
    rcases htake with ⟨k, a, hk, hrun⟩ | ⟨hnone, hrun⟩
    · rw [hrun]
      exact iff_of_false (fun ⟨_, e⟩ => nomatch e) fun e => e a (hg.head_isFree hk).1
    · exact iff_of_true ⟨g, hrun⟩ hnone
  rw [hfault, ← hv.size]
  cases hroom with
  | here hf => exact iff_of_false (not_forall_not.mpr hf) fun e => inUse_ne_size hf _ e.1
  | collected hfull hc hstay =>
    have hcap : g.capacity = h.cells.size := by rw [← hc.valid.size, hc.size]
    have hgrow : g.mayGrow = h.mayGrow := by rw [mayGrow, mayGrow, hc.chunkCount, hc.frame]
    rw [hc.inUse_eq, ← hc.size, allocatedCount_eq_size_iff]
    refine ⟨fun hnone => ⟨hnone, ?_⟩, And.left⟩
    -- nothing is free, so that the heap is crowded as soon as an eighth of it is a cell
    rw [isCrowded, freeCells_eq_zero hc.valid hnone, decide_eq_true_eq, hcap, hgrow, not_and,
      Bool.not_eq_true] at hstay
    rw [hc.size]
    by_cases h8 : h.cells.size < 8
    · exact .inr h8
    · exact .inl (hstay (by omega))
  | @grown n c hfull hc hgo =>
    refine iff_of_false (not_forall_not.mpr (exists_isFree_grown hc.valid)) fun e => ?_
    have hcap : c.capacity = h.cells.size := by rw [← hc.valid.size, hc.size]
    have hgrow : c.mayGrow = h.mayGrow := by rw [mayGrow, mayGrow, hc.chunkCount, hc.frame]
    obtain ⟨hcrowded, hmay⟩ := hgo
    rw [isCrowded, hcap, decide_eq_true_eq] at hcrowded
    rcases e.2 with hno | h8
    · rw [hgrow, hno] at hmay
      cases hmay
    · omega

/-- What is in use does not depend on the root stack. -/
theorem inUse_rooting (h : Heap) (x y : Value) (vs : List Value) :
    (h.rooting x y).inUse vs = h.inUse vs :=
  congrArg Set.ncard (Set.ext fun _ => and_congr_right fun _ =>
    ⟨fun hr => hr.congr (fun _ => id) rfl rfl rfl, fun hr => hr.congr (fun _ => id) rfl rfl rfl⟩)

/-- The same of a pair, whose halves are roots, too. -/
theorem cons_exhausted_iff (hv : h.Valid) (x y : Value) :
    (∃ g, cons x y h = .error .heapExhausted g) ↔
      h.inUse (h.rootValues true ++ [x, y]) = h.capacity ∧
        (h.mayGrow = false ∨ h.capacity < 8) := by
  have htake := takeCell_exhausted_iff (hv.rooting x y)
  rw [rootValues_rooting, inUse_rooting] at htake
  refine Iff.trans ?_ htake
  cases ht : takeCell (h.rooting x y) with
  | ok a g =>
    rw [cons_of_taken ht (by rw [(takeCell_ok (hv.rooting x y) ht).frame])]
    exact iff_of_false (by rintro ⟨_, ⟨⟩⟩) (by rintro ⟨_, ⟨⟩⟩)
  | error e g =>
    cases takeCell_error (hv.rooting x y) ht
    exact iff_of_true ⟨g, cons_of_fault ht⟩ ⟨g, rfl⟩

/-- The same of an object that may be made. -/
theorem make_exhausted_iff {t : TypeId} (hv : h.Valid) (hm : h.IsMakeable t) (p : Payload) :
    (∃ g, make t p h = .error .heapExhausted g) ↔
      h.inUse (h.rootValues true) = h.capacity ∧ (h.mayGrow = false ∨ h.capacity < 8) := by
  refine Iff.trans ?_ (takeCell_exhausted_iff hv)
  rw [make_run, if_pos (by simpa [IsMakeable] using hm)]
  cases ht : takeCell h with
  | ok a g => exact iff_of_false (by rintro ⟨_, ⟨⟩⟩) (by rintro ⟨_, ⟨⟩⟩)
  | error e g =>
    cases takeCell_error hv ht
    exact iff_of_true ⟨g, rfl⟩ ⟨g, rfl⟩

/-! ## 3. The number of chunks -/

/-- What may happen to the sizes of a heap: a chunk is added if the policy allows one more, and an
    eighth of the heap is at least a cell. -/
structure Resized (h h' : Heap) : Prop where
  growth : h'.growth = h.growth
  chunkCells : h'.chunkCells = h.chunkCells
  chunkCount : h'.chunkCount = h.chunkCount ∨
    h.mayGrow = true ∧ 8 ≤ h.capacity ∧ h'.chunkCount = h.chunkCount + 1

/-- Nothing but chunks and policy matters. -/
theorem Resized.same (hg : h'.growth = h.growth) (hn : h'.chunkCells = h.chunkCells)
    (hk : h'.chunkCount = h.chunkCount) : Resized h h' := ⟨hg, hn, .inl hk⟩

theorem Collected.resized {scanRoots : Bool} (hc : Collected h scanRoots n h') : Resized h h' :=
  .same (by rw [hc.frame]) (by rw [hc.frame]) hc.chunkCount

theorem Room.resized (hr : Room h h') : Resized h h' := by
  cases hr with
  | here => exact .same rfl rfl rfl
  | collected _ hc _ => exact hc.resized
  | @grown _ g _ hc hgo =>
    obtain ⟨hcrowded, hmay⟩ := hgo
    have hcap : g.capacity = h.capacity := by rw [capacity, capacity, hc.chunkCount, hc.frame]
    have hgrow : g.mayGrow = h.mayGrow := by rw [mayGrow, mayGrow, hc.chunkCount, hc.frame]
    rw [isCrowded, decide_eq_true_eq, hcap] at hcrowded
    refine ⟨hc.resized.growth, hc.resized.chunkCells, .inr ⟨hgrow ▸ hmay, by omega, ?_⟩⟩
    rw [← hc.chunkCount]
    exact chunkCount_withChunk g

theorem resized_takeCell {a : Addr} (hv : h.Valid) (ht : takeCell h = .ok a h') : Resized h h' := by
  obtain ⟨g, hroom, _, ⟨k, b, _, hrun⟩ | ⟨_, hrun⟩⟩ := takeCell_cases hv
  · have hr := hroom.resized
    rw [hrun] at ht
    cases ht
    have hcount : (g.takeOff k a).chunkCount = g.chunkCount := Array.size_modify
    exact ⟨hr.growth, hr.chunkCells, hcount.symm ▸ hr.chunkCount⟩
  · rw [hrun] at ht
    cases ht

/-- Operations keep to the policy. -/
theorem Operation.resized {op : Operation} (hv : h.Valid) (hop : op.perform h = .ok () h') :
    Resized h h' := by
  cases op with
  | cons x y =>
    cases ht : Heap.takeCell (h.rooting x y) with
    | ok a g =>
      have hrun := cons_of_taken ht (by rw [(takeCell_ok (hv.rooting x y) ht).frame])
      rw [Operation.perform, run_bind hrun] at hop
      cases hop
      have hr := resized_takeCell (hv.rooting x y) ht
      exact ⟨hr.growth, hr.chunkCells, hr.chunkCount⟩
    | error e g =>
      rw [Operation.perform, run_bind_error (cons_of_fault ht)] at hop
      cases hop
  | make t p =>
    obtain ⟨v, g, hrun, hend⟩ := bind_eq_ok.mp hop
    cases hend
    rw [make_run] at hrun
    split at hrun
    · cases ht : Heap.takeCell h with
      | ok a g =>
        rw [ht] at hrun
        cases hrun
        have hr := resized_takeCell hv ht
        exact ⟨hr.growth, hr.chunkCells, hr.chunkCount⟩
      | error e g =>
        rw [ht] at hrun
        cases hrun
    · cases hrun
  | setCar v x =>
    cases v with
    | pair a =>
      cases hop
      exact .same rfl rfl rfl
    | _ => cases hop
  | setCdr v y =>
    cases v with
    | pair a =>
      cases hop
      exact .same rfl rfl rfl
    | _ => cases hop
  | pin v =>
    cases hop
    show Resized h (if v ∈ h.pins then h else { h with pins := v :: h.pins })
    split <;> exact .same rfl rfl rfl
  | unpin v =>
    cases hop
    exact .same rfl rfl rfl
  | pushRoot v =>
    cases hop
    exact .same rfl rfl rfl
  | setRoot slot v =>
    obtain ⟨-, rfl⟩ := setRoot_eq_ok.mp hop
    exact .same rfl rfl rfl
  | popRoots base =>
    obtain ⟨-, rfl⟩ := popRoots_eq_ok.mp hop
    exact .same rfl rfl rfl
  | registerType entry =>
    cases hop
    exact .same rfl rfl rfl
  | collect scanRoots =>
    obtain ⟨freed, g, hrun, hc⟩ := collect_spec hv scanRoots
    rw [Operation.perform, run_bind hrun] at hop
    cases hop
    exact hc.resized
  | rehold holdings =>
    cases hop
    exact .same rfl rfl rfl

/-- What an operation makes of a heap. -/
structure Succeeds (h h' : Heap) : Prop extends Resized h h' where
  valid : h'.Valid

theorem Operation.succeeds (op : Operation) (hv : h.Valid) (hop : op.perform h = .ok () h') :
    Succeeds h h' := ⟨Operation.resized hv hop, Operation.valid op hv hop⟩

/-- The sizes of a heap are those of a configuration, with no more chunks than it allows. A chunk of
    fewer than eight cells stays alone. -/
structure Within (cfg : Config) (h : Heap) : Prop where
  growth : h.growth = cfg.growth
  chunkCells : h.chunkCells = cfg.chunkCells
  chunkCount_pos : 0 < h.chunkCount
  chunkCount_le : h.chunkCount ≤ cfg.growth.most
  alone : cfg.chunkCells < 8 → h.chunkCount = 1

/-- A chunk is added only while the policy allows one more. -/
theorem Within.resized (hw : Within cfg h) (hr : Resized h h') : Within cfg h' := by
  refine ⟨hr.growth.trans hw.growth, hr.chunkCells.trans hw.chunkCells, ?_, ?_, fun h8 => ?_⟩
  · have := hw.chunkCount_pos
    rcases hr.chunkCount with hsame | ⟨_, _, hmore⟩ <;> omega
  · rcases hr.chunkCount with hsame | ⟨hmay, _, hmore⟩
    · exact hsame ▸ hw.chunkCount_le
    · rw [mayGrow, hw.growth] at hmay
      cases hgrowth : cfg.growth with
      | fixed =>
        rw [hgrowth] at hmay
        cases hmay
      | upTo m =>
        rw [hgrowth, decide_eq_true_eq] at hmay
        exact hmore ▸ (Nat.succ_le_of_lt hmay).trans (Nat.le_max_right 1 m)
  · rcases hr.chunkCount with hsame | ⟨_, hroom, _⟩
    · exact hsame.trans (hw.alone h8)
    · rw [capacity, hw.alone h8, hw.chunkCells] at hroom
      omega

theorem within_create (hc : create cfg = .ok h) : Within cfg h := by
  obtain ⟨rfl, _⟩ := create_eq hc
  refine ⟨rfl, rfl, Nat.succ_pos 0, ?_, fun _ => rfl⟩
  show 1 ≤ cfg.growth.most
  cases cfg.growth with
  | fixed => exact Nat.le_refl 1
  | upTo m => exact Nat.le_max_left 1 m

/-- **A heap that arises has no more chunks than its policy allows.** -/
theorem Arises.within (ha : Arises cfg ops h) : Within cfg h := by
  induction ha with
  | create hc => exact within_create hc
  | perform ha op hop ih => exact ih.resized (Operation.resized ha.kept.valid hop)

/-! ## 4. Exhaustion and the policy -/

/-- A heap may not grow just when it has all the chunks of its policy. -/
theorem Within.mayGrow_eq_false_iff (hw : Within cfg h) :
    h.mayGrow = false ↔ h.chunkCount = cfg.growth.most := by
  have hpos := hw.chunkCount_pos
  have hle := hw.chunkCount_le
  rw [mayGrow, hw.growth]
  cases hg : cfg.growth with
  | fixed =>
    rw [hg, Growth.most] at hle
    exact iff_of_true rfl (Nat.le_antisymm hle hpos)
  | upTo m =>
    rw [hg, Growth.most] at hle
    rw [decide_eq_false_iff_not, Growth.most]
    omega

/-- With eight cells in every chunk, or no chunk to be added, the policy alone decides. -/
theorem Within.used_iff (hw : Within cfg h) (hroom : 8 ≤ cfg.chunkCells ∨ cfg.growth.most = 1)
    (hle : n ≤ h.capacity) :
    n = h.capacity ∧ (h.mayGrow = false ∨ h.capacity < 8) ↔
      n = cfg.growth.most * cfg.chunkCells := by
  have hmost : h.capacity ≤ cfg.growth.most * cfg.chunkCells := by
    rw [capacity, hw.chunkCells]
    exact Nat.mul_le_mul_right _ hw.chunkCount_le
  rw [hw.mayGrow_eq_false_iff]
  constructor
  · rintro ⟨rfl, hall | hsmall⟩
    · rw [capacity, hall, hw.chunkCells]
    · rw [capacity, hw.chunkCells] at hsmall ⊢
      rcases hroom with h8 | h1
      · have := Nat.le_mul_of_pos_left cfg.chunkCells hw.chunkCount_pos
        omega
      · rw [Nat.le_antisymm (hw.chunkCount_le.trans_eq h1) hw.chunkCount_pos, h1]
  · intro hn
    have hcap : h.capacity = cfg.growth.most * cfg.chunkCells := Nat.le_antisymm hmost (hn ▸ hle)
    refine ⟨hn.trans hcap.symm, ?_⟩
    by_cases h0 : cfg.chunkCells = 0
    · rw [hcap, h0]
      exact .inr (by omega)
    · rw [capacity, hw.chunkCells] at hcap
      exact .inl (Nat.eq_of_mul_eq_mul_right (Nat.pos_of_ne_zero h0) hcap)

theorem inUse_le (hv : h.Valid) (vs : List Value) : h.inUse vs ≤ h.capacity :=
  (h.inUse_le_allocatedCount vs).trans (h.allocatedCount_le_size.trans_eq hv.size)

/-- An allocation whose roots are some values finds the heap exhausted. -/
def Full (h : Heap) (vs : List Value) : Prop :=
  h.inUse vs = h.capacity ∧ (h.mayGrow = false ∨ h.capacity < 8)

/-- **A heap of the same sizes** with at least as many cells in use is exhausted, too. -/
theorem Within.full_of_le {vs' : List Value} (hw : Within cfg h) (hw' : Within cfg h')
    (hv' : h'.Valid) (hle : h.inUse vs ≤ h'.inUse vs') (hfull : h.Full vs) : h'.Full vs' := by
  have hcap := inUse_le hv' vs'
  rcases Nat.lt_or_ge cfg.chunkCells 8 with h8 | h8
  · have hone : h.capacity = cfg.chunkCells := by
      rw [capacity, hw.alone h8, hw.chunkCells, Nat.one_mul]
    have hone' : h'.capacity = cfg.chunkCells := by
      rw [capacity, hw'.alone h8, hw'.chunkCells, Nat.one_mul]
    have heq := hfull.1
    exact ⟨by omega, .inr (by omega)⟩
  · have hused := (hw.used_iff (.inl h8) (Nat.le_of_eq hfull.1)).mp hfull
    have hmost : h'.capacity ≤ cfg.growth.most * cfg.chunkCells := by
      rw [capacity, hw'.chunkCells]
      exact Nat.mul_le_mul_right _ hw'.chunkCount_le
    exact (hw'.used_iff (.inl h8) hcap).mpr (by omega)

/-- **When an allocation finds the heap exhausted**: every cell is in use, from the pins, the root
    stack and the halves of a pair, and the policy allows no more chunks or the heap has fewer than
    eight cells. With chunks of eight cells, or a policy of one chunk, this is to say that the cells
    in use are as many as the policy allows at most. There are never more chunks than that. -/
theorem Arises.exhausted_iff (ha : Arises cfg ops h) :
    (∀ x y, (∃ g, cons x y h = .error .heapExhausted g) ↔
      h.inUse (h.rootValues true ++ [x, y]) = h.capacity ∧
        (h.chunkCount = cfg.growth.most ∨ h.capacity < 8)) ∧
    (∀ t p, h.IsMakeable t → ((∃ g, make t p h = .error .heapExhausted g) ↔
      h.inUse (h.rootValues true) = h.capacity ∧
        (h.chunkCount = cfg.growth.most ∨ h.capacity < 8))) ∧
    (8 ≤ cfg.chunkCells ∨ cfg.growth.most = 1 →
      (∀ x y, (∃ g, cons x y h = .error .heapExhausted g) ↔
        h.inUse (h.rootValues true ++ [x, y]) = cfg.growth.most * cfg.chunkCells) ∧
      (∀ t p, h.IsMakeable t → ((∃ g, make t p h = .error .heapExhausted g) ↔
        h.inUse (h.rootValues true) = cfg.growth.most * cfg.chunkCells))) ∧
    h.chunkCount ≤ cfg.growth.most := by
  have hv := ha.kept.valid
  have hw := ha.within
  refine ⟨fun x y => ?_, fun t p hm => ?_, fun hroom => ⟨fun x y => ?_, fun t p hm => ?_⟩,
    hw.chunkCount_le⟩
  · rw [cons_exhausted_iff hv, hw.mayGrow_eq_false_iff]
  · rw [make_exhausted_iff hv hm, hw.mayGrow_eq_false_iff]
  · rw [cons_exhausted_iff hv, hw.used_iff hroom (inUse_le hv _)]
  · rw [make_exhausted_iff hv hm, hw.used_iff hroom (inUse_le hv _)]

/-- Two cells, both pinned, of a heap that may have four chunks. -/
def twoPinned : Heap :=
  { chunkCells := 2
    growth := .upTo 4
    cells := #[.pair .nil .nil, .pair .nil .nil]
    chunks := #[{ head := none, freeCount := 0 }]
    cursor := 0
    pins := [.pair 1, .pair 0]
    roots := #[]
    types := .core
    holdings := .none
    stats := { chunks := 1 }
    reclaimed := [] }

theorem arises_twoPinned : Arises { chunkCells := 2, growth := .upTo 4 }
    [.pin (.pair 1), .cons .nil .nil, .pin (.pair 0), .cons .nil .nil] twoPinned :=
  .perform (.perform (.perform (.perform (.create rfl) _ rfl) _ rfl) _ rfl) _ rfl

/-- **The policy is not used up, and yet the heap is exhausted**: two cells of eight are in use. -/
theorem exhausted_twoPinned :
    Arises { chunkCells := 2, growth := .upTo 4 }
      [.pin (.pair 1), .cons .nil .nil, .pin (.pair 0), .cons .nil .nil] twoPinned ∧
    (∃ g, cons .nil .nil twoPinned = .error .heapExhausted g) ∧
    twoPinned.inUse (twoPinned.rootValues true ++ [.nil, .nil]) < Growth.most (.upTo 4) * 2 := by
  refine ⟨arises_twoPinned, ⟨_, by with_unfolding_all rfl⟩, ?_⟩
  exact (inUse_le arises_twoPinned.kept.valid _).trans_lt (by decide)

/-- Both sides hold of it. -/
theorem exhausted_iff_twoPinned :
    (∃ g, cons .nil .nil twoPinned = .error .heapExhausted g) ∧
    twoPinned.inUse (twoPinned.rootValues true ++ [.nil, .nil]) = twoPinned.capacity ∧
    twoPinned.capacity < 8 := by
  have hfault : ∃ g, cons .nil .nil twoPinned = .error .heapExhausted g := ⟨_, by with_unfolding_all rfl⟩
  obtain ⟨hcons, _⟩ := arises_twoPinned.exhausted_iff
  exact ⟨hfault, ((hcons .nil .nil).mp hfault).1, by decide⟩

end Heap

end LispMachine
