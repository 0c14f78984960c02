import LispMachine.Proofs.Heap.History

/-!
# The representation of a heap

* `Value.word`, `Cell.headWord` -- the first word of a cell as it lies in memory. The tag of a free
  cell is the type word of the type that no object has, so it must never be the first word of a
  pair or of an object (`Cell.headWord_eq_freeTag`);
* `Heap.Granted` -- what an allocation does to a heap: the cell was not in use, and nothing that is
  in use changes;
* `Heap.Arises.represented` -- **the representation invariant holds of every heap that arises**, and
  what follows from it for an allocation.
-/

namespace LispMachine

/-! ## 1. Words -/

/-- A value as a word, for a placement of the cells in memory. -/
def Value.word (place : Addr → Nat) : Value → Nat
  | .nil => 0
  | .int n => 4 * n.toNat + 1
  | .sym id => 4 * id + 2
  | .pair a => place a
  | .object a => place a + 3

/-- The tag of a free cell: all three low bits, and type number zero. -/
def freeTag : Nat := 7

/-- The first word of a cell: a tag, the first slot of a pair, or the type of an object. -/
def Cell.headWord (place : Addr → Nat) : Cell → Nat
  | .free _ => freeTag
  | .pair x _ => x.word place
  | .object t _ => 8 * t + 7

/-- No value has all three low bits set, since cells are placed at multiples of sixteen. -/
theorem Value.word_mod {place : Addr → Nat} (hp : ∀ a, place a % 16 = 0) (v : Value) :
    v.word place % 8 ≠ 7 := by
  cases v with
  | nil => exact nofun
  | int n =>
    show (4 * n.toNat + 1) % 8 ≠ 7
    omega
  | sym id =>
    show (4 * id + 2) % 8 ≠ 7
    have : ∀ m : Nat, (4 * m + 2) % 8 ≠ 7 := fun m => by omega
    exact this id
  | pair a =>
    show place a % 8 ≠ 7
    have := hp a
    omega
  | object a =>
    show (place a + 3) % 8 ≠ 7
    have := hp a
    omega

/-- The tag marks the free cells, if no object has the type number zero. -/
theorem Cell.headWord_eq_freeTag {place : Addr → Nat} (hp : ∀ a, place a % 16 = 0) {c : Cell}
    (ht : ∀ t p, c = .object t p → t ≠ CoreType.nil.id) :
    c.headWord place = freeTag ↔ c.isAllocated = false := by
  cases c with
  | free next => exact iff_of_true rfl rfl
  | pair x y =>
    refine iff_of_false (fun e => ?_) nofun
    replace e : x.word place = 7 := e
    exact x.word_mod hp (by rw [e])
  | object t p =>
    refine iff_of_false (fun e => ht t p rfl ?_) nofun
    replace e : 8 * t + 7 = 7 := e
    have : ∀ m : Nat, 8 * m + 7 = 7 → m = 0 := fun m => by omega
    exact this t e

namespace Heap

variable {cfg : Config} {ops : List Operation} {h h' g : Heap} {a : Nat}

/-! ## 2. What an allocation does -/

/-- The cell `a` has been allocated for `c`, with the values `vs` as roots. -/
structure Granted (h : Heap) (vs : List Value) (a : Addr) (c : Cell) (h' : Heap) : Prop where
  content : h'.cells[a]? = some c
  /-- The cell was not in use. -/
  unused : ¬ (h.isAllocated a = true ∧ h.Reaches vs a)
  /-- Any other cell that is allocated was so before, with the same content. -/
  kept : ∀ b, b ≠ a → h'.isAllocated b = true →
    h.isAllocated b = true ∧ h'.cells[b]? = h.cells[b]?
  /-- What is in use stays allocated. -/
  survives : ∀ b, h.isAllocated b = true → h.Reaches vs b → h'.isAllocated b = true
  /-- While there are free cells, it is one of them, and nothing else changes. -/
  here : (∃ b, h.IsFree b) → h.IsFree a ∧ (∀ b, b ≠ a → h'.cells[b]? = h.cells[b]?) ∧
    h'.stats = h.stats

theorem isAllocated_congr {b : Nat} (hb : h'.cells[b]? = h.cells[b]?) :
    h'.isAllocated b = h.isAllocated b := by
  rw [isAllocated, isAllocated, hb]

theorem Taken.granted {c : Cell} (ht : Taken h a g) (hc : c.isAllocated = true) :
    Granted h (h.rootValues true) a c (g.filled a c) := by
  have hne : ∀ b : Nat, b ≠ a → (g.filled a c).cells[b]? = g.cells[b]? := fun b hb =>
    Array.getElem?_setIfInBounds_ne (Ne.symm hb)
  have hself : (g.filled a c).cells[a]? = some c :=
    Array.getElem?_setIfInBounds_self_of_lt ht.isFree.lt_size
  refine ⟨hself, fun ⟨hal, hr⟩ => ?_, fun b hb hal => ?_, fun b hal hr => ?_, fun hfree => ?_⟩
  · have hg := ht.survives a hal hr
    rw [ht.isFree.not_isAllocated] at hg
    cases hg
  · rw [isAllocated_congr (hne b hb)] at hal
    rw [hne b hb]
    exact ht.kept b hal
  · by_cases hb : b = a
    · subst hb
      exact isAllocated_iff.mpr ⟨c, hself, hc⟩
    · rw [isAllocated_congr (hne b hb)]
      exact ht.survives b hal hr
  · obtain ⟨hcells, hstats⟩ := ht.unchanged hfree
    refine ⟨?_, fun b hb => ?_, hstats⟩
    · obtain ⟨next, hn⟩ := ht.isFree
      exact ⟨next, hcells ▸ hn⟩
    · rw [hne b hb, hcells]

/-- **A pair is made in a cell that is not in use**, its halves being roots. -/
theorem cons_granted {x y v : Value} (hv : h.Valid) (hc : cons x y h = .ok v h') :
    ∃ a, v = .pair a ∧ Granted h (h.rootValues true ++ [x, y]) a (.pair x y) h' := by
  rcases cons_cases hv x y with ⟨a, g, ht, hrun⟩ | ⟨g, hrun⟩
  · rw [hrun] at hc
    cases hc
    have hg := ht.granted (c := .pair x y) rfl
    rw [rootValues_rooting] at hg
    refine ⟨a, rfl, hg.content, fun hr => hg.unused ⟨hr.1, ?_⟩, hg.kept, fun b hal hr => ?_, hg.here⟩
    · exact hr.2.congr (fun _ => id) rfl rfl rfl
    · exact hg.survives b hal (hr.congr (fun _ => id) rfl rfl rfl)
  · rw [hrun] at hc
    cases hc

/-- **An object is made in a cell that is not in use.** -/
theorem make_granted {t : TypeId} {p : Payload} {v : Value} (hv : h.Valid)
    (hm : make t p h = .ok v h') :
    ∃ a, v = .object a ∧ Granted h (h.rootValues true) a (.object t p) h' := by
  rcases make_cases hv t p with ⟨_, a, g, ht, hrun⟩ | ⟨_, g, hrun⟩ | ⟨_, hrun⟩
  · rw [hrun] at hm
    cases hm
    exact ⟨a, rfl, ht.granted rfl⟩
  · rw [hrun] at hm
    cases hm
  · rw [hrun] at hm
    cases hm

/-! ## 3. When there is a free cell -/

/-- A cell is taken whichever chunk has a free one. -/
theorem takeCell_of_isFree (hv : h.Valid) (hf : ∃ b, h.IsFree b) :
    ∃ a g, takeCell h = .ok a g := by
  obtain ⟨g, hroom, hg, ⟨k, b, hk, hrun⟩ | ⟨hnone, hrun⟩⟩ := takeCell_cases hv
  · exact ⟨b, _, hrun⟩
  · cases hroom with
    | here => exact absurd hf (not_exists.mpr hnone)
    | collected hfull _ _ => exact absurd hf (not_exists.mpr hfull)
    | grown hfull _ _ => exact absurd hf (not_exists.mpr hfull)

/-- No cell is taken only of a heap without free cells. -/
theorem not_isFree_of_takeCell_error {e : Fault} (hv : h.Valid) (ht : takeCell h = .error e g) :
    ∀ b, ¬ g.IsFree b := by
  obtain ⟨g', _, _, ⟨k, b, _, hrun⟩ | ⟨hnone, hrun⟩⟩ := takeCell_cases hv
  · rw [hrun] at ht
    cases ht
  · rw [hrun] at ht
    cases ht
    exact hnone

theorem cons_of_isFree (hv : h.Valid) (hf : ∃ b, h.IsFree b) (x y : Value) :
    ∃ v h', cons x y h = .ok v h' := by
  obtain ⟨a, g, ht⟩ := takeCell_of_isFree (hv.rooting x y) hf
  exact ⟨_, _, cons_of_taken ht (by rw [(takeCell_ok (hv.rooting x y) ht).frame])⟩

theorem make_of_isFree {t : TypeId} (hv : h.Valid) (hf : ∃ b, h.IsFree b) (hm : h.IsMakeable t)
    (p : Payload) : ∃ v h', make t p h = .ok v h' := by
  obtain ⟨a, g, ht⟩ := takeCell_of_isFree hv hf
  rw [make_run, if_pos (by simpa [IsMakeable] using hm), ht]
  exact ⟨_, _, rfl⟩

/-! ## 4. The invariant -/

/-- **The representation of every heap that arises.** In each chunk the free list ends, has no
    duplicates, is as long as the count says, and holds the free cells of the chunk; only free cells
    carry their tag; no pin is there twice; the chunks make up the cells, the cursor is one of them,
    and what was ever allocated is in use or was counted when it was freed. So an allocation takes a
    free cell, whichever chunk has one, and changes nothing else. -/
theorem Arises.represented (ha : Arises cfg ops h) :
    (∀ k chunk, h.chunks[k]? = some chunk → ∃ l, Linked h.cells chunk.head l ∧ l.Nodup ∧
      chunk.freeCount = l.length ∧ ∀ a, a ∈ l ↔ a / h.chunkCells = k ∧ h.IsFree a) ∧
    (∀ place : Addr → Nat, (∀ a, place a % 16 = 0) → ∀ (a : Addr) (c : Cell),
      h.cells[a]? = some c → (c.headWord place = freeTag ↔ h.IsFree a)) ∧
    h.pins.Nodup ∧
    h.cells.size = h.chunkCount * h.chunkCells ∧ h.capacity = h.cells.size ∧
    h.cursor < h.chunkCount ∧
    births ops = h.liveCount + h.stats.totalFreed ∧
    (∀ a g, takeCell h = .ok a g → g.IsFree a ∧
      ∀ b, g.isAllocated b = true → h.isAllocated b = true ∧ g.cells[b]? = h.cells[b]?) ∧
    (∀ x y v h', cons x y h = .ok v h' →
      ∃ a, v = .pair a ∧ Granted h (h.rootValues true ++ [x, y]) a (.pair x y) h') ∧
    (∀ t p v h', make t p h = .ok v h' →
      ∃ a, v = .object a ∧ Granted h (h.rootValues true) a (.object t p) h') ∧
    ((∃ b, h.IsFree b) → (∀ x y, ∃ v h', cons x y h = .ok v h') ∧
      ∀ t p, h.IsMakeable t → ∃ v h', make t p h = .ok v h') ∧
    (∀ e g, takeCell h = .error e g → e = .heapExhausted ∧ ∀ b, ¬ g.IsFree b) := by
  have hk := ha.kept
  have hv := hk.valid
  refine ⟨fun k chunk hchunk => ?_, fun place hp a c hc => ?_, hv.pins_nodup, hv.size, hv.size.symm,
    hv.cursor_lt, ?_, fun a g ht => ?_, fun x y v h' hc => cons_granted hv hc,
    fun t p v h' hm => make_granted hv hm, fun hf => ⟨fun x y => cons_of_isFree hv hf x y,
    fun t p hm => make_of_isFree hv hf hm p⟩, fun e g ht => ⟨takeCell_error hv ht,
    not_isFree_of_takeCell_error hv ht⟩⟩
  · obtain ⟨l, hl⟩ := hv.listed k chunk hchunk
    refine ⟨l, hl.linked, hl.nodup, hl.count, fun a => ?_⟩
    rw [hl.mem_iff a]
    exact and_congr_right fun _ => and_iff_left nofun
  · rw [Cell.headWord_eq_freeTag hp fun t p e => (hv.typed a t p (e ▸ hc)).1]
    constructor
    · intro hal
      cases c with
      | free next => exact ⟨next, hc⟩
      | pair x y => cases hal
      | object t p => cases hal
    · rintro ⟨next, hn⟩
      rw [hc] at hn
      cases hn
      rfl
  · rw [hv.liveCount_eq]
    exact hk.births.symm
  · have htaken := takeCell_ok hv ht
    exact ⟨htaken.isFree, htaken.kept⟩

/-- One cell, after it was allocated a second time. -/
def onlyCell : Heap :=
  { chunkCells := 1
    growth := .fixed
    cells := #[.pair (.int 2) .nil]
    chunks := #[{ head := none, freeCount := 0 }]
    cursor := 0
    pins := []
    roots := #[]
    types := .core
    holdings := .none
    stats := { collections := 1, lastFreed := 1, totalFreed := 1, live := 0, chunks := 1 }
    reclaimed := [] }

/-- Two births, of which one is in use and one was freed. -/
theorem represented_onlyCell :
    births [.cons (.int 2) .nil, .cons (.int 1) .nil] =
      onlyCell.liveCount + onlyCell.stats.totalFreed ∧
    onlyCell.cells.size = onlyCell.chunkCount * onlyCell.chunkCells := by
  have hagain : (Operation.cons (.int 2) .nil).perform { onlyCell with
      cells := #[.pair (.int 1) .nil], stats := { chunks := 1 } } = .ok () onlyCell := by
    with_unfolding_all rfl
  have ha : Arises { chunkCells := 1, growth := .fixed }
      [.cons (.int 2) .nil, .cons (.int 1) .nil] onlyCell :=
    .perform (.perform (.create rfl) _ rfl) _ hagain
  obtain ⟨_, _, _, hsize, _, _, hbirths, _⟩ := ha.represented
  exact ⟨hbirths, hsize⟩

end Heap

end LispMachine
