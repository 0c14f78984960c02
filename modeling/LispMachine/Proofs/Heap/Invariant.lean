import LispMachine.Proofs.Heap.FreeList

/-!
# The steps of the allocator keep the invariant

One lemma for each step: a chunk is added (`Laid.addChunk`), a cell is taken off its list
(`ValidBut.pop`), filled (`ValidBut.fill`), and put back (`ValidBut.reclaim`). All of them rest on
`Listed.transfer`: a free list depends on the cells of its own chunk.
-/

namespace LispMachine.Heap

variable {h h' : Heap} {out out' : Option Addr} {j k : Nat} {chunk : Chunk} {l : List Addr}
variable {a : Nat}

/-! ## 1. Addresses and chunks -/

theorem isAllocated_iff : h.isAllocated a = true ↔ ∃ c, h.cells[a]? = some c ∧ c.isAllocated = true := by
  unfold isAllocated
  cases h.cells[a]? <;> simp

theorem IsFree.not_isAllocated (hf : h.IsFree a) : h.isAllocated a = false := by
  obtain ⟨next, hn⟩ := hf
  simp [isAllocated, hn, Cell.isAllocated]

/-- A cell is free or allocated. -/
theorem isFree_or_isAllocated (ha : a < h.cells.size) : h.IsFree a ∨ h.isAllocated a = true := by
  cases hc : h.cells[a] with
  | free next => exact .inl ⟨next, by rw [Array.getElem?_eq_getElem ha, hc]⟩
  | pair x y =>
    exact .inr (isAllocated_iff.mpr ⟨.pair x y, by rw [Array.getElem?_eq_getElem ha, hc], rfl⟩)
  | object t p =>
    exact .inr (isAllocated_iff.mpr ⟨.object t p, by rw [Array.getElem?_eq_getElem ha, hc], rfl⟩)

theorem IsFree.lt_size (hf : h.IsFree a) : a < h.cells.size := by
  obtain ⟨next, hn⟩ := hf
  exact (Array.getElem?_eq_some_iff.mp hn).1

theorem lt_size_of_isAllocated (ha : h.isAllocated a = true) : a < h.cells.size := by
  obtain ⟨c, hc, _⟩ := isAllocated_iff.mp ha
  exact (Array.getElem?_eq_some_iff.mp hc).1

/-- The chunk of a cell is one of the chunks. -/
theorem Laid.div_lt (hl : h.Laid out) (ha : a < h.cells.size) :
    a / h.chunkCells < h.chunkCount := by
  rw [hl.size, capacity] at ha
  exact (Nat.div_lt_iff_lt_mul hl.chunkCells_pos).mpr ha

/-- The addresses of a chunk are those of cells. -/
theorem Laid.lt_size (hl : h.Laid out) (ha : a / h.chunkCells < h.chunkCount) :
    a < h.cells.size := by
  rw [hl.size, capacity]
  exact (Nat.div_lt_iff_lt_mul hl.chunkCells_pos).mp ha

/-! ## 2. One list among others -/

/-- A free list depends on the cells of its chunk. -/
theorem Listed.transfer (hl : h.Listed out j chunk l) (hn : h'.chunkCells = h.chunkCells)
    (hc : ∀ a, a / h.chunkCells = j → h'.cells[a]? = h.cells[a]?)
    (ho : ∀ a, a / h.chunkCells = j → (out' = some a ↔ out = some a)) :
    h'.Listed out' j chunk l := by
  refine ⟨hl.linked.congr fun a ha => hc a ((hl.mem_iff a).mp ha).1, hl.nodup, hl.count, ?_⟩
  intro a
  rw [hl.mem_iff a, hn]
  refine and_congr_right fun hj => ?_
  unfold IsFree
  rw [hc a hj]
  exact and_congr_right fun _ => not_congr (ho a hj).symm

/-- Nothing but the cells, the sizes and the types of a heap matters for its lists. -/
theorem Laid.congr (hl : h.Laid out) (hn : h'.chunkCells = h.chunkCells)
    (hc : h'.cells = h.cells) (hk : h'.chunks = h.chunks) (hp : h'.pins.Nodup)
    (ht : h'.types = h.types) : h'.Laid out where
  size := by rw [hc, hl.size, capacity, capacity, chunkCount, chunkCount, hk, hn]
  chunkCells_pos := hn ▸ hl.chunkCells_pos
  fits := hn ▸ hl.fits
  listed k chunk hchunk := by
    obtain ⟨l, hl'⟩ := hl.listed k chunk (hk ▸ hchunk)
    exact ⟨l, hl'.transfer hn (fun a _ => by rw [hc]) fun _ _ => Iff.rfl⟩
  pins_nodup := hp
  typed a t p ha := by rw [ht]; exact hl.typed a t p (hc ▸ ha)

/-! ## 3. A chunk of free cells -/

theorem size_freshCells (base count : Nat) : (freshCells base count).size = count := by
  simp [freshCells]

theorem getElem?_freshCells {base count i : Nat} (hi : i < count) :
    (freshCells base count)[i]? =
      some (.free (if i + 1 < count then some (base + i + 1) else none)) := by
  simp [freshCells, hi]

/-- Fresh cells behind others are linked one after the other. -/
theorem linked_freshCells (cells : Array Cell) (count : Nat) : ∀ n i, i + n = count →
    Linked (cells ++ freshCells cells.size count) (if i < count then some (cells.size + i) else none)
      (List.range' (cells.size + i) n)
  | 0, i, hi => by
    rw [if_neg (by omega)]
    exact .nil
  | n + 1, i, hi => by
    rw [if_pos (by omega), List.range'_succ]
    refine .cons ?_ (linked_freshCells cells count n (i + 1) (by omega))
    rw [Array.getElem?_append_right (by omega), Nat.add_sub_cancel_left,
      getElem?_freshCells (by omega)]
    rfl

theorem addChunk_run (hl : h.Laid out) : addChunk h = .ok () h.withChunk := by
  unfold addChunk
  rw [if_neg (Nat.pos_iff_ne_zero.mp hl.chunkCells_pos), if_neg (by simp [hl.fits])]

theorem chunkCount_withChunk (h : Heap) : h.withChunk.chunkCount = h.chunkCount + 1 := by
  simp [withChunk, chunkCount]

theorem getElem?_withChunk (ha : a < h.cells.size) : h.withChunk.cells[a]? = h.cells[a]? :=
  Array.getElem?_append_left ha

/-- The cells of the new chunk are free. -/
theorem isFree_withChunk (hl : h.Laid out) (ha : a / h.chunkCells = h.chunkCount) :
    h.withChunk.IsFree a := by
  have hlo : h.chunkCount * h.chunkCells ≤ a :=
    (Nat.le_div_iff_mul_le hl.chunkCells_pos).mp (Nat.le_of_eq ha.symm)
  have hhi : a < (h.chunkCount + 1) * h.chunkCells :=
    (Nat.div_lt_iff_lt_mul hl.chunkCells_pos).mp (by omega)
  rw [Nat.add_mul, Nat.one_mul] at hhi
  have hs : h.cells.size = h.chunkCount * h.chunkCells := hl.size
  have hi : a - h.cells.size < h.chunkCells := by omega
  refine ⟨if a - h.cells.size + 1 < h.chunkCells then some (h.capacity + (a - h.cells.size) + 1)
    else none, ?_⟩
  show (h.cells ++ freshCells h.capacity h.chunkCells)[a]? = _
  rw [Array.getElem?_append_right (by omega), getElem?_freshCells hi]

/-- **One more chunk keeps the invariant**, and its list holds all of its cells. -/
theorem Laid.withChunk (hl : h.Laid none) : h.withChunk.Laid none where
  size := by
    show (h.cells ++ freshCells h.capacity h.chunkCells).size = _
    rw [Array.size_append, size_freshCells, hl.size, capacity, capacity, chunkCount_withChunk,
      Nat.add_mul, Nat.one_mul]
    rfl
  chunkCells_pos := hl.chunkCells_pos
  fits := hl.fits
  listed k chunk hk := by
    replace hk : (h.chunks.push _)[k]? = some chunk := hk
    rw [Array.getElem?_push] at hk
    split at hk
    · rename_i hlast
      cases hk
      subst hlast
      refine ⟨List.range' h.capacity h.chunkCells, ?_, List.nodup_range', ?_, fun a => ?_⟩
      · have := linked_freshCells h.cells h.chunkCells h.chunkCells 0 (Nat.zero_add _)
        rw [if_pos hl.chunkCells_pos, hl.size] at this
        exact this
      · rw [List.length_range']
      · have hiff : a ∈ List.range' h.capacity h.chunkCells ↔ a / h.chunkCells = h.chunkCount := by
          rw [List.mem_range'_1, capacity, Nat.div_eq_iff hl.chunkCells_pos]
          have := hl.chunkCells_pos
          rw [Nat.mul_comm h.chunkCount]
          omega
        rw [hiff]
        exact ⟨fun e => ⟨e, isFree_withChunk hl e, by simp⟩, fun e => e.1⟩
    · obtain ⟨l, hlist⟩ := hl.listed k chunk hk
      have hlt : k < h.chunkCount := (Array.getElem?_eq_some_iff.mp hk).1
      refine ⟨l, hlist.transfer rfl (fun a ha => getElem?_withChunk ?_) fun _ _ => Iff.rfl⟩
      exact hl.lt_size (ha ▸ hlt)
  pins_nodup := hl.pins_nodup
  typed a t p ha := by
    by_cases hs : a < h.cells.size
    · exact hl.typed a t p (by rwa [getElem?_withChunk hs] at ha)
    · replace ha : (h.cells ++ freshCells h.capacity h.chunkCells)[a]? = some (.object t p) := ha
      rw [Array.getElem?_append_right (Nat.le_of_not_lt hs), freshCells, Array.getElem?_ofFn] at ha
      split at ha <;> cases ha

/-! ## 4. Taking and filling a cell -/

/-- A chunk whose list has a head: the cell there is free and of that chunk. -/
theorem Laid.head_isFree (hl : h.Laid out) (hk : h.chunks[k]?.bind Chunk.head = some a) :
    h.IsFree a ∧ a / h.chunkCells = k ∧ out ≠ some a := by
  obtain ⟨chunk, hchunk, hhead⟩ := Option.bind_eq_some_iff.mp hk
  obtain ⟨l, hlist⟩ := hl.listed k chunk hchunk
  have hlink := hlist.linked
  rw [hhead] at hlink
  obtain ⟨_, rest, rfl, _, _⟩ := hlink.tail
  obtain ⟨h1, h2, h3⟩ := (hlist.mem_iff a).mp List.mem_cons_self
  exact ⟨h2, h1, h3⟩

theorem getElem?_modify_ne {α : Type} {xs : Array α} {f : α → α} {i j : Nat} (hij : i ≠ j) :
    (xs.modify i f)[j]? = xs[j]? := by
  rw [Array.getElem?_modify, if_neg hij]

/-- **Taking the head off a list** leaves every list in order, and the cell on none of them. -/
theorem Laid.takeOff (hl : h.Laid none) (hk : h.chunks[k]?.bind Chunk.head = some a) :
    (h.takeOff k a).Laid (some a) where
  size := by
    show h.cells.size = (h.chunks.modify k _).size * h.chunkCells
    rw [Array.size_modify]
    exact hl.size
  chunkCells_pos := hl.chunkCells_pos
  fits := hl.fits
  listed j chunk hj := by
    replace hj : (h.chunks.modify k _)[j]? = some chunk := hj
    obtain ⟨old, hold, hhead⟩ := Option.bind_eq_some_iff.mp hk
    by_cases hjk : k = j
    · subst hjk
      rw [Array.getElem?_modify, if_pos rfl, hold] at hj
      cases hj
      obtain ⟨l, hlist⟩ := hl.listed k old hold
      have hlink := hlist.linked
      rw [hhead] at hlink
      obtain ⟨next, rest, rfl, ha, hrest⟩ := hlink.tail
      have hnext : h.nextFree a = next := by simp [nextFree, ha]
      have hnodup := List.nodup_cons.mp hlist.nodup
      refine ⟨rest, ?_, hnodup.2, ?_, fun b => ?_⟩
      · show Linked h.cells (h.nextFree a) rest
        rwa [hnext]
      · show old.freeCount - 1 = rest.length
        rw [hlist.count, List.length_cons, Nat.add_sub_cancel]
      · have hb := hlist.mem_iff b
        rw [List.mem_cons] at hb
        constructor
        · intro hmem
          obtain ⟨h1, h2, _⟩ := hb.mp (.inr hmem)
          exact ⟨h1, h2, fun e => hnodup.1 (Option.some.inj e ▸ hmem)⟩
        · rintro ⟨h1, h2, h3⟩
          rcases hb.mpr ⟨h1, h2, by simp⟩ with rfl | hmem
          · exact absurd rfl h3
          · exact hmem
    · rw [getElem?_modify_ne hjk] at hj
      obtain ⟨l, hlist⟩ := hl.listed j chunk hj
      refine ⟨l, hlist.transfer rfl (fun _ _ => rfl) fun b hb => ?_⟩
      refine iff_of_false (fun e => hjk ?_) (by simp)
      rw [← hb, ← Option.some.inj e, (hl.head_isFree hk).2.1]
  pins_nodup := hl.pins_nodup
  typed := hl.typed

/-- **Filling the cell that was taken** leaves nothing to except. -/
theorem Laid.fill (hl : h.Laid (some a)) {c : Cell} (hc : c.isAllocated = true)
    (ht : ∀ t p, c = .object t p → t ≠ CoreType.nil.id ∧ h.types.isRegistered t = true) :
    { h with cells := h.cells.setIfInBounds a c }.Laid none where
  size := by
    show (h.cells.setIfInBounds a c).size = _
    rw [Array.size_setIfInBounds]
    exact hl.size
  chunkCells_pos := hl.chunkCells_pos
  fits := hl.fits
  listed j chunk hj := by
    obtain ⟨l, hlist⟩ := hl.listed j chunk hj
    have hne : ∀ b ∈ l, a ≠ b := fun b hb e => ((hlist.mem_iff b).mp hb).2.2 (e ▸ rfl)
    refine ⟨l, hlist.linked.congr fun b hb => Array.getElem?_setIfInBounds_ne (hne b hb),
      hlist.nodup, hlist.count, fun b => ?_⟩
    by_cases hab : a = b
    · subst hab
      refine iff_of_false (fun hb => hne a hb rfl) ?_
      rintro ⟨_, ⟨next, hn⟩, _⟩
      replace hn : (h.cells.setIfInBounds a c)[a]? = some (.free next) := hn
      rw [Array.getElem?_setIfInBounds] at hn
      split at hn
      · split at hn <;> cases hn
        simp [Cell.isAllocated] at hc
      · exact absurd rfl ‹_›
    · rw [hlist.mem_iff b]
      refine and_congr_right fun _ => and_congr (exists_congr fun next => ?_) ?_
      · rw [Array.getElem?_setIfInBounds_ne hab]
      · exact iff_of_true (fun e => hab (Option.some.inj e)) (by simp)
  pins_nodup := hl.pins_nodup
  typed b t p hb := by
    replace hb : (h.cells.setIfInBounds a c)[b]? = some (.object t p) := hb
    rw [Array.getElem?_setIfInBounds] at hb
    split at hb
    · split at hb
      · exact ht t p (Option.some.inj hb)
      · cases hb
    · exact hl.typed b t p hb

/-! ## 5. Putting a cell back -/

/-- **A cell that is freed goes to the head of the list of its chunk.** -/
theorem Laid.reclaim (hl : h.Laid none) (ha : h.isAllocated a = true) :
    (h.reclaim a).Laid none where
  size := by
    show (h.cells.setIfInBounds a _).size = (h.chunks.modify _ _).size * h.chunkCells
    rw [Array.size_setIfInBounds, Array.size_modify]
    exact hl.size
  chunkCells_pos := hl.chunkCells_pos
  fits := hl.fits
  listed j chunk hj := by
    replace hj : (h.chunks.modify (a / h.chunkCells) _)[j]? = some chunk := hj
    have hs := lt_size_of_isAllocated ha
    by_cases hja : a / h.chunkCells = j
    · obtain ⟨old, hold⟩ : ∃ old, h.chunks[j]? = some old :=
        ⟨_, Array.getElem?_eq_getElem (hja ▸ hl.div_lt hs)⟩
      rw [Array.getElem?_modify, if_pos hja, hold] at hj
      cases hj
      obtain ⟨l, hlist⟩ := hl.listed j old hold
      have hal : a ∉ l := fun hmem => by
        have := ((hlist.mem_iff a).mp hmem).2.1.not_isAllocated
        rw [ha] at this
        cases this
      have hcells : (h.reclaim a).cells = h.cells.setIfInBounds a (.free old.head) := by
        show h.cells.setIfInBounds a (.free (h.chunks[a / h.chunkCells]?.bind Chunk.head)) = _
        rw [hja, hold]
        rfl
      refine ⟨a :: l, ?_, List.nodup_cons.mpr ⟨hal, hlist.nodup⟩, ?_, fun b => ?_⟩
      · rw [hcells]
        exact hlist.linked.push hal hs
      · show old.freeCount + 1 = (a :: l).length
        rw [hlist.count, List.length_cons]
      · show b ∈ a :: l ↔ b / h.chunkCells = j ∧ (h.reclaim a).IsFree b ∧ none ≠ some b
        rw [List.mem_cons, IsFree, hcells]
        by_cases hab : a = b
        · subst hab
          refine iff_of_true (.inl rfl) ⟨hja, ⟨old.head, ?_⟩, by simp⟩
          exact Array.getElem?_setIfInBounds_self_of_lt hs
        · rw [Array.getElem?_setIfInBounds_ne hab, hlist.mem_iff b]
          refine ⟨fun e => ?_, .inr⟩
          rcases e with rfl | e
          · exact absurd rfl hab
          · exact e
    · rw [getElem?_modify_ne hja] at hj
      obtain ⟨l, hlist⟩ := hl.listed j chunk hj
      refine ⟨l, hlist.transfer rfl (fun b hb => ?_) fun _ _ => Iff.rfl⟩
      exact Array.getElem?_setIfInBounds_ne fun e => hja (by rw [e, hb])
  pins_nodup := hl.pins_nodup
  typed b t p hb := by
    replace hb : (h.cells.setIfInBounds a _)[b]? = some (.object t p) := hb
    rw [Array.getElem?_setIfInBounds] at hb
    split at hb
    · split at hb <;> cases hb
    · exact hl.typed b t p hb

end LispMachine.Heap
