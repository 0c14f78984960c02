import LispMachine.Proofs.Heap.Invariant
import Mathlib.Algebra.Order.Ring.Nat

/-!
# Counting cells

The heap counts its allocated cells chunk by chunk, from the lengths of the free lists. Under the
representation invariant that is the number of cells that do not carry the tag of a free one
(`Laid.liveCount_eq`): in each chunk the free list is a rearrangement of the free cells
(`Listed.length_eq`), and the chunks follow each other without gap.
-/

namespace LispMachine.Heap

variable {h : Heap} {k : Nat} {chunk : Chunk} {l : List Addr}

/-! ## 1. One chunk -/

/-- The addresses of chunk `k`. -/
def addressesOf (h : Heap) (k : Nat) : List Addr :=
  (List.range h.chunkCells).map (k * h.chunkCells + ·)

theorem mem_addressesOf (hn : 0 < h.chunkCells) {a : Nat} :
    a ∈ h.addressesOf k ↔ a / h.chunkCells = k := by
  rw [addressesOf, List.mem_map, Nat.div_eq_iff hn]
  constructor
  · rintro ⟨i, hi, rfl⟩
    rw [List.mem_range] at hi
    omega
  · intro ha
    exact ⟨a - k * h.chunkCells, List.mem_range.mpr (by omega), by omega⟩

theorem nodup_addressesOf : (h.addressesOf k).Nodup :=
  List.Pairwise.map _ (fun _ _ hab e => hab (Nat.add_left_cancel e)) List.nodup_range

/-- **The free list of a chunk is as long as there are free cells in it.** -/
theorem Listed.length_eq (hl : h.Laid none) (hlist : h.Listed none k chunk l)
    (hk : k < h.chunkCount) : l.length = (h.addressesOf k).countP (!h.isAllocated ·) := by
  rw [List.countP_eq_length_filter]
  refine ((List.perm_ext_iff_of_nodup hlist.nodup (nodup_addressesOf.filter _)).mpr ?_).length_eq
  intro a
  rw [hlist.mem_iff a, List.mem_filter, mem_addressesOf hl.chunkCells_pos]
  refine and_congr_right fun ha => ?_
  constructor
  · intro hf
    simp [hf.1.not_isAllocated]
  · intro hna
    refine ⟨?_, by simp⟩
    rcases isFree_or_isAllocated (hl.lt_size (ha ▸ hk)) with hf | hal
    · exact hf
    · simp [hal] at hna

/-- What a chunk counts as allocated is allocated. -/
theorem Laid.liveIn_eq (hl : h.Laid none) (hk : h.chunks[k]? = some chunk) :
    h.liveIn chunk = (h.addressesOf k).countP h.isAllocated := by
  obtain ⟨l, hlist⟩ := hl.listed k chunk hk
  have hlt : k < h.chunkCount := (Array.getElem?_eq_some_iff.mp hk).1
  have hsum := List.length_eq_countP_add_countP h.isAllocated (l := h.addressesOf k)
  have hfree := hlist.length_eq hl hlt
  have hlen : (h.addressesOf k).length = h.chunkCells := by simp [addressesOf]
  rw [liveIn, hlist.count, hfree]
  simp only [Bool.not_eq_true, Bool.decide_eq_false] at hsum
  omega

/-- A chunk counts no more free cells than it has. -/
theorem Laid.freeCount_le (hl : h.Laid none) (hk : h.chunks[k]? = some chunk) :
    chunk.freeCount ≤ h.chunkCells := by
  obtain ⟨l, hlist⟩ := hl.listed k chunk hk
  have hlt : k < h.chunkCount := (Array.getElem?_eq_some_iff.mp hk).1
  calc
    chunk.freeCount = (h.addressesOf k).countP (!h.isAllocated ·) :=
      hlist.count.trans (hlist.length_eq hl hlt)
    _ ≤ (h.addressesOf k).length := List.countP_le_length
    _ = h.chunkCells := by simp [addressesOf]

/-- A chunk counts the cell that is to be taken next. -/
theorem Laid.freeCount_pos (hl : h.Laid none) (hk : h.chunks[k]? = some chunk)
    (hhead : chunk.head ≠ none) : 0 < chunk.freeCount := by
  obtain ⟨l, hlist⟩ := hl.listed k chunk hk
  have hlinked := hlist.linked
  rw [hlist.count, List.length_pos_iff]
  rintro rfl
  generalize chunk.head = head at hlinked hhead
  cases hlinked
  exact hhead rfl

/-! ## 2. All chunks -/

/-- The number of allocated cells, counted cell by cell. -/
def allocatedCount (h : Heap) : Nat := (List.range h.cells.size).countP h.isAllocated

/-- The first `m` chunks count what is allocated in them. -/
theorem Laid.sum_liveIn (hl : h.Laid none) : ∀ m, m ≤ h.chunkCount →
    (((h.chunks.toList.take m).map h.liveIn).sum =
      (List.range (m * h.chunkCells)).countP h.isAllocated)
  | 0, _ => by simp
  | m + 1, hm => by
    have hlt : m < h.chunks.toList.length := by simpa [chunkCount] using Nat.lt_of_succ_le hm
    have hk : h.chunks[m]? = some h.chunks.toList[m] := by
      rw [← Array.getElem?_toList, List.getElem?_eq_getElem hlt]
    rw [List.take_add_one, List.getElem?_eq_getElem hlt, Option.toList_some, List.map_append,
      List.sum_append, hl.sum_liveIn m (by omega), List.map_singleton, List.sum_singleton,
      hl.liveIn_eq hk, Nat.add_mul, Nat.one_mul, List.range_add, List.countP_append]
    rfl

/-- **The chunks count the allocated cells.** -/
theorem Laid.liveCount_eq (hl : h.Laid none) : h.liveCount = h.allocatedCount := by
  have hsum := hl.sum_liveIn h.chunkCount (Nat.le_refl _)
  rw [List.take_of_length_le (by simp [chunkCount])] at hsum
  rw [allocatedCount, hl.size, capacity, ← hsum, liveCount, ← Array.foldl_toList,
    List.sum_eq_foldl, List.foldl_map]

/-! ## 3. How the number changes -/

/-- Addresses without a cell do not count. -/
theorem countP_isAllocated {n : Nat} (hn : h.cells.size ≤ n) :
    (List.range n).countP h.isAllocated = h.allocatedCount := by
  obtain ⟨d, rfl⟩ := Nat.exists_eq_add_of_le hn
  rw [List.range_add, List.countP_append, allocatedCount]
  refine (Nat.add_eq_left).mpr (List.countP_eq_zero.mpr ?_)
  intro a ha hal
  obtain ⟨i, _, rfl⟩ := List.mem_map.mp ha
  exact absurd (lt_size_of_isAllocated hal) (Nat.not_lt.mpr (Nat.le_add_right _ _))

/-- The number depends on which cells are allocated. -/
theorem allocatedCount_congr {h' : Heap} (hal : h'.isAllocated = h.isAllocated) :
    h'.allocatedCount = h.allocatedCount := by
  rw [← countP_isAllocated (Nat.le_max_left h'.cells.size h.cells.size), hal,
    countP_isAllocated (Nat.le_max_right _ _)]

theorem countP_or_eq {p : Nat → Bool} {a : Nat} (hp : p a = false) : ∀ {l : List Nat}, l.Nodup →
    a ∈ l → l.countP (fun b => p b || b == a) = l.countP p + 1
  | [], _, ha => by cases ha
  | b :: l, hl, ha => by
    obtain ⟨hb, hl⟩ := List.nodup_cons.mp hl
    rw [List.countP_cons, List.countP_cons]
    by_cases hab : b = a
    · subst hab
      have hsame : l.countP (fun c => p c || c == b) = l.countP p :=
        List.countP_congr fun c hc => by
          have hcb : c ≠ b := fun e => hb (e ▸ hc)
          simp [hcb]
      simp [hsame, hp]
    · have hmem : a ∈ l := (List.mem_cons.mp ha).resolve_left (Ne.symm hab)
      rw [countP_or_eq hp hl hmem]
      simp only [beq_eq_false_iff_ne.mpr hab, Bool.or_false]
      omega

/-- **Filling a free cell makes one more.** -/
theorem allocatedCount_fill {a : Nat} {c : Cell} (ha : h.IsFree a) (hc : c.isAllocated = true) :
    { h with cells := h.cells.setIfInBounds a c }.allocatedCount = h.allocatedCount + 1 := by
  have hal : { h with cells := h.cells.setIfInBounds a c }.isAllocated =
      fun b => h.isAllocated b || b == a := by
    funext b
    simp only [isAllocated, Array.getElem?_setIfInBounds]
    by_cases hab : a = b
    · subst hab
      simp [ha.lt_size, hc]
    · simp [hab, Ne.symm hab]
  rw [allocatedCount, Array.size_setIfInBounds, hal, allocatedCount,
    countP_or_eq ha.not_isAllocated List.nodup_range (List.mem_range.mpr ha.lt_size)]

end LispMachine.Heap
