import LispMachine.Heap.Allocator

/-!
# Free lists

The free list of a chunk is threaded through its free cells. Here it is read as a list:

* `Linked` -- following the links from a head leads over the cells of a list and then ends;
* `Heap.IsFree` -- the cell carries the tag of a free one;
* `Heap.Listed` -- the free list of chunk `k` is a list without duplicates, its length is the
  count of the chunk, and it holds the free cells of the chunk; one cell that has just been taken
  (`out`) may still carry the tag, and is on no list;
* `Heap.Laid`, `Heap.Valid` -- the representation invariant, without and with the cursor.

A list changes at its head only: `Linked.push` and `Linked.tail` are all that allocation and
sweeping need.
-/

namespace LispMachine

/-! ## 1. Linked cells -/

/-- The links lead from a head over the cells of a list and end. -/
inductive Linked (cells : Array Cell) : Option Addr → List Addr → Prop where
  | nil : Linked cells none []
  | cons {a : Addr} {next : Option Addr} {l : List Addr} (ha : cells[a]? = some (.free next))
      (hl : Linked cells next l) : Linked cells (some a) (a :: l)

namespace Linked

variable {cells cells' : Array Cell} {head : Option Addr} {l : List Addr}

/-- Links depend on the cells of the list only. -/
theorem congr (h : Linked cells head l) (hc : ∀ a ∈ l, cells'[a]? = cells[a]?) :
    Linked cells' head l := by
  induction h with
  | nil => exact .nil
  | cons ha _ ih =>
    refine .cons ?_ (ih fun b hb => hc b (List.mem_cons_of_mem _ hb))
    rw [hc _ List.mem_cons_self, ha]

/-- What follows the head. -/
theorem tail {a : Addr} (h : Linked cells (some a) l) :
    ∃ next rest, l = a :: rest ∧ cells[a]? = some (.free next) ∧ Linked cells next rest := by
  cases h with
  | cons ha hl => exact ⟨_, _, rfl, ha, hl⟩

/-- A head in front. -/
theorem push {a : Addr} (h : Linked cells head l) (ha : a ∉ l) (hs : a < cells.size) :
    Linked (cells.setIfInBounds a (.free head)) (some a) (a :: l) := by
  refine .cons ?_ (h.congr fun b hb => ?_)
  · rw [Array.getElem?_setIfInBounds_self_of_lt hs]
  · have hne : a ≠ b := fun e => ha (e ▸ hb)
    rw [Array.getElem?_setIfInBounds_ne hne]

theorem isSome_head (h : Linked cells head l) : head.isSome = true ↔ l ≠ [] := by
  cases h <;> simp

end Linked

/-! ## 2. The invariant -/

namespace Heap

/-- The cell at an address carries the tag of a free one. -/
def IsFree (h : Heap) (a : Addr) : Prop := ∃ next, h.cells[a]? = some (.free next)

/-- The free list of chunk `k` holds its free cells, except `out`. -/
structure Listed (h : Heap) (out : Option Addr) (k : Nat) (chunk : Chunk) (l : List Addr) :
    Prop where
  linked : Linked h.cells chunk.head l
  nodup : l.Nodup
  count : chunk.freeCount = l.length
  mem_iff : ∀ a, a ∈ l ↔ a / h.chunkCells = k ∧ h.IsFree a ∧ out ≠ some a

/-- The chunks cover the cells, and each has its free list. -/
structure Laid (h : Heap) (out : Option Addr) : Prop where
  size : h.cells.size = h.capacity
  chunkCells_pos : 0 < h.chunkCells
  fits : chunkFits h.chunkCells = true
  listed : ∀ k chunk, h.chunks[k]? = some chunk → ∃ l, h.Listed out k chunk l
  pins_nodup : h.pins.Nodup
  typed : ∀ (a : Addr) (t : TypeId) (p : Payload), h.cells[a]? = some (.object t p) →
    t ≠ CoreType.nil.id ∧ h.types.isRegistered t = true

/-- **The representation invariant**, but for one cell that has been taken and not filled. -/
structure ValidBut (h : Heap) (out : Option Addr) : Prop extends Laid h out where
  cursor_lt : h.cursor < h.chunkCount

/-- **The representation invariant.** -/
abbrev Valid (h : Heap) : Prop := h.ValidBut none

end Heap

end LispMachine
