import LispMachine.Heap.Basic

/-!
# Mark and sweep

A collection finds the cells that can be reached from the roots and frees all others:

* `Heap.outgoing` -- the cells a cell refers to: the slots of a pair, the first two of the values
  that an object of a traced type holds. `Heap.enqueue` puts them in front of a worklist;
* `Heap.trace` -- marks from a worklist. Each round takes one entry off the list or marks one
  cell and adds at most two entries, hence the measure `3 * unmarked + length`;
* `Heap.reachable` -- the marks from the pins, and from the root stack if it is scanned. Roots
  may be stale: an entry whose cell is free is passed over;
* `Heap.record?` -- what the end of an object leaves behind, for a type that asks for it;
* `Heap.reclaim`, `Heap.sweep` -- frees the allocated cells without mark, lowest address first;
* `Heap.collect` -- both, and the running totals.
-/

namespace LispMachine.Heap

/-! ## 1. References -/

/-- The most values of one object that are followed. -/
def mostHeld : Nat := 2

/-- The values an object of a type holds. -/
def heldBy (h : Heap) (type : TypeId) (payload : Payload) : List Value :=
  if h.types.traces type then
    match payload with
    | .closure parts => [parts]
    | .word n => h.holdings.report type n
    | _ => []
  else []

/-- The addresses a cell refers to. -/
def outgoing (h : Heap) : Cell → List Addr
  | .free _ => []
  | .pair x y => [x, y].filterMap Value.addr?
  | .object type payload => ((h.heldBy type payload).take mostHeld).filterMap Value.addr?

/-- The address of a reference in front of a worklist. -/
@[inline] def enqueueValue (v : Value) (work : List Addr) : List Addr :=
  match v with
  | .pair a => a :: work
  | .object a => a :: work
  | _ => work

/-- The addresses a cell refers to in front of a worklist. -/
def enqueue (h : Heap) (c : Cell) (work : List Addr) : List Addr :=
  match c with
  | .free _ => work
  | .pair x y => enqueueValue x (enqueueValue y work)
  | .object type payload => ((h.heldBy type payload).take mostHeld).foldr enqueueValue work

theorem foldr_enqueueValue (vs : List Value) (work : List Addr) :
    vs.foldr enqueueValue work = vs.filterMap Value.addr? ++ work := by
  induction vs with
  | nil => rfl
  | cons v vs ih => cases v <;> simp [enqueueValue, Value.addr?, List.filterMap_cons, ih]

theorem enqueue_eq (h : Heap) (c : Cell) (work : List Addr) :
    h.enqueue c work = h.outgoing c ++ work := by
  cases c with
  | free next => rfl
  | pair x y => exact foldr_enqueueValue [x, y] work
  | object type payload => exact foldr_enqueueValue _ work

theorem length_outgoing_le (h : Heap) (c : Cell) : (h.outgoing c).length ≤ 2 := by
  cases c with
  | free next => simp [outgoing]
  | pair x y =>
    simp only [outgoing]
    exact Nat.le_trans (List.length_filterMap_le _ _) (by simp)
  | object type payload =>
    simp only [outgoing]
    exact Nat.le_trans (List.length_filterMap_le _ _)
      (Nat.le_trans (List.length_take_le _ _) (Nat.le_refl _))

/-! ## 2. Marking -/

/-- The cell at an address, if the address holds an allocated cell without mark. -/
@[inline] def unmarked? (h : Heap) (marks : Array Bool) (a : Addr) : Option Cell :=
  match marks[a]?, h.cells[a]? with
  | some false, some c => if c.isAllocated then some c else none
  | _, _ => none

theorem mark_of_unmarked? {h : Heap} {marks : Array Bool} {a : Addr} {c : Cell}
    (hc : h.unmarked? marks a = some c) : ∃ ha : a < marks.size, marks[a] = false := by
  unfold unmarked? at hc
  split at hc
  · rename_i hm _
    exact Array.getElem?_eq_some_iff.1 hm
  · simp at hc

/-- A new mark leaves fewer cells without one. -/
theorem count_false_set {marks : Array Bool} {a : Addr} (ha : a < marks.size)
    (hm : marks[a] = false) :
    (marks.setIfInBounds a true).count false + 1 = marks.count false := by
  have hpos : 0 < marks.count false :=
    Array.count_pos_iff.2 (hm ▸ Array.getElem_mem ha)
  rw [Array.setIfInBounds_def, dif_pos ha, Array.count_set ha]
  simp [hm]
  omega

/-- Marks everything that can be reached from the addresses of a worklist. -/
def trace (h : Heap) (marks : Array Bool) : List Addr → Array Bool
  | [] => marks
  | a :: work =>
    match _hc : h.unmarked? marks a with
    | some c => trace h (marks.setIfInBounds a true) (h.enqueue c work)
    | none => trace h marks work
termination_by work => 3 * marks.count false + work.length
decreasing_by
  · obtain ⟨ha, hm⟩ := mark_of_unmarked? _hc
    have := count_false_set ha hm
    have := h.length_outgoing_le c
    simp only [enqueue_eq, List.length_append, List.length_cons]
    omega
  · simp

/-- The values a collection starts from. -/
def rootValues (h : Heap) (scanRoots : Bool) : List Value :=
  if scanRoots then h.pins ++ h.roots.toList else h.pins

/-- The marks of a collection. -/
def reachable (h : Heap) (scanRoots : Bool) : Array Bool :=
  h.trace (Array.replicate h.cells.size false) ((h.rootValues scanRoots).filterMap Value.addr?)

/-! ## 3. Sweeping -/

/-- What is recorded at the end of the object at an address; nothing, unless its type asks for
    that. -/
def record? (h : Heap) (a : Addr) : Option (TypeId × Payload) :=
  match h.cells[a]? with
  | some (.object type payload) => if h.types.finalizes type then some (type, payload) else none
  | _ => none

/-- Puts the cell at an address in front of the free list of its chunk, and records the end of the
    object that it held. -/
def reclaim (a : Addr) (h : Heap) : Heap :=
  let reclaimed := (h.record? a).toList ++ h.reclaimed
  let k := a / h.chunkCells
  let next := h.chunks[k]?.bind Chunk.head
  { h with
    cells := h.cells.setIfInBounds a (.free next)
    chunks := h.chunks.modify k fun c => { head := some a, freeCount := c.freeCount + 1 }
    reclaimed }

/-- The cell at an address is allocated and has no mark. -/
def isDoomed (marks : Array Bool) (h : Heap) (a : Addr) : Bool :=
  marks[a]? != some true && h.isAllocated a

/-- Frees the cell at an address if it is doomed, and counts it. -/
def sweepCell (marks : Array Bool) (a : Addr) : Heap × Nat → Heap × Nat
  | (h, freed) => if isDoomed marks h a then (h.reclaim a, freed + 1) else (h, freed)

/-- Frees the allocated cells without mark, and counts them. -/
def sweep (marks : Array Bool) (h : Heap) : Heap × Nat :=
  h.cells.size.fold (fun a _ => sweepCell marks a) (h, 0)

/-! ## 4. A collection -/

/-- The running totals after a collection that freed a number of cells. -/
def withTotals (h : Heap) (freed : Nat) : Heap :=
  { h with stats :=
    { h.stats with
      collections := h.stats.collections + 1
      lastFreed := freed
      totalFreed := h.stats.totalFreed + freed
      live := h.liveCount } }

/-- Collects, from the pins and, if `scanRoots`, the root stack; returns the number of cells
    that became free. -/
def collect (scanRoots : Bool) : HeapM Nat :=
  modifyGet fun h =>
    let marks := h.reachable scanRoots
    let (h, freed) := sweep marks h
    (freed, h.withTotals freed)

/-- The end of a heap: what is not pinned goes first, then everything. -/
def shutdown : HeapM Unit := do
  modify fun h => { h with roots := #[] }
  let _ ← collect false
  modify fun h => { h with pins := [] }
  let _ ← collect false

end LispMachine.Heap
