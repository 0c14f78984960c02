import LispMachine.Heap.Collector

/-!
# Allocation

Cells are taken from the chunk that gave the last one, then from the chunks after it, around the
end. Only when no chunk has a free cell does the allocator collect, and it grows by one chunk,
if the policy allows, when the collection left less than an eighth of the heap free:

* `Heap.chunkFrom` -- the first chunk with a free cell, from the cursor on;
* `Heap.grow` -- one more chunk, if the policy allows it;
* `Heap.takeCell` -- an allocated address; the heap is exhausted if there is none in the end;
* `Heap.cons`, `Heap.make` -- a pair and an object in a cell of their own. The halves of a pair
  are rooted while its cell is taken; the caller roots what an object holds.
-/

namespace LispMachine.Heap

/-! ## 1. Chunks -/

/-- The cells of a chunk take sixteen bytes each, and their total size must fit in a signed
    64-bit number. -/
def chunkFits (cells : Nat) : Bool := 16 * cells < 0x8000000000000000

/-- The cells of a chunk from `base` on, each linked to the next. -/
def freshCells (base count : Nat) : Array Cell :=
  Array.ofFn fun i : Fin count => .free (if i + 1 < count then some (base + i + 1) else none)

/-- The heap with one more chunk, all of it free, the lowest address to be taken first. -/
def withChunk (h : Heap) : Heap :=
  { h with
    cells := h.cells ++ freshCells h.capacity h.chunkCells
    chunks := h.chunks.push { head := some h.capacity, freeCount := h.chunkCells }
    stats := { h.stats with chunks := h.chunkCount + 1 } }

/-- Appends a chunk, if cells of chunks can be addressed. -/
def addChunk : HeapM Unit := fun h =>
  if h.chunkCells = 0 then .error .emptyChunk h
  else if !chunkFits h.chunkCells then .error (.chunkTooLarge h.chunkCells) h
  else .ok () h.withChunk

/-- A heap without chunks. -/
def bare (cfg : Config) : Heap :=
  { chunkCells := cfg.chunkCells, growth := cfg.growth, cells := #[], chunks := #[], cursor := 0,
    pins := [], roots := #[], types := .core, holdings := .none, stats := {}, reclaimed := [] }

/-- A heap of one chunk. -/
def create (cfg : Config) : Except Fault Heap :=
  match addChunk (bare cfg) with
  | .ok _ h => .ok h
  | .error e _ => .error e

/-- The policy allows another chunk. -/
def mayGrow (h : Heap) : Bool :=
  match h.growth with
  | .fixed => false
  | .upTo maxChunks => h.chunkCount < maxChunks

/-- Adds a chunk and makes it the next to give a cell, if the policy allows it. -/
def grow : HeapM Unit := do
  if ← observe mayGrow then
    addChunk
    modify fun h => { h with cursor := h.chunkCount - 1 }

/-! ## 2. Taking a cell -/

/-- The first chunk with a free cell among `n` chunks from `k` on, around the end. -/
def chunkFrom (chunks : Array Chunk) (k : Nat) : Nat → Option Nat
  | 0 => none
  | n + 1 =>
    match chunks[k]?.bind Chunk.head with
    | some _ => some k
    | none => chunkFrom chunks ((k + 1) % chunks.size) n

/-- The cell after a free one on its list. -/
def nextFree (h : Heap) (a : Addr) : Option Addr :=
  match h.cells[a]? with
  | some (.free next) => next
  | _ => none

/-- The heap without the cell `a` at the head of the free list of chunk `k`, which becomes the
    chunk that gave the last cell. -/
def takeOff (h : Heap) (k : Nat) (a : Addr) : Heap :=
  let next := h.nextFree a
  { h with
    chunks := h.chunks.modify k fun c => { head := next, freeCount := c.freeCount - 1 }
    cursor := k }

/-- Takes the first cell off the free list of a chunk. -/
def popFrom (k : Nat) : HeapM (Option Addr) :=
  modifyGet fun h =>
    match h.chunks[k]?.bind Chunk.head with
    | some a => (some a, h.takeOff k a)
    | none => (none, h)

/-- Takes a free cell of some chunk. -/
def popFree : HeapM (Option Addr) := do
  match ← observe fun h => chunkFrom h.chunks h.cursor h.chunkCount with
  | some k => popFrom k
  | none => pure none

/-- Less than an eighth of the heap is free. -/
def isCrowded (h : Heap) : Bool := h.freeCells < h.capacity / 8

/-- Collects, then grows if the heap is still crowded. -/
def makeRoom : HeapM Unit := do
  let _ ← collect true
  if ← observe isCrowded then grow

/-- An address whose cell was free; the caller fills it. -/
def takeCell : HeapM Addr := do
  match ← popFree with
  | some a => pure a
  | none =>
    makeRoom
    match ← popFree with
    | some a => pure a
    | none => throw .heapExhausted

/-- Fills a cell. -/
def fill (a : Addr) (c : Cell) : HeapM Unit :=
  modify fun h => { h with cells := h.cells.setIfInBounds a c }

/-! ## 3. Pairs and objects -/

/-- A fresh pair. -/
def cons (first rest : Value) : HeapM Value := do
  let base ← rootBase
  let _ ← pushRoot first
  let _ ← pushRoot rest
  let a ← takeCell
  popRoots base
  fill a (.pair first rest)
  pure (.pair a)

/-- A fresh object of a registered type. -/
def make (type : TypeId) (payload : Payload) : HeapM Value := do
  if ← observe fun h => type != CoreType.nil.id && h.types.isRegistered type then
    let a ← takeCell
    fill a (.object type payload)
    pure (.object a)
  else throw (.badType type)

end LispMachine.Heap
