import LispMachine.Config
import LispMachine.Fault
import LispMachine.Heap.Cell

/-!
# The heap

The heap is a sequence of chunks of equally many cells. Chunk `k` of a heap with `n` cells per
chunk owns the addresses from `k * n` to `k * n + n - 1`, so one array holds all cells; each
chunk has a free list of its own, which is threaded through its free cells:

* `Chunk` -- the head of a free list, and the number of cells on it;
* `Holdings` -- what objects of other types than the machine's own hold, for the collector to
  follow;
* `Heap` -- the cells, the chunks, and the two sources of roots: the pins and the root stack;
* `Heap.car`, `Heap.cdr`, `Heap.typeOf`, `Heap.payload?` -- what a value holds. They are total:
  off a pair, and on a cell that is not what the reference says, there is nil;
* `Heap.isLive` -- an immediate, or a reference to an allocated cell;
* `HeapM` -- actions that change a heap and may end in a fault.

Allocation and collection follow in `LispMachine.Heap.Allocator` and
`LispMachine.Heap.Collector`.
-/

namespace LispMachine

/-! ## 1. The state -/

/-- Running totals of the collector. -/
structure CollectorStats where
  collections : Nat := 0
  /-- Cells that the last collection freed. -/
  lastFreed : Nat := 0
  totalFreed : Nat := 0
  /-- Cells in use after the last collection. -/
  live : Nat := 0
  chunks : Nat := 0
  deriving DecidableEq, Repr

/-- The free list of a chunk. -/
structure Chunk where
  /-- The cell to be taken next; none when the chunk is full. -/
  head : Option Addr
  /-- The number of cells on the list. -/
  freeCount : Nat
  deriving DecidableEq, Repr

/-- What objects hold outside of the heap. -/
structure Holdings where
  /-- The numbers handed out for objects that hold something. -/
  count : Nat
  /-- The values of an object of a type, by the number that is its payload. -/
  report : TypeId → Nat → List Value

namespace Holdings

/-- No object holds anything. -/
def none : Holdings := { count := 0, report := fun _ _ => [] }

/-- One more number, with its values. -/
def add (outside : Holdings) (values : List Value) : Nat × Holdings :=
  let number := outside.count + 1
  (number,
    { count := number
      report := fun t n => if n = number then values else outside.report t n })

end Holdings

/-- Cells, free lists and roots. -/
structure Heap where
  /-- Cells of every chunk. -/
  chunkCells : Nat
  growth : Growth
  /-- The cells of all chunks, by address. -/
  cells : Array Cell
  chunks : Array Chunk
  /-- The chunk that gave the last cell. -/
  cursor : Nat
  /-- Values kept alive until they are unpinned. -/
  pins : List Value
  /-- The root stack. -/
  roots : Array Value
  types : TypeTable
  holdings : Holdings
  stats : CollectorStats
  /-- Type and payload of the reclaimed objects whose end is recorded, the last one in front. -/
  reclaimed : List (TypeId × Payload)

/-- An action on the heap. -/
abbrev HeapM := EStateM Fault Heap

namespace Heap

/-! ## 2. Contents -/

/-- First slot of a pair; nil for anything else. -/
def car (h : Heap) : Value → Value
  | .pair a =>
    match h.cells[a]? with
    | some (.pair x _) => x
    | _ => .nil
  | _ => .nil

/-- Rest slot of a pair; nil for anything else. -/
def cdr (h : Heap) : Value → Value
  | .pair a =>
    match h.cells[a]? with
    | some (.pair _ y) => y
    | _ => .nil
  | _ => .nil

/-- The element at a position of a list; nil past its end. -/
def nth (h : Heap) (v : Value) : Nat → Value
  | 0 => h.car v
  | n + 1 => h.nth (h.cdr v) n

/-- Type of a value. -/
def typeOf (h : Heap) : Value → TypeId
  | .nil => CoreType.nil.id
  | .int _ => CoreType.int.id
  | .sym _ => CoreType.sym.id
  | .pair _ => CoreType.pair.id
  | .object a =>
    match h.cells[a]? with
    | some (.object t _) => t
    | _ => CoreType.nil.id

/-- Payload of an object; none for anything else. -/
def payload? (h : Heap) : Value → Option Payload
  | .object a =>
    match h.cells[a]? with
    | some (.object _ p) => some p
    | _ => none
  | _ => none

/-- The bytes of a string object. -/
def bytes? (h : Heap) (v : Value) : Option ByteArray :=
  match h.payload? v with
  | some (.text bytes) => if h.typeOf v = CoreType.str.id then some bytes else none
  | _ => none

/-- The procedure of a native object. -/
def procedure? (h : Heap) (v : Value) : Option Procedure :=
  match h.payload? v with
  | some (.procedure p) => if h.typeOf v = CoreType.native.id then some p else none
  | _ => none

/-- The list of the parts of a function object, nil for anything else. -/
def closureParts (h : Heap) (v : Value) : Value :=
  match h.payload? v with
  | some (.closure parts) => parts
  | _ => .nil

/-- Same value, or strings of the same bytes. -/
def equal (h : Heap) (a b : Value) : Bool :=
  a = b ||
    match h.bytes? a, h.bytes? b with
    | some x, some y => x.data = y.data
    | _, _ => false

/-- The address holds an allocated cell. -/
def isAllocated (h : Heap) (a : Addr) : Bool :=
  match h.cells[a]? with
  | some c => c.isAllocated
  | none => false

/-- An immediate, or a reference to an allocated cell. -/
def isLive (h : Heap) (v : Value) : Bool :=
  match v.addr? with
  | none => true
  | some a => h.isAllocated a

/-! ## 3. Counts -/

/-- The number of chunks. -/
def chunkCount (h : Heap) : Nat := h.chunks.size

/-- The number of cells. -/
def capacity (h : Heap) : Nat := h.chunkCount * h.chunkCells

/-- The number of allocated cells of a chunk. -/
def liveIn (h : Heap) (chunk : Chunk) : Nat := h.chunkCells - chunk.freeCount

/-- The number of allocated cells. -/
def liveCount (h : Heap) : Nat := h.chunks.foldl (fun n chunk => n + h.liveIn chunk) 0

/-- The number of cells on free lists. -/
def freeCells (h : Heap) : Nat := h.capacity - h.liveCount

/-! ## 4. Writing slots -/

/-- A cell with another first slot; only a pair has one. -/
def withCar (x : Value) : Cell → Cell
  | .pair _ y => .pair x y
  | c => c

/-- A cell with another rest slot; only a pair has one. -/
def withCdr (y : Value) : Cell → Cell
  | .pair x _ => .pair x y
  | c => c

/-- Stores `x` in the first slot of a pair. -/
def setCar (v x : Value) : HeapM Unit :=
  match v with
  | .pair a => modify fun h => { h with cells := h.cells.modify a (withCar x) }
  | _ => throw .setCarOfNonPair

/-- Stores `y` in the rest slot of a pair. -/
def setCdr (v y : Value) : HeapM Unit :=
  match v with
  | .pair a => modify fun h => { h with cells := h.cells.modify a (withCdr y) }
  | _ => throw .setCdrOfNonPair

/-! ## 5. Pins and the root stack -/

/-- Keeps a value alive until it is unpinned; pinning twice is pinning once. -/
def pin (v : Value) : HeapM Unit :=
  modify fun h => if v ∈ h.pins then h else { h with pins := v :: h.pins }

/-- Removes a pin, if it is there. -/
def unpin (v : Value) : HeapM Unit := modify fun h => { h with pins := h.pins.erase v }

/-- The value is pinned. -/
def isPinned (h : Heap) (v : Value) : Bool := v ∈ h.pins

/-- Height of the root stack. -/
def rootBase : HeapM Nat := observe (·.roots.size)

/-- Pushes a root and returns its slot. -/
def pushRoot (v : Value) : HeapM Nat :=
  modifyGet fun h => (h.roots.size, { h with roots := h.roots.push v })

/-- The value in a slot of the root stack. -/
def root (slot : Nat) : HeapM Value := fun h =>
  match h.roots[slot]? with
  | some v => .ok v h
  | none => .error (.noRootSlot slot) h

/-- Replaces the value in a slot of the root stack. -/
def setRoot (slot : Nat) (v : Value) : HeapM Unit := fun h =>
  if slot < h.roots.size then .ok () { h with roots := h.roots.setIfInBounds slot v }
  else .error (.noRootSlot slot) h

/-- Cuts the root stack back to a height it had. -/
def popRoots (base : Nat) : HeapM Unit := fun h =>
  if base ≤ h.roots.size then .ok () { h with roots := h.roots.shrink base }
  else .error (.rootsTooShort base) h

/-! ## 6. Types and outside holdings -/

/-- Appends a type to the type table. -/
def registerType (entry : TypeEntry) : HeapM TypeId :=
  modifyGet fun h =>
    let (id, types) := h.types.register entry
    (id, { h with types })

/-- Lays values outside the heap; the number returned is the payload of the object that is to
    hold them. -/
def hold (values : List Value) : HeapM Nat :=
  modifyGet fun h =>
    let (number, holdings) := h.holdings.add values
    (number, { h with holdings })

/-- Takes the record of reclaimed objects, oldest first, and leaves an empty one. -/
def takeReclaimed : HeapM (List (TypeId × Payload)) :=
  modifyGet fun h => (h.reclaimed.reverse, { h with reclaimed := [] })

end Heap

end LispMachine
