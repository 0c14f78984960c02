import LispMachine.Heap.Allocator
import Mathlib.Algebra.Order.Ring.Nat

/-!
# Operations on a heap, and what they lead to

* `Heap.Operation` -- everything the outside may do to a heap. Besides the operations of the heap
  itself there is `rehold`: what objects hold outside of the heap may change at any time, and the
  heap is not told;
* `Heap.Arises` -- the heaps that operations make of a fresh one, with the history that led there,
  the last operation in front. An operation that ends in a fault ends the history;
* `Heap.Operation.births` -- the number of cells an operation allocates.
-/

namespace LispMachine.Heap

/-! ## 1. Operations -/

/-- What may be done to a heap. -/
inductive Operation where
  | cons (first rest : Value)
  | make (type : TypeId) (payload : Payload)
  | setCar (v x : Value)
  | setCdr (v y : Value)
  | pin (v : Value)
  | unpin (v : Value)
  | pushRoot (v : Value)
  | setRoot (slot : Nat) (v : Value)
  | popRoots (base : Nat)
  | registerType (entry : TypeEntry)
  | collect (scanRoots : Bool)
  /-- What objects hold outside of the heap becomes something else. -/
  | rehold (holdings : Holdings)

namespace Operation

/-- Does an operation, without regard to the value it gives. -/
def perform : Operation → HeapM Unit
  | cons first rest => do let _ ← Heap.cons first rest
  | make type payload => do let _ ← Heap.make type payload
  | setCar v x => Heap.setCar v x
  | setCdr v y => Heap.setCdr v y
  | pin v => Heap.pin v
  | unpin v => Heap.unpin v
  | pushRoot v => do let _ ← Heap.pushRoot v
  | setRoot slot v => Heap.setRoot slot v
  | popRoots base => Heap.popRoots base
  | registerType entry => do let _ ← Heap.registerType entry
  | collect scanRoots => do let _ ← Heap.collect scanRoots
  | rehold holdings => modify fun h => { h with holdings }

/-- The number of cells an operation allocates. -/
def births : Operation → Nat
  | cons _ _ => 1
  | make _ _ => 1
  | _ => 0

end Operation

/-! ## 2. Histories -/

/-- The heaps that operations make of a fresh one. -/
inductive Arises (cfg : Config) : List Operation → Heap → Prop where
  | create {h : Heap} (hc : create cfg = .ok h) : Arises cfg [] h
  | perform {ops : List Operation} {h h' : Heap} (ha : Arises cfg ops h) (op : Operation)
      (hop : op.perform h = .ok () h') : Arises cfg (op :: ops) h'

/-- The number of cells allocated in a history. -/
def births (ops : List Operation) : Nat := (ops.map Operation.births).sum

end LispMachine.Heap
