/-!
# Sizes of a context

* `Growth` -- what the allocator may do when a collection leaves no room;
* `Config` -- cells per chunk, growth, symbol capacity, depth limit, with the usual defaults.
-/

namespace LispMachine

/-- What the allocator does when a collection leaves the heap nearly full. -/
inductive Growth where
  /-- Nothing: there is one chunk, and exhaustion is a fault. -/
  | fixed
  /-- Add a chunk, up to this many in all. -/
  | upTo (maxChunks : Nat)
  deriving DecidableEq, Repr

/-- The sizes a context is built with. -/
structure Config where
  /-- Cells of every chunk. -/
  chunkCells : Nat := 4096
  growth : Growth := .upTo 64
  /-- Names the symbol table is first laid out for. -/
  symbolCapacity : Nat := 256
  /-- Deepest nesting of pending evaluations. -/
  maxDepth : Nat := 1000
  deriving DecidableEq, Repr

end LispMachine
