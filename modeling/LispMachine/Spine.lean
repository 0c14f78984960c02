import LispMachine.Context

/-!
# The spine of a list

Following the rest slots from a value leads to something that is no pair, or goes round forever.

* `Heap.spine` -- the elements of the pairs on the way, and how it ends. A walk over more pairs
  than the heap has cells has met one of them twice, so such a walk is endless;
* `Heap.count` -- the number of the pairs, if they make up a proper list. It remembers no elements:
  a second walker, half as fast, is caught up with on a list that goes round.
-/

namespace LispMachine

/-- How a spine ends. -/
inductive SpineEnd where
  /-- In a value that is no pair: nil for a proper list. -/
  | at (last : Value)
  /-- Never. -/
  | endless
  deriving DecidableEq, Repr

/-- The elements of a list, and how it ends. If it never does, the elements are those of a walk
    that has seen every pair of it. -/
structure Spine where
  items : List Value
  ending : SpineEnd
  deriving DecidableEq, Repr

/-- What a count of the pairs of a list comes to. -/
inductive Count where
  /-- The list is proper, and has so many pairs. -/
  | list (length : Nat)
  /-- It ends in something else than nil. -/
  | improper
  /-- It does not end. -/
  | circular
  /-- The rounds of the count were too few to tell. -/
  | unfinished
  deriving DecidableEq, Repr

namespace Heap

/-! ## 1. Spines -/

/-- Walks over at most `n` pairs, after the elements `seen`, the last one in front. -/
def spineOnto (h : Heap) (seen : List Value) : Nat → Value → Spine
  | 0, v =>
    if v.isPair then { items := seen.reverse, ending := .endless }
    else { items := seen.reverse, ending := .at v }
  | n + 1, v =>
    if v.isPair then h.spineOnto (h.car v :: seen) n (h.cdr v)
    else { items := seen.reverse, ending := .at v }

/-- The spine that starts at a value. A pair past the last cell is one more step, onto nil. -/
def spine (h : Heap) (v : Value) : Spine := h.spineOnto [] (h.cells.size + 1) v

/-! ## 2. Counts -/

/-- Counts the pairs in front of `fast`, in at most so many rounds of two pairs each, while `slow`
    follows by one pair a round. -/
def countFrom (h : Heap) (slow fast : Value) (length : Nat) : Nat → Count
  | 0 => .unfinished
  | rounds + 1 =>
    if fast.isNil then .list length
    else if !fast.isPair then .improper
    else
      let fast := h.cdr fast
      if fast.isNil then .list (length + 1)
      else if !fast.isPair then .improper
      else
        let fast := h.cdr fast
        let slow := h.cdr slow
        if fast = slow then .circular else h.countFrom slow fast (length + 2) rounds

/-- Counts the pairs of a list. -/
def count (h : Heap) (v : Value) : Count := h.countFrom v v 0 (h.cells.size + 1)

end Heap

end LispMachine
