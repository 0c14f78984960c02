/-!
# Faults

A fault ends a run at once: the machine cannot go on. Failures of a program (an unbound symbol,
a wrong argument) are no faults; they are a state of the context (`LispMachine.Context`).

* `Fault` -- the causes;
* `Fault.message` -- their wording;
* `observe` -- how an action that may end in a fault reads its state.
-/

namespace LispMachine

/-- Why a run cannot go on. -/
inductive Fault where
  /-- No cell is free and the growth policy is used up. -/
  | heapExhausted
  /-- An object was asked for of type nil or of a type nobody registered. -/
  | badType (id : Nat)
  /-- A chunk needs at least one cell. -/
  | emptyChunk
  /-- A chunk of so many cells cannot be addressed. -/
  | chunkTooLarge (cells : Nat)
  /-- The first slot of something that is no pair was written. -/
  | setCarOfNonPair
  /-- The rest slot of something that is no pair was written. -/
  | setCdrOfNonPair
  /-- A slot of the root stack was named that is not there. -/
  | noRootSlot (slot : Nat)
  /-- The root stack was cut to more than its height. -/
  | rootsTooShort (base : Nat)
  /-- A symbol table of that capacity cannot be addressed. -/
  | symbolCapacity (capacity : Nat)
  /-- Every slot of the symbol table is taken. -/
  | symbolTableFull
  /-- A native may declare four required and optional arguments, not more. -/
  | tooManyParameters (count : Nat)
  /-- A native reads an argument that its arity does not provide. -/
  | noArgument
  /-- The step budget of the run is spent. -/
  | outOfSteps
  deriving DecidableEq, Repr

/-- The text of a fault. -/
def Fault.message : Fault → String
  | heapExhausted => "heap exhausted"
  | badType id => "bad type id " ++ toString id
  | emptyChunk => "empty chunk"
  | chunkTooLarge n => "chunk of " ++ toString n ++ " cells is too large"
  | setCarOfNonPair => "set_car on a non-pair"
  | setCdrOfNonPair => "set_cdr on a non-pair"
  | noRootSlot slot => "no root slot " ++ toString slot
  | rootsTooShort base => "root stack is shorter than " ++ toString base
  | symbolCapacity n => "symbol table of capacity " ++ toString n ++ " is too large"
  | symbolTableFull => "symbol table full"
  | tooManyParameters n => "native with " ++ toString n ++ " parameters"
  | noArgument => "missing native argument"
  | outOfSteps => "out of steps"

/-- Reads something off the state. It is computed on the spot: an old state that was still needed
    could not be changed in place. -/
@[noinline] def observe {σ α : Type} (f : σ → α) : EStateM Fault σ α := fun s => .ok (f s) s

end LispMachine
