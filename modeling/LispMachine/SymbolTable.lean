import LispMachine.Fault

/-!
# The symbol table

Names get dense ids in the order of their first appearance. The way from an id to its name is an
array; the way back is an open-addressed table of ids with linear probing:

* `SymbolTable.home` -- the slot a name's hash points to;
* `SymbolTable.probe` -- walks from there to the name's id or to the first vacant slot;
* `SymbolTable.intern` -- looks a name up, or gives it the next id and doubles the slots once
  more than half of them are taken, so that a probe always finds a vacant one.
-/

namespace LispMachine

/-- Names by id, and ids by the hash of their names. -/
structure SymbolTable where
  names : Array String
  /-- The open-addressed table; its size is a power of two. -/
  slots : Array (Option Nat)
  deriving DecidableEq, Repr

namespace SymbolTable

/-! ## 1. Layout -/

/-- Slots laid out for a capacity: twice as many, at least sixteen, a power of two. -/
def slotCount (capacity : Nat) : Nat := (max capacity 8 * 2).nextPowerOfTwo

/-- The names of a table of `capacity` take sixteen bytes each, and their total size must fit in
    a signed 64-bit number. -/
def addressable (capacity : Nat) : Bool := 16 * capacity < 0x8000000000000000

/-- A table without names. -/
def empty (capacity : Nat) : SymbolTable :=
  { names := Array.emptyWithCapacity capacity, slots := Array.replicate (slotCount capacity) none }

/-- A table laid out for `capacity` names. -/
def create (capacity : Nat) : Except Fault SymbolTable :=
  if addressable capacity then .ok (empty capacity) else .error (.symbolCapacity capacity)

/-- The number of names. -/
def size (t : SymbolTable) : Nat := t.names.size

/-! ## 2. Probing -/

/-- Multiplies by thirty-three and adds the byte, in 64-bit words. -/
def hashStep (acc : UInt64) (b : UInt8) : UInt64 := acc + (acc <<< 5) + b.toUInt64

/-- The hash of a name, over its bytes. -/
def hash (name : String) : UInt64 := name.toUTF8.foldl hashStep 1

/-- The slot a name would like to have among `slots`. -/
def home (name : String) (slots : Nat) : Nat := (hash name).toNat % slots

/-- What a probe ends with. -/
inductive Probe where
  | found (id : Nat)
  | vacant (slot : Nat)
  | full
  deriving DecidableEq, Repr

/-- Walks `n` slots from `slot` on, around the end of the table. -/
def probeFrom (t : SymbolTable) (name : String) (slot : Nat) : Nat → Probe
  | 0 => .full
  | n + 1 =>
    match t.slots[slot]? with
    | some (some id) =>
      if t.names[id]? = some name then .found id
      else probeFrom t name ((slot + 1) % t.slots.size) n
    | _ => .vacant slot

/-- Where a name is, or would go. -/
def probe (t : SymbolTable) (name : String) : Probe :=
  probeFrom t name (home name t.slots.size) t.slots.size

/-! ## 3. Names and ids -/

/-- The id of a name that has been interned. -/
def find? (t : SymbolTable) (name : String) : Option Nat :=
  match t.probe name with
  | .found id => some id
  | _ => none

/-- The name with an id. -/
def name? (t : SymbolTable) (id : Nat) : Option String := t.names[id]?

/-- Puts an id into the first vacant slot from `slot` on, among at most `n` slots. -/
def place (slots : Array (Option Nat)) (id : Nat) (slot : Nat) : Nat → Array (Option Nat)
  | 0 => slots
  | n + 1 =>
    match slots[slot]? with
    | some (some _) => place slots id ((slot + 1) % slots.size) n
    | _ => slots.setIfInBounds slot (some id)

/-- The ids of all names, placed anew in id order among `count` slots. -/
def placeAll (names : Array String) (count : Nat) : Array (Option Nat) :=
  names.size.fold
    (fun id _ slots => place slots id (home (names[id]?.getD "") count) count)
    (Array.replicate count none)

/-- Adds a name that is not there at the vacant slot its probe found. -/
def insertAt (name : String) (slot : Nat) : SymbolTable → SymbolTable
  | { names, slots } =>
    let id := names.size
    let names := names.push name
    if names.size * 2 > slots.size then { names, slots := placeAll names (slots.size * 2) }
    else { names, slots := slots.setIfInBounds slot (some id) }

/-- The id of a name, which is given the next one if it has none. -/
def intern (t : SymbolTable) (name : String) : Except Fault (Nat × SymbolTable) :=
  match t.probe name with
  | .found id => .ok (id, t)
  | .vacant slot => .ok (t.size, insertAt name slot t)
  | .full => .error .symbolTableFull

end SymbolTable

end LispMachine
