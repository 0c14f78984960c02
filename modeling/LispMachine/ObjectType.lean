/-!
# Types of objects

Every typed object names an entry of the type table. The table is only ever appended to, so an
id stays valid once it is handed out:

* `CoreType` -- the seven types every table begins with, in the order of their ids;
* `TypeEntry` -- a name, whether objects of the type are traced for the values they hold, and
  whether the end of such an object is recorded;
* `TypeTable.register` -- the only way to extend a table.
-/

namespace LispMachine

/-- Position in the type table. -/
abbrev TypeId := Nat

/-- The types every table begins with. -/
inductive CoreType where
  | nil
  | pair
  | int
  | sym
  | func
  | native
  | str
  deriving DecidableEq, Repr

namespace CoreType

/-- The core types in the order of their ids. -/
def all : List CoreType := [nil, pair, int, sym, func, native, str]

/-- The id a core type has in every table. -/
def id : CoreType → TypeId
  | nil => 0
  | pair => 1
  | int => 2
  | sym => 3
  | func => 4
  | native => 5
  | str => 6

/-- The core type of an id, if it is one of the first seven. -/
def ofId? (t : TypeId) : Option CoreType := all[t]?

/-- The name the table gives to a core type. -/
def name : CoreType → String
  | nil => "nil"
  | pair => "pair"
  | int => "int"
  | sym => "sym"
  | func => "func"
  | native => "native"
  | str => "str"

end CoreType

/-- What the table knows of a type. -/
structure TypeEntry where
  name : String
  /-- The collector follows the values an object of this type holds. -/
  traced : Bool
  /-- The end of an object of this type is recorded. -/
  finalized : Bool
  deriving DecidableEq, Repr

/-- Types in the order of their ids. -/
structure TypeTable where
  entries : Array TypeEntry
  deriving DecidableEq, Repr

namespace TypeTable

/-- A core type's entry: functions hold values, natives and strings own something outside. -/
def coreEntry (t : CoreType) : TypeEntry :=
  { name := t.name, traced := t == .func, finalized := t == .native || t == .str }

/-- The table of the core types. -/
def core : TypeTable := ⟨(CoreType.all.map coreEntry).toArray⟩

/-- The number of types. -/
def size (t : TypeTable) : Nat := t.entries.size

/-- Appends a type; its id is the old size. -/
def register (t : TypeTable) (entry : TypeEntry) : TypeId × TypeTable :=
  (t.size, ⟨t.entries.push entry⟩)

/-- The id has been handed out. -/
def isRegistered (t : TypeTable) (id : TypeId) : Bool := id < t.size

/-- The name of a type, or a word for one that nobody registered. -/
def name (t : TypeTable) (id : TypeId) : String :=
  (t.entries[id]?.map (·.name)).getD "unknown"

/-- Objects of the type are followed by the collector. -/
def traces (t : TypeTable) (id : TypeId) : Bool :=
  (t.entries[id]?.map (·.traced)).getD false

/-- The end of objects of the type is recorded. -/
def finalizes (t : TypeTable) (id : TypeId) : Bool :=
  (t.entries[id]?.map (·.finalized)).getD false

end TypeTable

end LispMachine
