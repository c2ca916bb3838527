import ClassFile.Hierarchy.Basic

/-!
# The type table

Class types in frames are numbers of this table, in order of their first mention. The table never becomes part of a class
file. A class and the result of allocating it, not yet initialised, are different entries, and so are two allocations of one
class at different places.
-/

namespace ClassFile

/-- An entry of the type table. -/
inductive TypeEntry where
  /-- A class by its internal name, an array class by its descriptor. -/
  | normal (name : String)
  /-- What the instruction at `offset` allocates, before its constructor has run. -/
  | uninitialized (name : String) (offset : Nat)
  deriving DecidableEq, Hashable, Repr, Inhabited

/-- The class of an entry. -/
def TypeEntry.name : TypeEntry → String
  | normal name => name
  | uninitialized name _ => name

/-- Class types by number. -/
structure TypeTable where
  entries : Array TypeEntry := #[]
  lookup : Std.HashMap TypeEntry Nat := ∅
  /-- Common superclasses found so far, by the two numbers, the smaller one first. -/
  merged : Std.HashMap (Nat × Nat) Nat := ∅

namespace TypeTable

/-- The table without entries. -/
def empty : TypeTable := {}

/-- Number of entries. -/
def size (types : TypeTable) : Nat :=
  types.entries.size

/-- The number of an entry, which is added if the table lacks it. -/
def add (types : TypeTable) (e : TypeEntry) : Nat × TypeTable :=
  match types.lookup[e]? with
  | some i => (i, types)
  | none =>
    let ⟨entries, lookup, merged⟩ := types
    let i := entries.size
    (i, { entries := entries.push e, lookup := lookup.insert e i, merged })

/-- The number of a class. -/
def addNormal (types : TypeTable) (name : String) : Nat × TypeTable :=
  types.add (.normal name)

/-- The number of what an instruction allocates. -/
def addUninitialized (types : TypeTable) (name : String) (offset : Nat) : Nat × TypeTable :=
  types.add (.uninitialized name offset)

def get? (types : TypeTable) (i : Nat) : Option TypeEntry :=
  types.entries[i]?

/-- The class of an entry; numbers past the end stand for the class of all objects. -/
def name (types : TypeTable) (i : Nat) : String :=
  ((types.get? i).map TypeEntry.name).getD objectClass

/-- The number of the common superclass of two entries. -/
def mergedType (types : TypeTable) (h : Hierarchy) (i j : Nat) : Nat × TypeTable :=
  let key := (min i j, max i j)
  match types.merged[key]? with
  | some k => (k, types)
  | none =>
    let common := h.commonSuperClass (types.name key.1) (types.name key.2)
    let (k, types) := types.addNormal common
    (k, { types with merged := types.merged.insert key k })

end TypeTable

end ClassFile
