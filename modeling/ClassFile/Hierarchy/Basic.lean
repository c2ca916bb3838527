import Std.Data.HashMap

/-!
# Superclasses

What is known of the superclasses of classes. A class may be unknown, a chain of superclasses may end anywhere, and it may
run into a cycle: a chain is followed up to its first repetition. Where two chains share no class, the classes meet at the
class of all objects.
-/

namespace ClassFile

/-- The class of all objects. -/
def objectClass : String := "java/lang/Object"

/-- The class of all that can be thrown. -/
def throwableClass : String := "java/lang/Throwable"

/-- The superclass of every class that is known. -/
structure Hierarchy where
  supers : Std.HashMap String String := ∅

namespace Hierarchy

/-- The hierarchy that knows no class. -/
def empty : Hierarchy := {}

def superClass (h : Hierarchy) (name : String) : Option String :=
  h.supers[name]?

/-- The hierarchy in which a class has the given superclass; what was known of the class is forgotten. -/
def insert (h : Hierarchy) (name super : String) : Hierarchy :=
  { h with supers := h.supers.insert name super }

/-- The hierarchy in which each class of a list has the superclass beside it. -/
def insertAll (h : Hierarchy) (pairs : List (String × String)) : Hierarchy :=
  pairs.foldl (fun h pair => h.insert pair.1 pair.2) h

/-- Number of classes that have a superclass. -/
def size (h : Hierarchy) : Nat :=
  h.supers.size

def isEmpty (h : Hierarchy) : Bool :=
  h.supers.isEmpty

/-- A class and its superclasses, as far as none of them has been seen and no more than `fuel` of them. -/
def lineageFrom (h : Hierarchy) : (fuel : Nat) → (seen : List String) → String → List String
  | 0, _, _ => []
  | fuel + 1, seen, name =>
    if name ∈ seen then []
    else
      name ::
        match h.superClass name with
        | some super => lineageFrom h fuel (name :: seen) super
        | none => []

/-- A class and its superclasses up to the first repetition. All but the last are known, so that their number is bounded. -/
def lineage (h : Hierarchy) (name : String) : List String :=
  h.lineageFrom (h.size + 1) [] name

/-- The first class on the chain of the second class that also lies on the chain of the first. -/
def commonSuperClass (h : Hierarchy) (a b : String) : String :=
  if a = b then a
  else
    let ancestors := h.lineage a
    ((h.lineage b).find? (fun name => decide (name ∈ ancestors))).getD objectClass

end Hierarchy

end ClassFile
