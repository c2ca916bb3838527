/-!
# Constant values

The values that code can load and fields can start with, with every reference resolved: a class is its name, a method handle
the member it stands for. Floats and doubles are their bit patterns, so that each not-a-number and each zero is a value of
its own.
-/

namespace ClassFile

/-- What a method handle does with its member. -/
inductive HandleKind where
  | getField
  | getStatic
  | putField
  | putStatic
  | invokeVirtual
  | invokeStatic
  | invokeSpecial
  | newInvokeSpecial
  | invokeInterface
  deriving DecidableEq, Hashable, Repr, Inhabited

namespace HandleKind

/-- The number of a kind in a class file. -/
def toUInt8 : HandleKind → UInt8
  | getField => 1
  | getStatic => 2
  | putField => 3
  | putStatic => 4
  | invokeVirtual => 5
  | invokeStatic => 6
  | invokeSpecial => 7
  | newInvokeSpecial => 8
  | invokeInterface => 9

/-- The kind of a number. -/
def ofUInt8? (n : UInt8) : Option HandleKind :=
  match n.toNat with
  | 1 => some getField
  | 2 => some getStatic
  | 3 => some putField
  | 4 => some putStatic
  | 5 => some invokeVirtual
  | 6 => some invokeStatic
  | 7 => some invokeSpecial
  | 8 => some newInvokeSpecial
  | 9 => some invokeInterface
  | _ => none

theorem ofUInt8?_toUInt8 (k : HandleKind) : ofUInt8? k.toUInt8 = some k := by
  cases k <;> rfl

/-- Whether the member is a field. -/
def isField : HandleKind → Bool
  | getField | getStatic | putField | putStatic => true
  | _ => false

/-- The name of a kind. -/
def name : HandleKind → String
  | getField => "GetField"
  | getStatic => "GetStatic"
  | putField => "PutField"
  | putStatic => "PutStatic"
  | invokeVirtual => "InvokeVirtual"
  | invokeStatic => "InvokeStatic"
  | invokeSpecial => "InvokeSpecial"
  | newInvokeSpecial => "NewInvokeSpecial"
  | invokeInterface => "InvokeInterface"

end HandleKind

/-- A field or method, by its owner, name and descriptor. -/
structure MemberRef where
  owner : String
  name : String
  descriptor : String
  /-- Whether the owner is an interface, as far as the constant says. -/
  interface : Bool
  deriving DecidableEq, Hashable, Repr, Inhabited

/-- A method handle. -/
structure MethodHandle where
  kind : HandleKind
  member : MemberRef
  deriving DecidableEq, Hashable, Repr, Inhabited

/-- A value that code can load. -/
inductive ConstantValue where
  | integer (value : Int32)
  | float (bits : UInt32)
  | long (value : Int64)
  | double (bits : UInt64)
  | string (value : String)
  /-- A class by its internal name, an array class by its descriptor. -/
  | type (name : String)
  | methodType (descriptor : String)
  | methodHandle (handle : MethodHandle)
  /-- A value computed by a bootstrap method from arguments. -/
  | dynamic (name descriptor : String) (bootstrap : MethodHandle) (arguments : List ConstantValue)
  deriving Repr, Inhabited, BEq

/-- Whether the value takes two stack slots. -/
def ConstantValue.isWide : ConstantValue → Bool
  | long _ | double _ => true
  | dynamic _ descriptor _ _ => descriptor == "J" || descriptor == "D"
  | _ => false

end ClassFile
