import ClassFile.Bytes.Basic
import ClassFile.Constant.Value
import ClassFile.Text.ModifiedUtf8

/-!
# Entries of the constant pool

An entry as it stands in the pool: a tag and a payload in which other entries are named by their indices. A long or a double
takes two indices, the second of which names nothing.
-/

namespace ClassFile

/-- An index into the constant pool. -/
abbrev PoolIndex := UInt16

/-- An entry of the constant pool. -/
inductive Entry where
  | utf8 (text : String)
  | integer (value : Int32)
  | float (bits : UInt32)
  | long (value : Int64)
  | double (bits : UInt64)
  | type (name : PoolIndex)
  | string (text : PoolIndex)
  | fieldRef (owner nameAndType : PoolIndex)
  | methodRef (owner nameAndType : PoolIndex) (interface : Bool)
  | nameAndType (name descriptor : PoolIndex)
  | methodHandle (kind : HandleKind) (member : PoolIndex)
  | methodType (descriptor : PoolIndex)
  | dynamic (bootstrap : UInt16) (nameAndType : PoolIndex)
  | callSite (bootstrap : UInt16) (nameAndType : PoolIndex)
  | moduleName (name : PoolIndex)
  | packageName (name : PoolIndex)
  deriving DecidableEq, Hashable, Repr, Inhabited

namespace Tag

def utf8 : UInt8 := 1
def integer : UInt8 := 3
def float : UInt8 := 4
def long : UInt8 := 5
def double : UInt8 := 6
def type : UInt8 := 7
def string : UInt8 := 8
def fieldRef : UInt8 := 9
def methodRef : UInt8 := 10
def interfaceMethodRef : UInt8 := 11
def nameAndType : UInt8 := 12
def methodHandle : UInt8 := 15
def methodType : UInt8 := 16
def dynamic : UInt8 := 17
def callSite : UInt8 := 18
def moduleName : UInt8 := 19
def packageName : UInt8 := 20

end Tag

namespace Entry

/-- The tag of an entry. -/
def tag : Entry → UInt8
  | utf8 _ => Tag.utf8
  | integer _ => Tag.integer
  | float _ => Tag.float
  | long _ => Tag.long
  | double _ => Tag.double
  | type _ => Tag.type
  | string _ => Tag.string
  | fieldRef _ _ => Tag.fieldRef
  | methodRef _ _ interface => if interface then Tag.interfaceMethodRef else Tag.methodRef
  | nameAndType _ _ => Tag.nameAndType
  | methodHandle _ _ => Tag.methodHandle
  | methodType _ => Tag.methodType
  | dynamic _ _ => Tag.dynamic
  | callSite _ _ => Tag.callSite
  | moduleName _ => Tag.moduleName
  | packageName _ => Tag.packageName

/-- How many indices an entry takes. -/
def width : Entry → Nat
  | long _ | double _ => 2
  | _ => 1

/-- Number of bytes an entry takes, with its tag. -/
def encodedLength : Entry → Nat
  | utf8 text => 3 + ModifiedUtf8.length text
  | type _ | string _ | methodType _ | moduleName _ | packageName _ => 3
  | methodHandle _ _ => 4
  | long _ | double _ => 9
  | _ => 5

/-- The payload of an entry. -/
def payload : Entry → Bytes
  | utf8 text =>
    let bytes := ModifiedUtf8.encode text
    Bytes.ofUInt16 bytes.size.toUInt16 ++ bytes
  | integer value => Bytes.ofInt32 value
  | float bits => Bytes.ofUInt32 bits
  | long value => Bytes.ofInt64 value
  | double bits => Bytes.ofUInt64 bits
  | type i | string i | methodType i | moduleName i | packageName i => Bytes.ofUInt16 i
  | fieldRef i j | methodRef i j _ | nameAndType i j | dynamic i j | callSite i j =>
    Bytes.ofUInt16 i ++ Bytes.ofUInt16 j
  | methodHandle kind member => #[kind.toUInt8] ++ Bytes.ofUInt16 member

/-- An entry as it stands in the class file. -/
def encode (e : Entry) : Bytes :=
  #[e.tag] ++ e.payload

end Entry

end ClassFile
