import ClassFile.Bytes.Basic
import ClassFile.Constant.Value
import ClassFile.Label
import ClassFile.Version

/-!
# Class contents as events

The contents of a class in the order in which a reader meets them: a list of events. An annotation, a field or a method is
opened by one event and closed by another, and what stands between belongs to it. Access flags are bits, with the marker of
deprecated members among them.
-/

namespace ClassFile

/-- A plain value of an annotation. -/
inductive Primitive where
  | byte (value : Int8)
  | char (value : UInt16)
  | short (value : Int16)
  | boolean (value : Bool)
  | integer (value : Int32)
  | long (value : Int64)
  | float (bits : UInt32)
  | double (bits : UInt64)
  deriving DecidableEq, Repr, Inhabited

/-- An array of plain values of one kind. -/
inductive PrimitiveArray where
  | bytes (values : List Int8)
  | chars (values : List UInt16)
  | shorts (values : List Int16)
  | booleans (values : List Bool)
  | integers (values : List Int32)
  | longs (values : List Int64)
  | floats (values : List UInt32)
  | doubles (values : List UInt64)
  deriving DecidableEq, Repr, Inhabited

namespace PrimitiveArray

/-- The values of an array, in order. -/
def toList : PrimitiveArray → List Primitive
  | bytes values => values.map .byte
  | chars values => values.map .char
  | shorts values => values.map .short
  | booleans values => values.map .boolean
  | integers values => values.map .integer
  | longs values => values.map .long
  | floats values => values.map .float
  | doubles values => values.map .double

/-- The values of the kind of a given value, in order. -/
def ofKind (kind : Primitive) (values : List Primitive) : PrimitiveArray :=
  match kind with
  | .byte _ => bytes (values.filterMap fun | .byte v => some v | _ => none)
  | .char _ => chars (values.filterMap fun | .char v => some v | _ => none)
  | .short _ => shorts (values.filterMap fun | .short v => some v | _ => none)
  | .boolean _ => booleans (values.filterMap fun | .boolean v => some v | _ => none)
  | .integer _ => integers (values.filterMap fun | .integer v => some v | _ => none)
  | .long _ => longs (values.filterMap fun | .long v => some v | _ => none)
  | .float _ => floats (values.filterMap fun | .float v => some v | _ => none)
  | .double _ => doubles (values.filterMap fun | .double v => some v | _ => none)

end PrimitiveArray

/-- A value of an annotation that has no parts of its own but for plain values. -/
inductive AnnotationValue where
  | primitive (value : Primitive)
  | string (value : String)
  /-- A class, by its descriptor. -/
  | type (descriptor : String)
  | array (values : PrimitiveArray)
  deriving DecidableEq, Repr, Inhabited

/-- An instruction. Opcodes stay as they are but for short forms: an instruction does not say how wide its operands are. -/
inductive Instruction where
  /-- An instruction without operands. -/
  | bare (op : UInt8)
  /-- A load of a small number, or an allocation of an array of plain values. -/
  | immediate (op : UInt8) (operand : Int32)
  /-- A load or store of a local, or the return from a subroutine. -/
  | moveLocal (op : UInt8) (slot : UInt16)
  /-- An instruction with a class as operand. -/
  | typed (op : UInt8) (name : String)
  | field (op : UInt8) (owner name descriptor : String)
  | invoke (op : UInt8) (member : MemberRef)
  | invokeDynamic (name descriptor : String) (bootstrap : MethodHandle) (arguments : List ConstantValue)
  | jump (op : UInt8) (label : Label)
  /-- A load of a constant. -/
  | constant (value : ConstantValue)
  | increment (slot : UInt16) (amount : Int16)
  | tableSwitch (low high : Int32) (defaultLabel : Label) (labels : List Label)
  | lookupSwitch (defaultLabel : Label) (keys : List Int32) (labels : List Label)
  | multiArray (descriptor : String) (dimensions : UInt8)
  deriving Repr, Inhabited, BEq

/-- A class file that methods can be copied from, by a number of its own. -/
abbrev SourceId := Nat

/-- A piece of the contents of a class. -/
inductive Event where
  /-- The class itself. -/
  | header (version : Version) (access : UInt32) (name : String) (signature superName : Option String)
      (interfaces : List String)
  | source (file debug : Option String)
  /-- The class, and if there is one the method, that encloses the class. -/
  | outerClass (owner : String) (name descriptor : Option String)
  | nestHost (name : String)
  | nestMember (name : String)
  | innerClass (name : String) (outer inner : Option String) (access : UInt16)
  /-- Opens an annotation of the class, field or method. -/
  | annotationOpen (descriptor : String)
  /-- Opens an annotation of a parameter of the method. -/
  | parameterAnnotationOpen (parameter : UInt8) (descriptor : String)
  | elementValue (name : Option String) (value : AnnotationValue)
  | elementEnum (name : Option String) (descriptor constant : String)
  /-- Opens an annotation that is a value. -/
  | elementNested (name : Option String) (descriptor : String)
  /-- Opens an array of values. -/
  | elementArray (name : Option String)
  /-- Closes an annotation or an array. -/
  | elementsClose
  | fieldOpen (access : UInt32) (name descriptor : String) (signature : Option String) (value : Option ConstantValue)
  | fieldClose
  | methodOpen (access : UInt32) (name descriptor : String) (signature : Option String) (exceptions : List String)
  | methodClose
  /-- The attributes of the method as they stand in a class file. -/
  | methodCopy (source : SourceId) (attributes : Bytes)
  | instruction (instruction : Instruction)
  | label (label : Label)
  | tryCatch (start stop handler : Label) (type : Option String)
  | localVariable (name descriptor : String) (signature : Option String) (start stop : Label) (slot : UInt16)
  | lineNumber (line : UInt16) (start : Label)
  | maxStack (height : UInt16)
  | classClose
  /-- Leaves what was opened last without closing it. -/
  | abandon
  deriving Repr, Inhabited, BEq

end ClassFile
