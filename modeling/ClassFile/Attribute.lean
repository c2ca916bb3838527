import ClassFile.StackMap

/-!
# Attributes

What an attribute says, with constants named by their indices, and how it stands in the class file. An attribute becomes part
of a table under its name, which is a constant too.
-/

namespace ClassFile

/-- An attribute as part of a table: its name and its payload. -/
structure Attribute where
  name : PoolIndex
  info : Bytes
  deriving DecidableEq, Repr, Inhabited

namespace Attribute

/-- Number of bytes an attribute takes. -/
def size (a : Attribute) : Nat :=
  6 + a.info.size

/-- An attribute as it stands in the class file. -/
def encode (a : Attribute) : Bytes :=
  Bytes.ofUInt16 a.name ++ Bytes.ofUInt32 a.info.size.toUInt32 ++ a.info

@[simp] theorem size_encode (a : Attribute) : a.encode.size = a.size := by
  simp [encode, size, ← Nat.add_assoc]

/-- A table of attributes as it stands in the class file. -/
def encodeTable (attributes : List Attribute) : Bytes :=
  Bytes.counted (attributes.map encode)

end Attribute

/-- An entry of an exception table. -/
structure ExceptionRange where
  start : UInt16
  stop : UInt16
  handler : UInt16
  catchType : Option PoolIndex
  deriving DecidableEq, Repr, Inhabited

/-- An entry of an exception table as it stands in the class file. -/
def ExceptionRange.encode (r : ExceptionRange) : Bytes :=
  Bytes.ofUInt16 r.start ++ Bytes.ofUInt16 r.stop ++ Bytes.ofUInt16 r.handler ++ Bytes.ofUInt16 (r.catchType.getD 0)

/-- An entry of a table of inner classes. -/
structure InnerClass where
  inner : PoolIndex
  outer : Option PoolIndex
  name : Option PoolIndex
  access : UInt16
  deriving DecidableEq, Repr, Inhabited

/-- An entry of a table of inner classes as it stands in the class file. -/
def InnerClass.encode (c : InnerClass) : Bytes :=
  Bytes.ofUInt16 c.inner ++ Bytes.ofUInt16 (c.outer.getD 0) ++ Bytes.ofUInt16 (c.name.getD 0) ++ Bytes.ofUInt16 c.access

/-- A line number and where its code starts. -/
structure LineNumber where
  start : UInt16
  line : UInt16
  deriving DecidableEq, Repr, Inhabited

/-- An entry of a table of line numbers as it stands in the class file. -/
def LineNumber.encode (l : LineNumber) : Bytes :=
  Bytes.ofUInt16 l.start ++ Bytes.ofUInt16 l.line

/-- A local variable, where it lives, and its descriptor or generic signature. -/
structure LocalVariable where
  start : UInt16
  length : UInt16
  name : PoolIndex
  descriptor : PoolIndex
  slot : UInt16
  deriving DecidableEq, Repr, Inhabited

/-- An entry of a table of local variables as it stands in the class file. -/
def LocalVariable.encode (v : LocalVariable) : Bytes :=
  Bytes.ofUInt16 v.start ++ Bytes.ofUInt16 v.length ++ Bytes.ofUInt16 v.name ++ Bytes.ofUInt16 v.descriptor ++
    Bytes.ofUInt16 v.slot

/-- Encoded annotations, one after the other, and how many they are. -/
structure AnnotationList where
  count : UInt16 := 0
  bytes : Bytes := #[]
  deriving DecidableEq, Repr, Inhabited

namespace AnnotationList

def isEmpty (list : AnnotationList) : Bool :=
  list.count == 0

/-- A list of annotations as it stands in the class file. -/
def encode (list : AnnotationList) : Bytes :=
  Bytes.ofUInt16 list.count ++ list.bytes

end AnnotationList

/-- The code of a method with all that belongs to it. -/
structure CodeContent where
  maxStack : UInt16
  maxLocals : UInt16
  code : Bytes
  exceptions : List ExceptionRange
  attributes : List Attribute
  deriving DecidableEq, Repr, Inhabited

/-- The code of a method as it stands in the class file. -/
def CodeContent.encode (c : CodeContent) : Bytes :=
  Bytes.ofUInt16 c.maxStack ++ Bytes.ofUInt16 c.maxLocals ++ Bytes.ofUInt32 c.code.size.toUInt32 ++ c.code ++
    Bytes.counted (c.exceptions.map ExceptionRange.encode) ++ Attribute.encodeTable c.attributes

/-- What an attribute says. -/
inductive AttributeContent where
  | constantValue (value : PoolIndex)
  | code (content : CodeContent)
  | exceptions (types : List PoolIndex)
  | bootstrapMethods (methods : List BootstrapMethod)
  | nestHost (host : PoolIndex)
  | nestMembers (members : List PoolIndex)
  | innerClasses (classes : List InnerClass)
  | enclosingMethod (owner : PoolIndex) (method : Option PoolIndex)
  | signature (text : PoolIndex)
  | sourceFile (name : PoolIndex)
  | sourceDebugExtension (bytes : Bytes)
  | deprecated
  | synthetic
  | lineNumbers (lines : List LineNumber)
  | localVariables (entries : List LocalVariable)
  | localVariableTypes (entries : List LocalVariable)
  | visibleAnnotations (list : AnnotationList)
  | visibleParameterAnnotations (lists : List AnnotationList)
  | stackMapTable (frames : List StackMapFrame)
  | stackMap (entries : List StackMapEntry)
  deriving Repr, Inhabited

namespace AttributeContent

/-- The name under which an attribute stands. -/
def name : AttributeContent → String
  | constantValue _ => "ConstantValue"
  | code _ => "Code"
  | exceptions _ => "Exceptions"
  | bootstrapMethods _ => "BootstrapMethods"
  | nestHost _ => "NestHost"
  | nestMembers _ => "NestMembers"
  | innerClasses _ => "InnerClasses"
  | enclosingMethod _ _ => "EnclosingMethod"
  | signature _ => "Signature"
  | sourceFile _ => "SourceFile"
  | sourceDebugExtension _ => "SourceDebugExtension"
  | deprecated => "Deprecated"
  | synthetic => "Synthetic"
  | lineNumbers _ => "LineNumberTable"
  | localVariables _ => "LocalVariableTable"
  | localVariableTypes _ => "LocalVariableTypeTable"
  | visibleAnnotations _ => "RuntimeVisibleAnnotations"
  | visibleParameterAnnotations _ => "RuntimeVisibleParameterAnnotations"
  | stackMapTable _ => "StackMapTable"
  | stackMap _ => "StackMap"

/-- The payload of an attribute. -/
def encode : AttributeContent → Bytes
  | constantValue i | nestHost i | signature i | sourceFile i => Bytes.ofUInt16 i
  | code content => content.encode
  | exceptions indices | nestMembers indices => Bytes.counted (indices.map Bytes.ofUInt16)
  | bootstrapMethods methods => Bytes.counted (methods.map BootstrapMethod.encode)
  | innerClasses classes => Bytes.counted (classes.map InnerClass.encode)
  | enclosingMethod owner method => Bytes.ofUInt16 owner ++ Bytes.ofUInt16 (method.getD 0)
  | sourceDebugExtension bytes => bytes
  | deprecated | synthetic => #[]
  | lineNumbers lines => Bytes.counted (lines.map LineNumber.encode)
  | localVariables entries | localVariableTypes entries => Bytes.counted (entries.map LocalVariable.encode)
  | visibleAnnotations list => list.encode
  | visibleParameterAnnotations lists => #[lists.length.toUInt8] ++ Bytes.concat (lists.map AnnotationList.encode)
  | stackMapTable frames => Bytes.counted (frames.map StackMapFrame.encode)
  | stackMap entries => Bytes.counted (entries.map StackMapEntry.encode)

end AttributeContent

/-- An attribute under its name, which becomes a constant. -/
def ConstantPool.attribute (content : AttributeContent) : Interning Attribute := do
  return { name := ← utf8 content.name, info := content.encode }

end ClassFile
