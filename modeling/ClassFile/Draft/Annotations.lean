import ClassFile.Draft.Context

/-!
# Writing annotations

An annotation is written while its elements come in: a stack of levels, each an annotation or an array that is still open.
What closes goes into the level around it behind the number of its elements, which is counted modulo 65536. An element of an
annotation has a name, one of an array has none.
-/

namespace ClassFile

namespace Primitive

/-- The letter that tells the kind of a value. -/
def tag : Primitive → UInt8
  | byte _ => 66
  | char _ => 67
  | double _ => 68
  | float _ => 70
  | integer _ => 73
  | long _ => 74
  | short _ => 83
  | boolean _ => 90

/-- The constant that holds a value. -/
def entry : Primitive → Entry
  | byte v => .integer v.toInt32
  | char v => .integer v.toUInt32.toInt32
  | short v => .integer v.toInt32
  | boolean v => .integer (if v then 1 else 0)
  | integer v => .integer v
  | long v => .long v
  | float bits => .float bits
  | double bits => .double bits

/-- A value as it stands in the class file. -/
def encode (p : Primitive) : Interning Bytes := do
  return #[p.tag] ++ Bytes.ofUInt16 (← ConstantPool.intern p.entry)

/-- Values as they stand in the class file, behind the bytes before them. -/
def encodeAll (out : Bytes) : List Primitive → Interning Bytes
  | [] => pure out
  | p :: rest => do
    encodeAll (out ++ (← p.encode)) rest

end Primitive

namespace ElementTag

/-- The letter of a string. -/
def string : UInt8 := 115

/-- The letter of a class. -/
def type : UInt8 := 99

/-- The letter of a constant of an enumeration. -/
def enumConstant : UInt8 := 101

/-- The letter of a nested annotation. -/
def nested : UInt8 := 64

/-- The letter of an array. -/
def array : UInt8 := 91

end ElementTag

/-- A value as it stands in the class file. -/
def AnnotationValue.encode : AnnotationValue → Interning Bytes
  | .primitive p => p.encode
  | .string s => do
    return #[ElementTag.string] ++ Bytes.ofUInt16 (← ConstantPool.utf8 s)
  | .type descriptor => do
    return #[ElementTag.type] ++ Bytes.ofUInt16 (← ConstantPool.utf8 descriptor)
  | .array values =>
    let values := values.toList
    Primitive.encodeAll (#[ElementTag.array] ++ Bytes.ofUInt16 values.length.toUInt16) values

/-- An annotation or an array that is still open. -/
structure ElementLevel where
  /-- Whether the elements have names. -/
  named : Bool
  /-- What stands before the number of elements. -/
  head : Bytes
  count : UInt16 := 0
  body : Bytes := #[]
  deriving Repr, Inhabited

namespace ElementLevel

/-- The level with the name of its next element. An element that should have a name and has none is the value. -/
def startElement (level : ElementLevel) (name : Option String) : Interning ElementLevel := do
  let ⟨named, head, count, body⟩ := level
  if named then
    let name ← ConstantPool.utf8 (name.getD "value")
    return ⟨named, head, count + 1, body ++ Bytes.ofUInt16 name⟩
  else
    return ⟨named, head, count + 1, body⟩

/-- The level with more bytes of its body. -/
def extend (level : ElementLevel) (bytes : Bytes) : ElementLevel :=
  let ⟨named, head, count, body⟩ := level
  ⟨named, head, count, body ++ bytes⟩

/-- A level as it stands in the class file. -/
def encode (level : ElementLevel) : Bytes :=
  level.head ++ Bytes.ofUInt16 level.count ++ level.body

/-- The level with another element. -/
def value (level : ElementLevel) (name : Option String) (v : AnnotationValue) : Interning ElementLevel := do
  let level ← level.startElement name
  return level.extend (← v.encode)

/-- The level with a constant of an enumeration as another element. -/
def enumConstant (level : ElementLevel) (name : Option String) (descriptor constant : String) :
    Interning ElementLevel := do
  let level ← level.startElement name
  let descriptor ← ConstantPool.utf8 descriptor
  let constant ← ConstantPool.utf8 constant
  return level.extend (#[ElementTag.enumConstant] ++ Bytes.ofUInt16 descriptor ++ Bytes.ofUInt16 constant)

end ElementLevel

/-- What an annotation belongs to. -/
inductive AnnotationTarget where
  | owner
  | parameter (index : Nat)
  deriving DecidableEq, Repr, Inhabited

/-- An annotation that is still open. -/
structure AnnotationDraft where
  target : AnnotationTarget
  level : ElementLevel
  /-- The levels around the one that elements go to, the next one first. -/
  outer : List ElementLevel
  deriving Repr, Inhabited

namespace AnnotationDraft

/-- An annotation without elements. -/
def start (target : AnnotationTarget) (descriptor : String) : Interning AnnotationDraft := do
  let type ← ConstantPool.utf8 descriptor
  return { target, level := { named := true, head := Bytes.ofUInt16 type }, outer := [] }

/-- The draft with the open level changed. -/
def mapLevel (draft : AnnotationDraft) (f : ElementLevel → Interning ElementLevel) : Interning AnnotationDraft := do
  let ⟨target, level, outer⟩ := draft
  return ⟨target, ← f level, outer⟩

/-- The draft with a nested annotation opened. -/
def openNested (draft : AnnotationDraft) (name : Option String) (descriptor : String) : Interning AnnotationDraft := do
  let ⟨target, level, outer⟩ := draft
  let level ← level.startElement name
  let type ← ConstantPool.utf8 descriptor
  let level := level.extend (#[ElementTag.nested] ++ Bytes.ofUInt16 type)
  return ⟨target, { named := true, head := #[] }, level :: outer⟩

/-- The draft with an array opened. -/
def openArray (draft : AnnotationDraft) (name : Option String) : Interning AnnotationDraft := do
  let ⟨target, level, outer⟩ := draft
  let level ← level.startElement name
  return ⟨target, { named := false, head := #[] }, level.extend #[ElementTag.array] :: outer⟩

/-- Closes the open level: the draft goes on with the level around it, or the annotation is complete. -/
def close (draft : AnnotationDraft) : Bytes ⊕ AnnotationDraft :=
  match draft with
  | ⟨_, level, []⟩ => .inl level.encode
  | ⟨target, level, parent :: outer⟩ => .inr ⟨target, parent.extend level.encode, outer⟩

/-- Closes all levels that are open. -/
def closeAll (draft : AnnotationDraft) : Bytes :=
  (draft.outer.foldl (fun level parent => parent.extend level.encode) draft.level).encode

end AnnotationDraft

/-- The list with another annotation. -/
def AnnotationList.push (list : AnnotationList) (annotationBytes : Bytes) : AnnotationList :=
  let ⟨count, bytes⟩ := list
  ⟨count + 1, bytes ++ annotationBytes⟩

end ClassFile
