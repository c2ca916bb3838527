import ClassFile.Draft.Annotations

/-!
# Writing fields

A field is put into its class when it is closed: its flags, its name and descriptor, and its attributes. The constant it
starts with and its signature become constants only then.
-/

namespace ClassFile

/-- A field under construction. -/
structure FieldDraft where
  access : UInt32
  name : PoolIndex
  descriptor : PoolIndex
  signature : Option String
  value : Option ConstantValue
  annotations : AnnotationList := {}
  deriving Repr, Inhabited

namespace FieldDraft

/-- A field without annotations. -/
def start (access : UInt32) (name descriptor : String) (signature : Option String) (value : Option ConstantValue) :
    Interning FieldDraft := do
  let name ← ConstantPool.utf8 name
  let descriptor ← ConstantPool.utf8 descriptor
  return { access, name, descriptor, signature, value }

/-- The attributes of a field, in the order in which they are written. -/
def attributes (f : FieldDraft) (major : UInt16) : Interning (List Attribute) := do
  let value ←
    match f.value with
    | some value => do
      let i ← ConstantPool.constant value
      internAttributes [.constantValue i]
    | none => pure []
  let markers ← internAttributes (syntheticMarker f.access major ++ deprecatedMarker f.access)
  let signature ←
    match f.signature with
    | some signature => do
      let i ← ConstantPool.utf8 signature
      internAttributes [.signature i]
    | none => pure []
  let rest ← internAttributes (annotationsContent f.annotations)
  return value ++ markers ++ signature ++ rest

/-- A field as it stands in the class file. -/
def encode (f : FieldDraft) (major : UInt16) : Interning Bytes := do
  let attributes ← f.attributes major
  return Bytes.ofUInt16 (AccessFlags.inClassFile f.access major) ++ Bytes.ofUInt16 f.name ++
    Bytes.ofUInt16 f.descriptor ++ Attribute.encodeTable attributes

end FieldDraft

end ClassFile
