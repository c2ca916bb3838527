import ClassFile.Image.Annotations
import ClassFile.Image.Code

/-!
# The contents of a class file

Reports the contents of a class file as events, from the class itself over its attributes and fields to its methods. Of an
attribute that stands several times in one table the last one counts, but exceptions and nest members add up. Attributes that
are not known are passed over.
-/

namespace ClassFile

/-- The attributes that a class, a field and a method can all have. -/
structure CommonAttributes where
  signature : Option String := none
  deprecated : Bool := false
  synthetic : Bool := false
  /-- Offset of the annotations. -/
  annotations : Option Nat := none
  deriving Repr, Inhabited

namespace CommonAttributes

/-- Takes down an attribute, if it is one of these. -/
def add (pool : PoolView) (c : CommonAttributes) (a : RawAttribute) : Except Error (Option CommonAttributes) :=
  if a.name == "Signature" then do
    let signature ← (do pool.utf8 (← Decoder.u16) : Decoder String).runAt pool.bytes a.start
    return some { c with signature := some signature }
  else if a.name == "Deprecated" then .ok (some { c with deprecated := true })
  else if a.name == "Synthetic" then .ok (some { c with synthetic := true })
  else if a.name == "RuntimeVisibleAnnotations" then .ok (some { c with annotations := some a.start })
  else .ok none

/-- The flags that stand for the markers. -/
def accessBits (c : CommonAttributes) : UInt32 :=
  (if c.deprecated then AccessFlags.deprecated else 0) ||| (if c.synthetic then AccessFlags.synthetic else 0)

end CommonAttributes

/-- The attributes of a class. -/
structure ClassAttributes where
  common : CommonAttributes := {}
  sourceFile : Option String := none
  sourceDebug : Option String := none
  enclosing : Option (String × Option (String × String)) := none
  nestHost : Option String := none
  nestMembers : Array String := #[]
  /-- Offset of the inner classes. -/
  innerClasses : Option Nat := none
  deriving Inhabited

/-- The attributes of a field. -/
structure FieldAttributes where
  common : CommonAttributes := {}
  value : Option ConstantValue := none
  deriving Inhabited

/-- The attributes of a method. -/
structure MethodAttributes where
  common : CommonAttributes := {}
  /-- Offset of the code. -/
  code : Option Nat := none
  exceptions : Array String := #[]
  /-- Offset of the annotations of the parameters. -/
  parameterAnnotations : Option Nat := none
  deriving Inhabited

namespace Image

/-- The name of a class whose index comes next. -/
def nextTypeName (pool : PoolView) : Decoder String := do
  pool.typeName (← Decoder.u16)

/-- The enclosing class, and its method if there is one. -/
def enclosingMethod (pool : PoolView) : Decoder (String × Option (String × String)) := do
  let owner ← nextTypeName pool
  let method ← Decoder.u16
  if method == 0 then return (owner, none)
  else return (owner, some (← pool.nameAndType method))

/-- Takes down an attribute of the class. -/
def addClassAttribute (pool : PoolView) (omitted : Omissions) (c : ClassAttributes) (a : RawAttribute) :
    Except Error ClassAttributes := do
  match ← c.common.add pool a with
  | some common => return { c with common }
  | none =>
    let read {α : Type} (d : Decoder α) : Except Error α := d.runAt pool.bytes a.start
    if a.name == "SourceFile" then
      return { c with sourceFile := some (← read do pool.utf8 (← Decoder.u16)) }
    else if a.name == "SourceDebugExtension" then
      return { c with sourceDebug := some (ModifiedUtf8.decode (← read (Decoder.take a.length))) }
    else if a.name == "EnclosingMethod" then
      return { c with enclosing := some (← read (enclosingMethod pool)) }
    else if a.name == "NestHost" then
      return { c with nestHost := some (← read (nextTypeName pool)) }
    else if a.name == "NestMembers" then
      return { c with nestMembers := c.nestMembers ++ (← read (Decoder.counted (nextTypeName pool))) }
    else if a.name == "InnerClasses" && !omitted.innerClasses then
      return { c with innerClasses := some a.start }
    else return c

/-- Takes down an attribute of a field. -/
def addFieldAttribute (pool : PoolView) (f : FieldAttributes) (a : RawAttribute) : Except Error FieldAttributes := do
  match ← f.common.add pool a with
  | some common => return { f with common }
  | none =>
    if a.name == "ConstantValue" then
      let index ← Decoder.u16.runAt pool.bytes a.start
      return { f with value := some (← pool.constant index) }
    else return f

/-- Takes down an attribute of a method. -/
def addMethodAttribute (pool : PoolView) (m : MethodAttributes) (a : RawAttribute) : Except Error MethodAttributes := do
  match ← m.common.add pool a with
  | some common => return { m with common }
  | none =>
    if a.name == "Code" then return { m with code := some a.start }
    else if a.name == "Exceptions" then
      return { m with exceptions :=
        m.exceptions ++ (← (Decoder.counted (nextTypeName pool)).runAt pool.bytes a.start) }
    else if a.name == "RuntimeVisibleParameterAnnotations" then
      return { m with parameterAnnotations := some a.start }
    else return m

/-- What the attributes of a class say. -/
def classAttributes (pool : PoolView) (omitted : Omissions) (attributes : List RawAttribute) :
    Except Error ClassAttributes :=
  attributes.foldlM (addClassAttribute pool omitted) {}

/-- What the attributes of a field say. -/
def fieldAttributes (pool : PoolView) (attributes : List RawAttribute) : Except Error FieldAttributes :=
  attributes.foldlM (addFieldAttribute pool) {}

/-- What the attributes of a method say. -/
def methodAttributes (pool : PoolView) (attributes : List RawAttribute) : Except Error MethodAttributes :=
  attributes.foldlM (addMethodAttribute pool) {}

/-- Walks from an offset on, if there is one. -/
def walkAt (pool : PoolView) (offset : Option Nat) (w : Walk Unit) : Narration Unit :=
  match offset with
  | some offset => w.runAt pool.bytes offset
  | none => pure ()

/-- Reports an inner class. -/
def innerClassItem (pool : PoolView) : Walk Unit := do
  let name ← Walk.read (nextTypeName pool)
  let outer ← Walk.read do pool.typeName? (← Decoder.u16)
  let inner ← Walk.read do pool.utf8? (← Decoder.u16)
  let access ← Walk.read Decoder.u16
  Walk.report (.innerClass name outer inner (FlagOwner.innerClasses.truncate access.toUInt32).toUInt16)

/-- Reports a field. -/
def narrateField (pool : PoolView) (interest : Interest) : Walk Unit := do
  let access := (← Walk.read Decoder.u16).toUInt32
  let name ← Walk.read do pool.utf8 (← Decoder.u16)
  let descriptor ← Walk.read do pool.utf8 (← Decoder.u16)
  let attributes ← Walk.read (attributeTable pool)
  let f ← Walk.read (fieldAttributes pool attributes)
  let access := FlagOwner.fields.truncate (access ||| f.common.accessBits)
  Walk.report (.fieldOpen access name descriptor f.common.signature f.value)
  if ← Walk.wanted true interest.fields then
    walkAt pool f.common.annotations (Walk.annotationList pool interest)
    Walk.report .fieldClose

/-- Reports what a method holds, behind its head. -/
def narrateMethodBody (pool : PoolView) (omitted : Omissions) (interest : Interest) (m : MethodAttributes) :
    Narration Unit := do
  walkAt pool m.common.annotations (Walk.annotationList pool interest)
  walkAt pool m.parameterAnnotations (Walk.parameterAnnotations pool interest)
  walkAt pool (if omitted.code then none else m.code) (Code.narrate pool omitted)
  Narration.report .methodClose

/-- Reports a method. One that is taken as it stands is not read any further. -/
def narrateMethod (pool : PoolView) (omitted : Omissions) (interest : Interest) : Walk Unit := do
  let access := (← Walk.read Decoder.u16).toUInt32
  let name ← Walk.read do pool.utf8 (← Decoder.u16)
  let descriptor ← Walk.read do pool.utf8 (← Decoder.u16)
  let start ← Walk.read Decoder.position
  let attributes ← Walk.read (attributeTable pool)
  let stop ← Walk.read Decoder.position
  let m ← Walk.read (methodAttributes pool attributes)
  let access := FlagOwner.methods.truncate (access ||| m.common.accessBits)
  Walk.report (.methodOpen access name descriptor m.common.signature m.exceptions.toList)
  if ← Walk.wanted true interest.methods then
    match interest.copies with
    | some source =>
      Walk.report (.methodCopy source (pool.bytes.extract start stop))
      Walk.report .methodClose
    | none => narrateMethodBody pool omitted interest m

/-- Reports the attributes of a class, behind its head. -/
def narrateClassAttributes (pool : PoolView) (omitted : Omissions) (interest : Interest) (c : ClassAttributes) :
    Narration Unit := do
  if !omitted.debug && (c.sourceFile.isSome || c.sourceDebug.isSome) then
    Narration.report (.source c.sourceFile c.sourceDebug)
  match c.enclosing with
  | some (owner, method) => Narration.report (.outerClass owner (method.map (·.1)) (method.map (·.2)))
  | none => pure ()
  match c.nestHost with
  | some host => Narration.report (.nestHost host)
  | none => pure ()
  c.nestMembers.toList.forM fun name => Narration.report (.nestMember name)
  walkAt pool c.common.annotations (Walk.annotationList pool interest)
  walkAt pool c.innerClasses (Walk.counted (innerClassItem pool))

/-- Reports a class file. -/
def narrate (image : Image) (omitted : Omissions) (interest : Interest) : Narration Unit := do
  let pool := image.pool
  let version ← image.version
  let name ← image.className
  let superName ← image.superName
  let interfaces ← image.interfaces
  let access ← image.accessBits
  let attributes ← (attributeTable pool).runAt image.bytes image.attributes
  let c ← classAttributes pool omitted attributes
  let access := FlagOwner.classes.truncate (access ||| c.common.accessBits)
  Narration.report (.header version access name c.common.signature superName interfaces)
  narrateClassAttributes pool omitted interest c
  let members : Walk Unit := do
    Walk.counted (narrateField pool interest)
    Walk.counted (narrateMethod pool omitted interest)
  members.runAt image.bytes (image.header + 8 + 2 * interfaces.length)
  Narration.report .classClose

/-- The events of a class file, and what stopped them if something did. -/
def contents (image : Image) (omitted : Omissions) (interest : Interest) : Except Error Unit × List Event :=
  let (result, events) := (image.narrate omitted interest).run.run #[]
  (result, events.toList)

end Image

end ClassFile
