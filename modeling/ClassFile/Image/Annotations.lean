import ClassFile.Draft.Annotations
import ClassFile.Image.Walk

/-!
# Reading annotations

The elements of an annotation, or of an array, stand behind their number. An array whose first element is a plain value is
one value, of which only the elements of the first one's kind are kept; any other array is opened and closed like an
annotation, with elements without names. What nobody listens to is read all the same.
-/

namespace ClassFile

namespace Primitive

/-- A plain value of the kind of a letter, held by a constant. -/
def ofTag (pool : PoolView) (tag : UInt8) (index : PoolIndex) : Except Error Primitive :=
  if tag == 66 then (pool.integer index).map fun v => .byte v.toUInt32.toUInt8.toInt8
  else if tag == 67 then (pool.integer index).map fun v => .char v.toUInt32.toUInt16
  else if tag == 83 then (pool.integer index).map fun v => .short v.toUInt32.toUInt16.toInt16
  else if tag == 90 then (pool.integer index).map fun v => .boolean (v != 0)
  else if tag == 73 then (pool.integer index).map .integer
  else if tag == 74 then (pool.long index).map .long
  else if tag == 70 then (pool.float index).map .float
  else (pool.double index).map .double

/-- Whether a letter stands for a plain value. -/
def isTag (tag : UInt8) : Bool :=
  [66, 67, 83, 90, 73, 74, 70, 68].contains tag

/-- A plain value with its letter. -/
def read (pool : PoolView) : Decoder Primitive := do
  let tag ← Decoder.u8
  ofTag pool tag (← Decoder.u16)

end Primitive

namespace Walk

/-- The values of an array whose first element is a plain value; anything else is no such array. -/
def primitiveArray? (pool : PoolView) : Decoder (Option PrimitiveArray) := do
  let start ← Decoder.position
  let count ← Decoder.u16
  let plain ← if count > 0 then Primitive.isTag <$> Decoder.peek else pure false
  if plain then
    let values ← Decoder.many count.toNat (Primitive.read pool)
    return values[0]?.map fun kind => .ofKind kind values.toList
  else
    Decoder.seek start
    return none

/-- The value of an element with a letter that stands for neither a nested annotation nor an array. -/
def simpleElement (pool : PoolView) (name : Option String) (tag : UInt8) : Decoder Event := do
  if Primitive.isTag tag then
    return .elementValue name (.primitive (← Primitive.ofTag pool tag (← Decoder.u16)))
  else if tag == ElementTag.string then
    return .elementValue name (.string (← pool.utf8 (← Decoder.u16)))
  else if tag == ElementTag.type then
    return .elementValue name (.type (← pool.utf8 (← Decoder.u16)))
  else if tag == ElementTag.enumConstant then
    let descriptor ← pool.utf8 (← Decoder.u16)
    let constant ← pool.utf8 (← Decoder.u16)
    return .elementEnum name descriptor constant
  else
    throw (.unknownElementTag tag ((← Decoder.position) - 1))

/-- Elements behind their number, each read by a walk, and the close if someone listens. -/
def elementList (heard : Bool) (element : Walk Unit) : Walk Unit := do
  counted element
  reportIf heard .elementsClose

/-- An element in which annotations and arrays are nested less than `depth` deep. -/
def element (pool : PoolView) (interest : Interest) : (depth : Nat) → (named heard : Bool) → Walk Unit
  | 0, _, _ => do
    let position ← read Decoder.position
    throw (.truncated position 1)
  | depth + 1, named, heard => do
    let name ← if named then some <$> read do pool.utf8 (← Decoder.u16) else pure none
    let tag ← read Decoder.u8
    if tag == ElementTag.nested then
      let descriptor ← read do pool.utf8 (← Decoder.u16)
      reportIf heard (.elementNested name descriptor)
      let heard ← wanted heard interest.nested
      elementList heard (element pool interest depth true heard)
    else if tag == ElementTag.array then
      match ← read (primitiveArray? pool) with
      | some values => reportIf heard (.elementValue name (.array values))
      | none =>
        reportIf heard (.elementArray name)
        let heard ← wanted heard interest.arrays
        elementList heard (element pool interest depth false heard)
    else
      reportIf heard (← read (simpleElement pool name tag))

/-- The elements of an annotation. Every level takes a byte at least, so that they cannot be nested deeper than that. -/
def elements (pool : PoolView) (interest : Interest) (heard : Bool) : Walk Unit :=
  elementList heard (element pool interest (pool.bytes.size + 1) true heard)

/-- An annotation, opened by an event made of its descriptor. -/
def annotationItem (pool : PoolView) (interest : Interest) (opened : String → Event) : Walk Unit := do
  let descriptor ← read do pool.utf8 (← Decoder.u16)
  report (opened descriptor)
  elements pool interest (← wanted true interest.annotations)

/-- A list of annotations. -/
def annotationList (pool : PoolView) (interest : Interest) : Walk Unit :=
  counted (annotationItem pool interest .annotationOpen)

/-- The lists of annotations of the parameters from a number on. -/
def parameterLists (pool : PoolView) (interest : Interest) : (count : Nat) → (parameter : UInt8) → Walk Unit
  | 0, _ => pure ()
  | count + 1, parameter => do
    counted (annotationItem pool interest (.parameterAnnotationOpen parameter))
    parameterLists pool interest count (parameter + 1)

/-- The annotations of all parameters. -/
def parameterAnnotations (pool : PoolView) (interest : Interest) : Walk Unit := do
  let count ← read Decoder.u8
  parameterLists pool interest count.toNat 0

end Walk

end ClassFile
