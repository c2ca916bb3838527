import ClassFile.Descriptor
import ClassFile.Error
import ClassFile.Frame.TypeTable

/-!
# Frame types

The type of a slot of a frame: a shape under a number of array dimensions. Besides the types of values, a shape can be what a
local or a stack slot held when the block was entered, so that the effect of a block can be written down before its input is
known. Dimensions are counted modulo sixteen and read as a signed number: taking the element of an unknown array makes them
negative, to be made up for when the array becomes known.

The number of a slot has twenty-three bits, in a word with a bit for its usability, four bits for the kind of
slot and four for dimensions. Slots of methods have smaller numbers; the higher bits of a greater one are
joined to the bits in their places.

`FrameType.mergeInto` joins the types with which two paths reach one slot.
-/

namespace ClassFile

/-- What a frame type is under its dimensions. -/
inductive Shape where
  /-- Nothing is known of the slot yet. -/
  | unset
  /-- No usable value. -/
  | top
  | integer
  | float
  | long
  | double
  | null
  /-- The object under construction, before its constructor has called another. -/
  | uninitializedThis
  /-- An element type of arrays, as are the next three. -/
  | boolean
  | byte
  | char
  | short
  /-- A class, by its number in the type table. -/
  | object (index : Nat)
  /-- An allocated object before its constructor has run, by its number in the type table. -/
  | uninitialized (index : Nat)
  /-- What the local held when the block was entered; no usable value if `topIfWide` and that takes two slots. -/
  | localSlot (slot : Nat) (topIfWide : Bool)
  /-- What the stack slot held when the block was entered, counted from the top of the stack and from one. -/
  | stackSlot (slot : Nat) (topIfWide : Bool)
  /-- What the slot of a number too large for its place comes to: the number has changed the kind of
  slot to one of no meaning. -/
  | straySlot (kind slot : Nat) (topIfWide : Bool)
  deriving DecidableEq, Repr, Inhabited

namespace Shape

/-- The number that a shape has in the type table, or would have there: twenty bits that are the number of a class, the low
part of the number of a slot, or tell the plain types apart. -/
def index : Shape → Nat
  | unset | top => 0
  | integer => 1
  | float => 2
  | double => 3
  | long => 4
  | null => 5
  | uninitializedThis => 6
  | boolean => 9
  | byte => 10
  | char => 11
  | short => 12
  | object index | uninitialized index => index
  | localSlot slot _ | stackSlot slot _ | straySlot _ slot _ => slot % 0x100000

/-- Whether a shape is a class. -/
def isObject : Shape → Bool
  | object _ => true
  | _ => false

/-- Whether a shape stands for a type of its own and not for what a slot held. -/
def isConcrete : Shape → Bool
  | unset | localSlot _ _ | stackSlot _ _ | straySlot _ _ _ => false
  | _ => true

end Shape

/-- The type of a slot. -/
structure FrameType where
  dims : BitVec 4 := 0
  shape : Shape
  deriving DecidableEq, Repr, Inhabited

namespace FrameType

def unset : FrameType := ⟨0, .unset⟩
def top : FrameType := ⟨0, .top⟩
def integer : FrameType := ⟨0, .integer⟩
def float : FrameType := ⟨0, .float⟩
def long : FrameType := ⟨0, .long⟩
def double : FrameType := ⟨0, .double⟩
def null : FrameType := ⟨0, .null⟩
def uninitializedThis : FrameType := ⟨0, .uninitializedThis⟩
def boolean : FrameType := ⟨0, .boolean⟩
def byte : FrameType := ⟨0, .byte⟩
def char : FrameType := ⟨0, .char⟩
def short : FrameType := ⟨0, .short⟩

/-- A class by its number. -/
def object (index : Nat) : FrameType :=
  ⟨0, .object index⟩

/-- An allocated object by its number. -/
def uninitialized (index : Nat) : FrameType :=
  ⟨0, .uninitialized index⟩

/-- The kind of slot that locals are. -/
def localKind : Nat := 2

/-- The kind of slot that the slots of the stack are. -/
def stackKind : Nat := 3

/-- A slot by its kind and number. The number fills twenty-three bits, then the bit for a type that becomes unusable, the
four bits of the kind, which are joined to those that are set already, and the dimensions. -/
def ofSlot (kind number : Nat) : FrameType :=
  let slot := number % 0x800000
  let topIfWide := number.testBit 23
  let kind := kind ||| number / 0x1000000 % 16
  ⟨BitVec.ofNat 4 (number / 0x10000000),
    if kind = localKind then .localSlot slot topIfWide
    else if kind = stackKind then .stackSlot slot topIfWide
    else .straySlot kind slot topIfWide⟩

/-- What a local held when the block was entered. -/
def localSlot (slot : Nat) : FrameType :=
  ofSlot localKind slot

/-- What a stack slot held when the block was entered, counted from the top and from one. -/
def stackSlot (slot : Nat) : FrameType :=
  ofSlot stackKind slot

/-- A number that keeps to its place changes nothing but the slot. -/
theorem ofSlot_of_lt {slot : Nat} (kind : Nat) (h : slot < 0x800000) : ofSlot kind slot = ⟨0,
    if kind = localKind then .localSlot slot false
    else if kind = stackKind then .stackSlot slot false
    else .straySlot kind slot false⟩ := by
  have h24 : slot / 0x1000000 = 0 := Nat.div_eq_of_lt (by omega)
  have h28 : slot / 0x10000000 = 0 := Nat.div_eq_of_lt (by omega)
  have hbit : slot.testBit 23 = false := Nat.testBit_lt_two_pow h
  simp only [ofSlot, h24, h28, Nat.mod_eq_of_lt h, hbit, Nat.zero_mod, Nat.or_zero,
    BitVec.ofNat_eq_ofNat]

/-- The signed number of array dimensions. -/
def dimensions (t : FrameType) : Int :=
  t.dims.toInt

def isUnset (t : FrameType) : Bool :=
  t == unset

/-- Whether a value of the type takes two slots. -/
def isWide (t : FrameType) : Bool :=
  t == long || t == double

/-- Whether the type is a class or an array of anything. -/
def isReference (t : FrameType) : Bool :=
  t.shape.isObject || t.dims != 0

/-- Arrays of the type. -/
def arrayOf (t : FrameType) : FrameType :=
  { t with dims := t.dims + 1 }

/-- What an array of the type holds. -/
def elementOf (t : FrameType) : FrameType :=
  { t with dims := t.dims - 1 }

/-- The type with the dimensions of another added. -/
def withDimensionsOf (t other : FrameType) : FrameType :=
  { t with dims := other.dims + t.dims }

/-- The type of a slot whose second half has been overwritten: what a slot held is no longer usable if it took two. -/
def topIfWide (t : FrameType) : FrameType :=
  match t.shape with
  | .localSlot slot _ => { t with shape := .localSlot slot true }
  | .stackSlot slot _ => { t with shape := .stackSlot slot true }
  | .straySlot kind slot _ => { t with shape := .straySlot kind slot true }
  | _ => t

/-- Whether the type is unusable if what the slot held takes two slots; of uninitialised objects this is said too. -/
def wantsTop (t : FrameType) : Bool :=
  match t.shape with
  | .localSlot _ topIfWide | .stackSlot _ topIfWide | .straySlot _ _ topIfWide => topIfWide
  | .uninitialized _ => true
  | _ => false

/-- Greatest number of array dimensions that a descriptor may have. -/
def maxDimensions : Nat := 7

/-- The class that a descriptor names, given what follows its first letter. -/
def ofName (types : TypeTable) (rest : List Char) : Option FrameType × TypeTable :=
  match Descriptor.dropSemicolon rest with
  | some name =>
    let (i, types) := types.addNormal (String.ofList name)
    (some (object i), types)
  | none => (none, types)

/-- The element type that an array descriptor names behind its brackets. -/
def ofElement (types : TypeTable) : List Char → Option FrameType × TypeTable
  | 'Z' :: _ => (some boolean, types)
  | 'C' :: _ => (some char, types)
  | 'B' :: _ => (some byte, types)
  | 'S' :: _ => (some short, types)
  | 'I' :: _ => (some integer, types)
  | 'F' :: _ => (some float, types)
  | 'J' :: _ => (some long, types)
  | 'D' :: _ => (some double, types)
  | 'L' :: rest => ofName types rest
  | _ => (none, types)

/-- The type of a value that the characters of a field descriptor describe; nothing for the descriptor of no value. -/
def ofValue (types : TypeTable) : List Char → Option FrameType × TypeTable
  | 'V' :: _ => (some unset, types)
  | 'Z' :: _ | 'C' :: _ | 'B' :: _ | 'S' :: _ | 'I' :: _ => (some integer, types)
  | 'F' :: _ => (some float, types)
  | 'J' :: _ => (some long, types)
  | 'D' :: _ => (some double, types)
  | 'L' :: rest => ofName types rest
  | '[' :: rest =>
    let dimensions := (Descriptor.takeBrackets ('[' :: rest)).length
    if dimensions > maxDimensions then (none, types)
    else
      let (element, types) := ofElement types (Descriptor.skipBrackets rest)
      (element.map fun t => { t with dims := BitVec.ofNat 4 dimensions }, types)
  | _ => (none, types)

/-- The type of a value of a field, or of what a method returns. -/
def ofDescriptor (types : TypeTable) (descriptor : String) : Except Error FrameType × TypeTable :=
  match ofValue types (Descriptor.returnChars descriptor.toList) with
  | (some t, types) => (.ok t, types)
  | (none, types) => (.error (.badDescriptor descriptor), types)

/-- The dimensions of the array of objects to which a reference can be widened. An array of plain values counts one less,
since it is itself an object. -/
def widenedDims (t : FrameType) : BitVec 4 :=
  if t.dims == 0 || t.shape.isObject then t.dims else t.dims - 1

/-- The smaller of two numbers of dimensions, as signed numbers. -/
def minDims (a b : BitVec 4) : BitVec 4 :=
  if a.toInt ≤ b.toInt then a else b

/-- An array of objects, or the class of all objects itself. -/
def objectArray (types : TypeTable) (dims : BitVec 4) : FrameType × TypeTable :=
  let (i, types) := types.addNormal objectClass
  (⟨dims, .object i⟩, types)

/-- The type in which a reference and another type, different and not the null type, meet: for classes under the same number
of dimensions their common superclass, and for other references an array of objects to which both can be widened. -/
def mergeReference (h : Hierarchy) (types : TypeTable) (slot incoming : FrameType) : FrameType × TypeTable :=
  if incoming.dims == slot.dims && incoming.shape.isObject && slot.shape.isObject then
    let (k, types) := types.mergedType h incoming.shape.index slot.shape.index
    (⟨incoming.dims, .object k⟩, types)
  else if incoming.isReference then
    objectArray types (minDims incoming.widenedDims slot.widenedDims)
  else
    (top, types)

/-- The type of a slot after a type has joined it, and whether it is another than before. Equal types stay, the null type
joins any reference, classes meet at their common superclass, and all else has no usable type in common. -/
def mergeInto (h : Hierarchy) (types : TypeTable) (slot incoming : FrameType) : FrameType × Bool × TypeTable :=
  if slot == incoming then (slot, false, types)
  else
    let incoming := if incoming.shape == .null then null else incoming
    if slot == incoming then (slot, false, types)
    else if slot.isUnset then (incoming, true, types)
    else if slot.isReference then
      if incoming == null then (slot, false, types)
      else
        let (joined, types) := mergeReference h types slot incoming
        (joined, joined != slot, types)
    else if slot == null && incoming.isReference then (incoming, true, types)
    else (top, top != slot, types)

/-- The name of a shape as it is shown, with its number for a class or a slot. -/
def describeShape : Shape → String
  | .unset => "?"
  | .top => "top"
  | .integer => "int"
  | .float => "float"
  | .long => "long"
  | .double => "double"
  | .null => "null"
  | .uninitializedThis => "uninitializedThis"
  | .boolean => "boolean"
  | .byte => "byte"
  | .char => "char"
  | .short => "short"
  | .object index => s!"object#{index}"
  | .uninitialized index => s!"uninitialized#{index}"
  | .localSlot slot _ => s!"local{slot}"
  | .stackSlot slot _ => s!"stack{slot}"
  | .straySlot _ _ _ => "?"

/-- How a type is shown: a bracket for each dimension, the shape, and an exclamation mark if it may become unusable. -/
def describe (t : FrameType) : String :=
  if t.isUnset then "unset"
  else
    String.ofList (List.replicate t.dimensions.toNat '[') ++ describeShape t.shape ++ (if t.wantsTop then "!" else "")

end FrameType

end ClassFile
