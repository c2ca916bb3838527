import ClassFile.Decimal.Shortest
import ClassFile.Event
import ClassFile.Text.Quoted
import ClassFile.Text.Shown

/-!
# Values in a listing

A value is listed by its kind, with the value itself in parentheses: texts between quotes, and numbers of binary floating
point with the fewest digits that read back as the same number.
-/

namespace ClassFile

namespace Listing

/-- Numbers from a ten thousandth up to ten to the sixteenth are written with a point, others with a power of ten. -/
def numberStyle : Decimal.Style := ⟨-4, 16⟩

/-- The number of 32 bits. -/
def float (bits : UInt32) : String :=
  Decimal.text numberStyle .single bits.toNat

/-- The number of 64 bits. -/
def double (bits : UInt64) : String :=
  Decimal.text numberStyle .double bits.toNat

end Listing

open Text

/-- The record of a method handle. -/
def MethodHandle.describe (h : MethodHandle) : String :=
  record "MethodHandle" [("kind", h.kind.name), ("owner", quote h.member.owner), ("name", quote h.member.name),
    ("descriptor", quote h.member.descriptor), ("interface", toString h.member.interface)]

namespace ConstantValue

mutual

/-- A constant as it is listed. -/
def describe : ConstantValue → String
  | integer value => tagged "Integer" (toString value.toInt)
  | float bits => tagged "Float" (Listing.float bits)
  | long value => tagged "Long" (toString value.toInt)
  | double bits => tagged "Double" (Listing.double bits)
  | string value => tagged "String" (quote value)
  | type name => tagged "Class" (quote name)
  | methodType descriptor => tagged "MethodType" (quote descriptor)
  | methodHandle handle => tagged "MethodHandle" handle.describe
  | dynamic name descriptor bootstrap arguments =>
    tagged "Dynamic" (record "DynamicConstant" [("name", quote name), ("descriptor", quote descriptor),
      ("bootstrap_method", bootstrap.describe), ("arguments", bracketed (describeAll arguments))])

/-- Constants as they are listed, in order. -/
def describeAll : List ConstantValue → List String
  | [] => []
  | value :: rest => describe value :: describeAll rest

end

end ConstantValue

namespace Primitive

/-- The name of the kind of a value. -/
def kindName : Primitive → String
  | byte _ => "Byte"
  | char _ => "Char"
  | short _ => "Short"
  | boolean _ => "Boolean"
  | integer _ => "Int"
  | long _ => "Long"
  | float _ => "Float"
  | double _ => "Double"

/-- A value without its kind. -/
def bareText : Primitive → String
  | byte value => toString value.toInt
  | char value => toString value
  | short value => toString value.toInt
  | boolean value => toString value
  | integer value => toString value.toInt
  | long value => toString value.toInt
  | float bits => Listing.float bits
  | double bits => Listing.double bits

end Primitive

/-- The name of the kind of the values of an array. -/
def PrimitiveArray.kindName : PrimitiveArray → String
  | bytes _ => (Primitive.byte 0).kindName
  | chars _ => (Primitive.char 0).kindName
  | shorts _ => (Primitive.short 0).kindName
  | booleans _ => (Primitive.boolean false).kindName
  | integers _ => (Primitive.integer 0).kindName
  | longs _ => (Primitive.long 0).kindName
  | floats _ => (Primitive.float 0).kindName
  | doubles _ => (Primitive.double 0).kindName

/-- A value of an annotation as it is listed. -/
def AnnotationValue.describe : AnnotationValue → String
  | primitive value => tagged value.kindName value.bareText
  | string value => tagged "String" (quote value)
  | type descriptor => tagged "Class" (quote descriptor)
  | array values => tagged (values.kindName ++ "Array") (bracketed (values.toList.map (·.bareText)))

end ClassFile
