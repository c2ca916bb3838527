/-!
# Causes of failure

Everything that can go wrong when a class file is read or written. Reading stops at the first cause; writing keeps the first
cause and reports it when the class is assembled. `Error.message` is the wording for a person, `Error.report` the record of
the cause with its fields by name, as the command line prints it.
-/

namespace ClassFile

/-- A cause of failure. -/
inductive Error where
  /-- Fewer than `needed` bytes stand at `offset`. -/
  | truncated (offset needed : Nat)
  /-- The first four bytes are not those of a class file. -/
  | badMagic (magic : UInt32)
  /-- The entry at `offset` has a tag that no kind of constant uses. -/
  | unknownConstantTag (tag : UInt8) (offset : Nat)
  /-- The index is zero, past the end, or the second slot of a long or double. -/
  | badConstantIndex (index : UInt16)
  /-- The entry is of a kind that cannot be loaded as a value. -/
  | notLoadableConstant (tag : UInt8) (index : UInt16)
  /-- The tag at `offset` starts no element value. -/
  | unknownElementTag (tag : UInt8) (offset : Nat)
  /-- The text is no type descriptor. -/
  | badDescriptor (descriptor : String)
  /-- The constant pool takes more slots than an index can name. -/
  | poolOverflow (count : Nat)
  /-- The encoded string is longer than its length field can say. -/
  | stringTooLong (encodedLength : Nat)
  /-- The code of the method is longer than a code array can be. -/
  | codeTooLong (method : String) (length : Nat)
  /-- A forward jump of the method does not fit in its operand. -/
  | jumpTooFar (method : String) (offset : Int)
  /-- Two paths reach the same offset with different stack heights. -/
  | unequalStackHeights (method : String) (offset : Nat)
  deriving DecidableEq, Repr, Inhabited

/-- The digits of `n` in base sixteen, filled up with zeros to `width` digits. -/
def hexDigits (width n : Nat) : String :=
  let digits := Nat.toDigits 16 n
  String.ofList (List.replicate (width - digits.length) '0' ++ digits)

/-- The wording of a cause. -/
def Error.message : Error → String
  | .truncated offset needed => s!"class file truncated: needed {needed} byte(s) at offset {offset}"
  | .badMagic magic => "bad class file magic 0x" ++ hexDigits 8 magic.toNat
  | .unknownConstantTag tag offset => s!"unknown constant pool tag {tag} at offset {offset}"
  | .badConstantIndex index => s!"constant pool index {index} does not name an entry"
  | .notLoadableConstant tag index => s!"constant pool entry {index} (tag {tag}) is not a loadable constant"
  | .unknownElementTag tag offset =>
    "unknown annotation element value tag '" ++ String.singleton (Char.ofNat tag.toNat) ++ s!"' at offset {offset}"
  | .badDescriptor descriptor => "invalid type descriptor '" ++ descriptor ++ "'"
  | .poolOverflow count => s!"constant pool has {count} slots, more than the 65535 allowed"
  | .stringTooLong encodedLength => s!"string encodes to {encodedLength} bytes, more than the 65535 allowed"
  | .codeTooLong method length => "code of method " ++ method ++ s!" is {length} bytes, more than the 65535 allowed"
  | .jumpTooFar method offset => s!"branch offset {offset} in method " ++ method ++ " does not fit in 16 bits"
  | .unequalStackHeights method offset => s!"stack heights differ at offset {offset} of method " ++ method

/-- The name of the kind of a cause. -/
def Error.name : Error → String
  | .truncated _ _ => "Truncated"
  | .badMagic _ => "BadMagic"
  | .unknownConstantTag _ _ => "UnknownConstantTag"
  | .badConstantIndex _ => "BadConstantIndex"
  | .notLoadableConstant _ _ => "NotLoadableConstant"
  | .unknownElementTag _ _ => "UnknownElementValueTag"
  | .badDescriptor _ => "BadDescriptor"
  | .poolOverflow _ => "ConstantPoolOverflow"
  | .stringTooLong _ => "Utf8TooLong"
  | .codeTooLong _ _ => "MethodCodeOverflow"
  | .jumpTooFar _ _ => "JumpOffsetOverflow"
  | .unequalStackHeights _ _ => "InconsistentStackHeight"

end ClassFile
