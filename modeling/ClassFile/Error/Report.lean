import ClassFile.Error
import ClassFile.Text.Quoted
import ClassFile.Text.Shown

/-!
# Records of failures

A cause of failure with its parts by name, the way the command line prints it.
-/

namespace ClassFile.Error

open Text in
/-- The record of a cause. -/
def report (e : Error) : String :=
  match e with
  | truncated offset needed => record e.name [("offset", toString offset), ("needed", toString needed)]
  | badMagic magic => tagged e.name (toString magic)
  | unknownConstantTag tag offset => record e.name [("tag", toString tag), ("offset", toString offset)]
  | badConstantIndex index => record e.name [("index", toString index)]
  | notLoadableConstant tag index => record e.name [("tag", toString tag), ("index", toString index)]
  | unknownElementTag tag offset => record e.name [("tag", toString tag), ("offset", toString offset)]
  | badDescriptor descriptor => tagged e.name (quote descriptor)
  | poolOverflow count => record e.name [("count", toString count)]
  | stringTooLong encodedLength => record e.name [("encoded_len", toString encodedLength)]
  | codeTooLong method length => record e.name [("method", quote method), ("length", toString length)]
  | jumpTooFar method offset => record e.name [("method", quote method), ("offset", toString offset)]
  | unequalStackHeights method offset => record e.name [("method", quote method), ("offset", toString offset)]

end ClassFile.Error
