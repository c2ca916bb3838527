/-!
# Labels

A label names a place in the code of one method. Some labels only mark a place for debug information and start no block.
-/

namespace ClassFile

/-- A place in the code of a method. -/
structure Label where
  id : Int
  /-- Whether the label serves debug information only. -/
  debug : Bool
  deriving DecidableEq, Hashable, Repr, Inhabited

end ClassFile
