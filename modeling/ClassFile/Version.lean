/-!
# Versions of the class file format

A version has a major and a minor number and is ordered by the major one first.
-/

namespace ClassFile

/-- A version of the class file format. -/
structure Version where
  major : UInt16
  minor : UInt16
  deriving DecidableEq, Repr, Inhabited

namespace Version

/-- The order of versions: by the major number, then by the minor one. -/
def compareWith (a b : Version) : Ordering :=
  (compare a.major b.major).then (compare a.minor b.minor)

/-- Whether a version is at least that of a major number. -/
def atLeast (v : Version) (major : UInt16) : Bool :=
  (v.compareWith ⟨major, 0⟩).isGE

/-- From Java 7 on, methods with jumps must come with stack map frames. -/
def requiresStackMap (v : Version) : Bool :=
  v.atLeast 51

/-- From Java 6 on, stack map frames are written as differences. -/
def supportsStackMapTable (v : Version) : Bool :=
  v.atLeast 50

/-- The version that a class has until it says its own. -/
def java8 : Version :=
  ⟨52, 0⟩

def describe (v : Version) : String :=
  s!"{v.major}.{v.minor}"

end Version

/-- What is computed for the code of a method. -/
inductive Analysis where
  /-- The greatest stack height. -/
  | maxStack
  /-- The greatest stack height and a stack map. -/
  | frames
  deriving DecidableEq, Repr, Inhabited

/-- What is asked to be computed for the methods of a class. -/
inductive FramePolicy where
  /-- A stack map where the version requires one. -/
  | auto
  /-- Never a stack map. -/
  | maxStack
  /-- Always a stack map. -/
  | frames
  deriving DecidableEq, Repr, Inhabited

namespace FramePolicy

/-- What is computed for the methods of a class of a version. -/
def analysis (policy : FramePolicy) (v : Version) : Analysis :=
  match policy with
  | auto => if v.requiresStackMap then .frames else .maxStack
  | maxStack => .maxStack
  | frames => .frames

/-- The policy of a name, or why there is none. -/
def parse (s : String) : Except String FramePolicy :=
  if s = "auto" then .ok .auto
  else if s = "max-stack" then .ok .maxStack
  else if s = "frames" then .ok .frames
  else .error ("unknown frame computation '" ++ s ++ "' (expected auto, max-stack or frames)")

end FramePolicy

end ClassFile
