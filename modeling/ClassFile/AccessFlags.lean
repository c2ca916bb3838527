/-!
# Access flags

Flags of classes, fields, methods and inner classes are bits of a number. Each owner knows some of them and drops the rest.
The bit past the sixteenth never stands in a class file: it rides along so that a member marked as deprecated by an
attribute stays so. Before version 49 being synthetic is said by an attribute too, and the bit is left out.
-/

namespace ClassFile

/-- Whose flags they are. -/
inductive FlagOwner where
  | classes
  | methods
  | fields
  | innerClasses
  deriving DecidableEq, Repr

namespace FlagOwner

/-- The flags an owner knows, by name and bit, in the order in which they are listed. -/
def known : FlagOwner → List (String × UInt32)
  | classes => [("PUBLIC", 0x0001), ("FINAL", 0x0010), ("SUPER", 0x0020), ("INTERFACE", 0x0200), ("ABSTRACT", 0x0400),
      ("SYNTHETIC", 0x1000), ("ANNOTATION", 0x2000), ("ENUM", 0x4000), ("MODULE", 0x8000), ("DEPRECATED", 0x20000)]
  | methods => [("PUBLIC", 0x0001), ("PRIVATE", 0x0002), ("PROTECTED", 0x0004), ("STATIC", 0x0008), ("FINAL", 0x0010),
      ("SYNCHRONIZED", 0x0020), ("BRIDGE", 0x0040), ("VARARGS", 0x0080), ("NATIVE", 0x0100), ("ABSTRACT", 0x0400),
      ("STRICT", 0x0800), ("SYNTHETIC", 0x1000), ("DEPRECATED", 0x20000)]
  | fields => [("PUBLIC", 0x0001), ("PRIVATE", 0x0002), ("PROTECTED", 0x0004), ("STATIC", 0x0008), ("FINAL", 0x0010),
      ("VOLATILE", 0x0040), ("TRANSIENT", 0x0080), ("SYNTHETIC", 0x1000), ("ENUM", 0x4000), ("DEPRECATED", 0x20000)]
  | innerClasses => [("PUBLIC", 0x0001), ("PRIVATE", 0x0002), ("PROTECTED", 0x0004), ("STATIC", 0x0008),
      ("FINAL", 0x0010), ("INTERFACE", 0x0200), ("ABSTRACT", 0x0400), ("SYNTHETIC", 0x1000), ("ANNOTATION", 0x2000),
      ("ENUM", 0x4000)]

/-- All bits an owner knows. -/
def mask (owner : FlagOwner) : UInt32 :=
  owner.known.foldl (fun bits flag => bits ||| flag.2) 0

/-- The bits an owner knows, of those given. -/
def truncate (owner : FlagOwner) (bits : UInt32) : UInt32 :=
  bits &&& owner.mask

/-- The names of the flags that are set, between bars. -/
def describe (owner : FlagOwner) (bits : UInt32) : String :=
  match owner.known.filter (fun flag => bits &&& flag.2 == flag.2) with
  | [] => "(empty)"
  | set => " | ".intercalate (set.map (·.1))

end FlagOwner

namespace AccessFlags

/-- The flag of static members. -/
def static : UInt32 := 0x0008

/-- The flag of members that no source text has. -/
def synthetic : UInt32 := 0x1000

/-- The flag that stands for the marker of deprecated members. -/
def deprecated : UInt32 := 0x20000

/-- First version in which the synthetic flag stands in the class file. -/
def syntheticFlagVersion : UInt16 := 49

def isStatic (bits : UInt32) : Bool :=
  bits &&& static != 0

def isDeprecated (bits : UInt32) : Bool :=
  bits &&& deprecated != 0

/-- Whether a marker says that the member is synthetic. -/
def hasSyntheticMarker (bits : UInt32) (major : UInt16) : Bool :=
  bits &&& synthetic != 0 && major < syntheticFlagVersion

/-- The flags that stand in the class file. -/
def inClassFile (bits : UInt32) (major : UInt16) : UInt16 :=
  let bits := bits &&& 0xFFFF
  (if hasSyntheticMarker bits major then bits &&& ~~~synthetic else bits).toUInt16

end AccessFlags

end ClassFile
