import ClassFile.AccessFlags
import ClassFile.Constant.View
import ClassFile.Hierarchy.Basic
import ClassFile.Version

/-!
# Class files in memory

An image is a class file of which the constant pool and the places of the tables are known; all else is decoded when asked
for. An outline knows only the constant pool and the header: it can list the members, but no attribute is looked at.
-/

namespace ClassFile

/-- What a class file starts with. -/
def magic : UInt32 := 0xCAFEBABE

/-- The name and the place of an attribute. -/
structure RawAttribute where
  name : String
  /-- Offset of the payload. -/
  start : Nat
  length : Nat
  deriving Repr, Inhabited

/-- The head of a field or method. -/
structure MemberHead where
  access : UInt32
  name : String
  descriptor : String
  deriving DecidableEq, Repr, Inhabited

/-- A class file whose constant pool has been found. -/
structure Outline where
  bytes : Bytes
  pool : PoolView
  /-- Offset of the access flags, behind the pool. -/
  header : Nat

namespace Outline

/-- Passes over an attribute. -/
def skipAttribute : Decoder Unit := do
  Decoder.skip 2
  let length ← Decoder.u32
  Decoder.skip length.toNat

/-- Runs a decoder `n` times for what it passes over. -/
def repeatDecoder (d : Decoder Unit) : Nat → Decoder Unit
  | 0 => pure ()
  | n + 1 => do
    d
    repeatDecoder d n

/-- Passes over a table of attributes. -/
def skipAttributes : Decoder Unit := do
  let count ← Decoder.u16
  repeatDecoder skipAttribute count.toNat

/-- The magic number, or what stands in its place. -/
def checkMagic : Decoder Unit := do
  let found ← Decoder.u32
  if found != magic then throw (.badMagic found)

/-- The outline of a class file. -/
def parse (bytes : Bytes) : Except Error Outline := do
  checkMagic.runAt bytes 0
  let pool ← PoolView.parse bytes 8
  return { bytes, pool, header := pool.stop }

/-- What a decoder reads at an offset from the access flags on. -/
def atHeader {α : Type} (o : Outline) (offset : Nat) (d : Decoder α) : Except Error α :=
  d.runAt o.bytes (o.header + offset)

def version (o : Outline) : Except Error Version := do
  let (minor, major) ← PoolView.indexPair.runAt o.bytes 4
  return { major, minor }

/-- The access flags as they stand in the class file. -/
def accessBits (o : Outline) : Except Error UInt32 :=
  o.atHeader 0 do return (← Decoder.u16).toUInt32

/-- The access flags that a class knows. -/
def access (o : Outline) : Except Error UInt32 :=
  o.accessBits.map FlagOwner.classes.truncate

def className (o : Outline) : Except Error String :=
  o.atHeader 2 do o.pool.typeName (← Decoder.u16)

def superName (o : Outline) : Except Error (Option String) :=
  o.atHeader 4 do o.pool.typeName? (← Decoder.u16)

def interfaces (o : Outline) : Except Error (List String) :=
  o.atHeader 6 do
    return (← Decoder.counted do o.pool.typeName (← Decoder.u16)).toList

/-- Passes over the interfaces. -/
def skipInterfaces : Decoder Unit := do
  let count ← Decoder.u16
  Decoder.skip (2 * count.toNat)

/-- The head of a member, passing over its attributes. -/
def memberHead (o : Outline) (owner : FlagOwner) : Decoder MemberHead := do
  let access ← Decoder.u16
  let name ← o.pool.utf8 (← Decoder.u16)
  let descriptor ← o.pool.utf8 (← Decoder.u16)
  skipAttributes
  return { access := owner.truncate access.toUInt32, name, descriptor }

/-- The heads of the fields. -/
def fields (o : Outline) : Except Error (List MemberHead) :=
  o.atHeader 6 do
    skipInterfaces
    return (← Decoder.counted (o.memberHead .fields)).toList

/-- The heads of the methods. -/
def methods (o : Outline) : Except Error (List MemberHead) :=
  o.atHeader 6 do
    skipInterfaces
    let _ ← Decoder.counted (o.memberHead .fields)
    return (← Decoder.counted (o.memberHead .methods)).toList

end Outline

/-- A class file whose tables have been found. -/
structure Image extends Outline where
  /-- Offset of the attributes of the class. -/
  attributes : Nat

namespace Image

/-- Passes over a field or method. -/
def skipMember : Decoder Unit := do
  Decoder.skip 6
  Outline.skipAttributes

/-- Passes over all fields, or over all methods. -/
def skipMembers : Decoder Unit := do
  let count ← Decoder.u16
  Outline.repeatDecoder skipMember count.toNat

/-- The offset of a bootstrap method, passing over it. -/
def bootstrapOffset : Decoder Nat := do
  let offset ← Decoder.position
  Decoder.skip 2
  let count ← Decoder.u16
  Decoder.skip (2 * count.toNat)
  return offset

/-- The name and the place of an attribute, passing over it. -/
def rawAttribute (pool : PoolView) : Decoder RawAttribute := do
  let name ← pool.utf8 (← Decoder.u16)
  let length ← Decoder.u32
  let start ← Decoder.position
  Decoder.skip length.toNat
  return { name, start, length := length.toNat }

/-- The names and places of the attributes of a table. -/
def attributeTable (pool : PoolView) : Decoder (List RawAttribute) := do
  return (← Decoder.counted (rawAttribute pool)).toList

/-- The bootstrap methods found in an attribute of the class, or those found before. -/
def indexBootstraps (pool : PoolView) (found : Array Nat) : Decoder (Array Nat) := do
  let name ← pool.utf8 (← Decoder.u16)
  let length ← Decoder.u32
  let start ← Decoder.position
  let found ← if name == "BootstrapMethods" then Decoder.counted bootstrapOffset else pure found
  Decoder.seek start
  Decoder.skip length.toNat
  return found

/-- The bootstrap methods found in the next attributes of the class; those of the last attribute count. -/
def indexAllBootstraps (pool : PoolView) : Nat → Array Nat → Decoder (Array Nat)
  | 0, found => pure found
  | n + 1, found => do
    indexAllBootstraps pool n (← indexBootstraps pool found)

/-- The offset of the attributes of the class, and the bootstrap methods among them. -/
def tables (pool : PoolView) : Decoder (Nat × Array Nat) := do
  Outline.skipInterfaces
  skipMembers
  skipMembers
  let attributes ← Decoder.position
  let count ← Decoder.u16
  return (attributes, ← indexAllBootstraps pool count.toNat #[])

/-- The image of a class file. -/
def parse (bytes : Bytes) : Except Error Image := do
  (do Outline.checkMagic; Decoder.skip 4 : Decoder Unit).runAt bytes 0
  let pool ← PoolView.parse bytes 8
  let header := pool.stop
  let (attributes, bootstraps) ← (tables pool).runAt bytes (header + 6)
  return { bytes, pool := { pool with bootstraps }, header, attributes }

end Image

/-- The hierarchy in which the class of a class file has the superclass that it names, and the name of the class. -/
def Hierarchy.insertClassFile (h : Hierarchy) (bytes : Bytes) : Except Error (String × Hierarchy) := do
  let o ← Outline.parse bytes
  let name ← o.className
  match ← o.superName with
  | some superName => return (name, h.insert name superName)
  | none => return (name, h)

end ClassFile
