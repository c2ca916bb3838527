import ClassFile.Bytes.Cursor
import ClassFile.Constant.Pool

/-!
# Reading a constant pool

A view of the constant pool of a class file: where each entry starts, found in one pass over the tags. Entries are decoded
when asked for. What is asked for decides how the bytes are read; only loading a constant or taking an entry as it stands
looks at the tag.
-/

namespace ClassFile

/-- Where the entries of a constant pool stand in a byte string. -/
structure PoolView where
  bytes : Bytes
  /-- Offset of the tag of every index, and zero for an index that names nothing. -/
  offsets : Array Nat
  /-- Offset behind the last entry. -/
  stop : Nat
  /-- Offsets of the bootstrap methods. -/
  bootstraps : Array Nat := #[]

namespace PoolView

/-- How many bytes follow a tag, as far as the tag says, and how many indices the entry takes. -/
def payloadSize (tag : UInt8) : Option (Nat × Nat) :=
  if tag == Tag.integer || tag == Tag.float || tag == Tag.fieldRef || tag == Tag.methodRef ||
      tag == Tag.interfaceMethodRef || tag == Tag.nameAndType || tag == Tag.dynamic || tag == Tag.callSite then
    some (4, 1)
  else if tag == Tag.long || tag == Tag.double then
    some (8, 2)
  else if tag == Tag.type || tag == Tag.string || tag == Tag.methodType || tag == Tag.moduleName ||
      tag == Tag.packageName then
    some (2, 1)
  else if tag == Tag.methodHandle then
    some (3, 1)
  else
    none

/-- The offset at which an entry stands, reading on behind it, with the number of indices it takes. -/
def scanEntry : Decoder (Nat × Nat) := do
  let offset ← Decoder.position
  let tag ← Decoder.u8
  if tag == Tag.utf8 then
    let length ← Decoder.u16
    Decoder.skip length.toNat
    return (offset, 1)
  else
    match payloadSize tag with
    | some (size, width) =>
      Decoder.skip size
      return (offset, width)
    | none => throw (.unknownConstantTag tag offset)

/-- The offsets of the entries from an index on, below the count. -/
def scanEntries (count : Nat) : (fuel index : Nat) → Array Nat → Decoder (Array Nat)
  | 0, _, offsets => pure offsets
  | fuel + 1, index, offsets =>
    if index < count then do
      let (offset, width) ← scanEntry
      scanEntries count fuel (index + width) (offsets.setIfInBounds index offset)
    else
      pure offsets

/-- The offsets of all entries behind the count, and the offset behind the last one. -/
def scan : Decoder (Array Nat × Nat) := do
  let count ← Decoder.u16
  let count := count.toNat
  let offsets ← scanEntries count count 1 (Array.replicate (max count 1) 0)
  return (offsets, ← Decoder.position)

/-- The constant pool that starts with its count at an offset. -/
def parse (bytes : Bytes) (start : Nat) : Except Error PoolView := do
  let (offsets, stop) ← scan.runAt bytes start
  return { bytes, offsets, stop }

/-- The count that stands before the entries: one more than the greatest index. -/
def length (view : PoolView) : Nat :=
  view.offsets.size

def isEmpty (view : PoolView) : Bool :=
  view.length ≤ 1

/-- The offset of the tag of an entry. -/
def offset (view : PoolView) (index : PoolIndex) : Except Error Nat :=
  match view.offsets[index.toNat]? with
  | some 0 | none => .error (.badConstantIndex index)
  | some offset => .ok offset

/-- What a decoder reads at an entry, given its tag and standing behind it. -/
def entry {α : Type} (view : PoolView) (index : PoolIndex) (read : UInt8 → Decoder α) : Except Error α := do
  let offset ← view.offset index
  (Decoder.u8 >>= read).runAt view.bytes offset

def tag (view : PoolView) (index : PoolIndex) : Except Error UInt8 :=
  view.entry index fun tag => pure tag

/-- The string of an entry. -/
def utf8 (view : PoolView) (index : PoolIndex) : Except Error String :=
  view.entry index fun _ => do
    let length ← Decoder.u16
    return ModifiedUtf8.decode (← Decoder.take length.toNat)

/-- The string of an entry, or none for index zero. -/
def utf8? (view : PoolView) (index : PoolIndex) : Except Error (Option String) :=
  if index == 0 then .ok none else some <$> view.utf8 index

/-- The string that an entry names. -/
def namedString (view : PoolView) (index : PoolIndex) : Except Error String := do
  let text ← view.entry index fun _ => Decoder.u16
  view.utf8 text

/-- The name of a class. -/
def typeName (view : PoolView) (index : PoolIndex) : Except Error String :=
  view.namedString index

/-- The name of a class, or none for index zero. -/
def typeName? (view : PoolView) (index : PoolIndex) : Except Error (Option String) :=
  if index == 0 then .ok none else some <$> view.typeName index

/-- Two indices that stand behind the tag of an entry. -/
def indexPair : Decoder (PoolIndex × PoolIndex) := do
  let i ← Decoder.u16
  let j ← Decoder.u16
  return (i, j)

/-- A name and a descriptor. -/
def nameAndType (view : PoolView) (index : PoolIndex) : Except Error (String × String) := do
  let (name, descriptor) ← view.entry index fun _ => indexPair
  let name ← view.utf8 name
  let descriptor ← view.utf8 descriptor
  return (name, descriptor)

/-- A field or method. -/
def memberRef (view : PoolView) (index : PoolIndex) : Except Error MemberRef := do
  let (tag, owner, nameAndType) ← view.entry index fun tag => do return (tag, ← indexPair)
  let (name, descriptor) ← view.nameAndType nameAndType
  let owner ← view.typeName owner
  return { owner, name, descriptor, interface := tag == Tag.interfaceMethodRef }

/-- The kind of a method handle and the index of its member. -/
def handleParts (index : PoolIndex) (tag : UInt8) : Decoder (HandleKind × PoolIndex) := do
  match HandleKind.ofUInt8? (← Decoder.u8) with
  | some kind => return (kind, ← Decoder.u16)
  | none => throw (.notLoadableConstant tag index)

def methodHandle (view : PoolView) (index : PoolIndex) : Except Error MethodHandle := do
  let (kind, member) ← view.entry index (handleParts index)
  return { kind, member := ← view.memberRef member }

def integer (view : PoolView) (index : PoolIndex) : Except Error Int32 :=
  view.entry index fun _ => Decoder.i32

def long (view : PoolView) (index : PoolIndex) : Except Error Int64 :=
  view.entry index fun _ => Decoder.i64

def float (view : PoolView) (index : PoolIndex) : Except Error UInt32 :=
  view.entry index fun _ => Decoder.u32

def double (view : PoolView) (index : PoolIndex) : Except Error UInt64 :=
  view.entry index fun _ => Decoder.u64

/-- What a decoder reads at a bootstrap method. -/
def bootstrapEntry {α : Type} (view : PoolView) (number : Nat) (read : Decoder α) : Except Error α :=
  match view.bootstraps[number]? with
  | some offset => read.runAt view.bytes offset
  | none => .error (.badConstantIndex number.toUInt16)

/-- A bootstrap method whose arguments are loaded by a function of their indices. -/
def bootstrapWith (view : PoolView) (load : PoolIndex → Except Error ConstantValue) (number : Nat) :
    Except Error (MethodHandle × List ConstantValue) :=
  view.bootstrapEntry number do
    let handle ← view.methodHandle (← Decoder.u16)
    let arguments ← Decoder.counted do load (← Decoder.u16)
    return (handle, arguments.toList)

/-- The value of an entry in which dynamic constants are nested less than `depth` deep. -/
def constantWithin (view : PoolView) : (depth : Nat) → PoolIndex → Except Error ConstantValue
  | 0, index => .error (.badConstantIndex index)
  | depth + 1, index => do
    let tag ← view.tag index
    if tag == Tag.integer then return .integer (← view.integer index)
    else if tag == Tag.float then return .float (← view.float index)
    else if tag == Tag.long then return .long (← view.long index)
    else if tag == Tag.double then return .double (← view.double index)
    else if tag == Tag.string then return .string (← view.namedString index)
    else if tag == Tag.type then return .type (← view.typeName index)
    else if tag == Tag.methodType then return .methodType (← view.namedString index)
    else if tag == Tag.methodHandle then return .methodHandle (← view.methodHandle index)
    else if tag == Tag.dynamic then
      let (bootstrap, nameAndType) ← view.entry index fun _ => indexPair
      let (name, descriptor) ← view.nameAndType nameAndType
      let (handle, arguments) ← view.bootstrapWith (constantWithin view depth) bootstrap.toNat
      return .dynamic name descriptor handle arguments
    else throw (.notLoadableConstant tag index)

/-- The value of an entry. No chain of dynamic constants without a cycle is longer than the pool. -/
def constant (view : PoolView) (index : PoolIndex) : Except Error ConstantValue :=
  view.constantWithin (view.length + 1) index

/-- A bootstrap method with its arguments. -/
def bootstrapMethod (view : PoolView) (number : Nat) : Except Error (MethodHandle × List ConstantValue) :=
  view.bootstrapWith view.constant number

/-- The call site of a dynamic invocation: name, descriptor, bootstrap method and its arguments. -/
def callSite (view : PoolView) (index : PoolIndex) :
    Except Error (String × String × MethodHandle × List ConstantValue) := do
  let (bootstrap, nameAndType) ← view.entry index fun _ => indexPair
  let (name, descriptor) ← view.nameAndType nameAndType
  let (handle, arguments) ← view.bootstrapMethod bootstrap.toNat
  return (name, descriptor, handle, arguments)

/-- A bootstrap method as it stands, by indices. -/
def rawBootstrap (view : PoolView) (number : Nat) : Except Error BootstrapMethod :=
  view.bootstrapEntry number do
    let handle ← Decoder.u16
    let arguments ← Decoder.counted Decoder.u16
    return { handle, arguments := arguments.toList }

/-- The payload of an entry, by its tag. -/
def rawPayload (index : PoolIndex) (tag : UInt8) : Decoder Entry := do
  if tag == Tag.utf8 then
    let length ← Decoder.u16
    return .utf8 (ModifiedUtf8.decode (← Decoder.take length.toNat))
  else if tag == Tag.integer then return .integer (← Decoder.i32)
  else if tag == Tag.float then return .float (← Decoder.u32)
  else if tag == Tag.long then return .long (← Decoder.i64)
  else if tag == Tag.double then return .double (← Decoder.u64)
  else if tag == Tag.type then return .type (← Decoder.u16)
  else if tag == Tag.string then return .string (← Decoder.u16)
  else if tag == Tag.methodType then return .methodType (← Decoder.u16)
  else if tag == Tag.moduleName then return .moduleName (← Decoder.u16)
  else if tag == Tag.packageName then return .packageName (← Decoder.u16)
  else if tag == Tag.nameAndType then
    let (name, descriptor) ← indexPair
    return .nameAndType name descriptor
  else if tag == Tag.fieldRef then
    let (owner, nameAndType) ← indexPair
    return .fieldRef owner nameAndType
  else if tag == Tag.methodRef || tag == Tag.interfaceMethodRef then
    let (owner, nameAndType) ← indexPair
    return .methodRef owner nameAndType (tag == Tag.interfaceMethodRef)
  else if tag == Tag.methodHandle then
    let (kind, member) ← handleParts index tag
    return .methodHandle kind member
  else if tag == Tag.dynamic then
    let (bootstrap, nameAndType) ← indexPair
    return .dynamic bootstrap nameAndType
  else if tag == Tag.callSite then
    let (bootstrap, nameAndType) ← indexPair
    return .callSite bootstrap nameAndType
  else throw (.unknownConstantTag tag ((← Decoder.position) - 1))

/-- An entry as it stands. -/
def rawEntry (view : PoolView) (index : PoolIndex) : Except Error Entry :=
  view.entry index (rawPayload index)

/-- The entries from an index on, put at the end of a pool. -/
def copyEntries (view : PoolView) : (fuel index : Nat) → ConstantPool → Except Error ConstantPool
  | 0, _, pool => .ok pool
  | fuel + 1, index, pool =>
    if index < view.length then do
      let e ← view.rawEntry index.toUInt16
      copyEntries view fuel (index + e.width) (pool.append e)
    else
      .ok pool

/-- The bootstrap methods from a number on, put at the end of a pool. -/
def copyBootstraps (view : PoolView) : (count number : Nat) → ConstantPool → Except Error ConstantPool
  | 0, _, pool => .ok pool
  | count + 1, number, pool => do
    let b ← view.rawBootstrap number
    copyBootstraps view count (number + 1) (pool.appendBootstrap b)

/-- A pool to build on in which every entry and every bootstrap method keeps its index. -/
def toPool (view : PoolView) : Except Error ConstantPool := do
  let pool ← view.copyEntries view.length 1 .empty
  view.copyBootstraps view.bootstraps.size 0 pool

end PoolView

end ClassFile
