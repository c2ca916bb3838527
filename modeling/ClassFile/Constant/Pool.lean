import ClassFile.Constant.Entry
import ClassFile.Error
import Std.Data.HashMap

/-!
# Building a constant pool

A pool only grows, and asking twice for the same entry gives the same index. Asking never fails: whether all indices fit is
looked at once, when the pool is written. The bootstrap methods stand beside the entries, since dynamic constants and call
sites name them by number in the same way.

Indices past 65535 come out modulo 65536; `ConstantPool.checkSize` refuses such a pool.
-/

namespace ClassFile

/-- A bootstrap method: a method handle and the arguments it is called with, by their indices. -/
structure BootstrapMethod where
  handle : PoolIndex
  arguments : List PoolIndex
  deriving DecidableEq, Hashable, Repr, Inhabited

/-- A bootstrap method as it stands in the class file. -/
def BootstrapMethod.encode (b : BootstrapMethod) : Bytes :=
  Bytes.ofUInt16 b.handle ++ Bytes.counted (b.arguments.map Bytes.ofUInt16)

/-- A constant pool under construction. -/
structure ConstantPool where
  entries : Array Entry := #[]
  /-- Index that the next entry gets. -/
  nextIndex : Nat := 1
  /-- Bytes that the entries take. -/
  entryBytes : Nat := 0
  /-- First index of every entry. -/
  lookup : Std.HashMap Entry PoolIndex := ∅
  bootstraps : Array BootstrapMethod := #[]
  /-- First number of every bootstrap method. -/
  bootstrapLookup : Std.HashMap BootstrapMethod UInt16 := ∅

/-- A step that may add entries to a pool. -/
abbrev Interning := StateM ConstantPool

namespace ConstantPool

/-- The pool without entries. -/
def empty : ConstantPool := {}

/-- The count that stands before the entries: one more than the greatest index. -/
def length (pool : ConstantPool) : Nat :=
  pool.nextIndex

def isEmpty (pool : ConstantPool) : Bool :=
  pool.entries.isEmpty

/-- Number of bytes of the count and the entries. -/
def size (pool : ConstantPool) : Nat :=
  2 + pool.entryBytes

/-- The pool with an entry at the end; look-ups keep finding an equal entry that stands earlier. -/
def append (pool : ConstantPool) (e : Entry) : ConstantPool :=
  let ⟨entries, nextIndex, entryBytes, lookup, bootstraps, bootstrapLookup⟩ := pool
  { entries := entries.push e
    nextIndex := nextIndex + e.width
    entryBytes := entryBytes + e.encodedLength
    lookup := lookup.insertIfNew e nextIndex.toUInt16
    bootstraps, bootstrapLookup }

/-- The pool with a bootstrap method at the end; look-ups keep finding an equal one that stands earlier. -/
def appendBootstrap (pool : ConstantPool) (b : BootstrapMethod) : ConstantPool :=
  let ⟨entries, nextIndex, entryBytes, lookup, bootstraps, bootstrapLookup⟩ := pool
  let number := bootstraps.size.toUInt16
  { entries, nextIndex, entryBytes, lookup
    bootstraps := bootstraps.push b
    bootstrapLookup := bootstrapLookup.insertIfNew b number }

/-- The index of an entry, which is added if the pool lacks it. -/
def intern (e : Entry) : Interning PoolIndex := fun pool =>
  match pool.lookup[e]? with
  | some i => (i, pool)
  | none =>
    let i := pool.nextIndex.toUInt16
    (i, pool.append e)

/-- The number of a bootstrap method, which is added if the pool lacks it. -/
def internBootstrap (b : BootstrapMethod) : Interning UInt16 := fun pool =>
  match pool.bootstrapLookup[b]? with
  | some i => (i, pool)
  | none =>
    let i := pool.bootstraps.size.toUInt16
    (i, pool.appendBootstrap b)

def utf8 (text : String) : Interning PoolIndex :=
  intern (.utf8 text)

/-- A class by its internal name, an array class by its descriptor. -/
def type (name : String) : Interning PoolIndex := do
  intern (.type (← utf8 name))

def string (text : String) : Interning PoolIndex := do
  intern (.string (← utf8 text))

def methodType (descriptor : String) : Interning PoolIndex := do
  intern (.methodType (← utf8 descriptor))

def moduleName (name : String) : Interning PoolIndex := do
  intern (.moduleName (← utf8 name))

def packageName (name : String) : Interning PoolIndex := do
  intern (.packageName (← utf8 name))

def nameAndType (name descriptor : String) : Interning PoolIndex := do
  let name ← utf8 name
  let descriptor ← utf8 descriptor
  intern (.nameAndType name descriptor)

def fieldRef (owner name descriptor : String) : Interning PoolIndex := do
  let owner ← type owner
  let nameAndType ← nameAndType name descriptor
  intern (.fieldRef owner nameAndType)

def methodRef (owner name descriptor : String) (interface : Bool) : Interning PoolIndex := do
  let owner ← type owner
  let nameAndType ← nameAndType name descriptor
  intern (.methodRef owner nameAndType interface)

/-- A method handle; whether the owner of a field is an interface is not kept. -/
def methodHandle (handle : MethodHandle) : Interning PoolIndex := do
  let ⟨owner, name, descriptor, interface⟩ := handle.member
  let member ← if handle.kind.isField then fieldRef owner name descriptor else methodRef owner name descriptor interface
  intern (.methodHandle handle.kind member)

mutual

/-- A value that code can load. -/
def constant : ConstantValue → Interning PoolIndex
  | .integer value => intern (.integer value)
  | .float bits => intern (.float bits)
  | .long value => intern (.long value)
  | .double bits => intern (.double bits)
  | .string value => string value
  | .type name => type name
  | .methodType descriptor => methodType descriptor
  | .methodHandle handle => methodHandle handle
  | .dynamic name descriptor bootstrap arguments => do
    let handle ← methodHandle bootstrap
    let arguments ← constants arguments
    let bootstrap ← internBootstrap ⟨handle, arguments⟩
    let nameAndType ← nameAndType name descriptor
    intern (.dynamic bootstrap nameAndType)

/-- Values that code can load, in order. -/
def constants : List ConstantValue → Interning (List PoolIndex)
  | [] => pure []
  | value :: rest => do
    let i ← constant value
    let is ← constants rest
    pure (i :: is)

end

/-- A bootstrap method with its arguments. -/
def bootstrapMethod (handle : MethodHandle) (arguments : List ConstantValue) : Interning UInt16 := do
  let handle ← methodHandle handle
  let arguments ← constants arguments
  internBootstrap ⟨handle, arguments⟩

/-- The call site of a dynamic invocation. -/
def callSite (name descriptor : String) (handle : MethodHandle) (arguments : List ConstantValue) :
    Interning PoolIndex := do
  let bootstrap ← bootstrapMethod handle arguments
  let nameAndType ← nameAndType name descriptor
  intern (.callSite bootstrap nameAndType)

/-- Whether every index fits in two bytes. -/
def checkSize (pool : ConstantPool) : Except Error Unit :=
  if pool.nextIndex > 0xFFFF then .error (.poolOverflow pool.nextIndex) else .ok ()

/-- An entry as it stands in the class file, behind the bytes before it; a string may be too long for its length field. -/
def encodeEntry (out : Bytes) (e : Entry) : Except Error Bytes :=
  match e with
  | .utf8 text =>
    let length := ModifiedUtf8.length text
    if length > 0xFFFF then .error (.stringTooLong length) else .ok (out ++ e.encode)
  | _ => .ok (out ++ e.encode)

/-- The count and the entries as they stand in the class file. -/
def encode (pool : ConstantPool) : Except Error Bytes := do
  pool.checkSize
  pool.entries.foldlM encodeEntry (Bytes.ofUInt16 pool.nextIndex.toUInt16)

end ConstantPool

end ClassFile
