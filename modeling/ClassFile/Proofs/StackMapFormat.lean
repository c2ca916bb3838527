import ClassFile.Proofs.PoolGrowth
import ClassFile.Proofs.Reading
import ClassFile.StackMap

/-!
# How a stack map is read

The reading rules of the format, apart from the writer: what a table of entries says, given the constant pool and the locals
of the method's entry. A tag from 128 to 246 starts no entry, and a class must be named by a constant that is one. An entry
that drops locals drops them from the end of those of the entry before.

`Slot` is what an entry says of a slot. `Slot.ofFrameType` and `listedSlots` say what a frame has to say: a value of two
slots once, and of locals no unusable ones at the end.
-/

namespace ClassFile

namespace StackMap

/-- What an entry of a stack map says of a slot. -/
inductive Slot where
  | top
  | integer
  | float
  | double
  | long
  | null
  | uninitializedThis
  /-- A class by its internal name, an array class by its descriptor. -/
  | object (name : String)
  /-- What the instruction at the offset allocates, before its constructor has run. -/
  | uninitialized (offset : UInt16)
  deriving DecidableEq, Repr, Inhabited

/-- What an entry of a stack map says. -/
structure Entry where
  offset : Nat
  locals : List Slot
  stack : List Slot
  deriving DecidableEq, Repr, Inhabited

/-! ## What a frame has to say -/

/-- What is to be said of a slot of a frame. -/
def Slot.ofFrameType (types : TypeTable) (t : FrameType) : Slot :=
  if t.dimensions > 0 then .object (VerificationType.arrayDescriptor types t.dimensions.toNat t.shape)
  else
    match t.shape with
    | .object index => .object (types.name index)
    | .uninitialized index =>
      match types.get? index with
      | some (.uninitialized _ offset) => .uninitialized offset.toUInt16
      | _ => .top
    | .integer | .boolean | .byte | .char | .short => if t.dims = 0 then .integer else .top
    | .float => if t.dims = 0 then .float else .top
    | .double => if t.dims = 0 then .double else .top
    | .long => if t.dims = 0 then .long else .top
    | .null => if t.dims = 0 then .null else .top
    | .uninitializedThis => if t.dims = 0 then .uninitializedThis else .top
    | _ => .top

/-- The slots that are listed: all but those behind a long or a double. -/
def significantSlots : List FrameType → List FrameType
  | [] => []
  | [t] => [t]
  | t :: u :: rest => t :: if t.isWide then significantSlots rest else significantSlots (u :: rest)

/-- What is to be said of slots. -/
def listedSlots (types : TypeTable) (slots : Array FrameType) : List Slot :=
  (significantSlots slots.toList).map (Slot.ofFrameType types)

/-- A list without the unusable slots at its end. -/
def trimTops (ss : List Slot) : List Slot :=
  (ss.reverse.dropWhile (· = .top)).reverse

/-- The entry that is to be made of a frame. -/
def entryOf (types : TypeTable) (frame : ComputedFrame) : Entry :=
  { offset := frame.offset, locals := trimTops (listedSlots types frame.locals)
    stack := listedSlots types frame.stack }

/-! ## Reading -/

/-- The class that an index names, if it names one. -/
def typeName? (pool : ConstantPool) (i : PoolIndex) : Option String :=
  match pool.entryAt i.toNat with
  | some (.type j) =>
    match pool.entryAt j.toNat with
    | some (.utf8 name) => some name
    | _ => none
  | _ => none

/-- A reader of a stack map, which refuses what is none. -/
abbrev MapReader := StateT Cursor Option

/-- Reads numbers, and refuses where there are too few bytes. -/
def MapReader.read {α : Type} (d : Decoder α) : MapReader α := fun c => (d c).toOption

/-- A value that has to be there. -/
def MapReader.need {α : Type} (a : Option α) : MapReader α := fun c => a.map (·, c)

/-- Reads what is said of a slot. -/
def readSlot (pool : ConstantPool) : MapReader Slot := do
  match (← MapReader.read Decoder.u8).toNat with
  | 0 => return .top
  | 1 => return .integer
  | 2 => return .float
  | 3 => return .double
  | 4 => return .long
  | 5 => return .null
  | 6 => return .uninitializedThis
  | 7 => return .object (← MapReader.need (typeName? pool (← MapReader.read Decoder.u16)))
  | 8 => return .uninitialized (← MapReader.read Decoder.u16)
  | _ => failure

/-- Reads what is said of `n` slots. -/
def readSlots (pool : ConstantPool) : (n : Nat) → MapReader (List Slot)
  | 0 => return []
  | n + 1 => do
    let s ← readSlot pool
    let ss ← readSlots pool n
    return s :: ss

/-- Reads what is said of slots behind their number. -/
def readCountedSlots (pool : ConstantPool) : MapReader (List Slot) := do
  readSlots pool (← MapReader.read Decoder.u16).toNat

/-- The offset of an entry: the first counts from the start of the code, and others from behind the entry before. -/
def offsetAfter (previous : Option Nat) (delta : Nat) : Nat :=
  match previous with
  | none => delta
  | some p => p + delta + 1

/-- Reads an entry behind its tag and the difference of the offsets, where the tag says that both stand apart. -/
def readExtended (pool : ConstantPool) (tag offset : Nat) (locals : List Slot) : MapReader Entry := do
  if tag = 247 then return ⟨offset, locals, [← readSlot pool]⟩
  else if tag < 251 then return ⟨offset, locals.take (locals.length - (251 - tag)), []⟩
  else if tag = 251 then return ⟨offset, locals, []⟩
  else if tag < 255 then return ⟨offset, locals ++ (← readSlots pool (tag - 251)), []⟩
  else do
    let locals ← readCountedSlots pool
    return ⟨offset, locals, ← readCountedSlots pool⟩

/-- Reads an entry, given the offset and the locals of the one before. -/
def readEntry (pool : ConstantPool) (previous : Option Nat) (locals : List Slot) : MapReader Entry := do
  let tag := (← MapReader.read Decoder.u8).toNat
  if tag < 64 then return ⟨offsetAfter previous tag, locals, []⟩
  else if tag < 128 then return ⟨offsetAfter previous (tag - 64), locals, [← readSlot pool]⟩
  else if tag < 247 then failure
  else do
    let delta ← MapReader.read Decoder.u16
    readExtended pool tag (offsetAfter previous delta.toNat) locals

/-- Reads `n` entries, given the offset and the locals of the one before. -/
def readEntries (pool : ConstantPool) : (n : Nat) → Option Nat → List Slot → MapReader (List Entry)
  | 0, _, _ => return []
  | n + 1, previous, locals => do
    let e ← readEntry pool previous locals
    let es ← readEntries pool n (some e.offset) e.locals
    return e :: es

/-- Reads an entry of the older form. -/
def readFullEntry (pool : ConstantPool) : MapReader Entry := do
  let offset ← MapReader.read Decoder.u16
  let locals ← readCountedSlots pool
  return ⟨offset.toNat, locals, ← readCountedSlots pool⟩

/-- Reads `n` entries of the older form. -/
def readFullEntries (pool : ConstantPool) : (n : Nat) → MapReader (List Entry)
  | 0 => return []
  | n + 1 => do
    let e ← readFullEntry pool
    let es ← readFullEntries pool n
    return e :: es

/-- The result of a reader that leaves no byte over. -/
def readWhole {α : Type} (r : MapReader α) (bytes : Bytes) : Option α :=
  match r ⟨bytes, 0⟩ with
  | some (a, c) => if c.position = bytes.size then some a else none
  | none => none

/-- The entries that a table says, given the locals of the method's entry. -/
def readTable (pool : ConstantPool) (entryLocals : List Slot) (bytes : Bytes) : Option (List Entry) :=
  readWhole (do readEntries pool (← MapReader.read Decoder.u16).toNat none entryLocals) bytes

/-- The entries that a table of the older form says. -/
def readFullTable (pool : ConstantPool) (bytes : Bytes) : Option (List Entry) :=
  readWhole (do readFullEntries pool (← MapReader.read Decoder.u16).toNat) bytes

end StackMap

end ClassFile
