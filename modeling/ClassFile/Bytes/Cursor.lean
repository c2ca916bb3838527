import ClassFile.Bytes.Basic
import ClassFile.Error

/-!
# Reading byte strings

A cursor is a byte string with a position. A decoder reads at the position and moves it; it fails when the bytes it needs are
not there, and then says where and how many. The position may be set anywhere, also past the end.
-/

namespace ClassFile

/-- A position in a byte string. -/
structure Cursor where
  bytes : Bytes
  position : Nat

/-- A reader of byte strings. -/
abbrev Decoder := StateT Cursor (Except Error)

namespace Cursor

/-- Number of bytes from the position to the end. -/
def bytesLeft (c : Cursor) : Nat :=
  c.bytes.size - c.position

/-- The cursor behind the next `n` bytes, if they are there. -/
def advance (c : Cursor) (n : Nat) : Except Error Cursor :=
  if c.position + n ≤ c.bytes.size then .ok { c with position := c.position + n }
  else .error (.truncated c.position n)

end Cursor

namespace Decoder

/-- The value read at an offset of a byte string. -/
def runAt {α : Type} (d : Decoder α) (bytes : Bytes) (offset : Nat) : Except Error α :=
  (d.run ⟨bytes, offset⟩).map (·.1)

def position : Decoder Nat := fun c =>
  .ok (c.position, c)

def seek (position : Nat) : Decoder Unit := fun c =>
  .ok ((), { c with position })

def skip (n : Nat) : Decoder Unit := fun c => do
  .ok ((), ← c.advance n)

/-- The next `n` bytes. -/
def take (n : Nat) : Decoder Bytes := fun c => do
  let c' ← c.advance n
  .ok (c.bytes.extract c.position (c.position + n), c')

def u8 : Decoder UInt8 := fun c => do
  let c' ← c.advance 1
  .ok (Bytes.at0 c.bytes c.position, c')

def u16 : Decoder UInt16 := fun c => do
  let c' ← c.advance 2
  let byte i := (Bytes.at0 c.bytes (c.position + i)).toUInt16
  .ok (byte 0 <<< 8 ||| byte 1, c')

def u32 : Decoder UInt32 := fun c => do
  let c' ← c.advance 4
  let byte i := (Bytes.at0 c.bytes (c.position + i)).toUInt32
  .ok (byte 0 <<< 24 ||| byte 1 <<< 16 ||| byte 2 <<< 8 ||| byte 3, c')

def u64 : Decoder UInt64 := fun c => do
  let c' ← c.advance 8
  let byte i := (Bytes.at0 c.bytes (c.position + i)).toUInt64
  .ok (byte 0 <<< 56 ||| byte 1 <<< 48 ||| byte 2 <<< 40 ||| byte 3 <<< 32 |||
    byte 4 <<< 24 ||| byte 5 <<< 16 ||| byte 6 <<< 8 ||| byte 7, c')

def i8 : Decoder Int8 := do
  return (← u8).toInt8

def i16 : Decoder Int16 := do
  return (← u16).toInt16

def i32 : Decoder Int32 := do
  return (← u32).toInt32

def i64 : Decoder Int64 := do
  return (← u64).toInt64

/-- The next byte, without moving. -/
def peek : Decoder UInt8 := fun c => do
  let (byte, _) ← u8 c
  .ok (byte, c)

/-- What `n` runs of a decoder read, behind what has been read already. -/
def manyFrom {α : Type} (d : Decoder α) : Nat → Array α → Decoder (Array α)
  | 0, acc => pure acc
  | n + 1, acc => do
    let a ← d
    manyFrom d n (acc.push a)

/-- What `n` runs of a decoder read. -/
def many {α : Type} (n : Nat) (d : Decoder α) : Decoder (Array α) :=
  manyFrom d n #[]

/-- What a decoder reads behind a count of two bytes, as many times as the count says. -/
def counted {α : Type} (d : Decoder α) : Decoder (Array α) := do
  let n ← u16
  many n.toNat d

end Decoder

end ClassFile
