import ClassFile.Bytes.Basic
import ClassFile.Error
import ClassFile.Text.ModifiedUtf8

/-!
# Growing buffers

A buffer holds bytes and knows how many it has room for. What does not fit makes it grow to the larger of twice its room and
the size needed. A string goes in behind its encoded length; one that is too long leaves the buffer as it was.
-/

namespace ClassFile

/-- Bytes together with the room reserved for them. -/
structure Buffer where
  bytes : Bytes
  capacity : Nat
  deriving DecidableEq, Repr, Inhabited

namespace Buffer

/-- Room of a buffer made without a wish. -/
def defaultCapacity : Nat := 64

/-- An empty buffer with the given room. -/
def withCapacity (capacity : Nat) : Buffer :=
  ⟨#[], capacity⟩

/-- An empty buffer. -/
def empty : Buffer :=
  withCapacity defaultCapacity

/-- Number of bytes held. -/
def size (b : Buffer) : Nat :=
  b.bytes.size

/-- A buffer that holds the same bytes and has room for `needed` more. -/
def reserve (b : Buffer) (needed : Nat) : Buffer :=
  let required := b.size + needed
  if required > b.capacity then { b with capacity := max (2 * b.capacity) required } else b

/-- Bytes at the end, without a look at the room. -/
def extend (b : Buffer) (more : Bytes) : Buffer :=
  { b with bytes := b.bytes ++ more }

def putByte (b : Buffer) (x : UInt8) : Buffer :=
  (b.reserve 1).extend #[x]

/-- Two bytes, such as an opcode and a small operand. -/
def putPair (b : Buffer) (x y : UInt8) : Buffer :=
  (b.reserve 2).extend #[x, y]

def putUInt16 (b : Buffer) (n : UInt16) : Buffer :=
  (b.reserve 2).extend (Bytes.ofUInt16 n)

/-- A byte and a number of two bytes; the number asks for its room once more after the byte. -/
def putByteUInt16 (b : Buffer) (x : UInt8) (n : UInt16) : Buffer :=
  ((b.reserve 3).extend #[x]).putUInt16 n

def putInt32 (b : Buffer) (n : Int32) : Buffer :=
  (b.reserve 4).extend (Bytes.ofInt32 n)

def putInt64 (b : Buffer) (n : Int64) : Buffer :=
  (b.reserve 8).extend (Bytes.ofInt64 n)

def putBytes (b : Buffer) (more : Bytes) : Buffer :=
  (b.reserve more.size).extend more

/-- Zero bytes up to the next multiple of four. -/
def pad (b : Buffer) : Buffer :=
  let n := Bytes.padding b.size
  (b.reserve n).extend (Array.replicate n 0)

/-- Whether every byte of a string is that of a character of its own: all of ASCII but the null character. -/
def isPlain (s : String) : Bool :=
  s.toUTF8.data.all fun x => 1 ≤ x && x < 0x80

/-- The bytes of a plain string. -/
def plainBytes (s : String) : Bytes :=
  s.toUTF8.data

/-- Puts a string behind its encoded length into the buffer at hand. Plain strings are copied, others take the encoding pass.
One that is too long is refused, and what has been done to the buffer by then stays done. -/
def writeString (s : String) : EStateM Error Buffer Unit := do
  let plain := isPlain s
  let length := if plain then s.utf8ByteSize else ModifiedUtf8.length s
  if length > 0xFFFF then throw (.stringTooLong length)
  modify fun b => b.reserve (2 + length)
  modify fun b => b.putUInt16 length.toUInt16
  modify fun b => b.extend (if plain then plainBytes s else ModifiedUtf8.encode s)

/-- The buffer with a string at the end, behind its encoded length. -/
def putString (b : Buffer) (s : String) : Except Error Buffer :=
  match (writeString s).run b with
  | .ok _ b => .ok b
  | .error e _ => .error e

def setUInt16 (b : Buffer) (position : Nat) (n : UInt16) : Buffer :=
  { b with bytes := Bytes.setUInt16 b.bytes position n }

def setInt32 (b : Buffer) (position : Nat) (n : Int32) : Buffer :=
  { b with bytes := Bytes.setUInt32 b.bytes position n.toUInt32 }

/-- How a buffer is shown: by its size alone. -/
def describe (b : Buffer) : String :=
  s!"ByteVector({b.size} bytes)"

end Buffer

end ClassFile
