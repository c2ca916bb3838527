/-!
# Byte strings

A byte string is an array of bytes, and numbers are written with the most significant byte first. Counted lists carry their
length in two bytes, which says the length modulo 65536. Every piece has a size known beforehand, and overwriting keeps the
size.
-/

namespace ClassFile

-- Here and in what builds on this, sums of lists start from the zero of the core library, whatever else is imported.
attribute [scoped instance (2000)] Zero.ofOfNat0

/-- A byte string. -/
abbrev Bytes := Array UInt8

namespace Bytes

/-- A number of two bytes. -/
def ofUInt16 (n : UInt16) : Bytes :=
  #[(n >>> 8).toUInt8, n.toUInt8]

/-- A number of four bytes. -/
def ofUInt32 (n : UInt32) : Bytes :=
  #[(n >>> 24).toUInt8, (n >>> 16).toUInt8, (n >>> 8).toUInt8, n.toUInt8]

/-- A number of eight bytes. -/
def ofUInt64 (n : UInt64) : Bytes :=
  #[(n >>> 56).toUInt8, (n >>> 48).toUInt8, (n >>> 40).toUInt8, (n >>> 32).toUInt8,
    (n >>> 24).toUInt8, (n >>> 16).toUInt8, (n >>> 8).toUInt8, n.toUInt8]

/-- A signed number of four bytes. -/
def ofInt32 (n : Int32) : Bytes :=
  ofUInt32 n.toUInt32

/-- A signed number of eight bytes. -/
def ofInt64 (n : Int64) : Bytes :=
  ofUInt64 n.toUInt64

@[simp] theorem size_ofUInt16 (n : UInt16) : (ofUInt16 n).size = 2 := rfl

@[simp] theorem size_ofUInt32 (n : UInt32) : (ofUInt32 n).size = 4 := rfl

@[simp] theorem size_ofUInt64 (n : UInt64) : (ofUInt64 n).size = 8 := rfl

@[simp] theorem size_ofInt32 (n : Int32) : (ofInt32 n).size = 4 := rfl

@[simp] theorem size_ofInt64 (n : Int64) : (ofInt64 n).size = 8 := rfl

/-- Appending byte strings one after the other adds up their sizes. -/
theorem size_foldl_append (parts : List Bytes) (b : Bytes) :
    (parts.foldl (· ++ ·) b).size = b.size + (parts.map Array.size).sum := by
  induction parts generalizing b with
  | nil => simp
  | cons part rest ih => simp [ih, Nat.add_assoc]

/-- The byte strings of a list, one after the other. -/
def concat (parts : List Bytes) : Bytes :=
  parts.foldl (· ++ ·) #[]

/-- A list of encoded items behind its length in two bytes. -/
def counted (items : List Bytes) : Bytes :=
  items.foldl (· ++ ·) (ofUInt16 items.length.toUInt16)

@[simp] theorem size_concat (parts : List Bytes) : (concat parts).size = (parts.map Array.size).sum := by
  simp [concat, size_foldl_append]

@[simp] theorem size_counted (items : List Bytes) : (counted items).size = 2 + (items.map Array.size).sum := by
  simp [counted, size_foldl_append]

/-- The byte at a position, and zero past the end. -/
def at0 (b : Bytes) (i : Nat) : UInt8 :=
  b.getD i 0

/-- Bytes that overwrite those standing at a position; what would fall past the end is dropped. -/
def overwrite (b : Bytes) (position : Nat) (new : List UInt8) : Bytes :=
  match new with
  | [] => b
  | x :: rest => overwrite (b.setIfInBounds position x) (position + 1) rest

@[simp] theorem size_overwrite (b : Bytes) (position : Nat) (new : List UInt8) :
    (overwrite b position new).size = b.size := by
  induction new generalizing b position with
  | nil => rfl
  | cons x rest ih => simp [overwrite, ih]

/-- A number of two bytes written over the bytes at a position. -/
def setUInt16 (b : Bytes) (position : Nat) (n : UInt16) : Bytes :=
  overwrite b position (ofUInt16 n).toList

/-- A number of four bytes written over the bytes at a position. -/
def setUInt32 (b : Bytes) (position : Nat) (n : UInt32) : Bytes :=
  overwrite b position (ofUInt32 n).toList

@[simp] theorem size_setUInt16 (b : Bytes) (position : Nat) (n : UInt16) : (setUInt16 b position n).size = b.size := by
  simp [setUInt16]

@[simp] theorem size_setUInt32 (b : Bytes) (position : Nat) (n : UInt32) : (setUInt32 b position n).size = b.size := by
  simp [setUInt32]

/-- How many zero bytes bring a length to the next multiple of four. -/
def padding (length : Nat) : Nat :=
  (4 - length % 4) % 4

end Bytes

end ClassFile
