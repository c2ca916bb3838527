import ClassFile.Bytes.Basic

/-!
# Modified UTF-8

The encoding of strings in class files. It differs from UTF-8 in two points: the null character takes two bytes, so that no
encoded string holds a zero byte, and a character past U+FFFF is written as its two surrogates of three bytes each. Decoding
never fails: a byte that starts no sequence, a sequence cut off by the end and a surrogate without its partner each become
the replacement character.
-/

namespace ClassFile.ModifiedUtf8

/-- Number of bytes a character takes. -/
def width (c : Char) : Nat :=
  let n := c.toNat
  if n = 0 then 2
  else if n ≤ 0x7F then 1
  else if n ≤ 0x7FF then 2
  else if n ≤ 0xFFFF then 3
  else 6

/-- A UTF-16 unit of eleven bits, in two bytes. -/
def twoBytes (n : Nat) : List UInt8 :=
  [(0xC0 + n / 0x40 % 0x20).toUInt8, (0x80 + n % 0x40).toUInt8]

/-- A UTF-16 unit, in three bytes. -/
def threeBytes (n : Nat) : List UInt8 :=
  [(0xE0 + n / 0x1000 % 0x10).toUInt8, (0x80 + n / 0x40 % 0x40).toUInt8, (0x80 + n % 0x40).toUInt8]

/-- The bytes of a character. -/
def encodeChar (c : Char) : List UInt8 :=
  let n := c.toNat
  if n = 0 then twoBytes n
  else if n ≤ 0x7F then [n.toUInt8]
  else if n ≤ 0x7FF then twoBytes n
  else if n ≤ 0xFFFF then threeBytes n
  else threeBytes (0xD800 + (n - 0x10000) / 0x400) ++ threeBytes (0xDC00 + (n - 0x10000) % 0x400)

/-- The bytes of a string. -/
def encode (s : String) : Bytes :=
  s.foldl (fun out c => (encodeChar c).foldl Array.push out) #[]

/-- Number of bytes a string takes. -/
def length (s : String) : Nat :=
  s.foldl (fun n c => n + width c) 0

/-- The replacement character. -/
def replacement : Char :=
  Char.ofNat 0xFFFD

/-- The UTF-16 units of encoded bytes, behind those found already. -/
def unitsFrom (found : Array UInt16) : List UInt8 → Array UInt16
  | [] => found
  | [a] => found.push (if a &&& 0x80 == 0 then a.toUInt16 else 0xFFFD)
  | [a, b] =>
    if a &&& 0x80 == 0 then
      unitsFrom (found.push a.toUInt16) [b]
    else if a &&& 0xE0 == 0xC0 then
      found.push ((a &&& 0x1F).toUInt16 <<< 6 ||| (b &&& 0x3F).toUInt16)
    else
      unitsFrom (found.push 0xFFFD) [b]
  | a :: b :: c :: rest =>
    if a &&& 0x80 == 0 then
      unitsFrom (found.push a.toUInt16) (b :: c :: rest)
    else if a &&& 0xE0 == 0xC0 then
      unitsFrom (found.push ((a &&& 0x1F).toUInt16 <<< 6 ||| (b &&& 0x3F).toUInt16)) (c :: rest)
    else if a &&& 0xF0 == 0xE0 then
      unitsFrom (found.push
        ((a &&& 0x0F).toUInt16 <<< 12 ||| (b &&& 0x3F).toUInt16 <<< 6 ||| (c &&& 0x3F).toUInt16)) rest
    else
      unitsFrom (found.push 0xFFFD) (b :: c :: rest)

/-- Whether a unit is the first of a surrogate pair. -/
def isHigh (u : UInt16) : Bool :=
  0xD800 ≤ u && u ≤ 0xDBFF

/-- Whether a unit is the second of a surrogate pair. -/
def isLow (u : UInt16) : Bool :=
  0xDC00 ≤ u && u ≤ 0xDFFF

/-- The character of a surrogate pair. -/
def ofPair (high low : UInt16) : Char :=
  Char.ofNat (0x10000 + (high.toNat - 0xD800) * 0x400 + (low.toNat - 0xDC00))

/-- The character of a unit that stands alone. -/
def ofUnit (u : UInt16) : Char :=
  if isHigh u || isLow u then replacement else Char.ofNat u.toNat

/-- The characters of UTF-16 units, behind those found already. -/
def charsFrom (found : Array Char) : List UInt16 → Array Char
  | [] => found
  | [u] => found.push (ofUnit u)
  | u :: v :: rest =>
    if isHigh u && isLow v then
      charsFrom (found.push (ofPair u v)) rest
    else
      charsFrom (found.push (ofUnit u)) (v :: rest)

/-- The string that bytes encode. -/
def decode (bytes : Bytes) : String :=
  String.ofList (charsFrom #[] (unitsFrom #[] bytes.toList).toList).toList

end ClassFile.ModifiedUtf8
