/-!
# Shortest decimals

The decimal text of a binary floating point number, with the fewest digits that read back as the same number. A bit pattern
is taken apart into a significand and a power of two. The reals that round to it form an interval, whose ends belong to it if
the significand is even. On the grids of one, two, three digits and so on, the number's two neighbours are tested: the first
grid with a neighbour in the interval gives the digits. All arithmetic is exact.
-/

namespace ClassFile.Decimal

attribute [local instance (2000)] instPowNat

/-- A binary floating point format: the numbers of bits of its fraction and its exponent. -/
structure BinaryFormat where
  fractionBits : Nat
  exponentBits : Nat
  deriving DecidableEq, Repr

namespace BinaryFormat

/-- Numbers of 32 bits. -/
def single : BinaryFormat := ⟨23, 8⟩

/-- Numbers of 64 bits. -/
def double : BinaryFormat := ⟨52, 11⟩

/-- What is taken off an exponent as it is stored. -/
def bias (f : BinaryFormat) : Nat :=
  2 ^ (f.exponentBits - 1) - 1

end BinaryFormat

/-- A finite number without its sign: `significand * 2 ^ exponent`. -/
structure Magnitude where
  significand : Nat
  exponent : Int
  /-- Whether the next number below is only half as far as the next one above. -/
  closerBelow : Bool
  deriving DecidableEq, Repr

/-- What a bit pattern stands for. -/
inductive Reading where
  | notANumber
  | infinite (negative : Bool)
  | finite (negative : Bool) (magnitude : Magnitude)
  deriving DecidableEq, Repr

namespace Reading

/-- What a bit pattern of a format stands for. -/
def ofBits (f : BinaryFormat) (bits : Nat) : Reading :=
  let fraction := bits % 2 ^ f.fractionBits
  let stored := bits / 2 ^ f.fractionBits % 2 ^ f.exponentBits
  let negative := bits / 2 ^ (f.fractionBits + f.exponentBits) % 2 == 1
  let exponent (stored : Nat) : Int := (stored : Int) - f.bias - f.fractionBits
  if stored = 2 ^ f.exponentBits - 1 then if fraction = 0 then infinite negative else notANumber
  else if stored = 0 then finite negative ⟨fraction, exponent 1, false⟩
  else finite negative ⟨2 ^ f.fractionBits + fraction, exponent stored, fraction == 0 && stored > 1⟩

end Reading

namespace Magnitude

/-- Two numbers whose quotient is `2 ^ q / 10 ^ e`. -/
def ratio (q e : Int) : Nat × Nat :=
  (2 ^ q.toNat * 10 ^ (-e).toNat, 2 ^ (-q).toNat * 10 ^ e.toNat)

/-- The nearer of the number's two neighbours among the multiples of `10 ^ e`, of those that read back as the number; the
upper one of two that are equally near. Quarters of the last place serve as the unit of the interval's ends. -/
def neighbour (x : Magnitude) (e : Int) : Option Nat :=
  let (n, d) := ratio (x.exponent - 2) e
  let value := 4 * x.significand * n
  let low := (4 * x.significand - if x.closerBelow then 1 else 2) * n
  let high := (4 * x.significand + 2) * n
  let readsBack (k : Nat) : Bool :=
    if x.significand % 2 = 0 then low ≤ k * d && k * d ≤ high else low < k * d && k * d < high
  let below := value / d
  let above := below + 1
  if readsBack below && (!readsBack above || 2 * (value - below * d) < d) then some below
  else if readsBack above then some above
  else none

/-- More places behind the point than any number has zeros there before its first digit. -/
def places : Nat := 400

/-- The power of ten of the number's first digit. -/
def leadingExponent (x : Magnitude) : Int :=
  let (n, d) := ratio x.exponent (-places)
  ((Nat.toDigits 10 (x.significand * n / d)).length : Int) - 1 - places

end Magnitude

/-- A number by its digits, of which the first counts `10 ^ exponent`. -/
structure Scientific where
  digits : List Char
  exponent : Int
  deriving DecidableEq, Repr

namespace Scientific

/-- The number `n * 10 ^ e`, without zeros at the end. -/
def ofNat (n : Nat) (e : Int) : Scientific :=
  let digits := Nat.toDigits 10 n
  ⟨(digits.reverse.dropWhile (· == '0')).reverse, e + digits.length - 1⟩

/-- The most digits that are tried; so many are enough for all numbers of 64 bits. -/
def maxDigits : Nat := 17

/-- The fewest digits that read back as a number that is not zero. -/
def shortest (x : Magnitude) : Scientific :=
  let first := x.leadingExponent
  ((List.range maxDigits).findSome? fun (n : Nat) => (x.neighbour (first - n)).map fun k => ofNat k (first - n)).getD ⟨[], 0⟩

/-- The number with a point among its digits, and at least one digit on both sides of it. -/
def positional (s : Scientific) : List Char :=
  if s.exponent < 0 then ['0', '.'] ++ List.replicate ((-s.exponent).toNat - 1) '0' ++ s.digits
  else
    let whole := s.exponent.toNat + 1
    let fraction := s.digits.drop whole
    s.digits.take whole ++ List.replicate (whole - s.digits.length) '0' ++ ['.'] ++
      (if fraction.isEmpty then ['0'] else fraction)

/-- The number with one digit before the point and a power of ten behind; a single digit takes no point. -/
def exponential (s : Scientific) : List Char :=
  let mantissa :=
    match s.digits with
    | first :: rest@(_ :: _) => first :: '.' :: rest
    | digits => digits
  mantissa ++ ['e'] ++ (toString s.exponent).toList

end Scientific

/-- Which numbers are written with a point among their digits: those whose first digit counts `10 ^ e` with `low ≤ e < high`.
The others are written with a power of ten. -/
structure Style where
  low : Int
  high : Int
  deriving DecidableEq, Repr

/-- The text of a bit pattern of a format. -/
def text (style : Style) (f : BinaryFormat) (bits : Nat) : String :=
  let sign (negative : Bool) : String := if negative then "-" else ""
  match Reading.ofBits f bits with
  | .notANumber => "NaN"
  | .infinite negative => sign negative ++ "inf"
  | .finite negative x =>
    if x.significand = 0 then sign negative ++ "0.0"
    else
      let s := Scientific.shortest x
      let digits := if style.low ≤ s.exponent ∧ s.exponent < style.high then s.positional else s.exponential
      sign negative ++ String.ofList digits

end ClassFile.Decimal
