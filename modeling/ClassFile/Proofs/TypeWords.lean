import ClassFile.Proofs.TypeJoin
import Mathlib.Algebra.Group.Nat.Defs

/-!
# Types as words

A type of a frame is kept in a word of thirty-two bits: four bits for the dimensions, four for the kind of type, and
twenty-four in which a type of a value has four for what it is and twenty for its number. The number of a class or of an
allocated object is joined to the other bits as it is, so a number with more than twenty bits changes them, and two types may
come to the same word. A table with no such numbers is roomy (`TypeTable.Roomy`), and the word of a type of such a table says
which type it is (`FrameType.ofWord_word`).
-/

namespace ClassFile

/-- The word of a shape, without dimensions. A number is joined to the bits of its kind as it is. -/
def Shape.word : Shape → BitVec 32
  | unset => 0
  | top => 0x01000000
  | integer => 0x01000001
  | float => 0x01000002
  | double => 0x01000003
  | long => 0x01000004
  | null => 0x01000005
  | uninitializedThis => 0x01000006
  | boolean => 0x01000009
  | byte => 0x0100000A
  | char => 0x0100000B
  | short => 0x0100000C
  | object index => 0x01700000 ||| BitVec.ofNat 32 index
  | uninitialized index => 0x01800000 ||| BitVec.ofNat 32 index
  | localSlot slot topIfWide => 0x02000000 ||| BitVec.ofNat 32 slot ||| if topIfWide then 0x00800000 else 0
  | stackSlot slot topIfWide => 0x03000000 ||| BitVec.ofNat 32 slot ||| if topIfWide then 0x00800000 else 0
  | straySlot kind slot topIfWide =>
    BitVec.ofNat 32 (kind * 2 ^ 24) ||| BitVec.ofNat 32 slot ||| if topIfWide then 0x00800000 else 0

/-- The shape of a value by the four bits that tell what it is and its number. -/
def Shape.ofBits (base number : Nat) : Option Shape :=
  match base, number with
  | 0, 0 => some top
  | 0, 1 => some integer
  | 0, 2 => some float
  | 0, 3 => some double
  | 0, 4 => some long
  | 0, 5 => some null
  | 0, 6 => some uninitializedThis
  | 0, 9 => some boolean
  | 0, 10 => some byte
  | 0, 11 => some char
  | 0, 12 => some short
  | 7, index => some (object index)
  | 8, index => some (uninitialized index)
  | _, _ => none

namespace FrameType

/-- The word in which a type is kept. -/
def word (t : FrameType) : BitVec 32 :=
  t.dims.setWidth 32 <<< 28 ||| t.shape.word

/-- The type of a value that a word stands for. -/
def ofWord (w : BitVec 32) : Option FrameType :=
  if w.toNat / 2 ^ 24 % 2 ^ 4 = 1 then
    (Shape.ofBits (w.toNat / 2 ^ 20 % 2 ^ 4) (w.toNat % 2 ^ 20)).map fun shape => ⟨BitVec.ofNat 4 (w.toNat / 2 ^ 28), shape⟩
  else none

/-- The word of the type says which type it is. -/
def Told (t : FrameType) : Prop :=
  ofWord t.word = some t

end FrameType

/-- The number of a shape, if it has one in the type table, keeps to its twenty bits. -/
def Shape.Fits : Shape → Prop
  | object index | uninitialized index => index < 2 ^ 20
  | _ => True

/-- The word of a shape of a value, by what the shape is and its number. -/
theorem Shape.exists_bits {s : Shape} (hs : s.isConcrete = true) (hfits : s.Fits) :
    ∃ base < 2 ^ 4, ∃ number < 2 ^ 20, s.word.toNat = 2 ^ 24 + base * 2 ^ 20 + number ∧
      Shape.ofBits base number = some s := by
  have hjoin : ∀ (base i : Nat), base < 2 ^ 8 → i < 2 ^ 20 →
      (BitVec.ofNat 32 (base * 2 ^ 20) ||| BitVec.ofNat 32 i).toNat = base * 2 ^ 20 + i := by
    intro base i hbase hi
    rw [BitVec.toNat_or, BitVec.toNat_ofNat, BitVec.toNat_ofNat, Nat.mod_eq_of_lt (by omega), Nat.mod_eq_of_lt (by omega),
      Nat.mul_comm, Nat.two_pow_add_eq_or_of_lt hi]
  cases s with
  | object i => exact ⟨7, by omega, i, hfits, hjoin 0x17 i (by omega) hfits, rfl⟩
  | uninitialized i => exact ⟨8, by omega, i, hfits, hjoin 0x18 i (by omega) hfits, rfl⟩
  | unset | localSlot _ _ | stackSlot _ _ | straySlot _ _ _ => cases hs
  | top => exact ⟨0, by omega, 0, by omega, rfl, rfl⟩
  | integer => exact ⟨0, by omega, 1, by omega, rfl, rfl⟩
  | float => exact ⟨0, by omega, 2, by omega, rfl, rfl⟩
  | double => exact ⟨0, by omega, 3, by omega, rfl, rfl⟩
  | long => exact ⟨0, by omega, 4, by omega, rfl, rfl⟩
  | null => exact ⟨0, by omega, 5, by omega, rfl, rfl⟩
  | uninitializedThis => exact ⟨0, by omega, 6, by omega, rfl, rfl⟩
  | boolean => exact ⟨0, by omega, 9, by omega, rfl, rfl⟩
  | byte => exact ⟨0, by omega, 10, by omega, rfl, rfl⟩
  | char => exact ⟨0, by omega, 11, by omega, rfl, rfl⟩
  | short => exact ⟨0, by omega, 12, by omega, rfl, rfl⟩

/-- The word of a type of a value whose number keeps to its bits says which type it is. -/
theorem FrameType.ofWord_word {t : FrameType} (hs : t.shape.isConcrete = true) (hfits : t.shape.Fits) : t.Told := by
  obtain ⟨base, hbase, number, hnumber, hshape, hback⟩ := Shape.exists_bits hs hfits
  have hdims : t.dims.toNat < 2 ^ 4 := t.dims.isLt
  have hword : t.word.toNat = t.dims.toNat * 2 ^ 28 + (2 ^ 24 + base * 2 ^ 20 + number) := by
    rw [word, BitVec.toNat_or, BitVec.toNat_shiftLeft, BitVec.toNat_setWidth, hshape,
      Nat.mod_eq_of_lt (a := t.dims.toNat) (by omega), Nat.shiftLeft_eq, Nat.mod_eq_of_lt (by omega), Nat.mul_comm,
      Nat.two_pow_add_eq_or_of_lt (by omega)]
  have hkind : t.word.toNat / 2 ^ 24 % 2 ^ 4 = 1 := by omega
  have hbase' : t.word.toNat / 2 ^ 20 % 2 ^ 4 = base := by omega
  have hnumber' : t.word.toNat % 2 ^ 20 = number := by omega
  have hdims' : t.word.toNat / 2 ^ 28 = t.dims.toNat := by omega
  rw [Told, ofWord, if_pos hkind, hbase', hnumber', hback, hdims', BitVec.ofNat_toNat, BitVec.setWidth_eq]
  rfl

/-! ## Tables -/

/-- The numbers of the table have twenty bits at most, as many as the word of a type has for them. -/
def TypeTable.Roomy (types : TypeTable) : Prop :=
  types.size ≤ 2 ^ 20

instance (types : TypeTable) : Decidable types.Roomy :=
  inferInstanceAs (Decidable (_ ≤ _))

namespace FrameType

/-- The number of a type of a roomy table keeps to its bits. -/
theorem Numbered.fits {types : TypeTable} {t : FrameType} (h : t.Numbered types) (hroomy : types.Roomy) : t.shape.Fits := by
  have hlt : ∀ {i e}, types.get? i = some e → i < 2 ^ 20 := fun he =>
    Nat.lt_of_lt_of_le (Array.getElem?_eq_some_iff.1 he).1 hroomy
  obtain ⟨dims, shape⟩ := t
  cases shape with
  | object i =>
    obtain ⟨e, he⟩ := h
    exact hlt he
  | uninitialized i =>
    obtain ⟨e, he⟩ := h
    exact hlt he
  | _ => trivial

/-- The word of a type of a value of a roomy table says which type it is. -/
theorem Concrete.told {types : TypeTable} {t : FrameType} (h : t.Concrete types) (hroomy : types.Roomy) : t.Told :=
  ofWord_word h.shape (h.numbered.fits hroomy)

/-- So does the word of what a slot of a block that has been entered holds. -/
theorem Held.told {types : TypeTable} {t : FrameType} (h : t.Held types) (hroomy : types.Roomy) : t.Told :=
  ofWord_word h.concrete (h.numbered.fits hroomy)

end FrameType

/-- The words of the types with which a frame is entered say which types they are. -/
def Frame.Told (f : Frame) : Prop :=
  ∀ t, t ∈ f.locals ∨ t ∈ f.stack → t.Told

end ClassFile
