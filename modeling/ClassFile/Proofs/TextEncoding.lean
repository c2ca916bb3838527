import ClassFile.Proofs.Reading
import ClassFile.Text.ModifiedUtf8

/-!
# Modified UTF-8 loses nothing

A character is one UTF-16 unit or two, and a unit is one byte, two or three. Decoding goes the same way back in two
passes, so each pass undoes its own step: the bytes of a character give its units, and its units give the character. No
unit of a character that stands alone is half of a pair, so nothing that follows it is taken for its partner. The bytes
used leave out zero and those from 0xF0 on.
-/

namespace ClassFile.ModifiedUtf8

/-- The UTF-16 units of a character. -/
def unitsOf (c : Char) : List UInt16 :=
  let n := c.toNat
  if n ≤ 0xFFFF then [n.toUInt16]
  else [(0xD800 + (n - 0x10000) / 0x400).toUInt16, (0xDC00 + (n - 0x10000) % 0x400).toUInt16]

/-- A character is no half of a pair. -/
theorem toNat_bounds (c : Char) : (c.toNat < 0xD800 ∨ 0xDFFF < c.toNat) ∧ c.toNat < 0x110000 := by
  rcases c.valid with h | h
  · exact ⟨.inl h, Nat.lt_trans h (by decide)⟩
  · exact ⟨.inr h.1, h.2⟩

/-- A string is encoded character by character. -/
theorem toList_encode (s : String) : (encode s).toList = s.toList.flatMap encodeChar := by
  have h : ∀ (cs : List Char) (out : Bytes),
      (cs.foldl (fun out c => (encodeChar c).foldl Array.push out) out).toList = out.toList ++ cs.flatMap encodeChar := by
    intro cs
    induction cs with
    | nil => simp
    | cons c cs ih =>
      intro out
      rw [List.foldl_cons, ih, List.flatMap_cons]
      simp
  rw [encode, String.foldl_eq_foldl_toList, h]
  simp

/-- A character takes as many bytes as is counted for it. -/
theorem length_encodeChar (c : Char) : (encodeChar c).length = width c := by
  simp only [encodeChar, width]
  repeat' split
  all_goals rfl

/-- The length that is announced for a string is the number of its bytes. -/
theorem size_encode (s : String) : (encode s).size = length s := by
  have h : ∀ (cs : List Char) (n : Nat), cs.foldl (fun n c => n + width c) n = n + (cs.flatMap encodeChar).length := by
    intro cs
    induction cs with
    | nil => simp
    | cons c cs ih =>
      intro n
      rw [List.foldl_cons, ih, List.flatMap_cons, List.length_append, length_encodeChar, Nat.add_assoc]
  rw [length, String.foldl_eq_foldl_toList, h, ← toList_encode]
  simp

/-! ## Bytes and units -/

/-- The first of two bytes says that there are two, and holds five bits. -/
theorem lead_two (x : Fin 32) : ((0xC0 + x.val).toUInt8 &&& 0x80 == 0) = false ∧
    ((0xC0 + x.val).toUInt8 &&& 0xE0 == 0xC0) = true ∧
    ((0xC0 + x.val).toUInt8 &&& 0x1F).toUInt16 = x.val.toUInt16 := by
  revert x
  decide

/-- The first of three bytes says that there are three, and holds four bits. -/
theorem lead_three (x : Fin 16) : ((0xE0 + x.val).toUInt8 &&& 0x80 == 0) = false ∧
    ((0xE0 + x.val).toUInt8 &&& 0xE0 == 0xC0) = false ∧ ((0xE0 + x.val).toUInt8 &&& 0xF0 == 0xE0) = true ∧
    ((0xE0 + x.val).toUInt8 &&& 0x0F).toUInt16 = x.val.toUInt16 := by
  revert x
  decide

/-- A byte behind the first holds six bits. -/
theorem trail (x : Fin 64) : ((0x80 + x.val).toUInt8 &&& 0x3F).toUInt16 = x.val.toUInt16 := by
  revert x
  decide

/-- A byte of its own is its unit. -/
theorem lead_one (x : Fin 128) : (x.val.toUInt8 &&& 0x80 == 0) = true ∧ x.val.toUInt8.toUInt16 = x.val.toUInt16 := by
  revert x
  decide +kernel

/-- Five bits and six bits are joined to a unit. -/
theorem join_two (x y : Nat) (hy : y < 64) :
    x.toUInt16 <<< 6 ||| y.toUInt16 = (x * 64 + y).toUInt16 := by
  apply UInt16.toNat_inj.1
  simp only [UInt16.toNat_or, UInt16.toNat_shiftLeft, UInt16.toNat_ofNat', UInt16.reduceToNat, Nat.shiftLeft_eq,
    Nat.reducePow, Nat.reduceMod]
  rw [Bytes.or_eq_add 6 (by omega) (by omega)]
  omega

/-- Four bits and twice six bits are joined to a unit. -/
theorem join_three (x y z : Nat) (hy : y < 64) (hz : z < 64) :
    x.toUInt16 <<< 12 ||| y.toUInt16 <<< 6 ||| z.toUInt16 = (x * 4096 + y * 64 + z).toUInt16 := by
  apply UInt16.toNat_inj.1
  simp only [UInt16.toNat_or, UInt16.toNat_shiftLeft, UInt16.toNat_ofNat', UInt16.reduceToNat, Nat.shiftLeft_eq,
    Nat.reducePow, Nat.reduceMod]
  have he : ∀ a b c : Nat, a % 2 ^ 12 = 0 → b % 2 ^ 6 = 0 → b < 2 ^ 12 → c < 2 ^ 6 → a ||| b ||| c = a + b + c := by
    intro a b c ha hb hb' hc
    rw [Bytes.or_eq_add 12 ha hb', Bytes.or_eq_add 6 (by omega) hc]
  rw [he] <;> omega

/-- One byte is read as its unit. -/
theorem unitsFrom_byte (found : Array UInt16) {n : Nat} (h : n < 128) (rest : List UInt8) :
    unitsFrom found (n.toUInt8 :: rest) = unitsFrom (found.push n.toUInt16) rest := by
  obtain ⟨h1, h2⟩ := lead_one ⟨n, h⟩
  simp only at h1 h2
  match rest with
  | [] => simp only [unitsFrom, h1, if_true, h2]
  | [b] => simp only [unitsFrom, h1, if_true, h2]
  | b :: c :: rest => simp only [unitsFrom, h1, if_true, h2]

/-- Two bytes are read as their unit. -/
theorem unitsFrom_twoBytes (found : Array UInt16) {n : Nat} (h : n < 0x800) (rest : List UInt8) :
    unitsFrom found (twoBytes n ++ rest) = unitsFrom (found.push n.toUInt16) rest := by
  obtain ⟨h1, h2, h3⟩ := lead_two ⟨n / 0x40 % 0x20, Nat.mod_lt _ (by decide)⟩
  have h4 := trail ⟨n % 0x40, Nat.mod_lt _ (by decide)⟩
  have hj := join_two (n / 0x40 % 0x20) (n % 0x40) (Nat.mod_lt _ (by decide))
  have hn : n / 0x40 % 0x20 * 64 + n % 0x40 = n := by omega
  rw [hn] at hj
  simp only at h1 h2 h3 h4
  rw [twoBytes, List.cons_append, List.cons_append, List.nil_append]
  match rest with
  | [] => simp only [unitsFrom, h1, h2, if_true, Bool.false_eq_true, if_false, h3, h4, hj]
  | c :: rest => simp only [unitsFrom, h1, h2, if_true, Bool.false_eq_true, if_false, h3, h4, hj]

/-- Three bytes are read as their unit. -/
theorem unitsFrom_threeBytes (found : Array UInt16) {n : Nat} (h : n < 0x10000) (rest : List UInt8) :
    unitsFrom found (threeBytes n ++ rest) = unitsFrom (found.push n.toUInt16) rest := by
  obtain ⟨h1, h2, h3, h4⟩ := lead_three ⟨n / 0x1000 % 0x10, Nat.mod_lt _ (by decide)⟩
  have h5 := trail ⟨n / 0x40 % 0x40, Nat.mod_lt _ (by decide)⟩
  have h6 := trail ⟨n % 0x40, Nat.mod_lt _ (by decide)⟩
  have hj := join_three (n / 0x1000 % 0x10) (n / 0x40 % 0x40) (n % 0x40) (Nat.mod_lt _ (by decide))
    (Nat.mod_lt _ (by decide))
  have hn : n / 0x1000 % 0x10 * 4096 + n / 0x40 % 0x40 * 64 + n % 0x40 = n := by omega
  rw [hn] at hj
  simp only at h1 h2 h3 h4 h5 h6
  rw [threeBytes, List.cons_append, List.cons_append, List.cons_append, List.nil_append, unitsFrom]
  simp only [h1, h2, h3, if_true, Bool.false_eq_true, if_false, h4, h5, h6, hj]

/-- The bytes of a character give its units. -/
theorem unitsFrom_encodeChar (found : Array UInt16) (c : Char) (rest : List UInt8) :
    unitsFrom found (encodeChar c ++ rest) = unitsFrom (found ++ unitsOf c) rest := by
  have hc := (toNat_bounds c).2
  simp only [encodeChar, unitsOf]
  split
  · rename_i h0
    rw [unitsFrom_twoBytes found (by omega), if_pos (by omega)]
    simp
  · split
    · rename_i h1
      rw [List.cons_append, List.nil_append, unitsFrom_byte found (by omega), if_pos (by omega)]
      simp
    · split
      · rename_i h2
        rw [unitsFrom_twoBytes found (by omega), if_pos (by omega)]
        simp
      · split
        · rename_i h3
          rw [unitsFrom_threeBytes found (by omega)]
          simp
        · rename_i h3
          rw [List.append_assoc, unitsFrom_threeBytes found (by omega), unitsFrom_threeBytes _ (by omega)]
          simp

/-! ## Units and characters -/

/-- A unit that is no half of a pair is read as its character. -/
theorem charsFrom_single (found : Array Char) {u : UInt16} (h : isHigh u = false) (rest : List UInt16) :
    charsFrom found (u :: rest) = charsFrom (found.push (ofUnit u)) rest := by
  match rest with
  | [] => rw [charsFrom, charsFrom]
  | v :: rest => rw [charsFrom, h, Bool.false_and, if_neg Bool.false_ne_true]

/-- A number that fits in two bytes is what these say. -/
theorem toNat_toUInt16 {n : Nat} (h : n ≤ 0xFFFF) : n.toUInt16.toNat = n := by
  rw [UInt16.toNat_ofNat']
  omega

/-- The first half of a pair is told by its range. -/
theorem isHigh_eq (u : UInt16) : isHigh u = decide (0xD800 ≤ u.toNat ∧ u.toNat ≤ 0xDBFF) := by
  simp [isHigh, UInt16.le_iff_toNat_le]

/-- The second half of a pair is told by its range. -/
theorem isLow_eq (u : UInt16) : isLow u = decide (0xDC00 ≤ u.toNat ∧ u.toNat ≤ 0xDFFF) := by
  simp [isLow, UInt16.le_iff_toNat_le]

/-- The units of a character give the character. -/
theorem charsFrom_unitsOf (found : Array Char) (c : Char) (rest : List UInt16) :
    charsFrom found (unitsOf c ++ rest) = charsFrom (found.push c) rest := by
  obtain ⟨hs, hc⟩ := toNat_bounds c
  simp only [unitsOf]
  split
  · rename_i h
    have hu := toNat_toUInt16 h
    have hh : isHigh c.toNat.toUInt16 = false := by
      rw [isHigh_eq, hu, decide_eq_false_iff_not]
      omega
    have hl : isLow c.toNat.toUInt16 = false := by
      rw [isLow_eq, hu, decide_eq_false_iff_not]
      omega
    rw [List.cons_append, List.nil_append, charsFrom_single found hh, ofUnit, hh, hl, if_neg (by decide), hu,
      Char.ofNat_toNat]
  · rename_i h
    have hu := toNat_toUInt16 (n := 0xD800 + (c.toNat - 0x10000) / 0x400) (by omega)
    have hv := toNat_toUInt16 (n := 0xDC00 + (c.toNat - 0x10000) % 0x400) (by omega)
    have hh : isHigh (0xD800 + (c.toNat - 0x10000) / 0x400).toUInt16 = true := by
      rw [isHigh_eq, hu, decide_eq_true_iff]
      omega
    have hl : isLow (0xDC00 + (c.toNat - 0x10000) % 0x400).toUInt16 = true := by
      rw [isLow_eq, hv, decide_eq_true_iff]
      omega
    have hn : 0x10000 + (0xD800 + (c.toNat - 0x10000) / 0x400 - 0xD800) * 0x400 +
        (0xDC00 + (c.toNat - 0x10000) % 0x400 - 0xDC00) = c.toNat := by omega
    rw [List.cons_append, List.cons_append, List.nil_append, charsFrom, hh, hl, if_pos (by decide), ofPair, hu, hv, hn,
      Char.ofNat_toNat]

/-! ## The bytes of encoded strings -/

/-- A byte that can stand in an encoded string: not zero, and no start of a sequence of four bytes or more. -/
def IsOctet (b : UInt8) : Prop :=
  b ≠ 0 ∧ b < 0xF0

/-- A small number that is not zero can stand in an encoded string. -/
theorem isOctet_toUInt8 {n : Nat} (h : 0 < n ∧ n < 0xF0) : IsOctet n.toUInt8 := by
  have hn : n.toUInt8.toNat = n := UInt8.toNat_ofNat_of_lt' (Nat.lt_trans h.2 (by decide))
  constructor
  · intro he
    rw [he] at hn
    exact absurd hn (Nat.ne_of_lt h.1)
  · rw [UInt8.lt_iff_toNat_lt, hn]
    exact h.2

/-- Two bytes of a unit can stand in an encoded string. -/
theorem isOctet_twoBytes (n : Nat) : ∀ b ∈ twoBytes n, IsOctet b := by
  simp only [twoBytes, List.forall_mem_cons]
  exact ⟨isOctet_toUInt8 (by omega), isOctet_toUInt8 (by omega), fun _ hb => nomatch hb⟩

/-- Three bytes of a unit can stand in an encoded string. -/
theorem isOctet_threeBytes (n : Nat) : ∀ b ∈ threeBytes n, IsOctet b := by
  simp only [threeBytes, List.forall_mem_cons]
  exact ⟨isOctet_toUInt8 (by omega), isOctet_toUInt8 (by omega), isOctet_toUInt8 (by omega), fun _ hb => nomatch hb⟩

/-- The null character is no exception, since it takes two bytes; nor is a character of two units, since each takes three. -/
theorem isOctet_encodeChar (c : Char) : ∀ b ∈ encodeChar c, IsOctet b := by
  simp only [encodeChar]
  split
  · exact isOctet_twoBytes _
  · split
    · intro b hb
      obtain rfl := List.mem_singleton.1 hb
      exact isOctet_toUInt8 (by omega)
    · split
      · exact isOctet_twoBytes _
      · split
        · exact isOctet_threeBytes _
        · exact List.forall_mem_append.2 ⟨isOctet_threeBytes _, isOctet_threeBytes _⟩

/-- All bytes of an encoded string can stand in one. -/
theorem isOctet_encode (s : String) : ∀ b ∈ encode s, IsOctet b := by
  intro b hb
  rw [← Array.mem_toList_iff, toList_encode] at hb
  obtain ⟨c, -, hb⟩ := List.mem_flatMap.1 hb
  exact isOctet_encodeChar c b hb

/-! ## Strings -/

/-- Encoded characters are read as their units. -/
theorem unitsFrom_flatMap (cs : List Char) (found : Array UInt16) :
    unitsFrom found (cs.flatMap encodeChar) = found ++ cs.flatMap unitsOf := by
  induction cs generalizing found with
  | nil => simp [unitsFrom]
  | cons c cs ih =>
    rw [List.flatMap_cons, unitsFrom_encodeChar, ih, List.flatMap_cons]
    apply Array.ext'
    simp

/-- Units of characters are read as the characters. -/
theorem charsFrom_flatMap (cs : List Char) (found : Array Char) :
    charsFrom found (cs.flatMap unitsOf) = found ++ cs := by
  induction cs generalizing found with
  | nil => simp [charsFrom]
  | cons c cs ih =>
    rw [List.flatMap_cons, charsFrom_unitsOf, ih]
    simp

/-- Decoding undoes encoding. -/
theorem decode_encode (s : String) : decode (encode s) = s := by
  rw [decode, toList_encode, unitsFrom_flatMap]
  simp [charsFrom_flatMap]

/-- Encoding loses nothing, takes as many bytes as are announced, and uses neither the zero byte nor the bytes with which
plain UTF-8 starts its sequences of four. -/
theorem encode_exact (s : String) :
    decode (encode s) = s ∧ (encode s).size = length s ∧ ∀ b ∈ encode s, b ≠ 0 ∧ b < 0xF0 :=
  ⟨decode_encode s, size_encode s, isOctet_encode s⟩

example : decode #[0x61, 0xC0, 0x80, 0xED, 0xA0, 0xBD, 0xED, 0xB8, 0x80] = "a\x00😀" := by decide +kernel

end ClassFile.ModifiedUtf8
