import ClassFile.Bytes.Cursor
import Mathlib.Algebra.Group.Nat.Defs

/-!
# Reading what was written

A piece of a byte string stands at an offset (`Bytes.HasAt`); a decoder reads a piece if it takes exactly that piece wherever
it stands and comes with a given value (`Reads`). Readings are put together as the pieces are: one after the other, several
times, behind a count.
-/

namespace ClassFile

namespace Bytes

/-- A piece of a byte string stands at an offset. -/
def HasAt (b : Bytes) (offset : Nat) (piece : Bytes) : Prop :=
  ∃ before after : Bytes, b = before ++ piece ++ after ∧ before.size = offset

theorem hasAt_self (b : Bytes) : b.HasAt 0 b :=
  ⟨#[], #[], by simp, rfl⟩

/-- Two pieces stand one after the other exactly when the second stands behind the first. -/
theorem hasAt_append {b p q : Bytes} {offset : Nat} :
    b.HasAt offset (p ++ q) ↔ b.HasAt offset p ∧ b.HasAt (offset + p.size) q := by
  constructor
  · rintro ⟨before, after, rfl, rfl⟩
    exact ⟨⟨before, q ++ after, by simp, rfl⟩, ⟨before ++ p, after, by simp, by simp⟩⟩
  · rintro ⟨⟨before, after, rfl, rfl⟩, ⟨before', after', h, hs⟩⟩
    have h' : (before ++ p) ++ after = before' ++ (q ++ after') := by rw [h, Array.append_assoc]
    obtain ⟨rfl, rfl⟩ := Array.append_inj h' (by simp [hs])
    exact ⟨before, after', by simp, rfl⟩

/-- A piece ends within the bytes. -/
theorem HasAt.le_size {b p : Bytes} {offset : Nat} (h : b.HasAt offset p) : offset + p.size ≤ b.size := by
  obtain ⟨before, after, rfl, rfl⟩ := h
  simp

/-- The bytes of a piece stand behind its offset. -/
theorem HasAt.at0 {b p : Bytes} {offset : Nat} (h : b.HasAt offset p) {i : Nat} (hi : i < p.size) :
    b.at0 (offset + i) = p.at0 i := by
  obtain ⟨before, after, rfl, rfl⟩ := h
  simp [Bytes.at0, Array.getD_eq_getD_getElem?, Array.append_assoc, Array.getElem?_append_right,
    Array.getElem?_append_left hi]

/-- What is cut out where a piece stands is the piece. -/
theorem HasAt.extract {b p : Bytes} {offset : Nat} (h : b.HasAt offset p) : b.extract offset (offset + p.size) = p := by
  obtain ⟨before, after, rfl, rfl⟩ := h
  simp [Array.append_assoc, Array.extract_append]

/-- What is cut out stands where it was cut out. -/
theorem hasAt_extract {b : Bytes} {offset n : Nat} (h : offset + n ≤ b.size) :
    b.HasAt offset (b.extract offset (offset + n)) := by
  refine ⟨b.extract 0 offset, b.extract (offset + n) b.size, ?_, ?_⟩
  · rw [Array.extract_append_extract, Nat.min_eq_left (Nat.zero_le _), Nat.max_eq_right (Nat.le_add_right _ _),
      Array.extract_append_extract, Nat.min_eq_left (Nat.zero_le _), Nat.max_eq_right h, Array.extract_size]
  · rw [Array.size_extract]
    omega

/-- What stands in a piece stands in the byte string. -/
theorem HasAt.trans {b p q : Bytes} {offset inner : Nat} (h : b.HasAt offset p) (hq : p.HasAt inner q) :
    b.HasAt (offset + inner) q := by
  obtain ⟨before, after, rfl, rfl⟩ := h
  obtain ⟨before', after', rfl, rfl⟩ := hq
  exact ⟨before ++ before', after' ++ after, by simp, by simp⟩

/-- A disjunction of bits is a sum where the one number ends before the other starts. -/
theorem or_eq_add {a b : Nat} (k : Nat) (ha : a % 2 ^ k = 0) (hb : b < 2 ^ k) : a ||| b = a + b := by
  obtain ⟨c, rfl⟩ := Nat.dvd_of_mod_eq_zero ha
  exact (Nat.two_pow_add_eq_or_of_lt hb c).symm

/-- A number of two bytes is put together from its bytes. -/
theorem join_ofUInt16 (n : UInt16) : (n >>> 8).toUInt8.toUInt16 <<< 8 ||| n.toUInt8.toUInt16 = n := by
  have h := n.toNat_lt
  apply UInt16.toNat_inj.1
  simp only [UInt16.toNat_or, UInt16.toNat_shiftLeft, UInt8.toNat_toUInt16, UInt16.toNat_toUInt8,
    UInt16.toNat_shiftRight, UInt16.reduceToNat, Nat.shiftLeft_eq, Nat.shiftRight_eq_div_pow, Nat.reducePow,
    Nat.reduceMod] at h ⊢
  rw [or_eq_add 8 (by omega) (by omega)]
  omega

/-- A number of four bytes is put together from its bytes. -/
theorem join_ofUInt32 (n : UInt32) : (n >>> 24).toUInt8.toUInt32 <<< 24 ||| (n >>> 16).toUInt8.toUInt32 <<< 16 |||
    (n >>> 8).toUInt8.toUInt32 <<< 8 ||| n.toUInt8.toUInt32 = n := by
  have h := n.toNat_lt
  apply UInt32.toNat_inj.1
  simp only [UInt32.toNat_or, UInt32.toNat_shiftLeft, UInt8.toNat_toUInt32, UInt32.toNat_toUInt8,
    UInt32.toNat_shiftRight, UInt32.reduceToNat, Nat.shiftLeft_eq, Nat.shiftRight_eq_div_pow, Nat.reducePow,
    Nat.reduceMod] at h ⊢
  have e₁ : ∀ a b c d : Nat, a % 2 ^ 24 = 0 → b % 2 ^ 16 = 0 → b < 2 ^ 24 → c % 2 ^ 8 = 0 → c < 2 ^ 16 → d < 2 ^ 8 →
      a ||| b ||| c ||| d = a + b + c + d := by
    intro a b c d ha hb hb' hc hc' hd
    rw [or_eq_add 24 ha hb', or_eq_add 16 (by omega) hc', or_eq_add 8 (by omega) hd]
  rw [e₁] <;> omega

/-- A number of eight digits to the base 256 is the sum of what its digits stand for. -/
theorem sum_digits {n : Nat} (h : n < 18446744073709551616) :
    n / 72057594037927936 % 256 * 72057594037927936 + n / 281474976710656 % 256 * 281474976710656 +
      n / 1099511627776 % 256 * 1099511627776 + n / 4294967296 % 256 * 4294967296 +
      n / 16777216 % 256 * 16777216 + n / 65536 % 256 * 65536 + n / 256 % 256 * 256 + n % 256 = n := by
  have h₁ := Nat.div_add_mod n 256
  have h₂ := Nat.div_add_mod (n / 256) 256
  have h₃ := Nat.div_add_mod (n / 256 / 256) 256
  have h₄ := Nat.div_add_mod (n / 256 / 256 / 256) 256
  have h₅ := Nat.div_add_mod (n / 256 / 256 / 256 / 256) 256
  have h₆ := Nat.div_add_mod (n / 256 / 256 / 256 / 256 / 256) 256
  have h₇ := Nat.div_add_mod (n / 256 / 256 / 256 / 256 / 256 / 256) 256
  have h₈ : n / 256 / 256 / 256 / 256 / 256 / 256 / 256 < 256 := by
    simp only [Nat.div_div_eq_div_mul]
    exact Nat.div_lt_of_lt_mul h
  simp only [Nat.div_div_eq_div_mul, Nat.reduceMul] at h₁ h₂ h₃ h₄ h₅ h₆ h₇ h₈
  rw [Nat.mod_eq_of_lt h₈]
  generalize n / 72057594037927936 = q₇ at *
  generalize n / 281474976710656 = q₆ at *
  generalize n / 1099511627776 = q₅ at *
  generalize n / 4294967296 = q₄ at *
  generalize n / 16777216 = q₃ at *
  generalize n / 65536 = q₂ at *
  generalize n / 256 = q₁ at *
  generalize q₆ % 256 = r₆ at *
  generalize q₅ % 256 = r₅ at *
  generalize q₄ % 256 = r₄ at *
  generalize q₃ % 256 = r₃ at *
  generalize q₂ % 256 = r₂ at *
  generalize q₁ % 256 = r₁ at *
  omega

/-- A number of eight bytes is put together from its bytes. -/
theorem join_ofUInt64 (n : UInt64) : (n >>> 56).toUInt8.toUInt64 <<< 56 ||| (n >>> 48).toUInt8.toUInt64 <<< 48 |||
    (n >>> 40).toUInt8.toUInt64 <<< 40 ||| (n >>> 32).toUInt8.toUInt64 <<< 32 |||
    (n >>> 24).toUInt8.toUInt64 <<< 24 ||| (n >>> 16).toUInt8.toUInt64 <<< 16 |||
    (n >>> 8).toUInt8.toUInt64 <<< 8 ||| n.toUInt8.toUInt64 = n := by
  have h := n.toNat_lt
  apply UInt64.toNat_inj.1
  simp only [UInt64.toNat_or, UInt64.toNat_shiftLeft, UInt8.toNat_toUInt64, UInt64.toNat_toUInt8,
    UInt64.toNat_shiftRight, UInt64.reduceToNat, Nat.shiftLeft_eq, Nat.shiftRight_eq_div_pow, Nat.reducePow,
    Nat.reduceMod] at h ⊢
  have e₁ : ∀ a b c d e f g i : Nat, a % 2 ^ 56 = 0 → b % 2 ^ 48 = 0 → b < 2 ^ 56 → c % 2 ^ 40 = 0 → c < 2 ^ 48 →
      d % 2 ^ 32 = 0 → d < 2 ^ 40 → e % 2 ^ 24 = 0 → e < 2 ^ 32 → f % 2 ^ 16 = 0 → f < 2 ^ 24 → g % 2 ^ 8 = 0 →
      g < 2 ^ 16 → i < 2 ^ 8 →
      a ||| b ||| c ||| d ||| e ||| f ||| g ||| i = a + b + c + d + e + f + g + i := by
    intro a b c d e f g i ha hb hb' hc hc' hd hd' he he' hf hf' hg hg' hi
    rw [or_eq_add 56 ha hb', or_eq_add 48 (by omega) hc', or_eq_add 40 (by omega) hd', or_eq_add 32 (by omega) he',
      or_eq_add 24 (by omega) hf', or_eq_add 16 (by omega) hg', or_eq_add 8 (by omega) hi]
  have hm : ∀ x k : Nat, k * 256 ≤ 18446744073709551616 → 0 < k →
      x % 256 * k % 18446744073709551616 = x % 256 * k := by
    intro x k hk h0
    apply Nat.mod_eq_of_lt
    calc x % 256 * k < 256 * k := Nat.mul_lt_mul_of_pos_right (Nat.mod_lt _ (by decide)) h0
      _ ≤ _ := by omega
  simp only [hm, Nat.reduceMul, Nat.reduceLeDiff, Nat.reduceLT]
  rw [e₁, sum_digits h] <;> omega

/-! ## Lists of pieces -/

/-- Byte strings that are appended stand one behind the other. -/
theorem foldl_append (b : Bytes) (ps : List Bytes) : ps.foldl (· ++ ·) b = b ++ concat ps := by
  induction ps generalizing b with
  | nil => simp [concat]
  | cons p ps ih =>
    have hc : concat (p :: ps) = p ++ concat ps := by
      rw [concat, List.foldl_cons, ih, Array.empty_append]
    rw [List.foldl_cons, ih, hc, Array.append_assoc]

@[simp] theorem concat_nil : concat [] = #[] := rfl

@[simp] theorem concat_cons (p : Bytes) (ps : List Bytes) : concat (p :: ps) = p ++ concat ps := by
  rw [concat, List.foldl_cons, foldl_append, Array.empty_append]

@[simp] theorem concat_append (ps qs : List Bytes) : concat (ps ++ qs) = concat ps ++ concat qs := by
  induction ps with
  | nil => simp
  | cons p ps ih => simp [ih]

/-- Each number takes two bytes. -/
theorem sum_size_ofUInt16 (is : List UInt16) : ((is.map ofUInt16).map Array.size).sum = 2 * is.length := by
  induction is with
  | nil => rfl
  | cons i is ih =>
    rw [List.map_cons, List.map_cons, List.sum_cons, ih, size_ofUInt16, List.length_cons, Nat.mul_succ, Nat.add_comm]

/-- A counted list is its length and then its items. -/
theorem counted_eq (ps : List Bytes) : counted ps = ofUInt16 ps.length.toUInt16 ++ concat ps :=
  foldl_append _ _

end Bytes

/-- A reader takes exactly a piece, wherever it stands, and comes with a value. -/
def Reads {m : Type → Type} [Monad m] {α : Type} (d : StateT Cursor m α) (piece : Bytes) (a : α) : Prop :=
  ∀ (b : Bytes) (offset : Nat), b.HasAt offset piece → d ⟨b, offset⟩ = pure (a, ⟨b, offset + piece.size⟩)

namespace Reads

section Generic

variable {m : Type → Type} [Monad m] {α β : Type}

/-- A reader that comes with a value at once reads nothing. -/
theorem pure (a : α) : Reads (Pure.pure a : StateT Cursor m α) #[] a :=
  fun _ _ _ => rfl

variable [LawfulMonad m]

/-- Two readers read two pieces one after the other. -/
theorem bind {d : StateT Cursor m α} {f : α → StateT Cursor m β} {p q : Bytes} {a : α} {b : β} (h : Reads d p a)
    (hf : Reads (f a) q b) : Reads (d >>= f) (p ++ q) b := by
  intro bytes offset hpq
  obtain ⟨hp, hq⟩ := Bytes.hasAt_append.1 hpq
  change (d ⟨bytes, offset⟩ >>= fun r => f r.1 r.2) = _
  rw [h bytes offset hp, pure_bind, hf bytes _ hq, Array.size_append, Nat.add_assoc]

/-- The second of two readers may take nothing. -/
theorem bindEmpty {d : StateT Cursor m α} {f : α → StateT Cursor m β} {p : Bytes} {a : α} {b : β} (h : Reads d p a)
    (hf : Reads (f a) #[] b) : Reads (d >>= f) p b := by
  have := h.bind hf
  rwa [Array.append_empty] at this

/-- A reader whose value is then changed by a function. -/
theorem map {d : StateT Cursor m α} {p : Bytes} {a : α} (f : α → β) (h : Reads d p a) :
    Reads (d >>= fun a => Pure.pure (f a)) p (f a) :=
  h.bindEmpty (Reads.pure (f a))

end Generic

/-- What a reader comes with where its piece stands. -/
theorem runAt {α : Type} {d : Decoder α} {b piece : Bytes} {offset : Nat} {a : α} (h : Reads d piece a)
    (hat : b.HasAt offset piece) : d.runAt b offset = .ok a := by
  unfold Decoder.runAt
  change Except.map _ (d ⟨b, offset⟩) = _
  rw [h b offset hat]
  rfl

/-- A value that is known takes nothing. -/
theorem lift {α : Type} {x : Except Error α} {a : α} (h : x = .ok a) : Reads (x : Decoder α) #[] a := by
  subst h
  exact Reads.pure a

/-! ## Numbers and byte strings -/

/-- A cursor goes ahead over a piece. -/
theorem advance {b piece : Bytes} {offset : Nat} (h : b.HasAt offset piece) :
    (⟨b, offset⟩ : Cursor).advance piece.size = .ok ⟨b, offset + piece.size⟩ :=
  if_pos h.le_size

/-- A byte is read as it is. -/
theorem u8 (x : UInt8) : Reads Decoder.u8 #[x] x := by
  intro b offset h
  change ((⟨b, offset⟩ : Cursor).advance 1 >>= fun c' => .ok (b.at0 offset, c')) = _
  have h0 : b.at0 offset = x := h.at0 (i := 0) (by simp)
  rw [show 1 = (#[x] : Bytes).size from rfl, advance h, h0]
  rfl

/-- A number of two bytes is read as it was written. -/
theorem u16 (n : UInt16) : Reads Decoder.u16 (Bytes.ofUInt16 n) n := by
  intro b offset h
  have h0 := h.at0 (i := 0) (by simp)
  have h1 := h.at0 (i := 1) (by simp)
  have hj := Bytes.join_ofUInt16 n
  simp only [Decoder.u16, h0, h1]
  rw [show 2 = (Bytes.ofUInt16 n).size from rfl, advance h]
  exact congrArg (fun n => Except.ok (n, (⟨b, _⟩ : Cursor))) hj

/-- A number of four bytes is read as it was written. -/
theorem u32 (n : UInt32) : Reads Decoder.u32 (Bytes.ofUInt32 n) n := by
  intro b offset h
  have h0 := h.at0 (i := 0) (by simp)
  have h1 := h.at0 (i := 1) (by simp)
  have h2 := h.at0 (i := 2) (by simp)
  have h3 := h.at0 (i := 3) (by simp)
  have hj := Bytes.join_ofUInt32 n
  simp only [Decoder.u32, h0, h1, h2, h3]
  rw [show 4 = (Bytes.ofUInt32 n).size from rfl, advance h]
  exact congrArg (fun n => Except.ok (n, (⟨b, _⟩ : Cursor))) hj

theorem u64 (n : UInt64) : Reads Decoder.u64 (Bytes.ofUInt64 n) n := by
  intro b offset h
  have h0 := h.at0 (i := 0) (by simp)
  have h1 := h.at0 (i := 1) (by simp)
  have h2 := h.at0 (i := 2) (by simp)
  have h3 := h.at0 (i := 3) (by simp)
  have h4 := h.at0 (i := 4) (by simp)
  have h5 := h.at0 (i := 5) (by simp)
  have h6 := h.at0 (i := 6) (by simp)
  have h7 := h.at0 (i := 7) (by simp)
  have hj := Bytes.join_ofUInt64 n
  simp only [Decoder.u64, h0, h1, h2, h3, h4, h5, h6, h7]
  rw [show 8 = (Bytes.ofUInt64 n).size from rfl, advance h]
  exact congrArg (fun n => Except.ok (n, (⟨b, _⟩ : Cursor))) hj

theorem i16 (n : Int16) : Reads Decoder.i16 (Bytes.ofUInt16 n.toUInt16) n :=
  (Reads.u16 n.toUInt16).map UInt16.toInt16

theorem i32 (n : Int32) : Reads Decoder.i32 (Bytes.ofInt32 n) n :=
  (Reads.u32 n.toUInt32).map UInt32.toInt32

theorem i64 (n : Int64) : Reads Decoder.i64 (Bytes.ofInt64 n) n :=
  (Reads.u64 n.toUInt64).map UInt64.toInt64

/-- A piece is passed over by its size. -/
theorem skip (piece : Bytes) : Reads (Decoder.skip piece.size) piece () := by
  intro b offset h
  change ((⟨b, offset⟩ : Cursor).advance piece.size >>= fun c' => .ok ((), c')) = _
  rw [advance h]
  rfl

/-- A piece is taken by its size. -/
theorem take (piece : Bytes) : Reads (Decoder.take piece.size) piece piece := by
  intro b offset h
  change ((⟨b, offset⟩ : Cursor).advance piece.size >>=
    fun c' => .ok (b.extract offset (offset + piece.size), c')) = _
  rw [advance h, h.extract]
  rfl

/-! ## Repetition -/

section Repetition

variable {α β : Type} {d : Decoder α} {write : β → Bytes} {value : β → α}

/-- Reading goes on behind what has been read already. -/
theorem manyFrom (xs : List β) (h : ∀ x ∈ xs, Reads d (write x) (value x)) (acc : Array α) :
    Reads (Decoder.manyFrom d xs.length acc) (Bytes.concat (xs.map write)) (acc ++ (xs.map value).toArray) := by
  induction xs generalizing acc with
  | nil => simpa [Decoder.manyFrom] using Reads.pure acc
  | cons x xs ih =>
    have hx := h x List.mem_cons_self
    have hxs := ih (fun y hy => h y (List.mem_cons_of_mem x hy)) (acc.push (value x))
    simp only [List.map_cons, List.length_cons, Bytes.concat_cons, Decoder.manyFrom]
    have := hx.bind (f := fun a => Decoder.manyFrom d xs.length (acc.push a)) hxs
    simpa using this

/-- Pieces are read one after the other. -/
theorem many (xs : List β) (h : ∀ x ∈ xs, Reads d (write x) (value x)) :
    Reads (Decoder.many xs.length d) (Bytes.concat (xs.map write)) (xs.map value).toArray := by
  simpa [Decoder.many] using manyFrom xs h #[]

/-- Items are read behind their number if that fits in two bytes. -/
theorem counted (xs : List β) (hl : xs.length < 65536) (h : ∀ x ∈ xs, Reads d (write x) (value x)) :
    Reads (Decoder.counted d) (Bytes.counted (xs.map write)) (xs.map value).toArray := by
  have hn : xs.length.toUInt16.toNat = xs.length := by
    rw [UInt16.toNat_ofNat']
    omega
  rw [Bytes.counted_eq, List.length_map]
  refine (Reads.u16 xs.length.toUInt16).bind ?_
  rw [hn]
  exact many xs h

end Repetition

end Reads

end ClassFile
