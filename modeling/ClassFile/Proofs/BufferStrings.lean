import ClassFile.Bytes.Buffer
import ClassFile.Constant.View
import ClassFile.Proofs.TextEncoding

/-!
# Strings in buffers

A string is put into a buffer on one of two ways. A plain one is copied: its bytes in UTF-8 are tested one by one, and its
length is their number. Any other is measured and encoded character by character. Where the test passes, the two ways come to
the same bytes, so there is one format and one limit; a string past the limit is refused before the buffer is touched.
-/

namespace ClassFile

/-- The string that stands behind its length, as an entry of a constant pool is read. -/
def Decoder.text : Decoder String := do
  let length ← Decoder.u16
  return ModifiedUtf8.decode (← Decoder.take length.toNat)

/-- The string behind its encoded length is read back if the length fits in two bytes. -/
theorem Reads.text {s : String} (h : ModifiedUtf8.length s ≤ 0xFFFF) :
    Reads Decoder.text (Bytes.ofUInt16 (ModifiedUtf8.length s).toUInt16 ++ ModifiedUtf8.encode s) s := by
  have hn : (ModifiedUtf8.length s).toUInt16.toNat = (ModifiedUtf8.encode s).size := by
    rw [ModifiedUtf8.toNat_toUInt16 h, ModifiedUtf8.size_encode]
  have hpayload := (Reads.take (ModifiedUtf8.encode s)).map ModifiedUtf8.decode
  rw [ModifiedUtf8.decode_encode, ← hn] at hpayload
  exact (Reads.u16 _).bind hpayload

namespace Buffer

/-! ## Two ways to one format -/

/-- The bytes of a string in UTF-8 are those of its characters. -/
theorem toList_utf8 (s : String) : s.toUTF8.data.toList = s.toList.flatMap String.utf8EncodeChar := by
  rw [String.toUTF8_eq_toByteArray, ← String.utf8Encode_toList]
  simp [List.utf8Encode]

/-- A character whose UTF-8 has only plain bytes is encoded as it is there: the null character has the byte zero, and any
character past ASCII starts with a byte from 0xC0 on. -/
theorem utf8EncodeChar_plain {c : Char} (h : ∀ x ∈ String.utf8EncodeChar c, 1 ≤ x ∧ x < 0x80) :
    String.utf8EncodeChar c = ModifiedUtf8.encodeChar c := by
  have hlead : ∀ n : Nat, 0xC0 ≤ n → n < 0x100 → ¬UInt8.ofNat n < 0x80 := by
    intro n hn hn'
    rw [UInt8.lt_iff_toNat_lt, UInt8.toNat_ofNat_of_lt' hn', Nat.not_lt]
    exact Nat.le_trans (by decide) hn
  have hc := (ModifiedUtf8.toNat_bounds c).2
  have hv : c.val.toNat = c.toNat := rfl
  unfold String.utf8EncodeChar at h ⊢
  unfold ModifiedUtf8.encodeChar
  simp only [hv] at h ⊢
  split at h
  · rename_i hone
    have hpos : c.toNat ≠ 0 := by
      intro h0
      rw [h0] at h
      exact absurd (h 0 (by simp)).1 (by decide)
    rw [if_pos hone, if_neg hpos, if_pos hone]
  · split at h
    · exact absurd (h _ List.mem_cons_self).2 (hlead _ (by omega) (by omega))
    · split at h
      · exact absurd (h _ List.mem_cons_self).2 (hlead _ (by omega) (by omega))
      · exact absurd (h _ List.mem_cons_self).2 (hlead _ (by omega) (by omega))

/-- Copying a plain string is encoding it. -/
theorem plainBytes_eq {s : String} (h : isPlain s = true) : plainBytes s = ModifiedUtf8.encode s := by
  have hall : ∀ x ∈ s.toUTF8.data.toList, 1 ≤ x ∧ x < 0x80 := by
    intro x hx
    simpa using Array.all_eq_true'.1 h x (Array.mem_toList_iff.1 hx)
  rw [toList_utf8] at hall
  apply Array.ext'
  rw [plainBytes, toList_utf8, ModifiedUtf8.toList_encode]
  rw [List.flatMap, List.flatMap, List.map_congr_left]
  exact fun c hc => utf8EncodeChar_plain fun x hx => hall x (List.mem_flatMap.2 ⟨c, hc, hx⟩)

/-- The size of a plain string is its encoded length. -/
theorem utf8ByteSize_plain {s : String} (h : isPlain s = true) : s.utf8ByteSize = ModifiedUtf8.length s := by
  rw [← ModifiedUtf8.size_encode, ← plainBytes_eq h]
  rfl

/-- The length that is written is the encoded length on both ways. -/
theorem writtenLength_eq (s : String) :
    (if isPlain s then s.utf8ByteSize else ModifiedUtf8.length s) = ModifiedUtf8.length s := by
  split
  · rename_i h
    exact utf8ByteSize_plain h
  · rfl

/-- The bytes that are written are the encoding on both ways. -/
theorem writtenBytes_eq (s : String) :
    (if isPlain s then plainBytes s else ModifiedUtf8.encode s) = ModifiedUtf8.encode s := by
  split
  · rename_i h
    exact plainBytes_eq h
  · rfl

/-! ## The room does not change the bytes -/

@[simp] theorem bytes_reserve (b : Buffer) (n : Nat) : (b.reserve n).bytes = b.bytes := by
  unfold reserve
  dsimp only
  split <;> rfl

@[simp] theorem bytes_extend (b : Buffer) (more : Bytes) : (b.extend more).bytes = b.bytes ++ more := rfl

@[simp] theorem bytes_putUInt16 (b : Buffer) (n : UInt16) : (b.putUInt16 n).bytes = b.bytes ++ Bytes.ofUInt16 n := by
  simp [putUInt16]

/-! ## Writing -/

/-- The buffer that a string of a length that fits leaves. -/
def written (b : Buffer) (s : String) : Buffer :=
  ((b.reserve (2 + ModifiedUtf8.length s)).putUInt16 (ModifiedUtf8.length s).toUInt16).extend (ModifiedUtf8.encode s)

/-- A string stands behind its length in two bytes. -/
theorem bytes_written (b : Buffer) (s : String) :
    (b.written s).bytes = b.bytes ++ Bytes.ofUInt16 (ModifiedUtf8.length s).toUInt16 ++ ModifiedUtf8.encode s := by
  simp [written]

/-- A string is written whole if its encoded length fits in two bytes, and otherwise not at all. -/
theorem run_writeString (b : Buffer) (s : String) :
    (writeString s).run b = if ModifiedUtf8.length s ≤ 0xFFFF then .ok () (b.written s)
      else .error (.stringTooLong (ModifiedUtf8.length s)) b := by
  unfold writeString
  simp only [writtenLength_eq, writtenBytes_eq]
  by_cases h : ModifiedUtf8.length s ≤ 0xFFFF
  · rw [if_pos h, if_neg (Nat.not_lt.2 h)]
    rfl
  · rw [if_neg h, if_pos (Nat.not_le.1 h)]
    rfl

/-- A string goes into a buffer exactly if its encoded length fits in two bytes. Then it stands at the end behind that
length, where it is read back up to the end of the buffer; else the length is reported, and the buffer is left as it was. -/
theorem writeString_exact (b : Buffer) (s : String) :
    ((∃ b', (writeString s).run b = .ok () b') ↔ ModifiedUtf8.length s ≤ 0xFFFF) ∧
    (∀ b', (writeString s).run b = .ok () b' →
      b'.bytes = b.bytes ++ Bytes.ofUInt16 (ModifiedUtf8.length s).toUInt16 ++ ModifiedUtf8.encode s ∧
      Decoder.text.run ⟨b'.bytes, b.size⟩ = .ok (s, ⟨b'.bytes, b'.size⟩)) ∧
    (∀ e b', (writeString s).run b = .error e b' → e = .stringTooLong (ModifiedUtf8.length s) ∧ b' = b) := by
  rw [run_writeString]
  by_cases h : ModifiedUtf8.length s ≤ 0xFFFF
  · rw [if_pos h]
    refine ⟨⟨fun _ => h, fun _ => ⟨_, rfl⟩⟩, ?_, fun e b' he => nomatch he⟩
    intro b' hb'
    obtain rfl : b.written s = b' := by injection hb'
    have hbytes := bytes_written b s
    rw [Array.append_assoc] at hbytes
    have hread := Reads.text h (b.written s).bytes b.size ⟨b.bytes, #[], by rw [hbytes, Array.append_empty], rfl⟩
    have hsize : (b.written s).size =
        b.size + (Bytes.ofUInt16 (ModifiedUtf8.length s).toUInt16 ++ ModifiedUtf8.encode s).size := by
      rw [size, hbytes, Array.size_append]
      rfl
    rw [← hsize] at hread
    exact ⟨bytes_written b s, hread⟩
  · rw [if_neg h]
    refine ⟨⟨?_, fun hl => absurd hl h⟩, fun b' hb' => (nomatch hb'), ?_⟩
    · rintro ⟨b', hb'⟩
      cases hb'
    · intro e b' he
      injection he with he hb'
      exact ⟨he.symm, hb'.symm⟩

example : (empty.putString "a\x00").map (·.bytes) = .ok #[0, 3, 0x61, 0xC0, 0x80] := by cbv

end Buffer

end ClassFile
