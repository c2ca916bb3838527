import ClassFile.Proofs.PoolAccounts
import ClassFile.Proofs.PoolReading

/-!
# Finding the entries of a pool that was written

A pool is written if all its indices fit and no string is too long (`encode_eq`). A reader that goes over the tags then finds
every entry at its index (`parse_encode`).
-/

namespace ClassFile

/-- Whether the string of an entry has room behind a length of two bytes. -/
def Entry.TextFits : Entry → Prop
  | utf8 text => ModifiedUtf8.length text ≤ 0xFFFF
  | _ => True

namespace ConstantPool

/-- An entry that can be written stands behind what was written before. -/
theorem encodeEntry_eq {out bytes : Bytes} {e : Entry} (h : encodeEntry out e = .ok bytes) :
    bytes = out ++ e.encode ∧ e.TextFits := by
  unfold encodeEntry at h
  split at h
  · rename_i text
    dsimp only at h
    split at h
    · cases h
    · rename_i hlength
      exact ⟨(Except.ok.inj h).symm, Nat.le_of_not_lt hlength⟩
  · rename_i hnot
    refine ⟨(Except.ok.inj h).symm, ?_⟩
    cases e with
    | utf8 text => exact absurd rfl (hnot text)
    | _ => trivial

/-- Entries that can be written stand one behind the other. -/
theorem foldlM_encodeEntry {es : List Entry} {out bytes : Bytes} (h : es.foldlM encodeEntry out = .ok bytes) :
    bytes = out ++ Bytes.concat (es.map Entry.encode) ∧ ∀ e ∈ es, e.TextFits := by
  induction es generalizing out with
  | nil =>
    obtain rfl := Except.ok.inj h
    exact ⟨by simp, fun e he => absurd he List.not_mem_nil⟩
  | cons e rest ih =>
    rw [List.foldlM_cons] at h
    cases hfirst : encodeEntry out e with
    | error x =>
      rw [hfirst] at h
      cases h
    | ok bytes' =>
      rw [hfirst] at h
      obtain ⟨rfl, hfits⟩ := encodeEntry_eq hfirst
      obtain ⟨rfl, hrest⟩ := ih h
      exact ⟨by simp, List.forall_mem_cons.2 ⟨hfits, hrest⟩⟩

/-- A pool that can be written: what it is written as, and why it fits. -/
theorem encode_eq {pool : ConstantPool} {bytes : Bytes} (h : pool.encode = .ok bytes) :
    pool.Fits ∧ bytes = Bytes.ofUInt16 pool.nextIndex.toUInt16 ++ Bytes.concat (pool.entries.toList.map Entry.encode) ∧
      ∀ e ∈ pool.entries.toList, e.TextFits := by
  unfold ConstantPool.encode checkSize at h
  split at h
  · cases h
  · rename_i hfits
    change pool.entries.foldlM encodeEntry _ = _ at h
    rw [← Array.foldlM_toList] at h
    exact ⟨Nat.le_of_not_lt hfits, foldlM_encodeEntry h⟩

/-- An entry can be written if its string fits. -/
theorem encodeEntry_of_textFits (out : Bytes) {e : Entry} (h : e.TextFits) : encodeEntry out e = .ok (out ++ e.encode) := by
  unfold encodeEntry
  cases e with
  | utf8 text => exact if_neg (Nat.not_lt_of_le h)
  | _ => rfl

/-- Entries can be written if all their strings fit. -/
theorem exists_foldlM_encodeEntry {es : List Entry} (h : ∀ e ∈ es, e.TextFits) (out : Bytes) :
    ∃ bytes, es.foldlM encodeEntry out = .ok bytes := by
  induction es generalizing out with
  | nil => exact ⟨out, rfl⟩
  | cons e rest ih =>
    obtain ⟨hfirst, hrest⟩ := List.forall_mem_cons.1 h
    rw [List.foldlM_cons, encodeEntry_of_textFits out hfirst]
    exact ih hrest _

/-- A pool that fits can be written. -/
theorem exists_encode {pool : ConstantPool} (hf : pool.Fits) (ht : ∀ e ∈ pool.entries.toList, e.TextFits) :
    ∃ bytes, pool.encode = .ok bytes := by
  unfold ConstantPool.encode checkSize
  rw [if_neg (Nat.not_lt_of_le hf), ← Array.foldlM_toList]
  exact exists_foldlM_encodeEntry ht _

end ConstantPool

namespace PoolView

variable {b : Bytes}

/-- What stands behind the offset of an entry. -/
def entryWidth (offset : Nat) : Decoder (Nat × Nat) := do
  let tag ← Decoder.u8
  if tag == Tag.utf8 then
    let length ← Decoder.u16
    Decoder.skip length.toNat
    return (offset, 1)
  else
    match payloadSize tag with
    | some (size, width) =>
      Decoder.skip size
      return (offset, width)
    | none => throw (.unknownConstantTag tag offset)

/-- The tag of an entry other than a string says how much follows and how many indices the entry takes. -/
theorem payloadSize_tag {e : Entry} (h : ∀ text, e ≠ .utf8 text) : payloadSize e.tag = some (e.payload.size, e.width) := by
  cases e with
  | utf8 text => exact absurd rfl (h text)
  | methodRef i j interface => cases interface <;> rfl
  | _ => rfl

/-- Only strings have their tag. -/
theorem tag_ne_utf8 {e : Entry} (h : ∀ text, e ≠ .utf8 text) : (e.tag == Tag.utf8) = false := by
  cases e with
  | utf8 text => exact absurd rfl (h text)
  | methodRef i j interface => cases interface <;> rfl
  | _ => rfl

/-- How many indices an entry takes is read from its bytes. -/
theorem reads_entryWidth (offset : Nat) {e : Entry} (h : e.TextFits) :
    Reads (entryWidth offset) e.encode (offset, e.width) := by
  by_cases hutf8 : ∃ text, e = .utf8 text
  · obtain ⟨text, rfl⟩ := hutf8
    have hlength : (ModifiedUtf8.encode text).size.toUInt16.toNat = (ModifiedUtf8.encode text).size := by
      rw [UInt16.toNat_ofNat', ModifiedUtf8.size_encode]
      have : ModifiedUtf8.length text ≤ 0xFFFF := h
      omega
    refine (Reads.u8 Tag.utf8).bind ((Reads.u16 _).bind ?_)
    rw [hlength]
    exact (Reads.skip _).bindEmpty (Reads.pure _)
  · have hplain := not_exists.1 hutf8
    refine (Reads.u8 e.tag).bind ?_
    rw [tag_ne_utf8 hplain, payloadSize_tag hplain]
    exact (Reads.skip e.payload).bindEmpty (Reads.pure _)

/-- Reading on from an index, every entry that stands there one after the other is found. -/
theorem scanEntries_entries (count index fuel : Nat) {es : List Entry} (hfits : ∀ e ∈ es, e.TextFits) {at0 : Nat}
    (hat0 : at0 ≠ 0)
    (hat : b.HasAt at0 (Bytes.concat (es.map Entry.encode))) (hcount : index + ConstantPool.widths es = count)
    (hfuel : es.length ≤ fuel) (offsets : Array Nat) (hsize : offsets.size = count) :
    ∃ found : Array Nat, scanEntries count fuel index offsets ⟨b, at0⟩ =
        .ok (found, ⟨b, at0 + (Bytes.concat (es.map Entry.encode)).size⟩) ∧
      found.size = count ∧ (∀ i, ConstantPool.entryFrom index es i = none → found[i]? = offsets[i]?) ∧
      ∀ i e, ConstantPool.entryFrom index es i = some e → ∃ offset, offset ≠ 0 ∧ found[i]? = some offset ∧
        b.HasAt offset e.encode := by
  induction es generalizing index at0 fuel offsets with
  | nil =>
    have hend : scanEntries count fuel index offsets ⟨b, at0⟩ = .ok (offsets, ⟨b, at0⟩) := by
      cases fuel with
      | zero => rfl
      | succ fuel =>
        unfold scanEntries
        rw [if_neg (by simp at hcount; omega)]
        rfl
    exact ⟨offsets, hend, hsize, fun i _ => rfl, fun i e he => nomatch he⟩
  | cons e rest ih =>
    have hpos := ConstantPool.width_pos e
    rw [List.map_cons, Bytes.concat_cons] at hat
    obtain ⟨hentry, hrest⟩ := Bytes.hasAt_append.1 hat
    rw [ConstantPool.widths_cons] at hcount
    cases fuel with
    | zero => simp at hfuel
    | succ fuel =>
      obtain ⟨found, hscan, hfound, hbefore, hentries⟩ :=
        ih (index + e.width) fuel (fun x hx => hfits x (List.mem_cons_of_mem _ hx))
        (by omega) hrest (by omega) (by simpa using hfuel)
        (offsets.setIfInBounds index at0) (by simpa using hsize)
      have hread : scanEntry ⟨b, at0⟩ = .ok ((at0, e.width), ⟨b, at0 + e.encode.size⟩) :=
        reads_entryWidth at0 (hfits e List.mem_cons_self) b at0 hentry
      refine ⟨found, ?_, hfound, fun i hi => ?_, fun i x hx => ?_⟩
      · unfold scanEntries
        rw [if_pos (by omega)]
        change (scanEntry ⟨b, at0⟩ >>= fun r =>
          scanEntries count fuel (index + r.1.2) (offsets.setIfInBounds index r.1.1) r.2) = _
        rw [hread]
        refine hscan.trans ?_
        rw [List.map_cons, Bytes.concat_cons, Array.size_append, Nat.add_assoc]
      · rw [ConstantPool.entryFrom] at hi
        split at hi
        · cases hi
        · rename_i hne
          rw [hbefore i hi, Array.getElem?_setIfInBounds_ne (Ne.symm hne)]
      · rw [ConstantPool.entryFrom] at hx
        split at hx
        · rename_i hi
          obtain rfl := Option.some.inj hx
          subst hi
          have hbehind : ConstantPool.entryFrom (i + e.width) rest i = none :=
            Option.eq_none_iff_forall_ne_some.2 fun f hf => by
              have := (ConstantPool.entryFrom_bounds hf).1
              omega
          refine ⟨at0, hat0, ?_, hentry⟩
          rw [hbefore i hbehind, Array.getElem?_setIfInBounds_self_of_lt (by omega)]
        · exact hentries i x hx

/-- A reader finds every entry of a pool that has been written. -/
theorem parse_encode {pool : ConstantPool} (hp : pool.Built) {bytes : Bytes} (h : pool.encode = .ok bytes) {start : Nat}
    (hat : b.HasAt start bytes) :
    ∃ offsets : Array Nat, PoolView.parse b start = .ok { bytes := b, offsets, stop := start + bytes.size } ∧
      offsets.size = pool.nextIndex ∧ (∀ i < pool.nextIndex, pool.entryAt i = none → offsets[i]? = some 0) ∧
      ∀ i e, pool.entryAt i = some e → ∃ offset, offset ≠ 0 ∧ offsets[i]? = some offset ∧ b.HasAt offset e.encode := by
  obtain ⟨hfits, rfl, htexts⟩ := ConstantPool.encode_eq h
  have hnext := hp.nextIndex_eq
  have hcount : pool.nextIndex.toUInt16.toNat = pool.nextIndex := by
    unfold ConstantPool.Fits at hfits
    rw [UInt16.toNat_ofNat']
    omega
  obtain ⟨hhead, hentries⟩ := Bytes.hasAt_append.1 hat
  have hlength := ConstantPool.length_le_widths pool.entries.toList
  obtain ⟨found, hscan, hsize, hnone, hfound⟩ := scanEntries_entries pool.nextIndex 1 pool.nextIndex htexts
    (by rw [Bytes.size_ofUInt16]; omega) hentries hnext.symm
    (by omega) (Array.replicate (max pool.nextIndex 1) 0)
    (by rw [Array.size_replicate]; omega)
  refine ⟨found, ?_, hsize, fun i hi hi' => by rw [hnone i hi', Array.getElem?_replicate, if_pos (by omega)], hfound⟩
  have hscanned : scan ⟨b, start⟩ = .ok ((found, start + 2 + (Bytes.concat (pool.entries.toList.map Entry.encode)).size),
      ⟨b, start + 2 + (Bytes.concat (pool.entries.toList.map Entry.encode)).size⟩) := by
    change (Decoder.u16 ⟨b, start⟩ >>= fun r =>
      scanEntries r.1.toNat r.1.toNat 1 (Array.replicate (max r.1.toNat 1) 0) r.2 >>=
      fun s => Except.ok ((s.1, s.2.position), s.2)) = _
    rw [Reads.u16 _ b start hhead]
    change (scanEntries _ _ 1 (Array.replicate (max pool.nextIndex.toUInt16.toNat 1) 0) _ >>= fun s =>
      Except.ok ((s.1, s.2.position), s.2)) = _
    rw [hcount]
    change (scanEntries _ _ 1 _ ⟨b, start + (Bytes.ofUInt16 pool.nextIndex.toUInt16).size⟩ >>= fun s =>
      Except.ok ((s.1, s.2.position), s.2)) = _
    rw [hscan]
    rfl
  unfold PoolView.parse Decoder.runAt
  change (Except.map _ (scan ⟨b, start⟩) >>= _) = _
  rw [hscanned, Array.size_append, Bytes.size_ofUInt16, ← Nat.add_assoc]
  rfl

end PoolView

end ClassFile
