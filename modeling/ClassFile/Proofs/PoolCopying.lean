import ClassFile.Proofs.ClassPools

/-!
# Copying a pool

Copying goes over the indices as the scan of the pool did, and takes an entry wherever the scan found an offset. So the copy
holds what the view reads, at the same indices and numbers (`PoolView.copies_of_toPool`). Since look-ups find the first of
equal entries, whatever is interned into the copy has the first index at which the view reads it (`PoolView.Lists.first`).
-/

namespace ClassFile

open ConstantPool

open Decoder (Goes)

namespace PoolView

/-- A pool holds what a view reads, at the same indices and numbers. -/
structure Copies (view : PoolView) (copy : ConstantPool) : Prop where
  built : copy.Built
  lists : view.Lists copy.entries.toList
  size : copy.bootstraps.size = view.bootstraps.size
  bootstrap : ∀ {k : Nat} {b : BootstrapMethod}, copy.bootstraps[k]? = some b → view.rawBootstrap k = .ok b

section Scanning

variable {view : PoolView} {c c' : Cursor} {count : Nat}

/-- What is made of a value comes after the value. -/
theorem Goes.of_map {α β : Type} {d : Decoder α} {f : α → β} {b : β} (h : Goes (d >>= fun a => pure (f a)) c b c') :
    ∃ a, b = f a := by
  obtain ⟨a, _, -, h⟩ := h.of_bind
  exact ⟨a, (Goes.of_pure h).1.symm⟩

/-- A reader that chooses has gone one of its two ways. -/
theorem Goes.of_ite {α : Type} {p : Prop} [Decidable p] {d d' : Decoder α} {a : α} (h : Goes (if p then d else d') c a c') :
    (p ∧ d.Goes c a c') ∨ (¬p ∧ d'.Goes c a c') := by
  split at h
  · exact .inl ⟨‹_›, h⟩
  · exact .inr ⟨‹_›, h⟩

/-- One of the tags that a reader tries. -/
theorem of_tagged {α : Type} {tag tag' : UInt8} {d : Decoder α} {f : α → Entry} {d' : Decoder Entry} {e : Entry}
    (h : Goes (if tag == tag' then d >>= fun a => pure (f a) else d') c e c') (hf : ∀ a, (f a).tag = tag') :
    e.tag = tag ∨ d'.Goes c e c' := by
  rcases Goes.of_ite h with ⟨htag, h⟩ | ⟨-, h⟩
  · obtain ⟨a, rfl⟩ := Goes.of_map h
    exact .inl ((hf a).trans (eq_of_beq htag).symm)
  · exact .inr h

/-- The entry that is read has the tag that was read. -/
theorem tag_of_rawPayload {i : PoolIndex} {tag : UInt8} {e : Entry} (h : (rawPayload i tag).Goes c e c') : e.tag = tag := by
  unfold rawPayload at h
  rcases Goes.of_ite h with ⟨htag, h⟩ | ⟨-, h⟩
  · obtain ⟨length, _, -, h⟩ := h.of_bind
    obtain ⟨_, rfl⟩ := Goes.of_map h
    exact (eq_of_beq htag).symm
  refine (of_tagged h fun _ => rfl).elim id fun h => ?_
  refine (of_tagged h fun _ => rfl).elim id fun h => ?_
  refine (of_tagged h fun _ => rfl).elim id fun h => ?_
  refine (of_tagged h fun _ => rfl).elim id fun h => ?_
  refine (of_tagged h fun _ => rfl).elim id fun h => ?_
  refine (of_tagged h fun _ => rfl).elim id fun h => ?_
  refine (of_tagged h fun _ => rfl).elim id fun h => ?_
  refine (of_tagged h fun _ => rfl).elim id fun h => ?_
  refine (of_tagged h fun _ => rfl).elim id fun h => ?_
  refine (of_tagged h fun _ => rfl).elim id fun h => ?_
  refine (of_tagged h fun _ => rfl).elim id fun h => ?_
  rcases Goes.of_ite h with ⟨htag, h⟩ | ⟨-, h⟩
  · obtain ⟨_, rfl⟩ := Goes.of_map h
    rcases Bool.or_eq_true_iff.1 htag with htag | htag <;> (obtain rfl := eq_of_beq htag; rfl)
  refine (of_tagged h fun _ => rfl).elim id fun h => ?_
  refine (of_tagged h fun _ => rfl).elim id fun h => ?_
  refine (of_tagged h fun _ => rfl).elim id fun h => ?_
  obtain ⟨_, _, -, h⟩ := h.of_bind
  cases h

/-- Scanning an entry stays within the bytes. -/
theorem stays_scanEntry : scanEntry.Stays := by
  refine Decoder.stays_position.bind fun offset => Decoder.stays_u8.bind fun tag => ?_
  split
  · exact Decoder.stays_u16.bind fun _ => (Decoder.stays_skip _).bind fun _ => Decoder.stays_pure _
  · split
    · exact (Decoder.stays_skip _).bind fun _ => Decoder.stays_pure _
    · exact fun _ _ _ h => nomatch h

/-- Every entry takes an index at least. -/
theorem payloadSize_pos {tag : UInt8} {size width : Nat} (h : payloadSize tag = some (size, width)) : 0 < width := by
  unfold payloadSize at h
  split at h
  · obtain ⟨-, rfl⟩ := Prod.mk.inj (Option.some.inj h)
    exact Nat.one_pos
  split at h
  · obtain ⟨-, rfl⟩ := Prod.mk.inj (Option.some.inj h)
    exact Nat.two_pos
  split at h
  · obtain ⟨-, rfl⟩ := Prod.mk.inj (Option.some.inj h)
    exact Nat.one_pos
  split at h
  · obtain ⟨-, rfl⟩ := Prod.mk.inj (Option.some.inj h)
    exact Nat.one_pos
  · cases h

/-- A scan passes over an entry by the tag, and the entry that is read there takes as many indices as the scan counts. -/
theorem exists_of_scanEntry {offset width : Nat} (h : scanEntry.Goes c (offset, width) c') : offset = c.position ∧
    0 < width ∧ ∀ {i : PoolIndex} {e : Entry} {c'' : Cursor},
    (Decoder.u8 >>= rawPayload i).Goes c e c'' → width = e.width := by
  unfold scanEntry at h
  obtain ⟨offset', c₀, hposition, h⟩ := h.of_bind
  obtain ⟨rfl, rfl⟩ := (Goes.position c).unique hposition
  obtain ⟨tag, c₁, htag, h⟩ := h.of_bind
  have hsame : ∀ {i : PoolIndex} {e : Entry} {c'' : Cursor}, (Decoder.u8 >>= rawPayload i).Goes c e c'' → tag = e.tag := by
    intro i e c'' he
    obtain ⟨tag', c₂, htag', he⟩ := he.of_bind
    obtain ⟨rfl, rfl⟩ := htag.unique htag'
    exact (tag_of_rawPayload he).symm
  rcases Goes.of_ite h with ⟨hutf8, h⟩ | ⟨hutf8, h⟩
  · obtain ⟨_, _, -, h⟩ := h.of_bind
    obtain ⟨_, _, -, h⟩ := h.of_bind
    obtain ⟨rfl, rfl⟩ := Prod.mk.inj (Goes.of_pure h).1
    refine ⟨rfl, Nat.one_pos, fun {i e c''} he => ?_⟩
    by_cases htext : ∃ text, e = .utf8 text
    · obtain ⟨text, rfl⟩ := htext
      rfl
    · rw [hsame he, tag_ne_utf8 (not_exists.1 htext)] at hutf8
      cases hutf8
  · cases hpayload : payloadSize tag with
    | none =>
      rw [hpayload] at h
      cases h
    | some sizes =>
      obtain ⟨size, width'⟩ := sizes
      rw [hpayload] at h
      obtain ⟨_, _, -, h⟩ := h.of_bind
      obtain ⟨rfl, rfl⟩ := Prod.mk.inj (Goes.of_pure h).1
      refine ⟨rfl, payloadSize_pos hpayload, fun {i e c''} he => ?_⟩
      rw [hsame he] at hpayload hutf8
      rw [payloadSize_tag (by rintro text rfl; exact hutf8 rfl)] at hpayload
      exact (Prod.mk.inj (Option.some.inj hpayload)).2.symm

/-- A scan does not touch the offsets of earlier entries. -/
theorem scanEntries_keeps {fuel index : Nat} {offsets found : Array Nat}
    (h : (scanEntries count fuel index offsets).Goes c found c') :
    found.size = offsets.size ∧ ∀ i < index, found[i]? = offsets[i]? := by
  induction fuel generalizing index offsets c with
  | zero =>
    obtain ⟨rfl, -⟩ := Goes.of_pure h
    exact ⟨rfl, fun _ _ => rfl⟩
  | succ fuel ih =>
    unfold scanEntries at h
    rcases Goes.of_ite h with ⟨-, h⟩ | ⟨-, h⟩
    · obtain ⟨⟨offset, width⟩, c₁, hentry, h⟩ := h.of_bind
      obtain ⟨hsize, hkeeps⟩ := ih h
      refine ⟨hsize.trans (Array.size_setIfInBounds ..), fun i hi => ?_⟩
      rw [hkeeps i (Nat.lt_add_right _ hi), Array.getElem?_setIfInBounds_ne (by omega)]
    · obtain ⟨rfl, -⟩ := Goes.of_pure h
      exact ⟨rfl, fun _ _ => rfl⟩

/-- Entries are those that a view finds from an index on. -/
structure ListsFrom (view : PoolView) (index : Nat) (es : List Entry) : Prop where
  width : index + widths es = view.length
  entry : ∀ {i : Nat} {e : Entry}, entryFrom index es i = some e → view.rawEntry i.toUInt16 = .ok e
  nothing : ∀ {i : Nat}, index ≤ i → i < view.length → entryFrom index es i = none → view.offsets[i]? = some 0

/-- At the end, copying adds nothing. -/
theorem listsFrom_end {fuel index : Nat} {pool pool' : ConstantPool} (hindex : index = view.length)
    (hcopy : view.copyEntries fuel index pool = .ok pool') :
    ∃ es : List Entry, pool' = es.foldl ConstantPool.append pool ∧ view.ListsFrom index es := by
  have hpool : pool = pool' := by
    cases fuel with
    | zero => exact Except.ok.inj hcopy
    | succ fuel =>
      rw [copyEntries, if_neg (by omega)] at hcopy
      exact Except.ok.inj hcopy
  exact ⟨[], hpool.symm, hindex, fun h => (nomatch h), fun hi hi' _ => by omega⟩

/-- Entries that a view finds from an index on are one and those behind it. -/
theorem ListsFrom.cons {index : Nat} {e : Entry} {es : List Entry} (h : view.ListsFrom (index + e.width) es)
    (he : view.rawEntry index.toUInt16 = .ok e)
    (hbetween : ∀ i, index < i → i < index + e.width → i < view.length → view.offsets[i]? = some 0) :
    view.ListsFrom index (e :: es) := by
  refine ⟨by rw [widths_cons, ← Nat.add_assoc]; exact h.width, fun {i x} hx => ?_, fun {i} hi hi' hnone => ?_⟩
  · rw [entryFrom] at hx
    split at hx
    · rename_i hi
      obtain rfl := Option.some.inj hx
      rwa [hi]
    · exact h.entry hx
  · rw [entryFrom] at hnone
    split at hnone
    · cases hnone
    · by_cases hbehind : index + e.width ≤ i
      · exact h.nothing hbehind hi' hnone
      · exact hbetween i (by omega) (by omega) hi'

/-- Copying goes over the indices as the scan did, and finds an entry wherever the scan found an offset. -/
theorem exists_of_copyEntries (hwide : ∀ {i : PoolIndex} {e : Entry}, view.rawEntry i = .ok e → e.width = 2 →
      i.toNat + 1 < view.length) (hlength : view.length < 65536) {fuel fuel' index : Nat} {offsets : Array Nat}
    (hscan : (scanEntries count fuel index offsets).Goes c view.offsets c') (hbytes : view.bytes = c.bytes)
    (hpos : c.position ≠ 0) (hcount : max count 1 = view.length) (hindex : 1 ≤ index) (hle : index ≤ view.length)
    (hfuel : view.length ≤ index + fuel)
    (hfuel' : view.length ≤ index + fuel') (hzero : ∀ i, index ≤ i → i < view.length → offsets[i]? = some 0)
    {pool pool' : ConstantPool} (hcopy : view.copyEntries fuel' index pool = .ok pool') :
    ∃ es : List Entry, pool' = es.foldl ConstantPool.append pool ∧ view.ListsFrom index es := by
  induction fuel generalizing index offsets c fuel' pool with
  | zero => exact listsFrom_end (by omega) hcopy
  | succ fuel ih =>
    unfold scanEntries at hscan
    rcases Goes.of_ite hscan with ⟨hlt, hscan⟩ | ⟨hge, -⟩
    · obtain ⟨⟨offset, width⟩, c₁, hentry, hscan⟩ := hscan.of_bind
      obtain ⟨rfl, hpositive, hwidth⟩ := exists_of_scanEntry hentry
      obtain ⟨hbytes₁, hpos₁⟩ := stays_scanEntry _ _ _ hentry
      obtain ⟨hsize, hkeeps⟩ := scanEntries_keeps hscan
      rw [Array.size_setIfInBounds] at hsize
      dsimp only at hscan hkeeps
      have hfound : view.offsets[index]? = some c.position := by
        rw [hkeeps index (by omega), Array.getElem?_setIfInBounds_self_of_lt]
        unfold PoolView.length at hcount
        omega
      obtain ⟨fuel', rfl⟩ : ∃ n, fuel' = n + 1 := ⟨fuel' - 1, by omega⟩
      have hindex' : index.toUInt16.toNat = index := by
        rw [UInt16.toNat_ofNat']
        omega
      rw [copyEntries, if_pos (by omega)] at hcopy
      obtain ⟨e, he, hcopy⟩ := exists_of_bind_eq_ok hcopy
      obtain rfl : width = e.width := by
        have hoffset : view.offset index.toUInt16 = .ok c.position := by
          unfold PoolView.offset
          rw [hindex', hfound]
          cases hp : c.position with
          | zero => exact absurd hp hpos
          | succ n => rfl
        have hread := he
        unfold PoolView.rawEntry PoolView.entry at hread
        rw [hoffset, hbytes] at hread
        obtain ⟨c'', hread⟩ := Goes.of_runAt hread
        exact hwidth hread
      have hfits : index + e.width ≤ view.length := by
        have := hwide he
        rw [hindex'] at this
        have hone : e.width = 1 ∨ e.width = 2 := by cases e <;> simp [Entry.width]
        omega
      have hold : ∀ i, index < i → i < view.length → (offsets.setIfInBounds index c.position)[i]? = some 0 :=
        fun i hi hi' => by
        rw [Array.getElem?_setIfInBounds_ne (by omega)]
        exact hzero i (by omega) hi'
      obtain ⟨es, hpool, hes⟩ := ih hscan (hbytes.trans hbytes₁.symm) (by omega) (by omega) hfits (by omega) (by omega)
        (fun i hi hi' => hold i (by omega) hi') hcopy
      exact ⟨e :: es, hpool, hes.cons he fun i hi hi' hi'' => (hkeeps i hi').trans (hold i hi hi'')⟩
    · exact listsFrom_end (by omega) hcopy

/-- A pool that was parsed was scanned from its count on. -/
theorem exists_of_parse {bytes : Bytes} {start : Nat} (hparse : PoolView.parse bytes start = .ok view) : view.bytes = bytes ∧
    ∃ count c', max count 1 = view.length ∧ count < 65536 ∧
      (scanEntries count count 1 (Array.replicate (max count 1) 0)).Goes ⟨bytes, start + 2⟩ view.offsets c' := by
  unfold PoolView.parse at hparse
  obtain ⟨⟨offsets, stop⟩, hscan, hview⟩ := exists_of_bind_eq_ok hparse
  obtain rfl := Except.ok.inj hview
  obtain ⟨c', hscan⟩ := Goes.of_runAt hscan
  unfold scan at hscan
  obtain ⟨count, c₁, hcount, hscan⟩ := hscan.of_bind
  obtain ⟨found, c₂, hfound, hscan⟩ := hscan.of_bind
  obtain ⟨stop', c₃, -, hscan⟩ := hscan.of_bind
  obtain ⟨rfl, -⟩ := Prod.mk.inj (Goes.of_pure hscan).1
  obtain rfl : c₁ = ⟨bytes, start + 2⟩ := by
    obtain ⟨c₄, hadvance, hrest⟩ := exists_of_bind_eq_ok (show Decoder.u16 ⟨bytes, start⟩ = .ok (count, c₁) from hcount)
    unfold Cursor.advance at hadvance
    split at hadvance
    · obtain rfl := Except.ok.inj hadvance
      exact (Prod.mk.inj (Except.ok.inj hrest)).2.symm
    · cases hadvance
  refine ⟨rfl, count.toNat, c₂, ?_, count.toNat_lt, hfound⟩
  exact ((scanEntries_keeps hfound).1.trans (Array.size_replicate ..)).symm

/-- The bootstrap methods that are copied are those that the view reads, in order. -/
theorem exists_of_copyBootstraps {n number : Nat} {pool pool' : ConstantPool}
    (hcopy : view.copyBootstraps n number pool = .ok pool') : ∃ bs : List BootstrapMethod,
      pool' = bs.foldl ConstantPool.appendBootstrap pool ∧ bs.length = n ∧
        ∀ {k : Nat} {b : BootstrapMethod}, bs[k]? = some b → view.rawBootstrap (number + k) = .ok b := by
  induction n generalizing number pool with
  | zero => exact ⟨[], (Except.ok.inj hcopy).symm, rfl, fun h => (nomatch h)⟩
  | succ n ih =>
    obtain ⟨b, hb, hcopy⟩ := exists_of_bind_eq_ok hcopy
    obtain ⟨bs, hpool, hlength, hbs⟩ := ih hcopy
    refine ⟨b :: bs, hpool, congrArg (· + 1) hlength, fun {k b'} hk => ?_⟩
    cases k with
    | zero => exact Option.some.inj hk ▸ hb
    | succ k =>
      rw [← Nat.add_assoc, Nat.add_right_comm]
      exact hbs hk

end Scanning

section Copies

variable {view : PoolView} {pool copy : ConstantPool}

/-- Entries that are appended stand behind the others. -/
theorem built_foldl_append (es : List Entry) (h : pool.Built) : (es.foldl ConstantPool.append pool).Built ∧
    (es.foldl ConstantPool.append pool).entries.toList = pool.entries.toList ++ es ∧
    (es.foldl ConstantPool.append pool).bootstraps = pool.bootstraps := by
  induction es generalizing pool with
  | nil => exact ⟨h, by simp, rfl⟩
  | cons e es ih =>
    obtain ⟨hbuilt, hentries, hbootstraps⟩ := ih (h.append e)
    exact ⟨hbuilt, by simpa using hentries, hbootstraps⟩

/-- Bootstrap methods that are appended stand behind the others. -/
theorem built_foldl_appendBootstrap (bs : List BootstrapMethod) (h : pool.Built) :
    (bs.foldl ConstantPool.appendBootstrap pool).Built ∧
    (bs.foldl ConstantPool.appendBootstrap pool).entries = pool.entries ∧
    (bs.foldl ConstantPool.appendBootstrap pool).bootstraps.toList = pool.bootstraps.toList ++ bs := by
  induction bs generalizing pool with
  | nil => exact ⟨h, rfl, by simp⟩
  | cons b bs ih =>
    obtain ⟨hbuilt, hentries, hbootstraps⟩ := ih (h.appendBootstrap b)
    exact ⟨hbuilt, hentries, by simpa using hbootstraps⟩

/-- Entries that a view finds from the first index on are all that it finds. -/
theorem ListsFrom.lists {es : List Entry} (h : view.ListsFrom 1 es) (hzero : view.offsets[0]? = some 0) : view.Lists es := by
  refine ⟨h.width.symm, fun {i e} hi => ?_, fun {i} hi => offset_eq_error ?_⟩
  · have := h.entry hi
    rwa [Nat.toUInt16_eq, UInt16.ofNat_toNat] at this
  · by_cases hone : 1 ≤ i.toNat
    · by_cases hlt : i.toNat < view.length
      · exact .inl (h.nothing hone hlt hi)
      · exact .inr (Array.getElem?_eq_none (Nat.le_of_not_lt hlt))
    · rw [Nat.lt_one_iff.1 (Nat.lt_of_not_le hone)]
      exact .inl hzero

/-- An entry is read behind its tag. -/
theorem tag_of_rawEntry {i : PoolIndex} {e : Entry} (h : view.rawEntry i = .ok e) : view.tag i = .ok e.tag := by
  obtain ⟨offset, hoffset, hread⟩ := exists_of_bind_eq_ok h
  obtain ⟨c', hread⟩ := Goes.of_runAt hread
  obtain ⟨tag, c₁, htag, hread⟩ := hread.of_bind
  rw [tag_of_rawPayload hread]
  unfold PoolView.tag PoolView.entry
  rw [hoffset]
  exact (htag.bind (Goes.pure tag c₁)).runAt

/-- A pool that is copied from a view holds what the view reads, if the second index of every long and
double lies below the count. -/
theorem copies_of_toPool {bytes : Bytes} {start : Nat}
    (hparse : PoolView.parse bytes start = .ok { view with bootstraps := #[] }) (hwide : ∀ {i : PoolIndex} {tag : UInt8},
      view.tag i = .ok tag → tag = Tag.long ∨ tag = Tag.double → i.toNat + 1 < view.length)
    (hcopy : view.toPool = .ok copy) : view.Copies copy := by
  obtain ⟨hbytes, count, c', hcount, hlt, hscan⟩ := exists_of_parse hparse
  unfold toPool at hcopy
  obtain ⟨pool, hentries, hbootstraps⟩ := exists_of_bind_eq_ok hcopy
  have hwide' : ∀ {i : PoolIndex} {e : Entry}, view.rawEntry i = .ok e → e.width = 2 → i.toNat + 1 < view.length := by
    intro i e he htwo
    exact hwide (tag_of_rawEntry he) (by cases e <;> first | exact .inl rfl | exact .inr rfl | cases htwo)
  have hlength : 0 < view.length ∧ view.length < 65536 := by
    have : max count 1 = view.length := hcount
    omega
  obtain ⟨es, rfl, hes⟩ := exists_of_copyEntries hwide' hlength.2 hscan hbytes (Nat.succ_ne_zero _)
    hcount (Nat.le_refl 1) hlength.1 (by have : max count 1 = view.length := hcount; omega) (by omega)
    (fun i hi hi' => by
      have : max count 1 = view.length := hcount
      rw [Array.getElem?_replicate, if_pos (by omega)]) hentries
  obtain ⟨bs, rfl, hsize, hbs⟩ := exists_of_copyBootstraps hbootstraps
  obtain ⟨hbuilt, hentries, hnone⟩ := built_foldl_append es Built.empty
  obtain ⟨hbuilt, hentries', hbootstraps'⟩ := built_foldl_appendBootstrap bs hbuilt
  rw [hnone] at hbootstraps'
  have hzero : view.offsets[0]? = some 0 := by
    rw [(scanEntries_keeps hscan).2 0 Nat.one_pos, Array.getElem?_replicate, if_pos (by omega)]
  refine ⟨hbuilt, ?_, ?_, fun {k b} hk => ?_⟩
  · rw [hentries', hentries]
    exact hes.lists hzero
  · rw [← hsize, ← Array.length_toList, hbootstraps']
    exact congrArg List.length (List.nil_append bs)
  · rw [← Array.getElem?_toList, hbootstraps'] at hk
    have := hbs hk
    rwa [Nat.zero_add] at this

/-! ## First indices -/

/-- The index that an entry has in a pool built on what a view reads: the first index at which the view reads it, or if there
is none, one behind all indices of the view. -/
structure First (view : PoolView) (e : Entry) (i : PoolIndex) : Prop where
  found : ∀ {j : PoolIndex}, view.rawEntry j = .ok e → view.rawEntry i = .ok e ∧ i ≤ j
  fresh : (∀ j : PoolIndex, view.rawEntry j ≠ .ok e) → view.length ≤ i.toNat

/-- The number that a bootstrap method has in such a pool, likewise. -/
structure FirstNumber (view : PoolView) (b : BootstrapMethod) (k : UInt16) : Prop where
  found : ∀ {j : Nat}, j < view.bootstraps.size → view.rawBootstrap j = .ok b →
    view.rawBootstrap k.toNat = .ok b ∧ k.toNat ≤ j
  fresh : (∀ j < view.bootstraps.size, view.rawBootstrap j ≠ .ok b) → view.bootstraps.size ≤ k.toNat

/-- An entry that a view finds stands in its list. -/
theorem Lists.entryFrom_of_rawEntry {es : List Entry} (h : view.Lists es) {i : PoolIndex} {e : Entry}
    (hi : view.rawEntry i = .ok e) :
    entryFrom 1 es i.toNat = some e := by
  cases hfound : entryFrom 1 es i.toNat with
  | none => cases (h.rawEntry_nothing hfound).symm.trans hi
  | some e' => rw [Except.ok.inj ((h.entry hfound).symm.trans hi)]

/-- The first index of an entry is the right one, if the entries of the view come first. -/
theorem Lists.first {es more : List Entry} (h : view.Lists es) {e : Entry} {i : PoolIndex}
    (hi : firstFrom 1 (es ++ more) e = some i.toNat) : view.First e i := by
  rw [firstFrom_append] at hi
  refine ⟨fun {j} hj => ?_, fun hnone => ?_⟩
  · have hj' := h.entryFrom_of_rawEntry hj
    cases hfirst : firstFrom 1 es e with
    | none => exact absurd (mem_of_entryFrom hj') (firstFrom_eq_none_iff.1 hfirst)
    | some n =>
      rw [hfirst, Option.some_or] at hi
      obtain rfl := Option.some.inj hi
      obtain ⟨hnamed, hleast⟩ := firstFrom_eq_some hfirst
      exact ⟨h.entry hnamed, UInt16.le_iff_toNat_le.2 (hleast _ hj')⟩
  · cases hfirst : firstFrom 1 es e with
    | none =>
      rw [hfirst, Option.none_or] at hi
      exact h.length ▸ (entryFrom_bounds (firstFrom_eq_some hi).1).1
    | some n =>
      rw [hfirst, Option.some_or] at hi
      obtain rfl := Option.some.inj hi
      exact absurd (h.entry (firstFrom_eq_some hfirst).1) (hnone i)

end Copies

end PoolView

end ClassFile
