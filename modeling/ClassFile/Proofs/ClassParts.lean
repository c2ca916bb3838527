import ClassFile.Proofs.Mirroring

/-!
# Class files taken apart

A class file is what stands before its access flags, with the constant pool at the end of it, then the header, the members
and the attributes (`ClassParts`). An attribute is left closed: its parts are its name and its payload. Every class file of
which the tables can be found is put together of such parts (`ClassParts.exists_of_parse`), since a reader that finds the
tables goes over one part after the other (`Decoder.Spells`).
-/

namespace ClassFile

open Decoder (Goes)

/-- The number of attributes of a table fits in two bytes, and their lengths fit in four. -/
structure Attribute.TableFits (table : List Attribute) : Prop where
  count : table.length < 65536
  lengths : ∀ a ∈ table, a.info.size < 4294967296

/-- A field or method, taken apart. -/
structure MemberParts where
  access : UInt16
  name : PoolIndex
  descriptor : PoolIndex
  attributes : List Attribute
  deriving DecidableEq, Repr, Inhabited

/-- A field or method as it stands in the class file. -/
def MemberParts.encode (m : MemberParts) : Bytes :=
  Bytes.ofUInt16 m.access ++ Bytes.ofUInt16 m.name ++ Bytes.ofUInt16 m.descriptor ++ Attribute.encodeTable m.attributes

/-- The number of members fits in two bytes, and their tables have room. -/
structure MemberParts.AllFit (members : List MemberParts) : Prop where
  count : members.length < 65536
  tables : ∀ m ∈ members, Attribute.TableFits m.attributes

/-- A class file, taken apart. -/
structure ClassParts where
  /-- All up to the access flags: the magic number, the version and the constant pool. -/
  front : Bytes
  access : UInt16
  thisClass : PoolIndex
  superClass : PoolIndex
  interfaces : List PoolIndex
  fields : List MemberParts
  methods : List MemberParts
  attributes : List Attribute
  /-- What stands behind the class. -/
  rest : Bytes := #[]
  deriving DecidableEq, Repr, Inhabited

namespace ClassParts

/-- The access flags, the name and the name of the superclass as they stand in the class file. -/
def head (p : ClassParts) : Bytes :=
  Bytes.ofUInt16 p.access ++ Bytes.ofUInt16 p.thisClass ++ Bytes.ofUInt16 p.superClass

/-- The tables of a class as they stand in the class file. -/
def tables (p : ClassParts) : Bytes :=
  Bytes.counted (p.interfaces.map Bytes.ofUInt16) ++ Bytes.counted (p.fields.map MemberParts.encode) ++
    Bytes.counted (p.methods.map MemberParts.encode) ++ Attribute.encodeTable p.attributes

/-- The class file. -/
def encode (p : ClassParts) : Bytes :=
  p.front ++ p.head ++ p.tables ++ p.rest

/-- Where the number of the fields stands. -/
def fieldsOffset (p : ClassParts) : Nat :=
  p.front.size + 6 + (Bytes.counted (p.interfaces.map Bytes.ofUInt16)).size

/-- Where the number of the methods stands. -/
def methodsOffset (p : ClassParts) : Nat :=
  p.fieldsOffset + (Bytes.counted (p.fields.map MemberParts.encode)).size

/-- Where the number of the attributes stands. -/
def attributesOffset (p : ClassParts) : Nat :=
  p.methodsOffset + (Bytes.counted (p.methods.map MemberParts.encode)).size

/-- All counts and lengths have room. -/
structure Fits (p : ClassParts) : Prop where
  interfaces : p.interfaces.length < 65536
  fields : MemberParts.AllFit p.fields
  methods : MemberParts.AllFit p.methods
  attributes : Attribute.TableFits p.attributes

end ClassParts

/-! ## What a reader goes over -/

namespace Bytes

/-- The two bytes of a number that is put together from them. -/
theorem ofUInt16_join (x y : UInt8) : ofUInt16 (x.toUInt16 <<< 8 ||| y.toUInt16) = #[x, y] := by
  have hx := x.toNat_lt
  have hy := y.toNat_lt
  have hn : (x.toUInt16 <<< 8 ||| y.toUInt16).toNat = x.toNat * 256 + y.toNat := by
    simp only [UInt16.toNat_or, UInt16.toNat_shiftLeft, UInt8.toNat_toUInt16, UInt16.reduceToNat,
      Nat.shiftLeft_eq, Nat.reducePow, Nat.reduceMod] at hx hy ⊢
    rw [or_eq_add 8 (by omega) (by omega)]
    omega
  have hhigh : ((x.toUInt16 <<< 8 ||| y.toUInt16) >>> 8).toUInt8 = x := by
    apply UInt8.toNat_inj.1
    simp only [UInt16.toNat_toUInt8, UInt16.toNat_shiftRight, hn, UInt16.reduceToNat,
      Nat.shiftRight_eq_div_pow, Nat.reducePow, Nat.reduceMod]
    omega
  have hlow : (x.toUInt16 <<< 8 ||| y.toUInt16).toUInt8 = y := by
    apply UInt8.toNat_inj.1
    rw [UInt16.toNat_toUInt8, hn]
    omega
  rw [ofUInt16, hhigh, hlow]

/-- The four bytes of a number that is put together from them. -/
theorem ofUInt32_join (x y z w : UInt8) :
    ofUInt32 (x.toUInt32 <<< 24 ||| y.toUInt32 <<< 16 ||| z.toUInt32 <<< 8 ||| w.toUInt32) = #[x, y, z, w] := by
  have hx := x.toNat_lt
  have hy := y.toNat_lt
  have hz := z.toNat_lt
  have hw := w.toNat_lt
  have hn : (x.toUInt32 <<< 24 ||| y.toUInt32 <<< 16 ||| z.toUInt32 <<< 8 ||| w.toUInt32).toNat =
      x.toNat * 16777216 + y.toNat * 65536 + z.toNat * 256 + w.toNat := by
    simp only [UInt32.toNat_or, UInt32.toNat_shiftLeft, UInt8.toNat_toUInt32, UInt32.reduceToNat,
      Nat.shiftLeft_eq, Nat.reducePow, Nat.reduceMod] at hx hy hz hw ⊢
    have hsum : ∀ a b c d : Nat, a % 2 ^ 24 = 0 → b % 2 ^ 16 = 0 → b < 2 ^ 24 → c % 2 ^ 8 = 0 → c < 2 ^ 16 → d < 2 ^ 8 →
        a ||| b ||| c ||| d = a + b + c + d := by
      intro a b c d ha hb hb' hc hc' hd
      rw [or_eq_add 24 ha hb', or_eq_add 16 (by omega) hc', or_eq_add 8 (by omega) hd]
    rw [hsum] <;> omega
  have hbyte : ∀ (k : UInt32) (byte : UInt8),
    (x.toNat * 16777216 + y.toNat * 65536 + z.toNat * 256 + w.toNat) >>> (k.toNat % 32) % 256 =
      byte.toNat → ((x.toUInt32 <<< 24 ||| y.toUInt32 <<< 16 ||| z.toUInt32 <<< 8 ||| w.toUInt32) >>> k).toUInt8 = byte := by
    intro k byte h
    apply UInt8.toNat_inj.1
    rw [UInt32.toNat_toUInt8, UInt32.toNat_shiftRight, hn]
    exact h
  have hlow : (x.toUInt32 <<< 24 ||| y.toUInt32 <<< 16 ||| z.toUInt32 <<< 8 ||| w.toUInt32).toUInt8 = w := by
    apply UInt8.toNat_inj.1
    rw [UInt32.toNat_toUInt8, hn]
    omega
  rw [ofUInt32, hbyte 24 x, hbyte 16 y, hbyte 8 z, hlow]
  all_goals
    simp only [UInt32.reduceToNat, Nat.reduceMod, Nat.shiftRight_eq_div_pow, Nat.reducePow]
    omega

/-- Two bytes cut out of a byte string are the two that stand there. -/
theorem extract_two {b : Bytes} {i : Nat} (h : i + 2 ≤ b.size) : b.extract i (i + 2) = #[b.at0 i, b.at0 (i + 1)] := by
  apply Array.ext
  · simp
    omega
  · intro j hj _
    rw [Array.size_extract] at hj
    have hcases : j = 0 ∨ j = 1 := by omega
    rcases hcases with rfl | rfl <;> simp [at0, Array.getD, show i < b.size by omega, show i + 1 < b.size by omega]

/-- Four bytes cut out of a byte string are the four that stand there. -/
theorem extract_four {b : Bytes} {i : Nat} (h : i + 4 ≤ b.size) :
    b.extract i (i + 4) = #[b.at0 i, b.at0 (i + 1), b.at0 (i + 2), b.at0 (i + 3)] := by
  apply Array.ext
  · simp
    omega
  · intro j hj _
    rw [Array.size_extract] at hj
    have hcases : j = 0 ∨ j = 1 ∨ j = 2 ∨ j = 3 := by omega
    rcases hcases with rfl | rfl | rfl | rfl <;>
      simp [at0, Array.getD, show i < b.size by omega, show i + 1 < b.size by omega,
      show i + 2 < b.size by omega, show i + 3 < b.size by omega]

/-- Any two bytes are a number. -/
theorem exists_ofUInt16 {p : Bytes} (h : p.size = 2) : ∃ n, p = ofUInt16 n := by
  refine ⟨(p.at0 0).toUInt16 <<< 8 ||| (p.at0 1).toUInt16, ?_⟩
  have htwo := extract_two (b := p) (i := 0) (by omega)
  rw [ofUInt16_join, ← htwo, Nat.zero_add, ← h, Array.extract_size]

/-- A piece of the size of some numbers of two bytes is put together of them. -/
theorem exists_concat_ofUInt16 {n : Nat} {p : Bytes} (h : p.size = 2 * n) :
    ∃ is : List UInt16, is.length = n ∧ p = concat (is.map ofUInt16) := by
  induction n generalizing p with
  | zero => exact ⟨[], rfl, Array.eq_empty_of_size_eq_zero h⟩
  | succ n ih =>
    obtain ⟨i, hi⟩ := exists_ofUInt16 (p := p.extract 0 2) (by rw [Array.size_extract]; omega)
    obtain ⟨is, hlength, his⟩ := ih (p := p.extract 2 p.size) (by rw [Array.size_extract]; omega)
    refine ⟨i :: is, congrArg Nat.succ hlength, ?_⟩
    rw [List.map_cons, concat_cons, ← hi, ← his, Array.extract_append_extract, Nat.min_eq_left (Nat.zero_le _),
      Nat.max_eq_right (by omega), Array.extract_size]

/-- Any six bytes are three numbers. -/
theorem exists_three_ofUInt16 {p : Bytes} (h : p.size = 6) : ∃ i j k, p = ofUInt16 i ++ ofUInt16 j ++ ofUInt16 k := by
  obtain ⟨is, hlength, rfl⟩ := exists_concat_ofUInt16 (n := 3) h
  obtain ⟨i, j, k, rfl⟩ := List.length_eq_three.1 hlength
  exact ⟨i, j, k, by simp⟩

end Bytes

namespace Decoder

variable {α β : Type} {d : Decoder α} {f : α → Decoder β} {S S' : α → Bytes → Prop} {T : α → β → Bytes → Prop}

/-- A reader goes over a piece of the byte string which is, for its value, of a kind. -/
def Spells (d : Decoder α) (S : α → Bytes → Prop) : Prop :=
  ∀ c a c', c.position ≤ c.bytes.size → d.Goes c a c' → ∃ piece, S a piece ∧ c.bytes.HasAt c.position piece ∧
    c' = c.ahead piece.size

/-- Pieces of one kind are pieces of any kind that takes them in. -/
theorem Spells.mono (h : d.Spells S) (hS : ∀ a piece, S a piece → S' a piece) : d.Spells S' := by
  intro c a c' hin hgoes
  obtain ⟨piece, hpiece, hat, hc'⟩ := h c a c' hin hgoes
  exact ⟨piece, hS a piece hpiece, hat, hc'⟩

/-- A reader that comes with a value at once goes over no bytes. -/
theorem spells_pure (a : α) : Spells (Pure.pure a) fun b piece => b = a ∧ piece = #[] := by
  intro c b c' hin hgoes
  obtain ⟨rfl, rfl⟩ := Goes.of_pure hgoes
  have hempty : c.bytes.HasAt c.position (c.bytes.extract c.position (c.position + 0)) := Bytes.hasAt_extract hin
  rw [Nat.add_zero, Array.extract_empty_of_stop_le_start (Nat.le_refl _)] at hempty
  exact ⟨#[], ⟨rfl, rfl⟩, hempty, rfl⟩

/-- Two readers one after the other go over a piece of each. -/
theorem Spells.bind (h : d.Spells S) (hf : ∀ a, (f a).Spells (T a)) :
    (d >>= f).Spells fun b piece => ∃ a p q, S a p ∧ T a b q ∧ piece = p ++ q := by
  intro c b c'' hin hgoes
  obtain ⟨a, c', hfirst, hsecond⟩ := hgoes.of_bind
  obtain ⟨p, hp, hat, rfl⟩ := h c a c' hin hfirst
  obtain ⟨q, hq, hat', rfl⟩ := hf a _ b c'' hat.le_size hsecond
  refine ⟨p ++ q, ⟨a, p, q, hp, hq, rfl⟩, Bytes.hasAt_append.2 ⟨hat, hat'⟩, ?_⟩
  rw [Cursor.ahead_ahead, Array.size_append]

/-- A value made of what has been read. -/
theorem Spells.map (h : d.Spells S) (g : α → β) : Spells (do return g (← d)) fun b piece => ∃ a, S a piece ∧ b = g a :=
  (h.bind fun a => spells_pure (g a)).mono fun b piece ⟨a, p, q, hp, ⟨hb, hq⟩, hpiece⟩ =>
    ⟨a, by rw [hpiece, hq, Array.append_empty]; exact hp, hb⟩

/-- A reader of a fixed number of bytes. -/
theorem spells_of_advance {n : Nat} {value : Cursor → α} (hd : ∀ c, d c = (c.advance n >>= fun c' => .ok (value c, c'))) :
    d.Spells fun a piece => piece.size = n ∧ ∃ c, piece = c.bytes.extract c.position (c.position + n) ∧
    c.position + n ≤ c.bytes.size ∧
      a = value c := by
  intro c a c' _ hgoes
  rw [Goes, hd c] at hgoes
  obtain ⟨c₁, hadvance, hgoes⟩ := exists_of_bind_eq_ok hgoes
  obtain ⟨rfl, rfl⟩ := Prod.mk.inj (Except.ok.inj hgoes)
  obtain ⟨rfl, hn⟩ := Cursor.advance_eq hadvance
  have hsize : (c.bytes.extract c.position (c.position + n)).size = n := by
    rw [Array.size_extract]
    omega
  exact ⟨_, ⟨hsize, c, rfl, hn, rfl⟩, Bytes.hasAt_extract hn, by rw [hsize]⟩

/-- Passing over bytes goes over any piece of that size. -/
theorem spells_skip (n : Nat) : (skip n).Spells fun _ piece => piece.size = n :=
  (spells_of_advance fun _ => rfl).mono fun _ _ h => h.1

/-- Taking bytes goes over the bytes that it comes with. -/
theorem spells_take (n : Nat) : (take n).Spells fun a piece => piece = a ∧ a.size = n :=
  (spells_of_advance fun _ => rfl).mono fun _ _ ⟨hsize, _, hpiece, _, ha⟩ => by
    subst ha
    exact ⟨hpiece, hpiece ▸ hsize⟩

/-- A number of two bytes is read from those bytes and no others. -/
theorem spells_u16 : u16.Spells fun n piece => piece = Bytes.ofUInt16 n :=
  (spells_of_advance fun _ => rfl).mono fun _ _ ⟨_, _, hpiece, hin, ha⟩ => by
    rw [hpiece, ha, Bytes.extract_two hin, ← Bytes.ofUInt16_join]
    rfl

/-- A number of four bytes is read from those bytes and no others. -/
theorem spells_u32 : u32.Spells fun n piece => piece = Bytes.ofUInt32 n :=
  (spells_of_advance fun _ => rfl).mono fun _ _ ⟨_, _, hpiece, hin, ha⟩ => by
    rw [hpiece, ha, Bytes.extract_four hin, ← Bytes.ofUInt32_join]
    rfl

/-- A value of several that are read one after the other goes with each of the pieces. -/
theorem Spells.manyFrom (h : d.Spells S) (n : Nat) (acc : Array α) : (manyFrom d n acc).Spells fun r piece =>
    ∃ (xs : List α) (ps : List Bytes), xs.length = n ∧ r = acc ++ xs.toArray ∧ List.Forall₂ S xs ps ∧
      piece = Bytes.concat ps := by
  induction n generalizing acc with
  | zero =>
    refine (spells_pure acc).mono fun r piece ⟨hr, hpiece⟩ => ⟨[], [], rfl, ?_, .nil, hpiece⟩
    rw [hr]
    exact Array.append_empty.symm
  | succ n ih =>
    refine (h.bind fun a => ih (acc.push a)).mono ?_
    rintro r piece ⟨a, p, q, hp, ⟨xs, ps, hlength, hr, hps, rfl⟩, rfl⟩
    refine ⟨a :: xs, p :: ps, by rw [List.length_cons, hlength], ?_, .cons hp hps, (Bytes.concat_cons p ps).symm⟩
    rw [hr]
    simp

/-- What stands behind its number is read from a counted list of pieces. -/
theorem Spells.counted (h : d.Spells S) : (counted d).Spells fun r piece =>
    ∃ ps : List Bytes, r.size < 65536 ∧ List.Forall₂ S r.toList ps ∧ piece = Bytes.counted ps := by
  refine (spells_u16.bind fun n => h.manyFrom n.toNat #[]).mono ?_
  rintro r piece ⟨n, _, _, rfl, ⟨xs, ps, hlength, hr, hps, rfl⟩, rfl⟩
  rw [Array.empty_append] at hr
  subst hr
  refine ⟨ps, ?_, hps, ?_⟩
  · rw [List.size_toArray, hlength]
    exact n.toNat_lt
  · rw [Bytes.counted_eq, ← hps.length_eq, hlength]
    congr 2
    exact (UInt16.ofNat_toNat).symm

/-- Items that are read one after the other behind their number. -/
theorem Spells.countedItems {P : α → Prop} {write : α → Bytes} (h : d.Spells fun a piece => P a ∧ piece = write a) :
    (Decoder.counted d).Spells fun r piece => r.size < 65536 ∧ (∀ a ∈ r.toList, P a) ∧
    piece = Bytes.counted (r.toList.map write) := by
  refine h.counted.mono ?_
  rintro r piece ⟨ps, hcount, hps, rfl⟩
  have hitems : (∀ a ∈ r.toList, P a) ∧ ps = r.toList.map write := by
    generalize r.toList = items at hps
    induction hps with
    | nil => exact ⟨fun _ ha => absurd ha List.not_mem_nil, rfl⟩
    | cons ha _ ih => exact ⟨List.forall_mem_cons.2 ⟨ha.1, ih.1⟩, congrArg₂ List.cons ha.2 ih.2⟩
  exact ⟨hcount, hitems.1, by rw [hitems.2]⟩

end Decoder

namespace Outline

open Decoder

variable {d : Decoder Unit} {S : Bytes → Prop}

/-- A reader that runs several times goes over as many pieces. -/
theorem spells_repeatDecoder (h : d.Spells fun _ => S) (n : Nat) : (repeatDecoder d n).Spells fun _ piece =>
    ∃ ps : List Bytes, ps.length = n ∧ (∀ p ∈ ps, S p) ∧ piece = Bytes.concat ps := by
  induction n with
  | zero => exact (spells_pure ()).mono fun _ piece ⟨_, hpiece⟩ => ⟨[], rfl, fun _ h => absurd h List.not_mem_nil, hpiece⟩
  | succ n ih =>
    refine (h.bind fun _ => ih).mono ?_
    rintro _ piece ⟨_, p, q, hp, ⟨ps, hlength, hps, rfl⟩, rfl⟩
    exact ⟨p :: ps, congrArg Nat.succ hlength, List.forall_mem_cons.2 ⟨hp, hps⟩, (Bytes.concat_cons p ps).symm⟩

/-- Items that are passed over behind their number. -/
theorem spells_countedDecoder {γ : Type} {write : γ → Bytes} {P : γ → Prop}
    (h : d.Spells fun _ piece => ∃ x, P x ∧ piece = write x) : Decoder.Spells (do
      let count ← Decoder.u16
      repeatDecoder d count.toNat) fun _ piece => ∃ xs : List γ, xs.length < 65536 ∧ (∀ x ∈ xs, P x) ∧
        piece = Bytes.counted (xs.map write) := by
  refine (spells_u16.bind fun n => spells_repeatDecoder h n.toNat).mono ?_
  rintro _ piece ⟨n, _, _, rfl, ⟨ps, hlength, hps, rfl⟩, rfl⟩
  have hitems : ∃ xs : List γ, (∀ x ∈ xs, P x) ∧ ps = xs.map write := by
    clear hlength
    induction ps with
    | nil => exact ⟨[], fun _ h => absurd h List.not_mem_nil, rfl⟩
    | cons p rest ih =>
      obtain ⟨⟨x, hx, rfl⟩, hrest⟩ := List.forall_mem_cons.1 hps
      obtain ⟨xs, hxs, rfl⟩ := ih hrest
      exact ⟨x :: xs, List.forall_mem_cons.2 ⟨hx, hxs⟩, rfl⟩
  obtain ⟨xs, hxs, rfl⟩ := hitems
  rw [List.length_map] at hlength
  refine ⟨xs, hlength ▸ n.toNat_lt, hxs, ?_⟩
  rw [Bytes.counted_eq, List.length_map, hlength]
  congr 2
  exact (UInt16.ofNat_toNat).symm

/-- Passing over an attribute goes over one whose length is the one it gives. -/
theorem spells_skipAttribute :
    skipAttribute.Spells fun _ piece => ∃ a : Attribute, a.info.size < 4294967296 ∧ piece = a.encode := by
  refine ((spells_skip 2).bind fun _ => spells_u32.bind fun length => spells_skip length.toNat).mono ?_
  rintro _ piece ⟨_, p, _, hp, ⟨length, _, info, rfl, hinfo, rfl⟩, rfl⟩
  obtain ⟨name, rfl⟩ := Bytes.exists_ofUInt16 hp
  refine ⟨⟨name, info⟩, hinfo ▸ length.toNat_lt, ?_⟩
  rw [Attribute.encode, Array.append_assoc, hinfo]
  congr 3
  exact (UInt32.ofNat_toNat).symm

/-- Passing over a table of attributes goes over one that fits. -/
theorem spells_skipAttributes : skipAttributes.Spells fun _ piece =>
    ∃ table : List Attribute, Attribute.TableFits table ∧ piece = Attribute.encodeTable table :=
  (spells_countedDecoder spells_skipAttribute).mono fun _ _ ⟨table, hcount, hlengths, hpiece⟩ =>
    ⟨table, ⟨hcount, hlengths⟩, hpiece⟩

/-- Passing over the interfaces goes over a counted list of indices. -/
theorem spells_skipInterfaces : skipInterfaces.Spells fun _ piece =>
    ∃ is : List PoolIndex, is.length < 65536 ∧ piece = Bytes.counted (is.map Bytes.ofUInt16) := by
  refine (spells_u16.bind fun n => spells_skip (2 * n.toNat)).mono ?_
  rintro _ piece ⟨n, _, p, rfl, hp, rfl⟩
  obtain ⟨is, hlength, rfl⟩ := Bytes.exists_concat_ofUInt16 hp
  refine ⟨is, hlength ▸ n.toNat_lt, ?_⟩
  rw [Bytes.counted_eq, List.length_map, hlength]
  congr 2
  exact (UInt16.ofNat_toNat).symm

end Outline

namespace Image

open Decoder

/-- Passing over a member goes over its head and a table that fits. -/
theorem spells_skipMember : skipMember.Spells fun _ piece =>
    ∃ m : MemberParts, Attribute.TableFits m.attributes ∧ piece = m.encode := by
  refine ((spells_skip 6).bind fun _ => Outline.spells_skipAttributes).mono ?_
  rintro _ piece ⟨_, p, _, hp, ⟨table, htable, rfl⟩, rfl⟩
  obtain ⟨access, name, descriptor, rfl⟩ := Bytes.exists_three_ofUInt16 hp
  exact ⟨⟨access, name, descriptor, table⟩, htable, rfl⟩

/-- Passing over members goes over a counted list of them. -/
theorem spells_skipMembers : skipMembers.Spells fun _ piece =>
    ∃ members : List MemberParts, MemberParts.AllFit members ∧ piece = Bytes.counted (members.map MemberParts.encode) :=
  (Outline.spells_countedDecoder spells_skipMember).mono fun _ _ ⟨members, hcount, htables, hpiece⟩ =>
    ⟨members, ⟨hcount, htables⟩, hpiece⟩

/-- A reader that looks for bootstrap methods in an attribute goes over the attribute. -/
theorem spells_indexBootstraps (view : PoolView) (found : Array Nat) : (indexBootstraps view found).Spells fun _ piece =>
    ∃ a : Attribute, a.info.size < 4294967296 ∧ piece = a.encode := by
  intro c r c' hin hgoes
  unfold indexBootstraps at hgoes
  obtain ⟨i, c₁, hi, hnamed⟩ := hgoes.of_bind
  obtain ⟨name, c₂, hname, hmeasured⟩ := hnamed.of_bind
  obtain ⟨-, rfl⟩ := Goes.of_lift hname
  obtain ⟨length, c₃, hlength, hplaced⟩ := hmeasured.of_bind
  obtain ⟨start, c₄, hstart, hlooked⟩ := hplaced.of_bind
  obtain ⟨rfl, rfl⟩ := (Goes.position c₃).unique hstart
  have hback : ∀ {d : Decoder (Array Nat)}, d.Stays → Goes (do
      let found ← d
      Decoder.seek c₃.position
      Decoder.skip length.toNat
      return found) c₃ r c' → (skip length.toNat).Goes c₃ () c' := by
    intro d hd hgoes
    obtain ⟨_, c₅, hfound, hgoes⟩ := hgoes.of_bind
    obtain ⟨_, c₆, hseek, hgoes⟩ := hgoes.of_bind
    obtain ⟨_, c₇, hskip, hgoes⟩ := hgoes.of_bind
    obtain ⟨-, rfl⟩ := Goes.of_pure hgoes
    obtain ⟨-, rfl⟩ := Prod.mk.inj (Except.ok.inj hseek)
    rw [(hd _ _ _ hfound).1] at hskip
    exact hskip
  have hskip : (skip length.toNat).Goes c₃ () c' := by
    dsimp only at hlooked
    split at hlooked
    · exact hback stays_bootstraps hlooked
    · exact hback (stays_pure found) hlooked
  exact Outline.spells_skipAttribute c () c' hin ((passes_u16.goes_skip (by decide) hi).bind (hlength.bind hskip))

/-- Looking for bootstrap methods goes over as many attributes as were announced. -/
theorem spells_indexAllBootstraps (view : PoolView) (n : Nat) (found : Array Nat) :
    (indexAllBootstraps view n found).Spells fun _ piece =>
    ∃ table : List Attribute, table.length = n ∧ (∀ a ∈ table, a.info.size < 4294967296) ∧
      piece = Bytes.concat (table.map Attribute.encode) := by
  induction n generalizing found with
  | zero => exact (spells_pure found).mono fun _ _ ⟨_, hpiece⟩ => ⟨[], rfl, fun _ h => absurd h List.not_mem_nil, hpiece⟩
  | succ n ih =>
    refine ((spells_indexBootstraps view found).bind fun found => ih found).mono ?_
    rintro _ piece ⟨_, p, q, ⟨a, ha, rfl⟩, ⟨table, hlength, htable, rfl⟩, rfl⟩
    exact ⟨a :: table, congrArg Nat.succ hlength, List.forall_mem_cons.2 ⟨ha, htable⟩, (Bytes.concat_cons _ _).symm⟩

end Image

namespace ClassParts

open Decoder Image

/-- The header stands behind the front. -/
theorem hasAt_head (p : ClassParts) : p.encode.HasAt p.front.size (Bytes.ofUInt16 p.access) ∧
    p.encode.HasAt (p.front.size + 2) (Bytes.ofUInt16 p.thisClass) ∧
    p.encode.HasAt (p.front.size + 4) (Bytes.ofUInt16 p.superClass) := by
  have hhead : p.encode.HasAt p.front.size p.head := ⟨p.front, p.tables ++ p.rest, by simp [encode, Array.append_assoc], rfl⟩
  obtain ⟨hnames, hsuper⟩ := Bytes.hasAt_append.1 hhead
  obtain ⟨haccess, hthis⟩ := Bytes.hasAt_append.1 hnames
  exact ⟨haccess, hthis, hsuper⟩

/-- The tables stand behind the header. -/
theorem hasAt_tables (p : ClassParts) : p.encode.HasAt (p.front.size + 6) (Bytes.counted (p.interfaces.map Bytes.ofUInt16)) ∧
    p.encode.HasAt p.fieldsOffset (Bytes.counted (p.fields.map MemberParts.encode)) ∧
    p.encode.HasAt p.methodsOffset (Bytes.counted (p.methods.map MemberParts.encode)) ∧
    p.encode.HasAt p.attributesOffset (Attribute.encodeTable p.attributes) := by
  have htables : p.encode.HasAt (p.front.size + 6) p.tables :=
    ⟨p.front ++ p.head, p.rest, by simp [encode], by simp [head]⟩
  unfold tables at htables
  rw [Array.append_assoc, Array.append_assoc] at htables
  obtain ⟨hinterfaces, hbehind⟩ := Bytes.hasAt_append.1 htables
  obtain ⟨hfields, hbehind⟩ := Bytes.hasAt_append.1 hbehind
  obtain ⟨hmethods, hattributes⟩ := Bytes.hasAt_append.1 hbehind
  exact ⟨hinterfaces, hfields, hmethods, hattributes⟩

theorem hasAt_front (p : ClassParts) : p.encode.HasAt 0 p.front :=
  ⟨#[], p.head ++ p.tables ++ p.rest, by simp [encode, Array.append_assoc], rfl⟩

/-- Where the tables of a class are found, the tables stand. -/
theorem exists_of_tables {view : PoolView} {c c' : Cursor} {r : Nat × Array Nat} (h : (Image.tables view).Goes c r c') :
    ∃ p : ClassParts, p.Fits ∧ c.bytes.HasAt c.position p.tables := by
  unfold Image.tables at h
  obtain ⟨_, c₁, hinterfaces, h⟩ := h.of_bind
  obtain ⟨_, c₂, hfields, h⟩ := h.of_bind
  obtain ⟨_, c₃, hmethods, h⟩ := h.of_bind
  obtain ⟨offset, c₄, hposition, h⟩ := h.of_bind
  obtain ⟨rfl, rfl⟩ := (Goes.position c₃).unique hposition
  obtain ⟨n, c₅, hcount, h⟩ := h.of_bind
  obtain ⟨found, c₆, hfound, h⟩ := h.of_bind
  have hin : c.position ≤ c.bytes.size := by
    obtain ⟨_, _, hread, -⟩ := Goes.of_bind hinterfaces
    exact Nat.le_trans (Nat.le_add_right _ _) ((passes_u16 _ _ _ hread).2.1 (by decide))
  obtain ⟨_, ⟨interfaces, hilength, rfl⟩, hi, rfl⟩ := Outline.spells_skipInterfaces _ _ _ hin hinterfaces
  obtain ⟨_, ⟨fields, hfit, rfl⟩, hf, rfl⟩ := spells_skipMembers _ _ _ hi.le_size hfields
  obtain ⟨_, ⟨methods, hmfit, rfl⟩, hm, rfl⟩ := spells_skipMembers _ _ _ hf.le_size hmethods
  obtain ⟨_, rfl, hn, rfl⟩ := spells_u16 _ _ _ hm.le_size hcount
  obtain ⟨_, ⟨table, hlength, hlengths, rfl⟩, ha, rfl⟩ := spells_indexAllBootstraps view _ _ _ _ _ hn.le_size hfound
  refine ⟨⟨#[], 0, 0, 0, interfaces, fields, methods, table, #[]⟩,
    ⟨hilength, hfit, hmfit, hlength ▸ n.toNat_lt, hlengths⟩, ?_⟩
  have htable : c.bytes.HasAt (c.position + (Bytes.counted (interfaces.map Bytes.ofUInt16)).size +
      (Bytes.counted (fields.map MemberParts.encode)).size + (Bytes.counted (methods.map MemberParts.encode)).size)
      (Attribute.encodeTable table) := by
    rw [Attribute.encodeTable, Bytes.counted_eq (table.map _), List.length_map, hlength]
    refine Bytes.hasAt_append.2 ⟨?_, ha⟩
    rw [show n.toNat.toUInt16 = n from UInt16.ofNat_toNat]
    exact hn
  unfold ClassParts.tables
  rw [Array.append_assoc, Array.append_assoc]
  refine Bytes.hasAt_append.2 ⟨hi, Bytes.hasAt_append.2 ⟨hf, Bytes.hasAt_append.2 ⟨hm, htable⟩⟩⟩

/-- Every class file of which the tables can be found is put together of parts. -/
theorem exists_of_parse {bytes : Bytes} {image : Image} (h : Image.parse bytes = .ok image) :
    ∃ p : ClassParts, p.Fits ∧ p.front.size = image.header ∧ p.encode = bytes := by
  unfold Image.parse at h
  obtain ⟨_, -, h⟩ := exists_of_bind_eq_ok h
  obtain ⟨view, -, h⟩ := exists_of_bind_eq_ok h
  obtain ⟨r, htables, h⟩ := exists_of_bind_eq_ok h
  obtain rfl := Except.ok.inj h
  obtain ⟨_, hgoes⟩ := Goes.of_runAt htables
  obtain ⟨p, hfits, hat⟩ := exists_of_tables hgoes
  have hsize := hat.le_size
  dsimp only at hat hsize ⊢
  have hhead : (bytes.extract view.stop (view.stop + 6)).size = 6 := by
    rw [Array.size_extract]
    omega
  obtain ⟨access, thisClass, superClass, heq⟩ := Bytes.exists_three_ofUInt16 hhead
  have hbefore : bytes.HasAt view.stop (bytes.extract view.stop (view.stop + 6)) := Bytes.hasAt_extract (by omega)
  obtain ⟨front, rest, hbytes, hfront⟩ := Bytes.hasAt_append.2 ⟨hbefore, hhead.symm ▸ hat⟩
  refine ⟨{ p with front, access, thisClass, superClass, rest },
    ⟨hfits.interfaces, hfits.fields, hfits.methods, hfits.attributes⟩,
    hfront, ?_⟩
  rw [hbytes, heq, ← Array.append_assoc]
  rfl

end ClassParts

end ClassFile
