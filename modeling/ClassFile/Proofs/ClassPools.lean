import ClassFile.Proofs.ClassReading
import ClassFile.Proofs.PoolDecoding
import ClassFile.Proofs.PoolRequests

/-!
# The pool of a class file

A class file carries a pool if the pool was written into it and its bootstrap methods stand in the attribute of that name
(`Image.Carries`). Where nothing is said of a class but that it can be read, what a reader finds is told from what it passed
over: the bootstrap methods are those of the last attribute of their name (`foundIn_of_goes`). The image of such a class
shows the whole pool, and what was asked for is read back from the places that were the answers (`askAll_reads`).
-/

namespace ClassFile

open ConstantPool

/-- The value of the first of two steps, and the second. -/
theorem exists_of_bind_eq_ok {ε α β : Type} {x : Except ε α} {f : α → Except ε β} {b : β} (h : x >>= f = .ok b) :
    ∃ a, x = .ok a ∧ f a = .ok b := by
  cases x with
  | error e => cases h
  | ok a => exact ⟨a, rfl, h⟩

namespace Decoder

variable {α β : Type} {d : Decoder α} {c c' c'' : Cursor}

/-- What the first of two readers came with, and the second. -/
theorem Goes.of_bind {f : α → Decoder β} {b : β} (h : (d >>= f).Goes c b c'') :
    ∃ a c', d.Goes c a c' ∧ (f a).Goes c' b c'' := by
  change (d c >>= fun r => f r.1 r.2) = _ at h
  cases hd : d c with
  | error e =>
    rw [hd] at h
    cases h
  | ok r =>
    rw [hd] at h
    exact ⟨r.1, r.2, hd, h⟩

/-- A reader that comes with a value at once stays where it is. -/
theorem Goes.of_pure {a b : α} (h : Goes (Pure.pure a) c b c') : a = b ∧ c = c' :=
  Prod.mk.inj (Except.ok.inj h)

/-- A reader goes to one place and comes with one value. -/
theorem Goes.unique {a b : α} (h : d.Goes c a c') (h' : d.Goes c b c'') : a = b ∧ c' = c'' :=
  Prod.mk.inj (Except.ok.inj (h.symm.trans h'))

/-- A reader that comes with a value has gone somewhere. -/
theorem Goes.of_runAt {bytes : Bytes} {offset : Nat} {a : α} (h : d.runAt bytes offset = .ok a) :
    ∃ c', d.Goes ⟨bytes, offset⟩ a c' := by
  unfold Decoder.runAt at h
  change Except.map _ (d ⟨bytes, offset⟩) = _ at h
  cases hd : d ⟨bytes, offset⟩ with
  | error e =>
    rw [hd] at h
    cases h
  | ok r =>
    rw [hd] at h
    obtain rfl := Except.ok.inj h
    exact ⟨r.2, hd⟩

/-- A reader stays in the byte string that it reads, and does not go back. -/
def Stays (d : Decoder α) : Prop :=
  ∀ c a c', d.Goes c a c' → c'.bytes = c.bytes ∧ c.position ≤ c'.position

/-- Two readers that stay in their bytes do so one after the other. -/
theorem Stays.bind {f : α → Decoder β} (h : d.Stays) (hf : ∀ a, (f a).Stays) : (d >>= f).Stays := by
  intro c b c' hgoes
  obtain ⟨a, c₁, hd, hf'⟩ := hgoes.of_bind
  obtain ⟨hbytes, hle⟩ := h _ _ _ hd
  obtain ⟨hbytes', hle'⟩ := hf a _ _ _ hf'
  exact ⟨hbytes'.trans hbytes, hle.trans hle'⟩

/-- A reader that comes with a value at once stays where it is. -/
theorem stays_pure (a : α) : (Pure.pure a : Decoder α).Stays := by
  intro c b c' h
  obtain ⟨-, rfl⟩ := Goes.of_pure h
  exact ⟨rfl, Nat.le_refl _⟩

/-- What is computed without reading stays where it is. -/
theorem stays_lift (x : Except Error α) : Stays (liftM x : Decoder α) := by
  intro c a c' h
  cases x with
  | error e => cases h
  | ok b => exact stays_pure b c a c' h

/-- Asking for the position stays where it is. -/
theorem stays_position : position.Stays := by
  intro c a c' h
  obtain ⟨-, rfl⟩ := Prod.mk.inj (Except.ok.inj h)
  exact ⟨rfl, Nat.le_refl _⟩

/-- A reader that takes some bytes and makes a value of them. -/
theorem stays_of_advance {n : Nat} {value : Cursor → α}
    (h : ∀ c, d c = (c.advance n >>= fun c' => .ok (value c, c'))) : d.Stays := by
  intro c a c' hgoes
  rw [Goes, h c] at hgoes
  obtain ⟨c₁, hadvance, hgoes⟩ := exists_of_bind_eq_ok hgoes
  obtain ⟨-, rfl⟩ := Prod.mk.inj (Except.ok.inj hgoes)
  unfold Cursor.advance at hadvance
  split at hadvance
  · obtain rfl := Except.ok.inj hadvance
    exact ⟨rfl, Nat.le_add_right _ _⟩
  · cases hadvance

/-- Passing over bytes stays within them or fails. -/
theorem stays_skip (n : Nat) : (skip n).Stays :=
  stays_of_advance fun _ => rfl

/-- Reading a byte stays within the bytes or fails. -/
theorem stays_u8 : u8.Stays :=
  stays_of_advance fun _ => rfl

/-- Reading two bytes stays within the bytes or fails. -/
theorem stays_u16 : u16.Stays :=
  stays_of_advance fun _ => rfl

theorem stays_u32 : u32.Stays :=
  stays_of_advance fun _ => rfl

/-- A reader that stays in its bytes does so however often it runs. -/
theorem stays_repeat {d : Decoder Unit} (h : d.Stays) (n : Nat) : (Outline.repeatDecoder d n).Stays := by
  induction n with
  | zero => exact stays_pure ()
  | succ n ih => exact h.bind fun _ => ih

theorem stays_manyFrom (h : d.Stays) (n : Nat) (acc : Array α) : (manyFrom d n acc).Stays := by
  induction n generalizing acc with
  | zero => exact stays_pure acc
  | succ n ih => exact h.bind fun a => ih (acc.push a)

end Decoder

open Decoder (Goes Stays)

namespace Image

theorem stays_skipMembers : skipMembers.Stays :=
  Decoder.stays_u16.bind fun _ => Decoder.stays_repeat ((Decoder.stays_skip 6).bind fun _ => Decoder.stays_u16.bind fun _ =>
    Decoder.stays_repeat ((Decoder.stays_skip 2).bind fun _ => Decoder.stays_u32.bind fun _ => Decoder.stays_skip _) _) _

theorem stays_skipInterfaces : Outline.skipInterfaces.Stays :=
  Decoder.stays_u16.bind fun _ => Decoder.stays_skip _

theorem stays_bootstraps : (Decoder.counted bootstrapOffset).Stays :=
  Decoder.stays_u16.bind fun _ => Decoder.stays_manyFrom
    (Decoder.stays_position.bind fun _ => (Decoder.stays_skip 2).bind fun _ =>
    Decoder.stays_u16.bind fun _ => (Decoder.stays_skip _).bind fun _ => Decoder.stays_pure _) _ _

theorem stays_rawAttribute (view : PoolView) : (rawAttribute view).Stays :=
  Decoder.stays_u16.bind fun _ => (Decoder.stays_lift _).bind fun _ => Decoder.stays_u32.bind fun _ =>
    Decoder.stays_position.bind fun _ =>
    (Decoder.stays_skip _).bind fun _ => Decoder.stays_pure _

/-- The attribute of a table in which bootstrap methods stand: the last one of that name. -/
def bootstrapAttribute? (as : List RawAttribute) : Option RawAttribute :=
  as.reverse.find? fun a => a.name == "BootstrapMethods"

/-- The bootstrap methods found in attributes are those of the last one of that name, or those found before. -/
def FoundIn (b : Bytes) (as : List RawAttribute) (before found : Array Nat) : Prop :=
  match bootstrapAttribute? as with
  | some a => ∃ c, (Decoder.counted bootstrapOffset).Goes ⟨b, a.start⟩ found c
  | none => found = before

/-- Later attributes come before earlier ones. -/
theorem FoundIn.cons {b : Bytes} {a : RawAttribute} {rest : List RawAttribute} {before between found : Array Nat}
    (h : FoundIn b [a] before between) (h' : FoundIn b rest between found) : FoundIn b (a :: rest) before found := by
  have hcons : bootstrapAttribute? (a :: rest) = (bootstrapAttribute? rest).or (bootstrapAttribute? [a]) := by
    unfold bootstrapAttribute?
    rw [List.reverse_cons, List.find?_append]
    rfl
  unfold FoundIn at *
  rw [hcons]
  cases hrest : bootstrapAttribute? rest with
  | some a' =>
    rw [hrest] at h'
    exact h'
  | none =>
    rw [hrest] at h'
    rw [Option.none_or, show found = between from h']
    exact h

section Tables

variable {view : PoolView} {c c' c'' : Cursor}

/-- Looking for bootstrap methods in an attribute, a reader goes as it does when it only notes the attribute. -/
theorem foundIn_of_indexBootstraps {a : RawAttribute} {before found : Array Nat} (ha : (rawAttribute view).Goes c a c')
    (hf : (indexBootstraps view before).Goes c found c'') : c'' = c' ∧ FoundIn c.bytes [a] before found := by
  unfold rawAttribute at ha
  obtain ⟨i, c₁, hi, ha⟩ := ha.of_bind
  obtain ⟨name, c₂, hname, ha⟩ := ha.of_bind
  obtain ⟨length, c₃, hlength, ha⟩ := ha.of_bind
  obtain ⟨start, c₄, hstart, ha⟩ := ha.of_bind
  obtain ⟨rfl, rfl⟩ := hstart.unique (Goes.position _)
  obtain ⟨_, c₅, hskip, ha⟩ := ha.of_bind
  obtain ⟨rfl, rfl⟩ := Goes.of_pure ha
  unfold indexBootstraps at hf
  obtain ⟨i', _, hi', hf⟩ := hf.of_bind
  obtain ⟨rfl, rfl⟩ := hi.unique hi'
  obtain ⟨name', _, hname', hf⟩ := hf.of_bind
  obtain ⟨rfl, rfl⟩ := hname.unique hname'
  obtain ⟨length', _, hlength', hf⟩ := hf.of_bind
  obtain ⟨rfl, rfl⟩ := hlength.unique hlength'
  obtain ⟨start', _, hstart', hf⟩ := hf.of_bind
  obtain ⟨rfl, rfl⟩ := hstart.unique hstart'
  -- From here on the two readers differ: the one passes over the attribute, the other looks into it and comes back.
  have hbytes : c₄.bytes = c.bytes :=
    (Decoder.stays_u32 _ _ _ hlength).1.trans ((Decoder.stays_lift _ _ _ _ hname).1.trans (Decoder.stays_u16 _ _ _ hi).1)
  have hback : ∀ {d : Decoder (Array Nat)}, d.Stays → Goes (do
      let found ← d
      Decoder.seek c₄.position
      Decoder.skip length.toNat
      return found) c₄ found c'' → c'' = c₅ ∧ ∃ c₆, d.Goes c₄ found c₆ := by
    intro d hd hgoes
    obtain ⟨found', c₆, hfound, hgoes⟩ := hgoes.of_bind
    obtain ⟨_, c₇, hseek, hgoes⟩ := hgoes.of_bind
    obtain ⟨_, c₈, hskip', hgoes⟩ := hgoes.of_bind
    obtain ⟨rfl, rfl⟩ := Goes.of_pure hgoes
    obtain ⟨-, rfl⟩ := Prod.mk.inj (Except.ok.inj hseek)
    rw [(hd _ _ _ hfound).1] at hskip'
    exact ⟨(hskip.unique hskip').2.symm, c₆, hfound⟩
  unfold FoundIn bootstrapAttribute?
  dsimp only at hf ⊢
  split at hf
  · rename_i hnamed
    obtain ⟨rfl, c₆, hfound⟩ := hback stays_bootstraps hf
    refine ⟨rfl, ?_⟩
    rw [← hbytes]
    simpa [hnamed] using ⟨c₆, hfound⟩
  · rename_i hnamed
    obtain ⟨rfl, c₆, hfound⟩ := hback (Decoder.stays_pure before) hf
    refine ⟨rfl, ?_⟩
    simpa [hnamed] using (Goes.of_pure hfound).1.symm

/-- The bootstrap methods of a class are those of the last attribute of that name. -/
theorem foundIn_of_indexAll (n : Nat) {as : Array RawAttribute} {before : Array Nat} {noted : Array RawAttribute}
    {found : Array Nat} (ha : (Decoder.manyFrom (rawAttribute view) n as).Goes c noted c')
    (hf : (indexAllBootstraps view n before).Goes c found c'') :
    ∃ rest, noted.toList = as.toList ++ rest ∧ FoundIn c.bytes rest before found := by
  induction n generalizing c as before with
  | zero =>
    obtain ⟨rfl, rfl⟩ := Goes.of_pure ha
    obtain ⟨rfl, rfl⟩ := Goes.of_pure hf
    exact ⟨[], by simp, rfl⟩
  | succ n ih =>
    obtain ⟨a, c₁, hfirst, ha⟩ := ha.of_bind
    obtain ⟨between, c₂, hlook, hf⟩ := hf.of_bind
    obtain ⟨rfl, hin⟩ := foundIn_of_indexBootstraps hfirst hlook
    obtain ⟨rest, hnoted, hrest⟩ := ih ha hf
    rw [(stays_rawAttribute view _ _ _ hfirst).1] at hrest
    exact ⟨a :: rest, by rw [hnoted, Array.toList_push, List.append_assoc]; rfl, hin.cons hrest⟩

end Tables

/-- A class file that can be read, with the constants of a pool, and with the bootstrap methods of the pool in the attribute
of that name, if there is one. -/
structure Carries (image : Image) (pool : ConstantPool) (constants : Bytes) : Prop where
  parse : Image.parse image.bytes = .ok image
  encoded : pool.encode = .ok constants
  constants : image.bytes.HasAt 8 constants
  bootstraps : ∃ as, (attributeTable image.pool).runAt image.bytes image.attributes = .ok as ∧
    match bootstrapAttribute? as with
    | some a => image.bytes.HasAt a.start (AttributeContent.bootstrapMethods pool.bootstraps.toList).encode
    | none => pool.bootstraps = #[]

section Carries

variable {image : Image} {pool : ConstantPool} {constants : Bytes}

/-- Behind the tables that it passes over, a reader looks for bootstrap methods in the attributes of the class. -/
theorem exists_of_tables {view : PoolView} {c c' : Cursor} {attributes : Nat} {found : Array Nat}
    (h : (tables view).Goes c (attributes, found) c') : ∃ n c₁, Decoder.u16.Goes ⟨c.bytes, attributes⟩ n c₁ ∧
      (indexAllBootstraps view n.toNat #[]).Goes c₁ found c' := by
  unfold tables at h
  obtain ⟨_, c₁, hinterfaces, h⟩ := h.of_bind
  obtain ⟨_, c₂, hfields, h⟩ := h.of_bind
  obtain ⟨_, c₃, hmethods, h⟩ := h.of_bind
  obtain ⟨offset, c₄, hposition, h⟩ := h.of_bind
  obtain ⟨n, c₅, hcount, h⟩ := h.of_bind
  obtain ⟨found', c₆, hfound, h⟩ := h.of_bind
  obtain ⟨hpair, rfl⟩ := Goes.of_pure h
  obtain ⟨rfl, rfl⟩ := Prod.mk.inj hpair
  obtain ⟨rfl, rfl⟩ := hposition.unique (Goes.position c₃)
  have hbytes : c₄.bytes = c.bytes := (stays_skipMembers _ _ _ hmethods).1.trans
    ((stays_skipMembers _ _ _ hfields).1.trans (stays_skipInterfaces _ _ _ hinterfaces).1)
  exact ⟨n, c₅, hbytes ▸ hcount, hfound⟩

/-- A class file that can be read has constants behind its first eight bytes and a table of attributes. -/
theorem exists_of_parse {b : Bytes} (h : Image.parse b = .ok image) : image.bytes = b ∧
    ∃ view, PoolView.parse b 8 = .ok view ∧ image.pool = { view with bootstraps := image.pool.bootstraps } ∧
      ∃ n c c', Decoder.u16.Goes ⟨b, image.attributes⟩ n c ∧
        (indexAllBootstraps view n.toNat #[]).Goes c image.pool.bootstraps c' := by
  unfold Image.parse at h
  obtain ⟨_, -, h⟩ := exists_of_bind_eq_ok h
  obtain ⟨view, hview, h⟩ := exists_of_bind_eq_ok h
  obtain ⟨⟨attributes, found⟩, htables, h⟩ := exists_of_bind_eq_ok h
  obtain rfl := Except.ok.inj h
  obtain ⟨c', htables⟩ := Goes.of_runAt htables
  obtain ⟨n, c, hcount, hfound⟩ := exists_of_tables htables
  exact ⟨rfl, view, hview, rfl, n, c, c', hcount, hfound⟩

/-- The bootstrap methods of a class file that carries a pool are found where they stand. -/
theorem Carries.exists_bootstraps (h : image.Carries pool constants) (hn : pool.bootstraps.size < 65536)
    (ha : ∀ b ∈ pool.bootstraps, b.arguments.length < 65536) : ∃ start,
      image.pool.bootstraps = (Bytes.offsets start (pool.bootstraps.toList.map BootstrapMethod.encode)).toArray ∧
      image.bytes.HasAt start (Bytes.concat (pool.bootstraps.toList.map BootstrapMethod.encode)) := by
  obtain ⟨-, view, -, hpool, n, c, c', hcount, hfound⟩ := exists_of_parse h.parse
  obtain ⟨as, has, hattribute⟩ := h.bootstraps
  obtain ⟨c₁, has⟩ := Goes.of_runAt has
  obtain ⟨noted, c₂, hnoted, has⟩ := has.of_bind
  obtain ⟨rfl, rfl⟩ := Goes.of_pure has
  obtain ⟨n', c₃, hcount', hnoted⟩ := hnoted.of_bind
  obtain ⟨rfl, rfl⟩ := hcount.unique hcount'
  have hsame : rawAttribute image.pool = rawAttribute view := by rw [hpool]; rfl
  unfold Decoder.many at hnoted
  rw [hsame] at hnoted
  obtain ⟨rest, hrest, hin⟩ := foundIn_of_indexAll n.toNat hnoted hfound
  rw [(Decoder.stays_u16 _ _ _ hcount).1] at hin
  obtain rfl : noted.toList = rest := hrest
  unfold FoundIn at hin
  split at hattribute
  · rename_i a hlast
    rw [hlast] at hin
    obtain ⟨c₄, hin⟩ := hin
    have hgoes := goes_bootstraps (by simpa using hn) (fun m hm => ha m (Array.mem_toList_iff.1 hm)) hattribute
    refine ⟨a.start + 2, (hin.unique hgoes).1, ?_⟩
    rw [AttributeContent.encode, Bytes.counted_eq] at hattribute
    exact (Bytes.hasAt_append.1 hattribute).2
  · rename_i hlast
    rw [hlast] at hin
    rw [hattribute]
    exact ⟨0, hin, ⟨#[], image.bytes, by simp, rfl⟩⟩

/-- The image of a class file that carries a pool shows all of the pool. -/
theorem Carries.shows (h : image.Carries pool constants) (hp : pool.Built) (hn : pool.bootstraps.size < 65536)
    (ha : ∀ b ∈ pool.bootstraps, b.arguments.length < 65536) :
    image.pool.Shows pool ∧ image.pool.Lists pool.entries.toList ∧ image.pool.bootstraps.size = pool.bootstraps.size := by
  obtain ⟨-, view, hview, hpool, -⟩ := exists_of_parse h.parse
  obtain ⟨offsets, hparse, hlists⟩ := PoolView.parse_encode_lists hp h.encoded h.constants
  obtain rfl := Except.ok.inj (hview.symm.trans hparse)
  obtain ⟨start, hfound, hat⟩ := h.exists_bootstraps hn ha
  obtain ⟨hshows, hlists⟩ := hlists image.pool.bootstraps
  rw [hpool]
  refine ⟨⟨hshows, fun k b hb _ => ?_, Nat.le_of_lt_succ hn⟩, hlists, by simp [hfound]⟩
  rw [hfound]
  exact Writer.Layout.hasAt_bootstrap hat hb

end Carries

end Image

/-! ## Reading back what was asked for -/

/-- A plain handle can be written. -/
theorem MethodHandle.encodable_plain (handle : MethodHandle) : handle.plain.Encodable := by
  unfold MethodHandle.plain MethodHandle.Encodable
  split
  · exact fun _ => rfl
  · exact fun h => absurd h ‹_›

namespace ConstantPool

variable {pool : ConstantPool}

/-- Where a handle stands, there stands the handle that is plain. -/
theorem HoldsHandle.plain {i : PoolIndex} {handle : MethodHandle} (h : pool.HoldsHandle i handle) :
    pool.HoldsHandle i handle.plain := by
  obtain ⟨kind, owner, name, descriptor, interface⟩ := handle
  unfold MethodHandle.plain
  split
  · rename_i hfield
    obtain ⟨j, hi, hj⟩ := h
    dsimp only at hj hfield
    rw [if_pos hfield] at hj
    refine ⟨j, hi, ?_⟩
    rwa [if_pos hfield]
  · exact h

mutual

/-- Where a value stands, there stands the value all of whose handles are plain, and it can be written. -/
theorem holdsConstant_plain (ha : ∀ b ∈ pool.bootstraps, b.arguments.length < 65536) (hn : pool.bootstraps.size ≤ 0xFFFF)
    (i : PoolIndex) : ∀ value : ConstantValue, pool.HoldsConstant i value →
      pool.HoldsConstant i value.plain ∧ value.plain.Encodable
  | .dynamic name descriptor bootstrap arguments, h => by
    simp only [HoldsConstant] at h
    obtain ⟨k, j, b, hi, hname, hk, hhandle, harguments⟩ := h
    obtain ⟨hplain, hencodable, hlength⟩ := holdsConstants_plain ha hn b.arguments arguments harguments
    simp only [ConstantValue.plain, HoldsConstant, ConstantValue.Encodable]
    exact ⟨⟨k, j, b, hi, hname, hk, hhandle.plain, hplain⟩, bootstrap.encodable_plain,
      hlength ▸ ha b (Array.mem_of_getElem? (hk hn)), hencodable⟩
  | .methodHandle handle, h => by
    simp only [ConstantValue.plain]
    exact ⟨HoldsHandle.plain h, handle.encodable_plain⟩
  | .integer _, h | .float _, h | .long _, h | .double _, h | .string _, h | .type _, h | .methodType _, h => ⟨h, trivial⟩

/-- Indices of values are indices of their plain forms, which can be written and are as many. -/
theorem holdsConstants_plain (ha : ∀ b ∈ pool.bootstraps, b.arguments.length < 65536) (hn : pool.bootstraps.size ≤ 0xFFFF) :
    ∀ (is : List PoolIndex) (values : List ConstantValue), pool.HoldsConstants is values →
      pool.HoldsConstants is (ConstantValue.plainAll values) ∧ ConstantValue.AllEncodable (ConstantValue.plainAll values) ∧
        is.length = (ConstantValue.plainAll values).length
  | [], [], _ => ⟨trivial, trivial, rfl⟩
  | i :: is, value :: rest, ⟨h, hrest⟩ => by
    obtain ⟨hplain, hencodable⟩ := holdsConstant_plain ha hn i value h
    obtain ⟨hplains, hencodables, hlength⟩ := holdsConstants_plain ha hn is rest hrest
    exact ⟨⟨hplain, hplains⟩, ⟨hencodable, hencodables⟩, congrArg (· + 1) hlength⟩

end

end ConstantPool

namespace PoolView

/-- What was asked for is read back from its place. -/
def Resolves (view : PoolView) (p : Place) : Request → Prop
  | .utf8 text => ∃ i, p = .entry i ∧ view.utf8 i = .ok text
  | .constant value => ∃ i, p = .entry i ∧ view.constant i = .ok value.plain ∧
      ∀ handle, value = .methodHandle handle → view.methodHandle i = .ok handle.plain
  | .nameAndType name descriptor => ∃ i, p = .entry i ∧ view.nameAndType i = .ok (name, descriptor)
  | .fieldRef owner name descriptor => ∃ i, p = .entry i ∧ view.memberRef i = .ok ⟨owner, name, descriptor, false⟩
  | .methodRef r => ∃ i, p = .entry i ∧ view.memberRef i = .ok r
  | .moduleName name | .packageName name => ∃ i, p = .entry i ∧ view.namedString i = .ok name
  | .callSite name descriptor handle arguments => ∃ i, p = .entry i ∧
      view.callSite i = .ok (name, descriptor, handle.plain, ConstantValue.plainAll arguments)
  | .bootstrapMethod handle arguments => ∃ k, p = .bootstrap k ∧
      view.bootstrapMethod k.toNat = .ok (handle.plain, ConstantValue.plainAll arguments)

/-- What a pool answers to a request is read back from a view that shows the pool. -/
theorem Shows.resolves {view : PoolView} {pool : ConstantPool} (hs : view.Shows pool) (hp : pool.Built)
    (ha : ∀ b ∈ pool.bootstraps, b.arguments.length < 65536) {p : Place} {r : Request} (h : pool.Answers p r) :
    view.Resolves p r := by
  cases r with
  | utf8 =>
    obtain ⟨i, rfl, h⟩ := h
    exact ⟨i, rfl, hs.utf8 h⟩
  | constant value =>
    obtain ⟨i, rfl, h⟩ := h
    obtain ⟨hplain, hencodable⟩ := holdsConstant_plain ha hs.numbered i value h
    refine ⟨i, rfl, hs.constant hp hplain hencodable, ?_⟩
    rintro handle rfl
    exact hs.methodHandle (HoldsHandle.plain h) handle.encodable_plain
  | nameAndType =>
    obtain ⟨i, rfl, h⟩ := h
    exact ⟨i, rfl, hs.nameAndType h⟩
  | fieldRef =>
    obtain ⟨i, rfl, h⟩ := h
    exact ⟨i, rfl, hs.fieldRef h⟩
  | methodRef =>
    obtain ⟨i, rfl, h⟩ := h
    exact ⟨i, rfl, hs.methodRef h⟩
  | moduleName | packageName =>
    obtain ⟨i, j, rfl, h, htext⟩ := h
    exact ⟨i, rfl, hs.namedString h rfl htext⟩
  | callSite name descriptor handle arguments =>
    obtain ⟨i, rfl, k, j, b, hi, hname, hk, hhandle, harguments⟩ := h
    obtain ⟨hplain, hencodable, hlength⟩ := holdsConstants_plain ha hs.numbered _ _ harguments
    exact ⟨i, rfl, hs.callSite hp ⟨k, j, b, hi, hname, hk, hhandle.plain, hplain⟩ handle.encodable_plain
      (hlength ▸ ha b (Array.mem_of_getElem? (hk hs.numbered))) hencodable⟩
  | bootstrapMethod handle arguments =>
    obtain ⟨k, b, rfl, hk, hhandle, harguments⟩ := h
    obtain ⟨hplain, hencodable, hlength⟩ := holdsConstants_plain ha hs.numbered _ _ harguments
    refine ⟨k, rfl, hs.bootstrapWith hk hhandle.plain handle.encodable_plain
      (hlength ▸ ha b (Array.mem_of_getElem? (hk hs.numbered))) ?_⟩
    exact (nesting_le_of_forall₂ hplain hencodable).imp fun i v ⟨hv, he, _⟩ => hs.constant hp hv he

end PoolView

namespace ConstantPool

/-- A pool that was written is read back: all its entries and no others, and from a class file that
carries it, what was asked for. -/
theorem askAll_reads {requests : List Request} {places : List Place} {pool : ConstantPool} {constants : Bytes}
    (hrun : Request.askAll requests .empty = (places, pool)) (henc : pool.encode = .ok constants) :
    (∃ view, PoolView.parse constants 0 = .ok view ∧ view.stop = constants.size ∧ view.length = pool.length ∧
      (∀ i e, pool.Holds i e → view.rawEntry i = .ok e) ∧
      ∀ i : PoolIndex, (i = 0 ∨ pool.length ≤ i.toNat ∨ ∃ j e, pool.entryAt j = some e ∧ e.width = 2 ∧ i.toNat = j + 1) →
        view.offset i = .error (.badConstantIndex i) ∧ view.rawEntry i = .error (.badConstantIndex i)) ∧
    ∀ image : Image, image.Carries pool constants → pool.bootstraps.size < 65536 →
      (∀ b ∈ pool.bootstraps, b.arguments.length < 65536) →
        List.Forall₂ (fun r p => image.pool.Resolves p r) requests places := by
  have hp := ((interns_askAll requests).extends .empty).1
  have hanswered := (ensures_askAll requests .empty .empty).2.2
  rw [hrun] at hp hanswered
  have hanswered := hanswered pool hp (Extends.refl pool) (encode_eq henc).1
  refine ⟨?_, fun image himage hn ha => hanswered.imp fun r p h => (himage.shows hp hn ha).1.resolves hp ha h⟩
  obtain ⟨offsets, hparse, hlists⟩ := PoolView.parse_encode_lists hp henc (Bytes.hasAt_self constants)
  obtain ⟨-, hlists⟩ := hlists #[]
  refine ⟨_, hparse, Nat.zero_add _, hlists.length.trans hp.nextIndex_eq.symm, fun i e hi => hlists.entry hi, fun i hi => ?_⟩
  have hbounds : ∀ e, pool.entryAt i.toNat = some e → 0 < i.toNat ∧ i.toNat < pool.length := by
    intro e he
    obtain ⟨hlow, hhigh⟩ := entryFrom_bounds he
    exact ⟨hlow, hhigh.trans_eq hp.nextIndex_eq.symm⟩
  have hnothing : pool.entryAt i.toNat = none := by
    rcases hi with rfl | hi | ⟨j, e, hj, hwide, hi⟩
    · exact Option.eq_none_iff_forall_ne_some.2 fun e he => absurd (hbounds e he).1 (by decide)
    · exact Option.eq_none_iff_forall_ne_some.2 fun e he => absurd (hbounds e he).2 (Nat.not_lt_of_le hi)
    · rw [hi]
      exact (hp.wide hj hwide).1
  exact ⟨hlists.nothing hnothing, hlists.rawEntry_nothing hnothing⟩

/-- A class file with a long and an integer, and nothing else. -/
def sampleClass : Bytes :=
  #[0xCA, 0xFE, 0xBA, 0xBE, 0, 0, 0, 52, 0, 4, 5, 0, 0, 0, 0, 0, 0, 0, 7, 3, 0, 0, 0, 7, 0, 0, 0, 0,
    0, 0, 0, 0, 0, 0, 0, 0, 0, 0]

def sampleImage : Image :=
  { bytes := sampleClass, pool := { bytes := sampleClass, offsets := #[0, 10, 0, 19], stop := 24 },
    header := 24, attributes := 36 }

/-- The sample class carries the pool of a long and an integer. -/
theorem carries_sample : sampleImage.Carries ((ConstantPool.empty.append (.long 7)).append (.integer 7))
    #[0, 4, 5, 0, 0, 0, 0, 0, 0, 0, 7, 3, 0, 0, 0, 7] :=
  ⟨rfl, rfl, ⟨#[0xCA, 0xFE, 0xBA, 0xBE, 0, 0, 0, 52], #[0, 0, 0, 0, 0, 0, 0, 0, 0, 0, 0, 0, 0, 0], rfl, rfl⟩, [], rfl, rfl⟩

/-- Of the sample, each constant is read back from its index, and the index behind the long is none. -/
theorem askAll_reads_sample : (∃ view, PoolView.parse #[0, 4, 5, 0, 0, 0, 0, 0, 0, 0, 7, 3, 0, 0, 0, 7] 0 = .ok view ∧
      view.rawEntry 1 = .ok (.long 7) ∧ view.rawEntry 2 = .error (.badConstantIndex 2)) ∧
    List.Forall₂ (fun r p => sampleImage.pool.Resolves p r) sampleRequests [.entry 1, .entry 3, .entry 1] := by
  obtain ⟨⟨view, hparse, -, -, hraw, hnothing⟩, hresolves⟩ := askAll_reads askAll_sample carries_sample.encoded
  refine ⟨⟨view, hparse, hraw 1 _ rfl, (hnothing 2 (.inr (.inr ⟨1, .long 7, rfl, rfl, rfl⟩))).2⟩, ?_⟩
  exact hresolves sampleImage carries_sample (by decide) (fun b hb => absurd hb (by simp [ConstantPool.empty]))

end ConstantPool

end ClassFile
