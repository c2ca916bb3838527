import ClassFile.Constant.View
import ClassFile.Proofs.PoolConstants
import ClassFile.Proofs.Reading
import ClassFile.Proofs.TextEncoding
import Mathlib.Data.Fintype.Card

/-!
# Reading what a pool holds

A view shows a pool if it finds every entry and every bootstrap method where it stands. What an index names in the pool is
then what the view reads at it: strings, classes, members, handles, constants and call sites.

Dynamic constants may be nested. The depth to which a view looks is the length of the pool, and that suffices: constants of
different nesting have different indices.
-/

namespace ClassFile

/-- Whether there is a place in a class file for all that a handle says: of a field there is none for an interface. -/
def MethodHandle.Encodable (handle : MethodHandle) : Prop :=
  handle.kind.isField = true → handle.member.interface = false

namespace ConstantValue

mutual

/-- How deep dynamic constants are nested in a value. -/
def nesting : ConstantValue → Nat
  | dynamic _ _ _ arguments => nestings arguments + 1
  | _ => 0

/-- How deep dynamic constants are nested in any of the values. -/
def nestings : List ConstantValue → Nat
  | [] => 0
  | value :: rest => max value.nesting (nestings rest)

end

mutual

/-- Whether there is a place in a class file for all that a value says. Arguments are counted in two bytes. -/
def Encodable : ConstantValue → Prop
  | methodHandle handle => handle.Encodable
  | dynamic _ _ bootstrap arguments => bootstrap.Encodable ∧ arguments.length < 65536 ∧ AllEncodable arguments
  | _ => True

/-- Whether there is a place in a class file for all that the values say. -/
def AllEncodable : List ConstantValue → Prop
  | [] => True
  | value :: rest => value.Encodable ∧ AllEncodable rest

end

/-- The tag of the entry of a value. -/
def tag : ConstantValue → UInt8
  | integer _ => Tag.integer
  | float _ => Tag.float
  | long _ => Tag.long
  | double _ => Tag.double
  | string _ => Tag.string
  | type _ => Tag.type
  | methodType _ => Tag.methodType
  | methodHandle _ => Tag.methodHandle
  | dynamic _ _ _ _ => Tag.dynamic

/-- Only dynamic constants have their tag. -/
theorem dynamic_of_tag (value : ConstantValue) (h : value.tag = Tag.dynamic) :
    ∃ name descriptor bootstrap arguments, value = dynamic name descriptor bootstrap arguments := by
  cases value with
  | dynamic name descriptor bootstrap arguments => exact ⟨name, descriptor, bootstrap, arguments, rfl⟩
  | _ => cases h

/-- Only dynamic constants are nested. -/
theorem nesting_of_tag (value : ConstantValue) (h : value.tag ≠ Tag.dynamic) : value.nesting = 0 := by
  cases value with
  | dynamic name descriptor bootstrap arguments => exact absurd rfl h
  | _ => rfl

end ConstantValue

namespace PoolView

/-- A view finds every entry of a pool where it stands. -/
structure ShowsEntries (view : PoolView) (pool : ConstantPool) : Prop where
  length : view.length = pool.nextIndex
  entry : ∀ (i : Nat) (e : Entry), pool.entryAt i = some e →
    ∃ offset, offset ≠ 0 ∧ view.offsets[i]? = some offset ∧ view.bytes.HasAt offset e.encode
  text : ∀ (i : Nat) (text : String), pool.entryAt i = some (.utf8 text) → ModifiedUtf8.length text ≤ 0xFFFF

/-- A view finds every entry and every bootstrap method of a pool where it stands. -/
structure Shows (view : PoolView) (pool : ConstantPool) : Prop extends ShowsEntries view pool where
  bootstrap : ∀ (k : Nat) (b : BootstrapMethod), pool.bootstraps[k]? = some b → b.arguments.length < 65536 →
    ∃ offset, view.bootstraps[k]? = some offset ∧ view.bytes.HasAt offset b.encode
  numbered : pool.bootstraps.size ≤ 0xFFFF

section Shows

variable {view : PoolView} {pool : ConstantPool} {i : PoolIndex}

/-- What stands behind the tag of an entry is read, or as much of it as a reader takes. -/
theorem ShowsEntries.entryReads (hs : view.ShowsEntries pool) {e : Entry} (h : pool.Holds i e) {α : Type}
    {read : UInt8 → Decoder α} {piece rest : Bytes} {a : α} (hp : e.payload = piece ++ rest)
    (hr : Reads (read e.tag) piece a) :
    view.entry i read = .ok a := by
  obtain ⟨offset, hne, hoffset, hat⟩ := hs.entry _ e h
  have hfound : view.offset i = .ok offset := by
    unfold PoolView.offset
    rw [hoffset]
    cases offset with
    | zero => exact absurd rfl hne
    | succ n => rfl
  have hstands : view.bytes.HasAt offset (#[e.tag] ++ piece) := by
    rw [Entry.encode, hp, ← Array.append_assoc] at hat
    exact (Bytes.hasAt_append.1 hat).1
  unfold PoolView.entry
  rw [hfound]
  exact ((Reads.u8 e.tag).bind hr).runAt hstands

/-- What can be read of an entry is read where a view finds it. -/
theorem ShowsEntries.reads (hs : view.ShowsEntries pool) {e : Entry} (h : pool.Holds i e) {α : Type}
    {read : UInt8 → Decoder α} {a : α} (hr : Reads (read e.tag) e.payload a) : view.entry i read = .ok a :=
  hs.entryReads h (Array.append_empty).symm hr

/-- The tag of an entry is found. -/
theorem Shows.tag (hs : view.Shows pool) {e : Entry} (h : pool.Holds i e) : view.tag i = .ok e.tag :=
  hs.entryReads h (Array.empty_append).symm (Reads.pure e.tag)

/-! ## Strings and names -/

/-- A string is read behind its length. -/
theorem reads_text {text : String} (h : ModifiedUtf8.length text ≤ 0xFFFF) : Reads (do
    let length ← Decoder.u16
    return ModifiedUtf8.decode (← Decoder.take length.toNat)) (Entry.utf8 text).payload text := by
  have hsize := ModifiedUtf8.size_encode text
  refine (Reads.u16 _).bind ?_
  rw [UInt16.toNat_ofNat', Nat.mod_eq_of_lt (by omega)]
  have htake := (Reads.take (ModifiedUtf8.encode text)).map ModifiedUtf8.decode
  rwa [ModifiedUtf8.decode_encode] at htake

/-- A string is found. -/
theorem ShowsEntries.utf8 (hs : view.ShowsEntries pool) {text : String} (h : pool.HoldsText i text) :
    view.utf8 i = .ok text :=
  hs.reads h (reads_text (hs.text _ text h))

/-- Of an entry that names a string, the string. -/
theorem Shows.namedString (hs : view.Shows pool) {e : Entry} {j : PoolIndex} {text : String} (h : pool.Holds i e)
    (hp : e.payload = Bytes.ofUInt16 j) (hj : pool.HoldsText j text) : view.namedString i = .ok text := by
  have hread : view.entry i (fun _ => Decoder.u16) = .ok j := hs.reads h (hp ▸ Reads.u16 j)
  unfold PoolView.namedString
  rw [hread]
  exact hs.utf8 hj

/-- The name of a class is found. -/
theorem Shows.typeName (hs : view.Shows pool) {name : String} (h : pool.HoldsType i name) : view.typeName i = .ok name := by
  obtain ⟨j, hi, hj⟩ := h
  exact hs.namedString hi rfl hj

/-- Two indices are read one behind the other. -/
theorem reads_indexPair (i j : PoolIndex) : Reads indexPair (Bytes.ofUInt16 i ++ Bytes.ofUInt16 j) (i, j) :=
  (Reads.u16 i).bind ((Reads.u16 j).map fun j => (i, j))

/-- The kind of a handle and the index behind it are read. -/
theorem reads_handleParts (i : PoolIndex) (kind : HandleKind) (j : PoolIndex) :
    Reads (handleParts i Tag.methodHandle) (#[kind.toUInt8] ++ Bytes.ofUInt16 j) (kind, j) := by
  refine (Reads.u8 kind.toUInt8).bind ?_
  rw [HandleKind.ofUInt8?_toUInt8]
  exact (Reads.u16 j).map fun j => (kind, j)

/-! ## Members and handles -/

/-- A name and its descriptor are found. -/
theorem Shows.nameAndType (hs : view.Shows pool) {name descriptor : String} (h : pool.HoldsNameAndType i name descriptor) :
    view.nameAndType i = .ok (name, descriptor) := by
  obtain ⟨j, k, hi, hj, hk⟩ := h
  have hread : view.entry i (fun _ => indexPair) = .ok (j, k) := hs.reads hi (reads_indexPair j k)
  unfold PoolView.nameAndType
  rw [hread]
  change (do
    let name ← view.utf8 j
    let descriptor ← view.utf8 k
    return (name, descriptor) : Except Error (String × String)) = _
  rw [hs.utf8 hj, hs.utf8 hk]
  rfl

/-- A field or method is read from an entry that names its owner and then its name and type. -/
theorem Shows.member (hs : view.Shows pool) {e : Entry} {j k : PoolIndex} {owner name descriptor : String}
    (h : pool.Holds i e) (hp : e.payload = Bytes.ofUInt16 j ++ Bytes.ofUInt16 k) (hj : pool.HoldsType j owner)
    (hk : pool.HoldsNameAndType k name descriptor) :
    view.memberRef i = .ok ⟨owner, name, descriptor, e.tag == Tag.interfaceMethodRef⟩ := by
  have hread : view.entry i (fun tag => do return (tag, ← indexPair)) = .ok (e.tag, j, k) :=
    hs.reads h (hp ▸ (reads_indexPair j k).map fun r => (e.tag, r))
  unfold PoolView.memberRef
  rw [hread]
  change (do
    let named ← view.nameAndType k
    let owner ← view.typeName j
    return { owner, name := named.1, descriptor := named.2, interface := e.tag == Tag.interfaceMethodRef } :
      Except Error MemberRef) = _
  rw [hs.nameAndType hk, hs.typeName hj]
  rfl

/-- A field is found with its class. -/
theorem Shows.fieldRef (hs : view.Shows pool) {owner name descriptor : String}
    (h : pool.HoldsField i owner name descriptor) :
    view.memberRef i = .ok ⟨owner, name, descriptor, false⟩ := by
  obtain ⟨j, k, hi, hj, hk⟩ := h
  exact hs.member hi rfl hj hk

/-- A method is found with its class. -/
theorem Shows.methodRef (hs : view.Shows pool) {r : MemberRef} (h : pool.HoldsMethod i r) : view.memberRef i = .ok r := by
  obtain ⟨j, k, hi, hj, hk⟩ := h
  obtain ⟨owner, name, descriptor, interface⟩ := r
  rw [hs.member hi rfl hj hk]
  cases interface <;> rfl

/-- A handle is found if a class file can say all of it. -/
theorem Shows.methodHandle (hs : view.Shows pool) {handle : MethodHandle} (h : pool.HoldsHandle i handle)
    (he : handle.Encodable) : view.methodHandle i = .ok handle := by
  obtain ⟨j, hi, hj⟩ := h
  obtain ⟨kind, owner, name, descriptor, interface⟩ := handle
  have hmember : view.memberRef j = .ok ⟨owner, name, descriptor, interface⟩ := by
    dsimp only at hj
    split at hj
    · rename_i hfield
      obtain rfl : interface = false := he hfield
      exact hs.fieldRef hj
    · exact hs.methodRef hj
  unfold PoolView.methodHandle
  rw [hs.reads hi (reads_handleParts i kind j)]
  change (do return { kind, member := ← view.memberRef j } : Except Error MethodHandle) = _
  rw [hmember]
  rfl

/-! ## Bootstrap methods -/

/-- What stands at a bootstrap method is read. -/
theorem Shows.bootstrapEntry (hs : view.Shows pool) {k : UInt16} {b : BootstrapMethod} (h : pool.HoldsBootstrap k b)
    (hb : b.arguments.length < 65536) {α : Type} {read : Decoder α} {a : α} (hr : Reads read b.encode a) :
    view.bootstrapEntry k.toNat read = .ok a := by
  obtain ⟨offset, hoffset, hat⟩ := hs.bootstrap _ b (h hs.numbered) hb
  unfold PoolView.bootstrapEntry
  rw [hoffset]
  exact hr.runAt hat

/-- A bootstrap method is read if its handle and its arguments are. -/
theorem Shows.bootstrapWith (hs : view.Shows pool) {k : UInt16} {b : BootstrapMethod} (h : pool.HoldsBootstrap k b)
    {handle : MethodHandle} (hh : pool.HoldsHandle b.handle handle) (he : handle.Encodable)
    {load : PoolIndex → Except Error ConstantValue} {values : List ConstantValue} (hl : values.length < 65536)
    (hv : List.Forall₂ (fun i value => load i = .ok value) b.arguments values) :
    view.bootstrapWith load k.toNat = .ok (handle, values) := by
  have hlength := hv.length_eq
  have hitems : Reads (Decoder.counted do load (← Decoder.u16)) (Bytes.counted (b.arguments.map Bytes.ofUInt16))
      values.toArray := by
    have hmany : ∀ (is : List PoolIndex) (vs : List ConstantValue),
        List.Forall₂ (fun i value => load i = .ok value) is vs → ∀ acc,
          Reads (Decoder.manyFrom (do load (← Decoder.u16)) is.length acc) (Bytes.concat (is.map Bytes.ofUInt16))
            (acc ++ vs.toArray) := by
      intro is vs hv
      induction hv with
      | nil =>
        intro acc
        simpa [Decoder.manyFrom] using Reads.pure acc
      | @cons i value is vs hi _ ih =>
        intro acc
        have hitem : Reads (do load (← Decoder.u16) : Decoder ConstantValue) (Bytes.ofUInt16 i) value :=
          (Reads.u16 i).bindEmpty (Reads.lift hi)
        have := hitem.bind (f := fun a => Decoder.manyFrom (do load (← Decoder.u16)) is.length (acc.push a))
          (ih (acc.push value))
        simpa [Decoder.manyFrom] using this
    rw [Bytes.counted_eq, List.length_map]
    refine (Reads.u16 _).bind ?_
    rw [UInt16.toNat_ofNat', Nat.mod_eq_of_lt (by omega)]
    simpa [Decoder.many] using hmany b.arguments values hv #[]
  refine hs.bootstrapEntry h (by omega) ?_
  unfold BootstrapMethod.encode
  have hhandle : Reads (do view.methodHandle (← Decoder.u16) : Decoder MethodHandle) (Bytes.ofUInt16 b.handle) handle :=
    (Reads.u16 b.handle).bindEmpty (Reads.lift (hs.methodHandle hh he))
  have := hhandle.bind (f := fun handle => do
    let arguments ← Decoder.counted do load (← Decoder.u16)
    return (handle, arguments.toList)) (hitems.map fun arguments => (handle, arguments.toList))
  simpa only [bind_assoc, List.toList_toArray] using this

/-! ## Values -/

/-- The entry of a value has its tag. -/
theorem holds_of_holdsConstant {value : ConstantValue} (h : pool.HoldsConstant i value) :
    ∃ e, pool.Holds i e ∧ e.tag = value.tag := by
  cases value with
  | string text | type name | methodType descriptor | methodHandle handle =>
    obtain ⟨j, hi, -⟩ := h
    exact ⟨_, hi, rfl⟩
  | dynamic name descriptor bootstrap arguments =>
    simp only [ConstantPool.HoldsConstant] at h
    obtain ⟨k, j, b, hi, -⟩ := h
    exact ⟨_, hi, rfl⟩
  | _ => exact ⟨_, h, rfl⟩

/-- The values that one index names have one tag. -/
theorem tag_unique {v w : ConstantValue} (hv : pool.HoldsConstant i v) (hw : pool.HoldsConstant i w) : v.tag = w.tag := by
  obtain ⟨e, he, hev⟩ := holds_of_holdsConstant hv
  obtain ⟨e', he', hew⟩ := holds_of_holdsConstant hw
  obtain rfl := Option.some.inj (he.symm.trans he')
  rw [← hev, hew]

mutual

/-- Values that one index names have the same nesting. -/
theorem nesting_unique (hn : pool.bootstraps.size ≤ 0xFFFF) (i : PoolIndex) : ∀ v w : ConstantValue,
    pool.HoldsConstant i v → pool.HoldsConstant i w → v.nesting = w.nesting
  | .dynamic _ _ _ vs, w, hv, hw => by
    obtain ⟨name, descriptor, bootstrap, ws, rfl⟩ := w.dynamic_of_tag (tag_unique hv hw).symm
    simp only [ConstantPool.HoldsConstant] at hv hw
    obtain ⟨k, j, b, hi, -, hk, -, hvs⟩ := hv
    obtain ⟨k', j', b', hi', -, hk', -, hws⟩ := hw
    obtain ⟨rfl, rfl⟩ := Entry.dynamic.inj (Option.some.inj (hi.symm.trans hi'))
    obtain rfl := Option.some.inj ((hk hn).symm.trans (hk' hn))
    simp only [ConstantValue.nesting, nestings_unique hn b.arguments vs ws hvs hws]
  | .integer _, w, hv, hw | .float _, w, hv, hw | .long _, w, hv, hw | .double _, w, hv, hw | .string _, w, hv, hw
  | .type _, w, hv, hw | .methodType _, w, hv, hw | .methodHandle _, w, hv, hw =>
    (w.nesting_of_tag fun h => nomatch (tag_unique hv hw).trans h).symm

/-- Values that indices name, one each, are nested as deep as others that they name. -/
theorem nestings_unique (hn : pool.bootstraps.size ≤ 0xFFFF) : ∀ (is : List PoolIndex) (vs ws : List ConstantValue),
    pool.HoldsConstants is vs → pool.HoldsConstants is ws → ConstantValue.nestings vs = ConstantValue.nestings ws
  | [], [], [], _, _ => rfl
  | i :: is, v :: vs, w :: ws, ⟨hv, hvs⟩, ⟨hw, hws⟩ => by
    simp only [ConstantValue.nestings, nesting_unique hn i v w hv hw, nestings_unique hn is vs ws hvs hws]

end

mutual

/-- For each nesting up to that of a value, there is a value that an index names. -/
theorem exists_nested : ∀ (i : PoolIndex) (v : ConstantValue), pool.HoldsConstant i v → ∀ n, 0 < n → n ≤ v.nesting →
    ∃ j w, pool.HoldsConstant j w ∧ w.nesting = n
  | i, .dynamic name descriptor bootstrap vs, hv, n, hpos, hn => by
    by_cases h : n = (ConstantValue.dynamic name descriptor bootstrap vs).nesting
    · exact ⟨i, _, hv, h.symm⟩
    · simp only [ConstantPool.HoldsConstant] at hv
      obtain ⟨k, j, b, -, -, -, -, hvs⟩ := hv
      simp only [ConstantValue.nesting] at h hn
      exact exists_nesteds b.arguments vs hvs n hpos (by omega)
  | _, .integer _, _, n, hpos, hn | _, .float _, _, n, hpos, hn | _, .long _, _, n, hpos, hn | _, .double _, _, n, hpos, hn
  | _, .string _, _, n, hpos, hn | _, .type _, _, n, hpos, hn | _, .methodType _, _, n, hpos, hn
  | _, .methodHandle _, _, n, hpos, hn => absurd (Nat.le_zero.1 hn) (Nat.ne_of_gt hpos)

/-- For each nesting up to that of the deepest of some values, there is a value that an index names. -/
theorem exists_nesteds : ∀ (is : List PoolIndex) (vs : List ConstantValue), pool.HoldsConstants is vs → ∀ n, 0 < n →
    n ≤ ConstantValue.nestings vs → ∃ j w, pool.HoldsConstant j w ∧ w.nesting = n
  | [], [], _, n, hpos, hn => absurd (Nat.le_zero.1 hn) (Nat.ne_of_gt hpos)
  | i :: is, v :: vs, ⟨hv, hvs⟩, n, hpos, hn => by
    rw [ConstantValue.nestings] at hn
    rcases Nat.le_total v.nesting (ConstantValue.nestings vs) with h | h
    · exact exists_nesteds is vs hvs n hpos (by omega)
    · exact exists_nested i v hv n hpos (by omega)

end

/-- Dynamic constants are nested less deep than a pool is long: each nesting has an index of its own. -/
theorem nesting_lt (hp : pool.Built) (hn : pool.bootstraps.size ≤ 0xFFFF) {v : ConstantValue} (hv : pool.HoldsConstant i v) :
    v.nesting < pool.nextIndex := by
  have hnested : ∀ n : Fin v.nesting, ∃ j w, pool.HoldsConstant j w ∧ w.nesting = n.val + 1 := fun n =>
    exists_nested i v hv (n.val + 1) (Nat.succ_pos _) n.isLt
  choose index value hvalue hvalues using hnested
  have hbounds : ∀ n, 1 ≤ (index n).toNat ∧ (index n).toNat < pool.nextIndex := by
    intro n
    obtain ⟨e, he, -⟩ := holds_of_holdsConstant (hvalue n)
    rw [hp.nextIndex_eq]
    exact ConstantPool.entryFrom_bounds he
  have hinjective : Function.Injective fun n =>
    (⟨(index n).toNat - 1, by have := hbounds n; omega⟩ : Fin (pool.nextIndex - 1)) := by
    intro n k hnk
    have hsame : index n = index k := by
      have h1 := hbounds n
      have h2 := hbounds k
      have h3 : (index n).toNat - 1 = (index k).toNat - 1 := congrArg Fin.val hnk
      exact UInt16.toNat_inj.1 (by omega)
    have := nesting_unique hn (index n) _ _ (hvalue n) (hsame ▸ hvalue k)
    rw [hvalues, hvalues] at this
    exact Fin.ext (by omega)
  have hcard := Fintype.card_le_of_injective _ hinjective
  have hlength := hp.nextIndex_eq
  simp only [Fintype.card_fin] at hcard
  omega

/-- None of several values is nested deeper than all of them. -/
theorem nesting_le_of_forall₂ {is : List PoolIndex} {vs : List ConstantValue} (h : pool.HoldsConstants is vs)
    (he : ConstantValue.AllEncodable vs) : List.Forall₂ (fun i v => pool.HoldsConstant i v ∧ v.Encodable ∧
      v.nesting ≤ ConstantValue.nestings vs) is vs := by
  induction is generalizing vs with
  | nil =>
    cases vs with
    | nil => exact .nil
    | cons v vs => exact h.elim
  | cons i is ih =>
    cases vs with
    | nil => exact h.elim
    | cons v vs =>
      rw [ConstantValue.nestings]
      refine .cons ⟨h.1, he.1, Nat.le_max_left _ _⟩ ((ih h.2 he.2).imp fun j w ⟨hw, hew, hn⟩ => ⟨hw, hew, ?_⟩)
      exact Nat.le_trans hn (Nat.le_max_right _ _)

/-- A value is read that is nested less deep than the view looks. -/
theorem Shows.constantWithin (hs : view.Shows pool) (depth : Nat) : ∀ (i : PoolIndex) (value : ConstantValue),
    pool.HoldsConstant i value → value.Encodable → value.nesting < depth → view.constantWithin depth i = .ok value := by
  induction depth with
  | zero => exact fun _ _ _ _ hn => absurd hn (Nat.not_lt_zero _)
  | succ depth ih =>
    intro i value hv he hn
    obtain ⟨e, hi, htag⟩ := holds_of_holdsConstant hv
    have hread := hs.tag hi
    rw [htag] at hread
    unfold PoolView.constantWithin
    rw [hread]
    cases value with
    | integer n =>
      change (do return .integer (← view.integer i) : Except Error ConstantValue) = _
      rw [show view.integer i = .ok n from hs.reads hv (Reads.i32 n)]
      rfl
    | float n =>
      change (do return .float (← view.float i) : Except Error ConstantValue) = _
      rw [show view.float i = .ok n from hs.reads hv (Reads.u32 n)]
      rfl
    | long n =>
      change (do return .long (← view.long i) : Except Error ConstantValue) = _
      rw [show view.long i = .ok n from hs.reads hv (Reads.i64 n)]
      rfl
    | double n =>
      change (do return .double (← view.double i) : Except Error ConstantValue) = _
      rw [show view.double i = .ok n from hs.reads hv (Reads.u64 n)]
      rfl
    | string text =>
      obtain ⟨j, hj, htext⟩ := hv
      change (do return .string (← view.namedString i) : Except Error ConstantValue) = _
      rw [hs.namedString hj rfl htext]
      rfl
    | type name =>
      change (do return .type (← view.typeName i) : Except Error ConstantValue) = _
      rw [hs.typeName hv]
      rfl
    | methodType descriptor =>
      obtain ⟨j, hj, htext⟩ := hv
      change (do return .methodType (← view.namedString i) : Except Error ConstantValue) = _
      rw [hs.namedString hj rfl htext]
      rfl
    | methodHandle handle =>
      change (do return .methodHandle (← view.methodHandle i) : Except Error ConstantValue) = _
      rw [hs.methodHandle hv he]
      rfl
    | dynamic name descriptor bootstrap arguments =>
      simp only [ConstantPool.HoldsConstant] at hv
      obtain ⟨k, j, b, hk, hj, hb, hh, ha⟩ := hv
      obtain ⟨hbootstrap, hlength, harguments⟩ := he
      simp only [ConstantValue.nesting] at hn
      have hloads : List.Forall₂ (fun i value => view.constantWithin depth i = .ok value) b.arguments arguments :=
        (nesting_le_of_forall₂ ha harguments).imp fun i v h => ih i v h.1 h.2.1 (by omega)
      change (do
        let r ← view.entry i fun _ => indexPair
        let named ← view.nameAndType r.2
        let made ← view.bootstrapWith (view.constantWithin depth) r.1.toNat
        return .dynamic named.1 named.2 made.1 made.2 : Except Error ConstantValue) = _
      rw [show view.entry i (fun _ => indexPair) = .ok (k, j) from hs.reads hk (reads_indexPair k j)]
      change (do
        let named ← view.nameAndType j
        let made ← view.bootstrapWith (view.constantWithin depth) k.toNat
        return .dynamic named.1 named.2 made.1 made.2 : Except Error ConstantValue) = _
      rw [hs.nameAndType hj, hs.bootstrapWith hb hh hbootstrap hlength hloads]
      rfl

/-- The value that an index names is read. -/
theorem Shows.constant (hs : view.Shows pool) (hp : pool.Built) {value : ConstantValue} (hv : pool.HoldsConstant i value)
    (he : value.Encodable) : view.constant i = .ok value := by
  have := nesting_lt hp hs.numbered hv
  have := hs.length
  exact hs.constantWithin _ i value hv he (by omega)

/-- The call site that an index names is read. -/
theorem Shows.callSite (hs : view.Shows pool) (hp : pool.Built) {name descriptor : String} {handle : MethodHandle}
    {arguments : List ConstantValue} (h : pool.HoldsCallSite i name descriptor handle arguments) (he : handle.Encodable)
    (hl : arguments.length < 65536) (ha : ConstantValue.AllEncodable arguments) :
    view.callSite i = .ok (name, descriptor, handle, arguments) := by
  obtain ⟨k, j, b, hk, hj, hb, hh, hv⟩ := h
  have hloads : List.Forall₂ (fun i value => view.constant i = .ok value) b.arguments arguments :=
    (nesting_le_of_forall₂ hv ha).imp fun i v h => hs.constant hp h.1 h.2.1
  unfold PoolView.callSite
  rw [show view.entry i (fun _ => indexPair) = .ok (k, j) from hs.reads hk (reads_indexPair k j)]
  change (do
    let named ← view.nameAndType j
    let made ← view.bootstrapWith view.constant k.toNat
    return (named.1, named.2, made.1, made.2) : Except Error _) = _
  rw [hs.nameAndType hj, hs.bootstrapWith hb hh he hl hloads]
  rfl

end Shows

end PoolView

end ClassFile
