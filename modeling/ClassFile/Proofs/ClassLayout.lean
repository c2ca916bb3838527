import ClassFile.Proofs.PoolScanning
import ClassFile.Proofs.WriterGrowth

/-!
# Where the parts of a class file stand

A class file that a writer makes has its constants behind eight bytes, then its header, its interfaces, fields, methods and
attributes (`Writer.Layout`). The bootstrap methods come last of all, so that a view of the pool shows everything that the
pool holds (`Writer.Layout.exists_view`). Every attribute says its content under the name of that content (`Attribute.Says`).
-/

namespace ClassFile

open ConstantPool

namespace Bytes

/-- The offsets at which pieces stand one after the other. -/
def offsets (start : Nat) : List Bytes → List Nat
  | [] => []
  | p :: ps => start :: offsets (start + p.size) ps

@[simp] theorem length_offsets (start : Nat) (ps : List Bytes) : (offsets start ps).length = ps.length := by
  induction ps generalizing start with
  | nil => rfl
  | cons p ps ih => exact congrArg (· + 1) (ih _)

/-- Every piece stands at its offset. -/
theorem hasAt_offsets {b : Bytes} {start : Nat} {ps : List Bytes} (h : b.HasAt start (concat ps)) {k : Nat} {p : Bytes}
    (hp : ps[k]? = some p) : ∃ offset, (offsets start ps)[k]? = some offset ∧ b.HasAt offset p := by
  induction ps generalizing start k with
  | nil => cases hp
  | cons q ps ih =>
    rw [concat_cons] at h
    obtain ⟨hq, hps⟩ := hasAt_append.1 h
    cases k with
    | zero =>
      obtain rfl := Option.some.inj hp
      exact ⟨start, rfl, hq⟩
    | succ k => exact ih hps hp

end Bytes

/-! ## Attributes -/

/-- An attribute says a content, under its name. -/
def Attribute.Says (pool : ConstantPool) (content : AttributeContent) (a : Attribute) : Prop :=
  pool.HoldsText a.name content.name ∧ a.info = content.encode

/-- An attribute says its content once its name was taken. -/
theorem ensures_attribute (content : AttributeContent) :
    Ensures (ConstantPool.attribute content) fun a later => a.Says later content :=
  (ensures_utf8 content.name).map fun _ _ h => ⟨h, rfl⟩

/-- Attributes say their contents once their names were taken. -/
theorem ensures_internAttributes (contents : List AttributeContent) :
    Ensures (internAttributes contents) fun as later => List.Forall₂ (Attribute.Says later) contents as := by
  induction contents with
  | nil => exact (Ensures.pure []).mono fun as later h => h ▸ .nil
  | cons content rest ih =>
    refine (ensures_attribute content).bind (S := fun as later => List.Forall₂ (Attribute.Says later) (content :: rest) as)
      (R := fun a as later => ∃ as', as = a :: as' ∧ List.Forall₂ (Attribute.Says later) rest as') (fun a => ?_) ?_
    · exact ih.map fun as later h => ⟨as, rfl, h⟩
    · rintro a _ later ha ⟨as, rfl, has⟩
      exact .cons ha has

/-- An entry leaves the bootstrap methods alone. -/
theorem bootstraps_intern (e : Entry) (pool : ConstantPool) : (intern e pool).2.bootstraps = pool.bootstraps := by
  unfold ConstantPool.intern
  split <;> rfl

/-- Attributes need no bootstrap methods. -/
theorem bootstraps_internAttributes (contents : List AttributeContent) (pool : ConstantPool) :
    (internAttributes contents pool).2.bootstraps = pool.bootstraps := by
  induction contents generalizing pool with
  | nil => rfl
  | cons content rest ih =>
    exact (ih (ConstantPool.attribute content pool).2).trans (bootstraps_intern (.utf8 content.name) pool)

namespace ClassDraft

variable {c : ClassDraft} {version : Version} {pool : ConstantPool} {attributes : List Attribute} {b : Bytes}

/-- The attribute of the bootstrap methods of a pool, if there are any. -/
def bootstrapContents (pool : ConstantPool) : List AttributeContent :=
  if pool.bootstraps.isEmpty then [] else [.bootstrapMethods pool.bootstraps.toList]

/-- The bootstrap methods come last, when all other attributes have taken their constants. -/
theorem attributes_eq (c : ClassDraft) (major : UInt16) (pool : ConstantPool) : c.attributes major pool =
    ((internAttributes (c.contents major) pool).1 ++
      (internAttributes (bootstrapContents (internAttributes (c.contents major) pool).2)
        (internAttributes (c.contents major) pool).2).1,
      (internAttributes (bootstrapContents (internAttributes (c.contents major) pool).2)
        (internAttributes (c.contents major) pool).2).2) := by
  unfold attributes bootstrapContents
  generalize c.contents major = contents
  rfl

/-- The attributes of a class keep what attributes keep. Which ones there are depends on the bootstrap methods of the pool,
so this is not a step that only interns. -/
theorem leads_attributes (c : ClassDraft) (major : UInt16) {P : ConstantPool → Prop}
    (h : ∀ contents, Leads (internAttributes contents) P P) : Leads (c.attributes major) P P := by
  intro pool hp
  obtain ⟨hp', hle⟩ := h (c.contents major) pool hp
  rw [attributes_eq]
  generalize internAttributes (c.contents major) pool = own at *
  obtain ⟨hp'', hle'⟩ := h (bootstrapContents own.2) own.2 hp'
  exact ⟨hp'', hle.trans hle'⟩

/-- Taking the names of the attributes leaves the bootstrap methods alone. -/
theorem bootstraps_attributes (c : ClassDraft) (major : UInt16) (pool : ConstantPool) :
    (c.attributes major pool).2.bootstraps = pool.bootstraps := by
  have hown := bootstraps_internAttributes (c.contents major) pool
  rw [attributes_eq]
  generalize internAttributes (c.contents major) pool = own at *
  exact (bootstraps_internAttributes (bootstrapContents own.2) own.2).trans hown

/-- The attributes of a class say its contents, and the bootstrap methods of its pool come last. -/
theorem attributes_says (c : ClassDraft) (major : UInt16) (hb : pool.Built) (hf : (c.attributes major pool).2.Fits) :
    List.Forall₂ (Attribute.Says (c.attributes major pool).2)
      (c.contents major ++ bootstrapContents (c.attributes major pool).2) (c.attributes major pool).1 := by
  obtain ⟨hb', -, hown⟩ := ensures_internAttributes (c.contents major) pool hb
  rw [attributes_eq] at hf ⊢
  generalize internAttributes (c.contents major) pool = own at *
  obtain ⟨hb'', hle', hboot⟩ := ensures_internAttributes (bootstrapContents own.2) own.2 hb'
  have hkept := bootstraps_internAttributes (bootstrapContents own.2) own.2
  generalize hr : internAttributes (bootstrapContents own.2) own.2 = boot at *
  have hsame : bootstrapContents boot.2 = bootstrapContents own.2 := by
    unfold bootstrapContents
    rw [hkept]
  dsimp only at hf ⊢
  rw [hsame]
  exact List.rel_append (hown _ hb'' hle' hf) (hboot _ hb'' (Extends.refl _) hf)

/-- What a class file starts with, before its constants. -/
def preamble (version : Version) : Bytes :=
  Bytes.ofUInt32 magic ++ Bytes.ofUInt16 version.minor ++ Bytes.ofUInt16 version.major

/-- What stands behind the constants of a class: its flags, its name and that of its superclass. -/
def header (c : ClassDraft) (version : Version) : Bytes :=
  Bytes.ofUInt16 (AccessFlags.inClassFile c.access version.major) ++ Bytes.ofUInt16 (c.thisClass.getD 0) ++
    Bytes.ofUInt16 (c.superClass.getD 0)

/-- What stands behind the header of a class, before its attributes. -/
def tables (c : ClassDraft) : Bytes :=
  Bytes.counted (c.interfaces.map Bytes.ofUInt16) ++ (Bytes.counted c.fields.toList ++ Bytes.counted c.methods.toList)

@[simp] theorem size_preamble (version : Version) : (preamble version).size = 8 := rfl

@[simp] theorem size_header (c : ClassDraft) (version : Version) : (c.header version).size = 6 := rfl

/-- A class file is written part by part. -/
theorem encode_eq (h : c.encode version pool attributes = .ok b) : ∃ constants, pool.encode = .ok constants ∧
    b = preamble version ++ (constants ++ (c.header version ++ (c.tables ++ Attribute.encodeTable attributes))) := by
  unfold encode at h
  cases hpool : pool.encode with
  | error e =>
    rw [hpool] at h
    cases h
  | ok constants =>
    rw [hpool] at h
    obtain rfl := Except.ok.inj h
    refine ⟨constants, rfl, ?_⟩
    rw [← Array.foldl_toList, ← Array.foldl_toList, Bytes.foldl_append, Bytes.foldl_append, tables,
      Bytes.counted_eq c.fields.toList, Bytes.counted_eq c.methods.toList, preamble, header]
    simp [Array.append_assoc]

end ClassDraft

/-! ## Class files -/

/-- A step that takes constants changes nothing of a context but its pool. -/
theorem Context.intern_eq {α : Type} (ctx : Context) (step : Interning α) :
    ctx.intern step = ((step ctx.pool).1, { ctx with pool := (step ctx.pool).2 }) := rfl

/-- A class that has been closed is written with attributes that take their names from its pool. -/
structure Writer.Written (closed : Writer) (pool : ConstantPool) (attributes : List Attribute) (b : Bytes) : Prop where
  failure : closed.context.failure = none
  content : closed.draft.attributes closed.context.version.major closed.context.pool = (attributes, pool)
  encoded : closed.draft.encode closed.context.version pool attributes = .ok b

/-- What a class that has been closed is written as. -/
structure Writer.Layout (closed : Writer) (pool : ConstantPool) (constants : Bytes) (attributes : List Attribute)
    (b : Bytes) : Prop where
  failure : closed.context.failure = none
  sound : pool.Sound
  grown : closed.context.pool.Extends pool
  bootstraps : pool.bootstraps = closed.context.pool.bootstraps
  encoded : pool.encode = .ok constants
  content : List.Forall₂ (Attribute.Says pool)
    (closed.draft.contents closed.context.version.major ++ ClassDraft.bootstrapContents pool) attributes
  bytes : b = ClassDraft.preamble closed.context.version ++
    (constants ++ (closed.draft.header closed.context.version ++ (closed.draft.tables ++ Attribute.encodeTable attributes)))

namespace Writer

variable {w closed : Writer} {pool : ConstantPool} {constants : Bytes} {attributes : List Attribute} {b : Bytes}

/-- A class that is written without an error was closed without one. -/
theorem exists_written (h : w.toBytes = .ok b) : ∃ pool attributes, w.closeAll.Written pool attributes b := by
  unfold toBytes at h
  generalize w.closeAll = closed at *
  obtain ⟨context, draft, member, notes, copies⟩ := closed
  dsimp only at h
  cases hfailure : context.failure with
  | some e =>
    rw [hfailure] at h
    cases h
  | none =>
    rw [hfailure] at h
    dsimp only [Context.intern_eq] at h
    generalize hcontent : draft.attributes context.version.major context.pool = r at h
    exact ⟨r.2, r.1, hfailure, hcontent, h⟩

/-- A class that is closed is written as it is. -/
theorem Written.toBytes (h : closed.Written pool attributes b) (hclosed : closed.closeAll = closed) :
    closed.toBytes = .ok b := by
  obtain ⟨hfailure, hattributes, hencoded⟩ := h
  unfold Writer.toBytes
  rw [hclosed]
  obtain ⟨context, draft, member, notes, copies⟩ := closed
  dsimp only at hfailure hattributes hencoded ⊢
  rw [hfailure]
  dsimp only [Context.intern_eq]
  rw [hattributes]
  exact hencoded

/-- What a class is written as has the layout of a class file. -/
theorem Written.layout (h : closed.Written pool attributes b) (hs : closed.context.pool.Sound) :
    ∃ constants, closed.Layout pool constants attributes b := by
  obtain ⟨hfailure, hattributes, hencoded⟩ := h
  have hle := closed.draft.leads_attributes closed.context.version.major
    (fun contents => (grows_internAttributes contents).leads) closed.context.pool hs
  have hsays := closed.draft.attributes_says closed.context.version.major hs.built
  have hkept := closed.draft.bootstraps_attributes closed.context.version.major closed.context.pool
  rw [hattributes] at hle hsays hkept
  obtain ⟨constants, hconstants, hbytes⟩ := ClassDraft.encode_eq hencoded
  exact ⟨constants, hfailure, hle.1, hle.2, hkept, hconstants, hsays (ConstantPool.encode_eq hconstants).1, hbytes⟩

namespace Layout

/-- The parts of a class file stand one behind the other. -/
theorem hasAt (h : closed.Layout pool constants attributes b) : b.HasAt 8 constants ∧
    b.HasAt (8 + constants.size) (closed.draft.header closed.context.version) ∧
    b.HasAt (8 + constants.size + 6) (closed.draft.tables ++ Attribute.encodeTable attributes) := by
  have hwhole := Bytes.hasAt_self b
  rw [h.bytes] at hwhole
  obtain ⟨-, hrest⟩ := Bytes.hasAt_append.1 hwhole
  obtain ⟨hconstants, hrest⟩ := Bytes.hasAt_append.1 hrest
  obtain ⟨hheader, htables⟩ := Bytes.hasAt_append.1 hrest
  rw [← h.bytes] at hconstants hheader htables
  exact ⟨by simpa using hconstants, by simpa using hheader, by simpa using htables⟩

/-- The offsets of the bootstrap methods, which stand at the end of a class file. -/
def bootstrapOffsets (pool : ConstantPool) (b : Bytes) : Array Nat :=
  let methods := pool.bootstraps.toList.map BootstrapMethod.encode
  (Bytes.offsets (b.size - (Bytes.concat methods).size) methods).toArray

/-- The bootstrap methods stand at the end of a class file. -/
theorem hasAt_bootstraps (h : closed.Layout pool constants attributes b) :
    b.HasAt (b.size - (Bytes.concat (pool.bootstraps.toList.map BootstrapMethod.encode)).size)
      (Bytes.concat (pool.bootstraps.toList.map BootstrapMethod.encode)) := by
  have hends : ∃ front, b = front ++ Bytes.concat (pool.bootstraps.toList.map BootstrapMethod.encode) := by
    by_cases hnone : pool.bootstraps.isEmpty = true
    · rw [Array.isEmpty_iff.1 hnone]
      exact ⟨b, by simp⟩
    · have hsays := h.content
      rw [ClassDraft.bootstrapContents, if_neg hnone] at hsays
      have hboot := List.forall₂_drop (closed.draft.contents closed.context.version.major).length hsays
      rw [List.drop_left] at hboot
      obtain ⟨a, as, ha, has, hdrop⟩ := List.forall₂_cons_left_iff.1 hboot
      obtain rfl := List.forall₂_nil_left_iff.1 has
      rw [h.bytes, ← List.take_append_drop (closed.draft.contents closed.context.version.major).length attributes, hdrop,
        Attribute.encodeTable, Bytes.counted_eq, List.map_append, Bytes.concat_append, List.map_cons, List.map_nil,
        Bytes.concat_cons, Bytes.concat_nil, Array.append_empty, Attribute.encode, ha.2,
        AttributeContent.encode, Bytes.counted_eq]
      simp only [← Array.append_assoc]
      exact ⟨_, rfl⟩
  obtain ⟨front, hb⟩ := hends
  refine ⟨front, #[], ?_, ?_⟩
  · rw [Array.append_empty]
    exact hb
  · conv_rhs => rw [hb]
    rw [Array.size_append]
    omega

/-- A bootstrap method stands at the offset of its number. -/
theorem hasAt_bootstrap {start : Nat}
    (hat : b.HasAt start (Bytes.concat (pool.bootstraps.toList.map BootstrapMethod.encode)))
    {k : Nat} {m : BootstrapMethod} (hm : pool.bootstraps[k]? = some m) :
    ∃ offset, (Bytes.offsets start (pool.bootstraps.toList.map BootstrapMethod.encode)).toArray[k]? = some offset ∧
      b.HasAt offset m.encode := by
  have hlisted : (pool.bootstraps.toList.map BootstrapMethod.encode)[k]? = some m.encode := by
    rw [List.getElem?_map, Array.getElem?_toList, hm]
    rfl
  rw [List.getElem?_toArray]
  exact Bytes.hasAt_offsets hat hlisted

/-- A view of the pool of a class file, with the bootstrap methods where they stand, shows all that the pool holds. -/
theorem exists_view (h : closed.Layout pool constants attributes b) : ∃ offsets : Array Nat,
    PoolView.parse b 8 = .ok { bytes := b, offsets, stop := 8 + constants.size } ∧
      PoolView.Shows { bytes := b, offsets, stop := 8 + constants.size, bootstraps := bootstrapOffsets pool b } pool := by
  obtain ⟨offsets, hparse, hsize, -, hentries⟩ := PoolView.parse_encode h.sound.built h.encoded h.hasAt.1
  obtain ⟨hfits, -, htexts⟩ := ConstantPool.encode_eq h.encoded
  exact ⟨offsets, hparse, ⟨hsize, hentries, fun i text htext => htexts _ (mem_of_entryFrom htext)⟩,
    fun k m hm _ => hasAt_bootstrap h.hasAt_bootstraps hm, h.sound.bootstraps_le hfits⟩

end Layout

end Writer

end ClassFile
