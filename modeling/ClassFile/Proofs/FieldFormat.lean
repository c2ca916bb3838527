import ClassFile.Proofs.AnnotationReplay
import ClassFile.Proofs.AttributeFormat
import ClassFile.Proofs.ClassPools

/-!
# The format of fields

A field that a writer closes stands in the class file with its head and its attributes (`WrittenField`). A reader reports it
with events (`WrittenField.tells`) that put the same bytes into a class whose pool knows the constants (`WrittenField.play`).
The constant that a field starts with is read in its plain form, which is interned just so (`constant_plain`).
-/

namespace ClassFile

open ConstantPool

open Decoder (Goes)

/-! ## Constants in their plain form -/

namespace ConstantPool

/-- A handle and its plain form are one constant. -/
theorem methodHandle_plain (handle : MethodHandle) : methodHandle handle.plain = methodHandle handle := by
  unfold MethodHandle.plain
  split
  · rename_i hfield
    obtain ⟨kind, owner, name, descriptor, interface⟩ := handle
    unfold methodHandle
    dsimp only at hfield ⊢
    rw [if_pos hfield, if_pos hfield]
  · rfl

mutual

/-- A value and its plain form are one constant. -/
theorem constant_plain : ∀ value : ConstantValue, constant value.plain = constant value
  | .methodHandle handle => by
    simp only [ConstantValue.plain, constant]
    exact methodHandle_plain handle
  | .dynamic name descriptor bootstrap arguments => by
    simp only [ConstantValue.plain, constant, methodHandle_plain, constants_plain arguments]
  | .integer value => by simp only [ConstantValue.plain]
  | .float bits => by simp only [ConstantValue.plain]
  | .long value => by simp only [ConstantValue.plain]
  | .double bits => by simp only [ConstantValue.plain]
  | .string text => by simp only [ConstantValue.plain]
  | .type name => by simp only [ConstantValue.plain]
  | .methodType descriptor => by simp only [ConstantValue.plain]

/-- Values and their plain forms are the same constants. -/
theorem constants_plain : ∀ values : List ConstantValue, constants (ConstantValue.plainAll values) = constants values
  | [] => by simp only [ConstantValue.plainAll]
  | value :: rest => by simp only [ConstantValue.plainAll, constants, constant_plain value, constants_plain rest]

end

end ConstantPool

/-! ## Fields -/

namespace FieldDraft

/-- The contents of the attributes of a field, given the indices of its value and its signature. -/
def contents (f : FieldDraft) (value signature : Option PoolIndex) (major : UInt16) : List AttributeContent :=
  (value.map AttributeContent.constantValue).toList ++ (syntheticMarker f.access major ++ deprecatedMarker f.access) ++
    (signature.map AttributeContent.signature).toList ++ annotationsContent f.annotations

/-- What stands before the attributes of a field. -/
def encodeHead (f : FieldDraft) (major : UInt16) : Bytes :=
  Bytes.ofUInt16 (AccessFlags.inClassFile f.access major) ++ Bytes.ofUInt16 f.name ++ Bytes.ofUInt16 f.descriptor

/-- The attribute of the value that a field starts with. -/
def valueAttributes : Option ConstantValue → Interning (List Attribute)
  | some value => do
    let i ← constant value
    internAttributes [.constantValue i]
  | none => pure []

/-- The attribute of a signature. -/
def signatureAttributes : Option String → Interning (List Attribute)
  | some signature => do
    let i ← utf8 signature
    internAttributes [.signature i]
  | none => pure []

/-- The attributes of a field are written in this order: value, markers, signature, annotations. -/
theorem attributes_eq (f : FieldDraft) (major : UInt16) : f.attributes major = (do
    let value ← valueAttributes f.value
    let markers ← internAttributes (syntheticMarker f.access major ++ deprecatedMarker f.access)
    let signature ← signatureAttributes f.signature
    let rest ← internAttributes (annotationsContent f.annotations)
    return value ++ markers ++ signature ++ rest) := by
  obtain ⟨access, name, descriptor, signature, value, annotations⟩ := f
  cases value <;> cases signature <;> rfl

/-- Writing the attributes of a field only asks the pool for constants. -/
theorem interns_attributes (f : FieldDraft) (major : UInt16) : Interns (f.attributes major) := by
  have hvalue : Interns (valueAttributes f.value) := by
    cases f.value with
    | none => exact .pure []
    | some value => exact (settles_constant value).interns.bind fun i => interns_internAttributes _
  have hsignature : Interns (signatureAttributes f.signature) := by
    cases f.signature with
    | none => exact .pure []
    | some signature => exact (Interns.intern (.utf8 signature)).bind fun i => interns_internAttributes _
  rw [attributes_eq]
  exact hvalue.bind fun value => (interns_internAttributes _).bind fun markers => hsignature.bind fun signature =>
    (interns_internAttributes _).bind fun rest => .pure _

/-- Writing a field only asks the pool for constants. -/
theorem interns_encode (f : FieldDraft) (major : UInt16) : Interns (f.encode major) :=
  (f.interns_attributes major).bind fun _ => .pure _

/-- The value of a field is named by its attribute, if there is one. -/
theorem ensures_valueAttributes (value : Option ConstantValue) : Ensures (valueAttributes value) fun as later =>
    ∃ found : Option PoolIndex, Option.Rel (fun value i => later.HoldsConstant i value) value found ∧
      List.Forall₂ (Attribute.Says later) (found.map AttributeContent.constantValue).toList as := by
  cases value with
  | none => exact (Ensures.pure []).mono fun as later h => ⟨none, .none, h ▸ .nil⟩
  | some value =>
    exact (ensures_constant value).andThen fun i => (ensures_internAttributes [.constantValue i]).mono
      fun as later has hi => ⟨some i, .some hi, has⟩

/-- The signature of a field is named by its attribute, if there is one. -/
theorem ensures_signatureAttributes (signature : Option String) : Ensures (signatureAttributes signature) fun as later =>
    ∃ found : Option PoolIndex, Option.Rel (fun text i => later.HoldsText i text) signature found ∧
      List.Forall₂ (Attribute.Says later) (found.map AttributeContent.signature).toList as := by
  cases signature with
  | none => exact (Ensures.pure []).mono fun as later h => ⟨none, .none, h ▸ .nil⟩
  | some signature =>
    exact (ensures_utf8 signature).andThen fun i => (ensures_internAttributes [.signature i]).mono
      fun as later has hi => ⟨some i, .some hi, has⟩

/-- The attributes of a field say its value, its markers, its signature and its annotations. -/
theorem ensures_attributes (f : FieldDraft) (major : UInt16) : Ensures (f.attributes major) fun as later =>
    ∃ value signature, Option.Rel (fun value i => later.HoldsConstant i value) f.value value ∧
      Option.Rel (fun text i => later.HoldsText i text) f.signature signature ∧
      List.Forall₂ (Attribute.Says later) (f.contents value signature major) as := by
  rw [attributes_eq]
  refine (ensures_valueAttributes _).andThen fun values => (ensures_internAttributes _).andThen fun markers =>
    (ensures_signatureAttributes _).andThen fun signatures => (ensures_internAttributes _).map ?_
  rintro rest later hrest ⟨signature, hsignature, hsignatures⟩ hmarkers ⟨value, hvalue, hvalues⟩
  exact ⟨value, signature, hvalue, hsignature,
    List.rel_append (List.rel_append (List.rel_append hvalues hmarkers) hsignatures) hrest⟩

/-- What is written of a field is its head and attributes that say what the field does. -/
theorem ensures_encode (f : FieldDraft) (major : UInt16) : Ensures (f.encode major) fun bytes later =>
    ∃ value signature as, Option.Rel (fun value i => later.HoldsConstant i value) f.value value ∧
      Option.Rel (fun text i => later.HoldsText i text) f.signature signature ∧
      List.Forall₂ (Attribute.Says later) (f.contents value signature major) as ∧
      bytes = f.encodeHead major ++ Attribute.encodeTable as :=
  (f.ensures_attributes major).map fun as _ ⟨value, signature, hvalue, hsignature, has⟩ =>
    ⟨value, signature, as, hvalue, hsignature, has, rfl⟩

/-- The plain form of a value makes the same field. -/
theorem encode_plain (f : FieldDraft) (major : UInt16) :
    encode { f with value := f.value.map ConstantValue.plain } major = f.encode major := by
  have hvalue : valueAttributes (f.value.map ConstantValue.plain) = valueAttributes f.value := by
    cases f.value with
    | none => rfl
    | some value =>
      change (do
        let i ← constant value.plain
        internAttributes [.constantValue i]) = _
      rw [constant_plain]
      rfl
  unfold encode
  rw [attributes_eq, attributes_eq, hvalue]

end FieldDraft

/-- A field as it stands in a class file with a pool, and the events that a reader reports. -/
inductive WrittenField (pool : ConstantPool) (major : UInt16) : Bytes → List Event → Prop where
  | intro {f : FieldDraft} {name descriptor : String} {events : List Event} {bytes : Bytes} :
    FlagOwner.fields.truncate f.access = f.access → pool.Knows (utf8 name) f.name →
    pool.Knows (utf8 descriptor) f.descriptor → f.annotations.Stands pool events → pool.Knows (f.encode major) bytes →
    WrittenField pool major bytes
      (.fieldOpen f.access name descriptor f.signature (f.value.map ConstantValue.plain) :: (events ++ [.fieldClose]))

/-! ## Reading -/

section Reading

variable {view : PoolView} {pool : ConstantPool} {copies : Option SourceId} {f : FieldDraft}
  {major : UInt16} {as : List RawAttribute}

/-- What fields have in common with classes is gathered alike. -/
theorem gathers_field (view : PoolView) :
    Gathers view (Image.addFieldAttribute view) FieldAttributes.common fun f common => { f with common } where
  add h := by
    unfold Image.addFieldAttribute
    rw [h]
    rfl
  same _ := rfl

/-- The value that a field starts with is gathered in its plain form. -/
theorem foldlM_constantValue (hs : view.Reveals pool) {i : Option PoolIndex} {value : Option ConstantValue}
    (hvalue : Option.Rel (fun value i => pool.HoldsConstant i value) value i)
    (has : List.Forall₂ (RawAttribute.Says view.bytes) (i.map AttributeContent.constantValue).toList as)
    (common : CommonAttributes) :
    as.foldlM (Image.addFieldAttribute view) { common } = .ok { common, value := value.map ConstantValue.plain } := by
  refine foldlM_option (R := fun value i => pool.HoldsConstant i value) hvalue has
    (fun value => ({ common, value := value.map ConstantValue.plain } : FieldAttributes)) rfl fun {value i a} hvalue ha => ?_
  obtain ⟨hplain, hencodable⟩ := holdsConstant_plain hs.arguments hs.numbered i value hvalue
  have hname : a.name = "ConstantValue" := ha.name
  have hindex : Decoder.u16.runAt view.bytes a.start = .ok i := (Reads.u16 i).runAt ha.stands
  unfold Image.addFieldAttribute
  rw [CommonAttributes.add_other (by rw [hname]; decide)]
  change (if a.name == "ConstantValue" then _ else _) = _
  rw [if_pos (beq_iff_eq.2 hname), hindex]
  change (view.constant i >>= _) = _
  rw [hs.toShows.constant hs.built hplain hencodable]
  rfl

/-- What a reader gathers from the attributes of a field. -/
theorem fieldAttributes_says (hs : view.Reveals pool) {value signature : Option PoolIndex}
    (hvalue : Option.Rel (fun value i => pool.HoldsConstant i value) f.value value)
    (hsignature : Option.Rel (fun text i => pool.HoldsText i text) f.signature signature)
    (has : List.Forall₂ (RawAttribute.Says view.bytes) (f.contents value signature major) as) : ∃ found : Option Nat,
    Image.fieldAttributes view as = .ok {
      common := {
        signature := f.signature, deprecated := AccessFlags.isDeprecated f.access
        synthetic := AccessFlags.hasSyntheticMarker f.access major, annotations := found }
      value := f.value.map ConstantValue.plain } ∧
    f.annotations.FoundAt view.bytes found := by
  obtain ⟨front, annotations, hfront, hannotations, rfl⟩ := forall₂_append_left has
  obtain ⟨plain, signatures, hplain, hsignatures, rfl⟩ := forall₂_append_left hfront
  obtain ⟨values, markers, hvalues, hmarkers, rfl⟩ := forall₂_append_left hplain
  obtain ⟨synthetics, deprecateds, hsynthetics, hdeprecateds, rfl⟩ := forall₂_append_left hmarkers
  have hg := gathers_field view
  have hbefore := foldlM_append (foldlM_append (foldlM_constantValue hs hvalue hvalues {})
    (foldlM_append (hg.synthetic hsynthetics rfl) (hg.deprecated hdeprecateds rfl)))
      (hg.signature (hs.texts hsignature) hsignatures rfl)
  obtain ⟨found, hlast, hfound⟩ := hg.annotations hannotations (s := {
    common := {
      signature := f.signature, deprecated := AccessFlags.isDeprecated f.access
      synthetic := AccessFlags.hasSyntheticMarker f.access major }
    value := f.value.map ConstantValue.plain }) rfl
  exact ⟨found, foldlM_append hbefore hlast, hfound⟩

/-- A field has five attributes at most. -/
theorem FieldDraft.length_contents (f : FieldDraft) (value signature : Option PoolIndex) (major : UInt16) :
    (f.contents value signature major).length ≤ 5 := by
  have hoption : ∀ (i : Option PoolIndex) (g : PoolIndex → AttributeContent), (i.map g).toList.length ≤ 1 := by
    intro i g
    cases i <;> simp
  have := length_syntheticMarker f.access major
  have := length_deprecatedMarker f.access
  have := length_annotationsContent f.annotations
  have := hoption value AttributeContent.constantValue
  have := hoption signature AttributeContent.signature
  unfold contents
  simp only [List.length_append]
  omega

/-- A field is read as its events. -/
theorem WrittenField.tells (hs : view.Reveals pool) {bytes : Bytes} {events : List Event}
    (h : WrittenField pool major bytes events)
    {at0 : Nat} (hat : view.bytes.HasAt at0 bytes) (hsize : bytes.size < 4294967296) :
    (Image.narrateField view { copies }).Tells ⟨view.bytes, at0⟩ events () ⟨view.bytes, at0 + bytes.size⟩ := by
  obtain ⟨hflags, hname, hdescriptor, hannotations, hknown⟩ := h
  rename_i f name descriptor events
  obtain ⟨value, signature, as, hvalue, hsignature, has, rfl⟩ := hknown.ensured hs.built hs.fits (f.ensures_encode major)
  have hlength := f.length_contents value signature major
  obtain ⟨hhead, htable⟩ := Bytes.hasAt_append.1 hat
  rw [Array.size_append] at hsize
  obtain ⟨raws, hfound, hraws⟩ := Image.exists_attributeTable hs.toShowsEntries has (by omega) (by omega) htable
  obtain ⟨found, hgathered, hplace⟩ := fieldAttributes_says hs hvalue hsignature hraws
  have hstop : at0 + (f.encodeHead major ++ Attribute.encodeTable as).size = at0 + 6 + (Attribute.encodeTable as).size := by
    rw [Array.size_append, ← Nat.add_assoc]
    rfl
  have hbits := FlagOwner.truncate_inClassFile .fields hflags major
  have htail : Walk.Tells (do
      Image.walkAt view found (Walk.annotationList view { copies })
      Walk.report .fieldClose) ⟨view.bytes, at0 + 6 + (Attribute.encodeTable as).size⟩ (events ++ [.fieldClose]) ()
      ⟨view.bytes, at0 + 6 + (Attribute.encodeTable as).size⟩ :=
    ((hannotations.tells_at hs hplace).lift _).bind (Walk.Tells.report _) rfl
  rw [hstop]
  refine Walk.Tells.memberHead hs hname hdescriptor hhead (Walk.Tells.after hfound (Walk.Tells.known hgathered ?_))
  exact (Walk.Tells.report _).bind ((Walk.tells_wanted rfl _).bind htail rfl)
    (congrArg (fun access => Event.fieldOpen access name descriptor f.signature _ :: _) hbits)

end Reading

/-! ## Writing again -/

/-- The events of a field put the field into the class. -/
theorem WrittenField.play {ctx : Context} {draft : ClassDraft} {copies : Array Bool} {bytes : Bytes} {events : List Event}
    (h : WrittenField ctx.pool ctx.version.major bytes events) :
    Writer.play ⟨ctx, draft, none, none, copies⟩ events =
    ⟨ctx, { draft with fields := draft.fields.push bytes }, none, none, copies⟩ := by
  obtain ⟨-, hname, hdescriptor, hannotations, hknown⟩ := h
  rename_i f name descriptor events
  have hopened : Writer.step ⟨ctx, draft, none, none, copies⟩
      (.fieldOpen f.access name descriptor f.signature (f.value.map ConstantValue.plain)) =
      ⟨ctx, draft, some (.field { f with value := f.value.map ConstantValue.plain, annotations := {} }), none, copies⟩ := by
    have hstart : ctx.pool.Knows (FieldDraft.start f.access name descriptor f.signature (f.value.map ConstantValue.plain))
        { f with value := f.value.map ConstantValue.plain, annotations := {} } :=
      hname.bind (hdescriptor.map fun descriptor =>
        ({ f with descriptor, value := f.value.map ConstantValue.plain, annotations := {} } : FieldDraft))
    exact congrArg (fun r : FieldDraft × Context => (⟨r.2, draft, some (.field r.1), none, copies⟩ : Writer))
      (Context.intern_known hstart)
  have hannotated := hannotations.play (fun _ => draft) (fun list =>
    some (.field { f with value := f.value.map ConstantValue.plain, annotations := list })) copies (fun _ _ => rfl) {}
  rw [AnnotationList.grow_empty] at hannotated
  have hclosed : ctx.pool.Knows (FieldDraft.encode { f with value := f.value.map ConstantValue.plain } ctx.version.major)
    bytes := by
    rw [FieldDraft.encode_plain]
    exact hknown
  change Writer.play (Writer.step _ _) (events ++ [.fieldClose]) = _
  rw [hopened, Writer.play_append, hannotated, Writer.play_singleton]
  exact congrArg (fun r : Bytes × Context =>
    (⟨r.2, { draft with fields := draft.fields.push r.1 }, none, none, copies⟩ : Writer))
    (Context.intern_known hclosed)

end ClassFile
