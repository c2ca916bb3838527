import ClassFile.Proofs.AnnotationReplay
import ClassFile.Proofs.AttributeFormat

/-!
# The format of methods

A method that a writer closes stands in the class file with its head and its attributes, the code first if there
is any (`WrittenMethod`). A reader whose listener takes methods as they stand reports its head and the bytes of
its attributes (`WrittenMethod.tells`), and a writer that has the pool of the class file puts the same bytes into
its class (`WrittenMethod.play`).
-/

namespace ClassFile

open ConstantPool

open Decoder (Goes)

namespace MethodDraft

variable {ctx ctx' : Context} {m : MethodDraft} {bytes : Bytes}

/-- The contents of the attributes of a method, given its code. -/
def contents (m : MethodDraft) (code : Option CodeContent) (major : UInt16) : List AttributeContent :=
  (code.map AttributeContent.code).toList ++ m.plainContents major

/-- A method has seven attributes at most. -/
theorem length_contents (m : MethodDraft) (code : Option CodeContent) (major : UInt16) :
    (m.contents code major).length ≤ 7 := by
  have := m.length_plainContents major
  unfold contents
  cases code <;> simp <;> omega

/-- What is found out about the code changes only the control flow. -/
theorem analysed_draft (ctx : Context) (m : MethodDraft) (exceptions : List ExceptionRange) :
    ∃ flow, (m.analysed ctx exceptions).2.2 = { m with flow } := by
  unfold analysed
  split
  · exact ⟨_, rfl⟩
  · unfold framedCode
    dsimp only
    generalize m.flow.computeFrames _ _ _ _ _ = r
    obtain ⟨result, flow, types⟩ := r
    cases result <;> exact ⟨flow, rfl⟩

/-- A method is written as its head and its attributes. -/
theorem encode_contents (h : m.encode ctx = (.ok bytes, ctx')) (hs : ctx.pool.Sound) :
    ∀ later : ConstantPool, later.Built → ctx'.pool.Extends later → later.Fits →
      ∃ (code : Option CodeContent) (as : List Attribute),
      List.Forall₂ (Attribute.Says later) (m.contents code ctx.version.major) as ∧
        bytes = m.encodeHead ctx.version.major ++ Attribute.encodeTable as := by
  intro later hl hle hf
  cases hcode : m.code.isEmpty with
  | true =>
    obtain ⟨-, -, hrest⟩ := ensures_internAttributes (m.plainContents ctx.version.major) ctx.pool hs.built
    unfold MethodDraft.encode at h
    dsimp only at h
    rw [if_pos hcode] at h
    obtain ⟨rfl, rfl⟩ : m.encodeHead ctx.version.major ++
        Attribute.encodeTable ([] ++ (internAttributes (m.plainContents ctx.version.major) ctx.pool).1) = bytes ∧
          (ctx.intern (internAttributes (m.plainContents ctx.version.major))).2 = ctx' := by
      simpa [Context.intern_eq] using h
    exact ⟨none, _, hrest later hl hle hf, rfl⟩
  | false =>
    obtain ⟨-, result, ctx₁, m₁, hanalysed, hsays⟩ := encode_says h hcode hs
    obtain ⟨content, as, -, has, rfl⟩ := hsays later hl hle hf
    obtain ⟨flow, hflow⟩ := analysed_draft (ctx.intern (exceptionTable m.flow.blocks m.handlers.toList)).2 m
      (ctx.intern (exceptionTable m.flow.blocks m.handlers.toList)).1
    rw [hanalysed] at hflow
    obtain rfl : m₁ = { m with flow } := hflow
    exact ⟨some content, as, has, rfl⟩

end MethodDraft

/-- A method as it stands in a class file with a pool, and the events that a reader reports of it if its
attributes are taken as they stand. -/
inductive WrittenMethod (pool : ConstantPool) (major : UInt16) (source : SourceId) : Bytes → List Event → Prop where
  | intro {m : MethodDraft} {signature : Option String} {exceptions : List String} {code : Option CodeContent}
    {as : List Attribute} : FlagOwner.methods.truncate m.access = m.access → pool.Knows (utf8 m.name) m.nameIndex →
    pool.Knows (utf8 m.descriptor) m.descriptorIndex → pool.Knows (signature.mapM utf8) m.signature →
    pool.Knows (exceptions.mapM type) m.exceptions → exceptions.length < 65536 →
    List.Forall₂ (Attribute.Says pool) (m.contents code major) as →
    WrittenMethod pool major source (m.encodeHead major ++ Attribute.encodeTable as)
      [.methodOpen m.access m.name m.descriptor signature exceptions,
      .methodCopy source (Attribute.encodeTable as), .methodClose]

/-! ## Reading -/

section Reading

variable {view : PoolView} {pool : ConstantPool} {m : MethodDraft} {major : UInt16} {as : List RawAttribute}

/-- What methods have in common with classes is gathered alike. -/
theorem gathers_method (view : PoolView) :
    Gathers view (Image.addMethodAttribute view) MethodAttributes.common fun m common => { m with common } where
  add h := by
    unfold Image.addMethodAttribute
    rw [h]
    rfl
  same _ := rfl

/-- The names of classes are read behind their number. -/
theorem PoolView.Shows.typeNames (hs : view.Shows pool) {is : List PoolIndex} {names : List String}
    (h : List.Forall₂ (fun name i => pool.HoldsType i name) names is) (hl : names.length < 65536) :
    Reads (Decoder.counted (Image.nextTypeName view)) (Bytes.counted (is.map Bytes.ofUInt16)) names.toArray := by
  refine Reads.counted_forall₂ (List.forall₂_map_right_iff.2 (h.imp fun name i hi => ?_)) hl
  exact (Reads.u16 i).bindEmpty (Reads.lift (hs.typeName hi))

/-- The exceptions of a method are gathered by their names. -/
theorem foldlM_exceptions (hs : view.Shows pool) {is : List PoolIndex} {names : List String}
    (h : List.Forall₂ (fun name i => pool.HoldsType i name) names is) (hl : names.length < 65536)
    (has : List.Forall₂ (RawAttribute.Says view.bytes) (if is.isEmpty then [] else [AttributeContent.exceptions is]) as)
    (common : CommonAttributes) (code : Option Nat) :
    as.foldlM (Image.addMethodAttribute view) { common, code } = .ok { common, code, exceptions := names.toArray } := by
  split at has
  · rename_i hempty
    obtain rfl := List.forall₂_nil_left_iff.1 has
    obtain rfl := List.isEmpty_iff.1 hempty
    obtain rfl := List.forall₂_nil_right_iff.1 h
    rfl
  · obtain ⟨a, ha, rfl⟩ := forall₂_singleton has
    have hname : a.name = "Exceptions" := ha.name
    have hread := (hs.typeNames h hl).runAt ha.stands
    refine foldlM_singleton ?_
    unfold Image.addMethodAttribute
    rw [CommonAttributes.add_other (by rw [hname]; decide)]
    change (if a.name == "Code" then _ else if a.name == "Exceptions" then _ else _) = _
    rw [hname, if_neg (by decide), if_pos (by decide), hread]
    change Except.ok _ = _
    rw [Array.empty_append]

/-- The place of the code is gathered, and of nothing else. -/
theorem foldlM_code {code : Option CodeContent}
    (has : List.Forall₂ (RawAttribute.Says view.bytes) (code.map AttributeContent.code).toList as) :
    ∃ body, as.foldlM (Image.addMethodAttribute view) {} = .ok { code := body } := by
  cases code with
  | none =>
    obtain rfl := List.forall₂_nil_left_iff.1 has
    exact ⟨none, rfl⟩
  | some code =>
    obtain ⟨a, ha, rfl⟩ := forall₂_singleton has
    have hname : a.name = "Code" := ha.name
    refine ⟨some a.start, foldlM_singleton ?_⟩
    unfold Image.addMethodAttribute
    rw [CommonAttributes.add_other (by rw [hname]; decide)]
    change (if a.name == "Code" then _ else _) = _
    rw [hname, if_pos (by decide)]
    rfl

/-- The places of the annotations of parameters are gathered. -/
theorem foldlM_parameters (has : List.Forall₂ (RawAttribute.Says view.bytes) m.parameterContents as) {s : MethodAttributes} :
    ∃ parameters, as.foldlM (Image.addMethodAttribute view) s = .ok { s with parameterAnnotations := parameters } := by
  unfold MethodDraft.parameterContents at has
  split at has
  · obtain rfl := List.forall₂_nil_left_iff.1 has
    exact ⟨s.parameterAnnotations, rfl⟩
  · obtain ⟨a, ha, rfl⟩ := forall₂_singleton has
    have hname : a.name = "RuntimeVisibleParameterAnnotations" := ha.name
    refine ⟨some a.start, foldlM_singleton ?_⟩
    unfold Image.addMethodAttribute
    rw [CommonAttributes.add_other (by rw [hname]; decide)]
    change (if a.name == "Code" then _ else if a.name == "Exceptions" then _ else
      if a.name == "RuntimeVisibleParameterAnnotations" then _ else _) = _
    rw [hname, if_neg (by decide), if_neg (by decide), if_pos (by decide)]
    rfl

/-- What a reader gathers from the attributes of a method for its head. -/
theorem methodAttributes_says (hs : view.Reveals pool) {signature : Option String} {exceptions : List String}
    (hsignature : Option.Rel (fun text i => pool.HoldsText i text) signature m.signature)
    (hexceptions : List.Forall₂ (fun name i => pool.HoldsType i name) exceptions m.exceptions)
    (hl : exceptions.length < 65536)
    {code : Option CodeContent} (has : List.Forall₂ (RawAttribute.Says view.bytes) (m.contents code major) as) :
    ∃ body annotations parameters, Image.methodAttributes view as = .ok {
      common := {
        signature, deprecated := AccessFlags.isDeprecated m.access
        synthetic := AccessFlags.hasSyntheticMarker m.access major, annotations }
      code := body, exceptions := exceptions.toArray, parameterAnnotations := parameters } := by
  obtain ⟨codes, plain, hcodes, hplain, rfl⟩ := forall₂_append_left has
  obtain ⟨unlisted, parameters, hunlisted, hparameters, rfl⟩ := forall₂_append_left hplain
  obtain ⟨unannotated, annotations, hunannotated, hannotations, rfl⟩ := forall₂_append_left hunlisted
  obtain ⟨unsigned, signatures, hunsigned, hsignatures, rfl⟩ := forall₂_append_left hunannotated
  obtain ⟨current, deprecateds, hcurrent, hdeprecateds, rfl⟩ := forall₂_append_left hunsigned
  obtain ⟨thrown, synthetics, hthrown, hsynthetics, rfl⟩ := forall₂_append_left hcurrent
  have hg := gathers_method view
  obtain ⟨body, hbody⟩ := foldlM_code hcodes
  obtain ⟨found, hannotated, -⟩ := hg.annotations hannotations (s := {
    common := {
      signature, deprecated := AccessFlags.isDeprecated m.access, synthetic :=
      AccessFlags.hasSyntheticMarker m.access major }
    code := body, exceptions := exceptions.toArray }) rfl
  obtain ⟨listed, hlisted⟩ := foldlM_parameters hparameters
  exact ⟨body, found, listed, foldlM_append hbody (foldlM_append (foldlM_append (foldlM_append (foldlM_append (foldlM_append
    (foldlM_exceptions hs.toShows hexceptions hl hthrown {} body) (hg.synthetic hsynthetics rfl))
      (hg.deprecated hdeprecateds rfl)) (hg.signature (hs.texts hsignature) hsignatures rfl)) hannotated) hlisted)⟩

/-- A method is read as its events. -/
theorem WrittenMethod.tells (hs : view.Reveals pool) {source : SourceId} {bytes : Bytes} {events : List Event}
    (h : WrittenMethod pool major source bytes events) {at0 : Nat} (hat : view.bytes.HasAt at0 bytes)
    (hsize : bytes.size < 4294967296) :
    (Image.narrateMethod view {} { copies := some source }).Tells ⟨view.bytes, at0⟩ events ()
      ⟨view.bytes, at0 + bytes.size⟩ := by
  obtain ⟨hflags, hname, hdescriptor, hsignature, hexceptions, hl, has⟩ := h
  rename_i m signature exceptions code as
  have hlength := m.length_contents code major
  obtain ⟨hhead, htable⟩ := Bytes.hasAt_append.1 hat
  rw [Array.size_append] at hsize
  obtain ⟨raws, hfound, hraws⟩ := Image.exists_attributeTable hs.toShowsEntries has (by omega) (by omega) htable
  obtain ⟨body, annotations, parameters, hgathered⟩ := methodAttributes_says hs
    (hsignature.ensured hs.built hs.fits (Ensures.optionMapM ensures_utf8 _))
    (hexceptions.ensured hs.built hs.fits (Ensures.mapM ensures_type _)) hl hraws
  have hstop : at0 + (m.encodeHead major ++ Attribute.encodeTable as).size = at0 + 6 + (Attribute.encodeTable as).size := by
    rw [Array.size_append, ← Nat.add_assoc, m.size_encodeHead]
  rw [m.size_encodeHead] at hfound htable
  have hbits := FlagOwner.truncate_inClassFile .methods hflags major
  have htail : Walk.Tells (do
      Walk.report (.methodCopy source (view.bytes.extract (at0 + 6) (at0 + 6 + (Attribute.encodeTable as).size)))
      Walk.report .methodClose) ⟨view.bytes, at0 + 6 + (Attribute.encodeTable as).size⟩
      [.methodCopy source (Attribute.encodeTable as), .methodClose] ()
      ⟨view.bytes, at0 + 6 + (Attribute.encodeTable as).size⟩ := by
    rw [htable.extract]
    exact (Walk.Tells.report _).bind (Walk.Tells.report _) rfl
  rw [hstop]
  refine Walk.Tells.memberHead hs hname hdescriptor hhead (Walk.Tells.after (Goes.position _) (Walk.Tells.after hfound
    (Walk.Tells.after (Goes.position _) (Walk.Tells.known hgathered ?_))))
  exact (Walk.Tells.report _).bind ((Walk.tells_wanted rfl _).bind htail rfl)
    (congrArg (fun access => Event.methodOpen access m.name m.descriptor signature exceptions :: _) hbits)

end Reading

/-! ## Writing again -/

/-- A method of which only the head is known. -/
def MethodDraft.restart (m : MethodDraft) (ctx : Context) : MethodDraft where
  access := m.access
  name := m.name
  descriptor := m.descriptor
  nameIndex := m.nameIndex
  descriptorIndex := m.descriptorIndex
  signature := m.signature
  exceptions := m.exceptions
  flow := .start (ctx.policy.analysis ctx.version)
  maxLocals :=
    if AccessFlags.isStatic m.access then Descriptor.argumentSlots m.descriptor - 1
      else Descriptor.argumentSlots m.descriptor

/-- Where all its names are known, a method is opened without a new constant. -/
theorem MethodDraft.start_known {ctx : Context} {m : MethodDraft} {signature : Option String} {exceptions : List String}
    (hname : ctx.pool.Knows (utf8 m.name) m.nameIndex) (hdescriptor : ctx.pool.Knows (utf8 m.descriptor) m.descriptorIndex)
    (hsignature : ctx.pool.Knows (signature.mapM utf8) m.signature)
    (hexceptions : ctx.pool.Knows (exceptions.mapM type) m.exceptions) :
    start ctx m.access m.name m.descriptor signature exceptions = (m.restart ctx, ctx) := by
  have hknown : ctx.pool.Knows (do
      let nameIndex ← utf8 m.name
      let descriptorIndex ← utf8 m.descriptor
      let signature ← signature.mapM utf8
      let exceptions ← exceptions.mapM type
      return { m.restart ctx with nameIndex, descriptorIndex, signature, exceptions }) (m.restart ctx) :=
    hname.bind (hdescriptor.bind (hsignature.bind (hexceptions.map fun exceptions => { m.restart ctx with exceptions })))
  exact Context.intern_known hknown

/-- The events of a method put the method into the class, if the pool is that of the class file that they come from. -/
theorem WrittenMethod.play {ctx : Context} {draft : ClassDraft} {copies : Array Bool} {source : SourceId} {bytes : Bytes}
    {events : List Event} (hsource : ctx.source = some source)
    (h : WrittenMethod ctx.pool ctx.version.major source bytes events) :
    Writer.play ⟨ctx, draft, none, none, copies⟩ events =
      ⟨ctx, { draft with methods := draft.methods.push bytes }, none, none, copies.push true⟩ := by
  obtain ⟨-, hname, hdescriptor, hsignature, hexceptions, -, -⟩ := h
  rename_i m signature exceptions code as
  have hopened : Writer.step ⟨ctx, draft, none, none, copies⟩
    (.methodOpen m.access m.name m.descriptor signature exceptions) =
      ⟨ctx, draft, some (.method (m.restart ctx)), none, copies⟩ :=
    congrArg (fun r : MethodDraft × Context => (⟨r.2, draft, some (.method r.1), none, copies⟩ : Writer))
      (MethodDraft.start_known hname hdescriptor hsignature hexceptions)
  have htaken : (ctx.source == some source && (m.restart ctx).isUntouched) = true := by
    rw [hsource]
    exact Bool.and_eq_true_iff.2 ⟨beq_self_eq_true _, rfl⟩
  have hcopied : Writer.step ⟨ctx, draft, some (.method (m.restart ctx)), none, copies⟩
    (.methodCopy source (Attribute.encodeTable as)) =
    ⟨ctx, { draft with methods := draft.methods.push (m.encodeHead ctx.version.major ++ Attribute.encodeTable as) },
        some (.method { m.restart ctx with finished := true }), none, copies.push true⟩ :=
    if_pos htaken
  change Writer.step (Writer.step (Writer.step _ _) _) .methodClose = _
  rw [hopened, hcopied]
  rfl

end ClassFile
