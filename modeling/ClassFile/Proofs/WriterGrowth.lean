import ClassFile.Proofs.CodeRecording

/-!
# A class only grows

Whatever a class under construction is told, its pool grows, a failure stays, and a method that has been put into it stays
where it is (`Writer.later_step`, `Writer.later_play`). What stands in the class for a field or a method is a head of six
bytes and a table of attributes, as long as methods are not copied from elsewhere.
-/

namespace ClassFile

open ConstantPool

/-! ## Steps that need constants -/

/-- An attribute lets a sound pool grow. -/
theorem grows_attribute (content : AttributeContent) : Grows (ConstantPool.attribute content) :=
  (grows_utf8 _).bind fun _ => .pure _

/-- Attributes let a sound pool grow. -/
theorem grows_internAttributes (contents : List AttributeContent) : Grows (internAttributes contents) := by
  induction contents with
  | nil => exact .pure _
  | cons content rest ih => exact (grows_attribute content).bind fun _ => ih.bind fun _ => .pure _

/-- There are as many attributes as contents. -/
theorem length_internAttributes (contents : List AttributeContent) (pool : ConstantPool) :
    (internAttributes contents pool).1.length = contents.length := by
  induction contents generalizing pool with
  | nil => rfl
  | cons content rest ih => exact congrArg (· + 1) (ih _)

section Annotations

theorem grows_primitive (p : Primitive) : Grows p.encode :=
  (grows_intern _).bind fun _ => .pure _

theorem grows_primitives (out : Bytes) (ps : List Primitive) : Grows (Primitive.encodeAll out ps) := by
  induction ps generalizing out with
  | nil => exact .pure _
  | cons p rest ih => exact (grows_primitive p).bind fun _ => ih _

theorem grows_annotationValue (v : AnnotationValue) : Grows v.encode := by
  cases v with
  | primitive p => exact grows_primitive p
  | string s => exact (grows_utf8 s).bind fun _ => .pure _
  | type descriptor => exact (grows_utf8 descriptor).bind fun _ => .pure _
  | array values => exact grows_primitives _ _

theorem grows_startElement (level : ElementLevel) (name : Option String) : Grows (level.startElement name) := by
  unfold ElementLevel.startElement
  dsimp only
  split
  · exact (grows_utf8 _).bind fun _ => .pure _
  · exact .pure _

theorem grows_value (level : ElementLevel) (name : Option String) (v : AnnotationValue) : Grows (level.value name v) :=
  (grows_startElement level name).bind fun _ => (grows_annotationValue v).bind fun _ => .pure _

theorem grows_enumConstant (level : ElementLevel) (name : Option String) (descriptor constant : String) :
    Grows (level.enumConstant name descriptor constant) :=
  (grows_startElement level name).bind fun _ => (grows_utf8 descriptor).bind fun _ =>
    (grows_utf8 constant).bind fun _ => .pure _

theorem grows_mapLevel (draft : AnnotationDraft) {f : ElementLevel → Interning ElementLevel}
    (hf : ∀ level, Grows (f level)) :
    Grows (draft.mapLevel f) :=
  (hf _).bind fun _ => .pure _

theorem grows_openNested (draft : AnnotationDraft) (name : Option String) (descriptor : String) :
    Grows (draft.openNested name descriptor) :=
  (grows_startElement _ name).bind fun _ => (grows_utf8 descriptor).bind fun _ => .pure _

theorem grows_openArray (draft : AnnotationDraft) (name : Option String) : Grows (draft.openArray name) :=
  (grows_startElement _ name).bind fun _ => .pure _

theorem grows_startAnnotation (target : AnnotationTarget) (descriptor : String) :
    Grows (AnnotationDraft.start target descriptor) :=
  (grows_utf8 descriptor).bind fun _ => .pure _

end Annotations

section Frames

theorem grows_ofFrameType (types : TypeTable) (t : FrameType) : Grows (VerificationType.ofFrameType types t) := by
  unfold VerificationType.ofFrameType
  split
  · exact (grows_type _).bind fun _ => .pure _
  · split
    · exact (grows_type _).bind fun _ => .pure _
    · split
      · exact .pure _
      · exact .pure _
    · split
      · exact .pure _
      · split <;> exact .pure _

theorem grows_listSlots (types : TypeTable) (listed : Array VerificationType) (ts : List FrameType) :
    Grows (StackMap.listSlots types listed ts) := by
  induction listed, ts using StackMap.listSlots.induct with
  | case1 listed => exact .pure _
  | case2 listed t => exact (grows_ofFrameType types t).bind fun _ => .pure _
  | case3 listed t u rest ih₁ ih₂ =>
    refine (grows_ofFrameType types t).bind fun v => ?_
    split
    · exact ih₁ v
    · exact ih₂ v

theorem grows_stackTypes (types : TypeTable) (slots : Array FrameType) : Grows (StackMap.stackTypes types slots) :=
  (grows_listSlots types _ _).bind fun _ => .pure _

theorem grows_localTypes (types : TypeTable) (slots : Array FrameType) : Grows (StackMap.localTypes types slots) :=
  (grows_stackTypes types slots).bind fun _ => .pure _

theorem grows_compressFrom (types : TypeTable) (found : Array StackMapFrame) (offset : Option Nat)
    (previous : List VerificationType) (frames : List ComputedFrame) :
    Grows (StackMap.compressFrom types found offset previous frames) := by
  induction frames generalizing found offset previous with
  | nil => exact .pure _
  | cons frame rest ih =>
    have hframe : Grows (StackMap.compressFrame types offset previous frame) :=
      (grows_localTypes types _).bind fun _ => (grows_stackTypes types _).bind fun _ => .pure _
    exact hframe.bind fun _ => ih _ _ _

theorem grows_compress (types : TypeTable) (frames : List ComputedFrame) : Grows (StackMap.compress types frames) := by
  cases frames with
  | nil => exact .pure _
  | cons first rest =>
    exact (grows_localTypes types _).bind fun _ => (grows_compressFrom types _ _ _ rest).bind fun _ => .pure _

theorem grows_legacy (types : TypeTable) (frames : List ComputedFrame) : Grows (StackMap.legacy types frames) := by
  have hfrom : ∀ (fs : List ComputedFrame) (found : Array StackMapEntry), Grows (StackMap.legacyFrom types found fs) := by
    intro fs
    induction fs with
    | nil => exact fun _ => .pure _
    | cons frame rest ih =>
      have hframe : Grows (StackMap.legacyFrame types frame) :=
        (grows_localTypes types _).bind fun _ => (grows_stackTypes types _).bind fun _ => .pure _
      exact fun found => hframe.bind fun _ => ih _
  exact (hfrom _ _).bind fun _ => .pure _

theorem grows_stackMapContent (version : Version) (types : TypeTable) (frames : List ComputedFrame) :
    Grows (MethodDraft.stackMapContent version types frames) := by
  unfold MethodDraft.stackMapContent
  split
  · exact .pure _
  · split
    · exact (grows_compress types frames).bind fun _ => grows_internAttributes _
    · exact (grows_legacy types frames).bind fun _ => grows_internAttributes _

end Frames

theorem grows_exceptionTable (blocks : Blocks) (handlers : List Handler) :
    Grows (MethodDraft.exceptionTable blocks handlers) := by
  induction handlers with
  | nil => exact .pure _
  | cons h rest ih =>
    unfold MethodDraft.exceptionTable
    split
    · exact (Grows.optionMapM grows_type _).bind fun _ => ih.bind fun _ => .pure _
    · exact ih

theorem grows_startField (access : UInt32) (name descriptor : String) (signature : Option String)
    (value : Option ConstantValue) :
    Grows (FieldDraft.start access name descriptor signature value) :=
  (grows_utf8 name).bind fun _ => (grows_utf8 descriptor).bind fun _ => .pure _

theorem grows_fieldAttributes (f : FieldDraft) (major : UInt16) : Grows (f.attributes major) := by
  obtain ⟨access, name, descriptor, signature, value, annotations⟩ := f
  have hrest : ∀ (value markers signature : List Attribute), Grows (do
      let rest ← internAttributes (annotationsContent annotations)
      return value ++ markers ++ signature ++ rest) :=
    fun _ _ _ => (grows_internAttributes _).bind fun _ => .pure _
  unfold FieldDraft.attributes
  cases signature with
  | none =>
    have htail : ∀ value, Grows (internAttributes (syntheticMarker access major ++ deprecatedMarker access) >>=
      fun markers => do
        let rest ← internAttributes (annotationsContent annotations)
        return value ++ markers ++ [] ++ rest) :=
      fun value => (grows_internAttributes _).bind fun markers => hrest value markers []
    cases value with
    | none => exact htail []
    | some value => exact (grows_constant value).bind fun _ => (grows_internAttributes _).bind htail
  | some signature =>
    have htail : ∀ value, Grows (internAttributes (syntheticMarker access major ++ deprecatedMarker access) >>=
      fun markers => do
        let i ← ConstantPool.utf8 signature
        let signature ← internAttributes [.signature i]
        let rest ← internAttributes (annotationsContent annotations)
        return value ++ markers ++ signature ++ rest) :=
      fun value => (grows_internAttributes _).bind fun markers => (grows_utf8 signature).bind fun _ =>
        (grows_internAttributes _).bind (hrest value markers)
    cases value with
    | none => exact htail []
    | some value => exact (grows_constant value).bind fun _ => (grows_internAttributes _).bind htail

theorem grows_encodeField (f : FieldDraft) (major : UInt16) : Grows (f.encode major) :=
  (grows_fieldAttributes f major).bind fun _ => .pure _

namespace MethodDraft

/-- Computing frames goes on with what the parts of a class share. -/
theorem later_framedCode (ctx : Context) (m : MethodDraft) (exceptions : List ExceptionRange) :
    ctx.Later (m.framedCode ctx exceptions).2.1 := by
  unfold framedCode
  generalize m.flow.computeFrames m.handlers.toList (m.frameMethod ctx) m.code.size ctx.types ctx.hierarchy = r
  obtain ⟨result, flow, types⟩ := r
  have htypes : ctx.Later { ctx with types } := .of_eq rfl rfl rfl
  dsimp only
  split
  · exact htypes
  · exact htypes.trans (.intern _ (grows_stackMapContent _ _ _))

/-- What the analysis of a method says of its code. -/
def analysed (ctx : Context) (m : MethodDraft) (exceptions : List ExceptionRange) :
    Except Error CodeResult × Context × MethodDraft :=
  match m.flow.analysis with
  | .maxStack => (.ok (m.measuredCode exceptions).1, ctx, (m.measuredCode exceptions).2)
  | .frames => framedCode ctx m exceptions

/-- Analysing code goes on with what the parts of a class share. -/
theorem later_analysed (ctx : Context) (m : MethodDraft) (exceptions : List ExceptionRange) :
    ctx.Later (m.analysed ctx exceptions).2.1 := by
  unfold analysed
  split
  · exact .refl ctx
  · exact later_framedCode ctx m exceptions

/-- The attribute that says what the analysis of a method found. -/
def resultAttribute (m : MethodDraft) (result : CodeResult) : Interning Attribute := do
  let tables ← internAttributes m.debugContents
  ConstantPool.attribute (.code {
    maxStack := result.maxStack.toUInt16, maxLocals := m.maxLocals.toUInt16, code := result.code
    exceptions := result.exceptions, attributes := tables ++ result.stackMap })

/-- Code that is too long is reported, and any other code is analysed and written. -/
theorem codeAttribute_eq (ctx : Context) (m : MethodDraft) : m.codeAttribute ctx =
    if m.code.size > maxCodeLength then (.error (.codeTooLong (m.qualifiedName ctx) m.code.size), ctx, m)
    else
      let (exceptions, ctx) := ctx.intern (exceptionTable m.flow.blocks m.handlers.toList)
      match m.analysed ctx exceptions with
      | (.error e, ctx, m) => (.error e, ctx, m)
      | (.ok result, ctx, m) =>
        let (a, ctx) := ctx.intern (m.resultAttribute result)
        (.ok a, ctx, m) := by
  unfold codeAttribute
  split
  · rfl
  · dsimp only
    unfold analysed
    generalize m.flow.analysis = mode
    cases mode with
    | maxStack => rfl
    | frames =>
      dsimp only
      generalize framedCode _ m _ = r
      obtain ⟨result, ctx, m⟩ := r
      cases result <;> rfl

theorem later_codeAttribute (ctx : Context) (m : MethodDraft) : ctx.Later (m.codeAttribute ctx).2.1 := by
  rw [codeAttribute_eq]
  split
  · exact .refl ctx
  · have hexceptions := Context.Later.intern ctx (grows_exceptionTable m.flow.blocks m.handlers.toList)
    generalize ctx.intern (exceptionTable m.flow.blocks m.handlers.toList) = r at *
    obtain ⟨exceptions, ctx'⟩ := r
    have hresult : ctx.Later (m.analysed ctx' exceptions).2.1 := hexceptions.trans (later_analysed ctx' m exceptions)
    dsimp only
    generalize m.analysed ctx' exceptions = r at *
    obtain ⟨result, ctx'', m'⟩ := r
    cases result with
    | error e => exact hresult
    | ok result =>
      exact hresult.trans (.intern _ ((grows_internAttributes _).bind fun _ => grows_attribute _))

theorem later_encode (ctx : Context) (m : MethodDraft) : ctx.Later (m.encode ctx).2 := by
  unfold MethodDraft.encode
  dsimp only
  split
  · exact .intern _ (grows_internAttributes _)
  · have hcode := later_codeAttribute ctx m
    generalize m.codeAttribute ctx = r at *
    obtain ⟨result, ctx', m'⟩ := r
    cases result with
    | error e => exact hcode
    | ok a => exact hcode.trans (.intern _ (grows_internAttributes _))

end MethodDraft

/-! ## Members -/

/-- Bytes of a field or method: flags, name and descriptor, and a table of attributes. -/
def IsMember (b : Bytes) : Prop :=
  ∃ (head : Bytes) (attributes : List Attribute), head.size = 6 ∧ attributes.length < 65536 ∧
    b = head ++ Attribute.encodeTable attributes

theorem length_syntheticMarker (access : UInt32) (major : UInt16) : (syntheticMarker access major).length ≤ 1 := by
  unfold syntheticMarker
  split <;> simp

theorem length_deprecatedMarker (access : UInt32) : (deprecatedMarker access).length ≤ 1 := by
  unfold deprecatedMarker
  split <;> simp

theorem length_annotationsContent (list : AnnotationList) : (annotationsContent list).length ≤ 1 := by
  unfold annotationsContent
  split <;> simp

namespace MethodDraft

/-- A method has six attributes at most beside its code. -/
theorem length_plainContents (m : MethodDraft) (major : UInt16) : (m.plainContents major).length ≤ 6 := by
  have hexceptions : (if m.exceptions.isEmpty then [] else [AttributeContent.exceptions m.exceptions]).length ≤ 1 := by
    split <;> simp
  have hsignature : (m.signature.map AttributeContent.signature).toList.length ≤ 1 := by
    cases m.signature <;> simp
  have hparameters : m.parameterContents.length ≤ 1 := by
    unfold parameterContents
    split <;> simp
  have hsynthetic := length_syntheticMarker m.access major
  have hdeprecated := length_deprecatedMarker m.access
  have hannotations := length_annotationsContent m.annotations
  unfold plainContents
  simp only [List.length_append]
  omega

/-- What stands in front of the attributes of a method takes six bytes. -/
theorem size_encodeHead (m : MethodDraft) (major : UInt16) : (m.encodeHead major).size = 6 := by
  simp [encodeHead]

/-- A method that is closed, in bytes. -/
theorem isMember_encode (ctx : Context) (m : MethodDraft) (bytes : Bytes) (h : (m.encode ctx).1 = .ok bytes) :
    IsMember bytes := by
  have hfinish : ∀ (code : List Attribute) (ctx' : Context) (m' : MethodDraft) (bytes : Bytes), code.length ≤ 1 →
      (Except.ok (m'.encodeHead ctx.version.major ++
        Attribute.encodeTable (code ++ (ctx'.intern (internAttributes (m'.plainContents ctx.version.major))).1)) :
        Except Error Bytes) =
        .ok bytes → IsMember bytes := by
    intro code ctx' m' bytes hcode h
    refine ⟨_, _, m'.size_encodeHead ctx.version.major, ?_, (Except.ok.inj h).symm⟩
    have hlength : (ctx'.intern (internAttributes (m'.plainContents ctx.version.major))).1.length =
        (m'.plainContents ctx.version.major).length := length_internAttributes _ ctx'.pool
    have := m'.length_plainContents ctx.version.major
    rw [List.length_append, hlength]
    omega
  unfold MethodDraft.encode at h
  dsimp only at h
  split at h
  · exact hfinish [] _ _ _ (by simp) h
  · generalize m.codeAttribute ctx = r at h
    obtain ⟨result, ctx', m'⟩ := r
    cases result with
    | error e => cases h
    | ok a => exact hfinish [a] _ _ _ (by simp) h

end MethodDraft

/-- What a step of interning gives always has a property. -/
def Yields {α : Type} (step : Interning α) (P : α → Prop) : Prop :=
  ∀ pool, P (step pool).1

/-- What steps give one after the other is what each gives. -/
theorem Yields.bind {α β : Type} {step : Interning α} {next : α → Interning β} {P : α → Prop} {Q : β → Prop}
    (h : Yields step P) (hn : ∀ a, P a → Yields (next a) Q) : Yields (step >>= next) Q :=
  fun pool => hn _ (h pool) (step pool).2

/-- As many attributes are written as there are contents. -/
theorem yields_internAttributes (contents : List AttributeContent) :
    Yields (internAttributes contents) fun as => as.length = contents.length :=
  length_internAttributes contents

/-- A field has five attributes at most. -/
theorem yields_fieldAttributes (f : FieldDraft) (major : UInt16) : Yields (f.attributes major) fun as => as.length ≤ 5 := by
  obtain ⟨access, name, descriptor, signature, value, annotations⟩ := f
  have hany : ∀ {α : Type} (step : Interning α), Yields step fun _ => True := fun _ _ => trivial
  have hrest : ∀ value markers signature : List Attribute, value.length ≤ 1 → markers.length ≤ 2 → signature.length ≤ 1 →
      Yields (do
        let rest ← internAttributes (annotationsContent annotations)
        return value ++ markers ++ signature ++ rest : Interning (List Attribute)) fun as => as.length ≤ 5 := by
    intro value markers signature hv hm hs
    refine (yields_internAttributes _).bind fun rest hr pool => ?_
    have := length_annotationsContent annotations
    change (value ++ markers ++ signature ++ rest).length ≤ 5
    simp only [List.length_append]
    omega
  have hmarkers : (syntheticMarker access major ++ deprecatedMarker access).length ≤ 2 := by
    have := length_syntheticMarker access major
    have := length_deprecatedMarker access
    rw [List.length_append]
    omega
  unfold FieldDraft.attributes
  cases signature with
  | none =>
    have htail : ∀ value : List Attribute, value.length ≤ 1 → Yields (do
        let markers ← internAttributes (syntheticMarker access major ++ deprecatedMarker access)
        let rest ← internAttributes (annotationsContent annotations)
        return value ++ markers ++ [] ++ rest : Interning (List Attribute)) fun as => as.length ≤ 5 :=
      fun value hv => (yields_internAttributes _).bind fun markers h => hrest value markers [] hv (by omega) (by simp)
    cases value with
    | none => exact htail [] (by simp)
    | some value =>
      exact (hany (ConstantPool.constant value)).bind fun i _ => (yields_internAttributes _).bind fun value h =>
        htail value (Nat.le_of_eq h)
  | some signature =>
    have htail : ∀ value : List Attribute, value.length ≤ 1 → Yields (do
        let markers ← internAttributes (syntheticMarker access major ++ deprecatedMarker access)
        let i ← ConstantPool.utf8 signature
        let signature ← internAttributes [.signature i]
        let rest ← internAttributes (annotationsContent annotations)
        return value ++ markers ++ signature ++ rest : Interning (List Attribute)) fun as => as.length ≤ 5 :=
      fun value hv => (yields_internAttributes _).bind fun markers h => (hany (ConstantPool.utf8 signature)).bind fun i _ =>
        (yields_internAttributes _).bind fun signature hs => hrest value markers signature hv (by omega) (by simp [hs])
    cases value with
    | none => exact htail [] (by simp)
    | some value =>
      exact (hany (ConstantPool.constant value)).bind fun i _ => (yields_internAttributes _).bind fun value h =>
        htail value (Nat.le_of_eq h)

/-- A field that is written is a member in bytes. -/
theorem isMember_encodeField (f : FieldDraft) (major : UInt16) : Yields (f.encode major) IsMember :=
  (yields_fieldAttributes f major).bind fun as h _ => ⟨_, as, by simp, by omega, rfl⟩

/-! ## Classes -/

namespace Writer

/-- The fields and methods of a class are members in bytes, and none of them is copied. -/
structure Shaped (w : Writer) : Prop where
  source : w.context.source = none
  fields : ∀ b ∈ w.draft.fields, IsMember b
  methods : ∀ b ∈ w.draft.methods, IsMember b

/-- What writing on does to a class. -/
structure Later (w later : Writer) : Prop where
  context : w.context.Later later.context
  methods : w.draft.methods.toList <+: later.draft.methods.toList
  shaped : w.Shaped → later.Shaped

variable {w w' w'' : Writer}

theorem Later.refl (w : Writer) : w.Later w :=
  ⟨.refl _, List.prefix_refl _, fun h => h⟩

theorem Later.trans (h : w.Later w') (h' : w'.Later w'') : w.Later w'' :=
  ⟨h.context.trans h'.context, h.methods.trans h'.methods, fun hs => h'.shaped (h.shaped hs)⟩

/-- No member of the class is changed. -/
theorem Later.of_context (hcontext : w.context.Later w'.context) (hfields : w'.draft.fields = w.draft.fields)
    (hmethods : w'.draft.methods = w.draft.methods) : w.Later w' :=
  ⟨hcontext, hmethods ▸ List.prefix_refl _,
    fun h => ⟨hcontext.source.trans h.source, hfields ▸ h.fields, hmethods ▸ h.methods⟩⟩

/-- Taking constants is writing on. -/
theorem later_intern {α : Type} (w : Writer) {step : Interning α} (h : Grows step) : w.Later (w.intern step).2 :=
  .of_context (.intern w.context h) rfl rfl

/-- Putting an annotation where it belongs is writing on. -/
theorem later_annotate (w : Writer) (target : AnnotationTarget) (bytes : Bytes) : w.Later (w.annotate target bytes) := by
  unfold annotate
  split <;> exact .of_context (.refl _) rfl rfl

theorem later_openNotes (w : Writer) (target : AnnotationTarget) (descriptor : String) :
    w.Later (w.openNotes target descriptor) :=
  .of_context (.intern w.context ( grows_startAnnotation target descriptor)) rfl rfl

theorem later_mapNotes (w : Writer) {f : AnnotationDraft → Interning AnnotationDraft} (hf : ∀ notes, Grows (f notes)) :
    w.Later (w.mapNotes f) := by
  unfold mapNotes
  split
  · exact .of_context (.intern _ (hf _)) rfl rfl
  · exact .refl _

/-- An open annotation does not belong to the class yet. -/
theorem later_notes (w : Writer) (notes : Option AnnotationDraft) : w.Later { w with notes } :=
  .of_context (.refl _) rfl rfl

theorem later_closeNotes (w : Writer) : w.Later w.closeNotes := by
  unfold closeNotes
  split
  · split
    · exact (later_notes _ none).trans (later_annotate _ _ _)
    · exact later_notes _ _
  · exact .refl _

theorem later_closeAllNotes (w : Writer) : w.Later w.closeAllNotes := by
  unfold closeAllNotes
  split
  · exact (later_notes _ none).trans (later_annotate _ _ _)
  · exact .refl _

/-- A method is told something. -/
theorem later_mapMethod (w : Writer) {f : Context → MethodDraft → Context × MethodDraft}
    (hf : ∀ (ctx : Context) (m : MethodDraft), ctx.Later (f ctx m).1) : w.Later (w.mapMethod f) := by
  unfold mapMethod
  split
  · exact .of_context (hf _ _) rfl rfl
  · exact .refl _

theorem later_closeMember (w : Writer) : w.Later w.closeMember := by
  unfold closeMember
  split
  · rename_i context draft f notes copies
    have hgrown := Context.Later.intern context (grows_encodeField f context.version.major)
    have hmember := isMember_encodeField f context.version.major context.pool
    refine ⟨hgrown, List.prefix_refl _, fun h => ⟨hgrown.source.trans h.source, fun b hb => ?_, h.methods⟩⟩
    rcases Array.mem_push.1 hb with hb | rfl
    · exact h.fields b hb
    · exact hmember
  · rename_i context draft m notes copies
    split
    · exact .of_context (.refl _) rfl rfl
    · have hgrown := MethodDraft.later_encode context m
      have hmember := MethodDraft.isMember_encode context m
      generalize m.encode context = r at *
      obtain ⟨result, context'⟩ := r
      cases result with
      | error e => exact .of_context (hgrown.trans (.fail _ e)) rfl rfl
      | ok bytes =>
        refine ⟨hgrown, ?_, fun h => ⟨hgrown.source.trans h.source, h.fields, fun b hb => ?_⟩⟩
        · exact Array.toList_push ▸ List.prefix_append _ _
        · rcases Array.mem_push.1 hb with hb | rfl
          · exact h.methods b hb
          · exact hmember _ rfl
  · exact .refl _

theorem later_copyMethod (w : Writer) (source : SourceId) (attributes : Bytes) :
    w.Later (w.copyMethod source attributes) := by
  unfold copyMethod
  split
  · rename_i context draft m notes copies
    split
    · rename_i hcopied
      refine ⟨.refl _, Array.toList_push ▸ List.prefix_append _ _, fun h => ?_⟩
      have hnone : context.source = none := h.source
      rw [hnone] at hcopied
      cases hcopied
    · exact .of_context (.refl _) rfl rfl
  · exact .refl _

theorem later_header (w : Writer) (version : Version) (access : UInt32) (name : String) (signature superName : Option String)
    (interfaces : List String) : w.Later (w.header version access name signature superName interfaces) := by
  have hnames : Grows (do
      let thisClass ← ConstantPool.type name
      let superClass ← superName.mapM ConstantPool.type
      let interfaces ← interfaces.mapM ConstantPool.type
      let signature ← signature.mapM ConstantPool.utf8
      return (some thisClass, superClass, interfaces, signature)) :=
    (grows_type name).bind fun _ => (Grows.optionMapM grows_type _).bind fun _ => (Grows.mapM grows_type _).bind fun _ =>
      (Grows.optionMapM grows_utf8 _).bind fun _ => .pure _
  have hgrown := Context.Later.intern w.context hnames
  exact .of_context (hgrown.trans (.of_eq rfl rfl rfl)) rfl rfl

theorem later_outerClass (w : Writer) (owner : String) (name descriptor : Option String) :
    w.Later (w.outerClass owner name descriptor) := by
  have hof : ∀ {step : Interning (PoolIndex × Option PoolIndex)}, Grows step →
      w.Later { (w.intern step).2 with draft := { (w.intern step).2.draft with enclosing := some (w.intern step).1 } } :=
    fun h => .of_context (.intern w.context h) rfl rfl
  have howner : Grows (do return (← ConstantPool.type owner, (none : Option PoolIndex))) :=
    (grows_type owner).bind fun _ => .pure _
  unfold outerClass
  cases name with
  | none => exact hof howner
  | some name =>
    cases descriptor with
    | none => exact hof howner
    | some descriptor =>
      have hboth : Grows (do
          let owner ← ConstantPool.type owner
          return (owner, some (← ConstantPool.nameAndType name descriptor))) :=
        (grows_type owner).bind fun _ => (grows_nameAndType name descriptor).bind fun _ => .pure _
      dsimp only
      exact hof hboth

theorem later_innerClass (w : Writer) (name : String) (outer inner : Option String) (access : UInt16) :
    w.Later (w.innerClass name outer inner access) := by
  have hname := w.later_intern (grows_type name)
  unfold innerClass
  generalize w.intern (ConstantPool.type name) = r at *
  obtain ⟨i, w'⟩ := r
  dsimp only at hname ⊢
  split
  · exact hname
  · have hentry : Grows (do
        let outer ← outer.mapM ConstantPool.type
        let inner ← inner.mapM ConstantPool.utf8
        return { inner := i, outer, name := inner, access : InnerClass }) :=
      (Grows.optionMapM grows_type _).bind fun _ => (Grows.optionMapM grows_utf8 _).bind fun _ => .pure _
    exact hname.trans (.of_context (.intern w'.context hentry) rfl rfl)

/-- The names of the source are writing on. -/
theorem later_sourceNames (w : Writer) (file debug : Option String) : w.Later (w.sourceNames file debug) :=
  .of_context (.intern w.context (Grows.optionMapM grows_utf8 file)) rfl rfl

theorem later_startMethod (ctx : Context) (access : UInt32) (name descriptor : String) (signature : Option String)
    (exceptions : List String) : ctx.Later (MethodDraft.start ctx access name descriptor signature exceptions).2 :=
  .intern ctx ((grows_utf8 name).bind fun _ => (grows_utf8 descriptor).bind fun _ =>
    (Grows.optionMapM grows_utf8 _).bind fun _ =>
    (Grows.mapM grows_type _).bind fun _ => .pure _)

theorem later_openMethod (w : Writer) (access : UInt32) (name descriptor : String) (signature : Option String)
    (exceptions : List String) : w.Later (w.openMethod access name descriptor signature exceptions) :=
  .of_context (later_startMethod w.context access name descriptor signature exceptions) rfl rfl

/-- Whatever a class is told, it only grows. -/
theorem later_step (w : Writer) (e : Event) : w.Later (w.step e) := by
  cases e with
  | header version access name signature superName interfaces =>
    exact w.later_header version access name signature superName interfaces
  | source file debug => exact w.later_sourceNames file debug
  | outerClass owner name descriptor => exact w.later_outerClass owner name descriptor
  | nestHost name => exact (w.later_intern (grows_type name)).trans (.of_context (.refl _) rfl rfl)
  | nestMember name => exact (w.later_intern (grows_type name)).trans (.of_context (.refl _) rfl rfl)
  | innerClass name outer inner access => exact w.later_innerClass name outer inner access
  | annotationOpen descriptor => exact w.later_openNotes _ descriptor
  | parameterAnnotationOpen parameter descriptor =>
    exact (w.later_mapMethod (f := fun context m => (context, m.useParameter parameter.toNat)) fun ctx _ => .refl ctx).trans
      (later_openNotes _ _ descriptor)
  | elementValue name value =>
    exact w.later_mapNotes fun notes => grows_mapLevel notes fun level => grows_value level name value
  | elementEnum name descriptor constant =>
    exact w.later_mapNotes fun notes => grows_mapLevel notes fun level => grows_enumConstant level name descriptor constant
  | elementNested name descriptor => exact w.later_mapNotes fun notes => grows_openNested notes name descriptor
  | elementArray name => exact w.later_mapNotes fun notes => grows_openArray notes name
  | elementsClose => exact w.later_closeNotes
  | fieldOpen access name descriptor signature value =>
    exact (w.later_intern (grows_startField access name descriptor signature value)).trans (.of_context (.refl _) rfl rfl)
  | methodOpen access name descriptor signature exceptions =>
    exact w.later_openMethod access name descriptor signature exceptions
  | fieldClose => exact w.later_closeMember
  | methodClose => exact w.later_closeMember
  | methodCopy source attributes => exact w.later_copyMethod source attributes
  | instruction i => exact w.later_mapMethod fun ctx m => m.later_record ctx (.instruction i)
  | label l => exact w.later_mapMethod fun ctx m => m.later_record ctx (.label l)
  | tryCatch start stop handler type =>
    exact w.later_mapMethod fun ctx m => m.later_record ctx (.tryCatch start stop handler type)
  | localVariable name descriptor signature start stop slot =>
    exact w.later_mapMethod fun ctx m => m.later_record ctx (.localVariable name descriptor signature start stop slot)
  | lineNumber line start => exact w.later_mapMethod fun ctx m => m.later_record ctx (.lineNumber line start)
  | maxStack height => exact w.later_mapMethod fun ctx m => m.later_record ctx (.maxStack height)
  | classClose => exact .refl w
  | abandon =>
    change w.Later (if w.notes.isSome then w.closeNotes else w.closeMember)
    split
    · exact w.later_closeNotes
    · exact w.later_closeMember

theorem later_play (w : Writer) (events : List Event) : w.Later (w.play events) := by
  unfold play
  induction events generalizing w with
  | nil => exact .refl w
  | cons e rest ih => exact (w.later_step e).trans (ih _)

theorem later_closeAll (w : Writer) : w.Later w.closeAll :=
  w.later_closeAllNotes.trans (later_closeMember _)

/-- A class starts without members. -/
theorem shaped_start (policy : FramePolicy) (hierarchy : Hierarchy) : (Writer.start policy hierarchy).Shaped :=
  ⟨rfl, fun _ hb => absurd hb (Array.not_mem_empty _), fun _ hb => absurd hb (Array.not_mem_empty _)⟩

end Writer

end ClassFile
