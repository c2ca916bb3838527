import ClassFile.Proofs.AnnotationDrafting
import ClassFile.Proofs.ClassFormat
import ClassFile.Proofs.DraftDriving

/-!
# Classes while they are written

Whatever has been written of a class, with its header, can be told again with any pool that its own may grow to
(`Writer.Telling`): the class by the names of its constants, each field and method that is closed by its bytes, what is open
by its head and its annotations. An event keeps that as long as its flags are ones that their owner has, its counts fit into
two bytes, and the elements of an array are of one kind (`Writer.Admits`).
-/

namespace ClassFile

open ConstantPool

/-! ## What can be told -/

/-- What has been written of a field or a method that is open. Of a method its head is enough, as its
attributes are taken as they stand. -/
inductive OpenMember.Told (pool : ConstantPool) : OpenMember → Prop where
  | field {f : FieldDraft} {name descriptor : String} {events : List Event} :
    FlagOwner.fields.truncate f.access = f.access → pool.Knows (utf8 name) f.name →
    pool.Knows (utf8 descriptor) f.descriptor → f.annotations.Stands pool events → Told pool (.field f)
  | method {m : MethodDraft} {signature : Option String} {exceptions : List String} :
    FlagOwner.methods.truncate m.access = m.access → pool.Knows (utf8 m.name) m.nameIndex →
    pool.Knows (utf8 m.descriptor) m.descriptorIndex → pool.Knows (signature.mapM utf8) m.signature →
    pool.Knows (exceptions.mapM type) m.exceptions → exceptions.length < 65536 → Told pool (.method m)

/-- What has been written of a class, without what is open. -/
structure ClassDraft.Told (pool : ConstantPool) (major : UInt16) (c : ClassDraft) : Prop where
  names : ∃ names, ClassNames.Named pool names c
  annotations : ∃ events, c.annotations.Stands pool events
  fields : ∀ b ∈ c.fields, ∃ events, WrittenField pool major b events
  methods : ∀ b ∈ c.methods, ∀ source, ∃ events, WrittenMethod pool major source b events
  distinct : (c.innerClasses.toList.map InnerClass.inner).Nodup

/-- What has been written of a class, and of what is open. -/
structure Writer.Told (pool : ConstantPool) (w : Writer) : Prop where
  draft : w.draft.Told pool w.context.version.major
  member : ∀ m, w.member = some m → m.Told pool
  notes : ∀ notes, w.notes = some notes → notes.Told pool

/-- All that has been written of a class of its own can be told with any pool that its pool may grow to. -/
structure Writer.Telling (w : Writer) : Prop where
  source : w.context.source = none
  sound : w.context.pool.Sound
  told : ∀ later : ConstantPool, later.Built → w.context.pool.Extends later → later.Fits → w.Told later

/-! ## What may come next -/

namespace Writer

/-- The open annotation has room for an element with a letter. -/
def AdmitsElement (w : Writer) (tag : UInt8) : Prop :=
  ∀ notes, w.notes = some notes → notes.level.Admits tag

/-- What is open has room for an annotation. -/
def AdmitsAnnotation (w : Writer) : Prop :=
  match w.member with
  | none => w.draft.annotations.count ≠ 65535
  | some (.field f) => f.annotations.count ≠ 65535
  | some (.method _) => True

/-- An event goes on with a class that has its header: its flags are ones that their owner has, what is counted in two bytes
fits, and the elements of an array are of one kind. -/
def Admits (w : Writer) : Event → Prop
  | .header _ _ _ _ _ _ => False
  | .innerClass _ _ _ access => (FlagOwner.innerClasses.truncate access.toUInt32).toUInt16 = access
  | .elementValue _ v => w.AdmitsElement v.tag ∧ ∀ values, v = .array values → values.toList.length < 65536
  | .elementEnum _ _ _ => w.AdmitsElement ElementTag.enumConstant
  | .elementNested _ _ => w.AdmitsElement ElementTag.nested
  | .elementArray _ => w.AdmitsElement ElementTag.array
  | .elementsClose | .abandon => w.AdmitsAnnotation
  | .fieldOpen access _ _ _ _ => FlagOwner.fields.truncate access = access
  | .methodOpen access _ _ _ exceptions => FlagOwner.methods.truncate access = access ∧ exceptions.length < 65536
  | _ => True

/-- The events of a list go on with a class one after the other, and what they leave open can be closed. -/
def Orderly (w : Writer) : List Event → Prop
  | [] => w.notes.isSome → w.AdmitsAnnotation
  | e :: rest => w.Admits e ∧ (w.step e).Orderly rest

end Writer

/-! ## Steps -/

section Steps

variable {w w' : Writer} {pool : ConstantPool} {major : UInt16} {c : ClassDraft}

/-- Writing on keeps what can be told if it does so in each pool that may come. -/
theorem Writer.Telling.later (h : w.Telling) (hlater : w.context.Later w'.context)
    (hnext : ∀ later : ConstantPool, later.Built → w'.context.pool.Extends later → later.Fits →
      w.Told later → w'.Told later) :
    w'.Telling := by
  obtain ⟨hsound, hle⟩ := hlater.pool h.sound
  exact ⟨hlater.source.trans h.source, hsound, fun later hb hext hf =>
    hnext later hb hext hf (h.told later hb (hle.trans hext) hf)⟩

/-- What is ensured of constants that a class takes from its pool. -/
theorem Writer.Telling.asked {α : Type} {step : Interning α} {P : α → ConstantPool → Prop} (h : w.Telling)
    (hs : Ensures step P)
    {later : ConstantPool} (hb : later.Built) (hext : (w.intern step).2.context.pool.Extends later) (hf : later.Fits) :
    P (w.intern step).1 later :=
  (hs w.context.pool h.sound.built).2.2 later hb hext hf

/-! ### The class itself -/

/-- The constants of an enclosing class only come from the pool. -/
theorem interns_enclosure (e : String × Option (String × String)) : Interns (enclosure e) := by
  unfold enclosure
  exact (settles_type e.1).interns.bind fun _ =>
    (Interns.optionMapM (fun m : String × String => (settles_nameAndType m.1 m.2).interns) e.2).bind fun _ => .pure _

/-- The enclosing class that is given by its name, and by the name and descriptor of a method if there are both. -/
def enclosingNames (owner : String) (name descriptor : Option String) : String × Option (String × String) :=
  match name, descriptor with
  | some name, some descriptor => (owner, some (name, descriptor))
  | _, _ => (owner, none)

/-- A method that a class lies in is named only if both its name and its descriptor are given. -/
theorem enclosure_enclosingNames (owner : String) (name descriptor : Option String) :
    enclosure (enclosingNames owner name descriptor) = (do
      let owner ← type owner
      match name, descriptor with
      | some name, some descriptor => return (owner, some (← nameAndType name descriptor))
      | _, _ => return (owner, none)) := by
  cases name <;> cases descriptor <;> simp [enclosure, enclosingNames]

/-- The enclosing class takes its constants and stands in the draft. -/
theorem Writer.outerClass_eq (w : Writer) (owner : String) (name descriptor : Option String) :
    w.outerClass owner name descriptor = { (w.intern (enclosure (enclosingNames owner name descriptor))).2 with
      draft := { w.draft with enclosing := some (w.intern (enclosure (enclosingNames owner name descriptor))).1 } } := by
  rw [enclosure_enclosingNames]
  rfl

/-- The names of a class with another one of a nest. -/
theorem ClassNames.Named.push_nestMember {names : ClassNames} (h : names.Named pool c) {name : String} {i : PoolIndex}
    (hi : pool.Knows (type name) i) : ClassNames.Named pool { names with nestMembers := names.nestMembers ++ [name] }
      { c with nestMembers := c.nestMembers.push i } :=
  { h with
    nestMembers := by
      rw [Array.toList_push]
      exact List.rel_append h.nestMembers (.cons hi .nil) }

/-- The names of a class with another inner class. -/
theorem ClassNames.Named.push_innerClass {names : ClassNames} (h : names.Named pool c) {e : InnerNames} {entry : InnerClass}
    (he : e.Named pool entry) : ClassNames.Named pool { names with innerClasses := names.innerClasses ++ [e] }
      { c with innerClasses := c.innerClasses.push entry } :=
  { h with
    innerClasses := by
      rw [Array.toList_push]
      exact List.rel_append h.innerClasses (.cons he .nil) }

/-- The constants of an inner class but for that of its name. -/
def innerParts (i : PoolIndex) (outer inner : Option String) (access : UInt16) : Interning InnerClass := do
  let outer ← outer.mapM ConstantPool.type
  let inner ← inner.mapM ConstantPool.utf8
  return { inner := i, outer, name := inner, access }

/-- The constants of an inner class are known once they were taken. -/
theorem ensures_innerParts (i : PoolIndex) (outer inner : Option String) (access : UInt16) :
    Ensures (innerParts i outer inner access) fun entry later => entry.inner = i ∧ entry.access = access ∧
      later.Knows (outer.mapM type) entry.outer ∧ later.Knows (inner.mapM utf8) entry.name := by
  unfold innerParts
  refine (Interns.optionMapM (fun name => (settles_type name).interns) outer).recalls.andThen fun _ => ?_
  exact (Interns.optionMapM (fun text => .intern (.utf8 text)) inner).recalls.map fun _ _ hinner houter =>
    ⟨rfl, rfl, houter, hinner⟩

/-- An inner class takes its constants and is listed once, under the constant of its name. -/
theorem Writer.innerClass_eq (w : Writer) (name : String) (outer inner : Option String) (access : UInt16) :
    w.innerClass name outer inner access =
      let named := w.intern (type name)
      let parts := named.2.intern (innerParts named.1 outer inner access)
      if w.draft.innerClasses.any (·.inner == named.1) then named.2
      else { parts.2 with draft := { w.draft with innerClasses := w.draft.innerClasses.push parts.1 } } :=
  rfl

/-- A class with another inner class, of which it has no entry. -/
theorem ClassDraft.Told.push_innerClass (h : c.Told pool major) {e : InnerNames} {entry : InnerClass}
    (he : e.Named pool entry) (hnew : ¬c.innerClasses.any (·.inner == entry.inner)) :
    ClassDraft.Told pool major { c with innerClasses := c.innerClasses.push entry } := by
  obtain ⟨names, hnames⟩ := h.names
  refine ⟨⟨_, hnames.push_innerClass he⟩, h.annotations, h.fields, h.methods, ?_⟩
  rw [Array.toList_push, List.map_append, List.map_singleton, List.nodup_append]
  refine ⟨h.distinct, List.nodup_singleton _, fun x hx y hy heq => hnew ?_⟩
  obtain ⟨known, hknown, rfl⟩ := List.mem_map.1 hx
  obtain rfl := List.mem_singleton.1 hy
  exact Array.any_eq_true'.2 ⟨known, Array.mem_toList_iff.1 hknown, beq_iff_eq.2 heq⟩

/-- Constants that a class takes from its pool change nothing of what it can tell. -/
theorem Writer.Telling.intern {α : Type} {step : Interning α} (h : w.Telling) (hs : Grows step) :
    (w.intern step).2.Telling :=
  h.later (w.later_intern hs).context fun _ _ _ _ htold => ⟨htold.draft, htold.member, htold.notes⟩

/-- With an inner class more, all that has been written can still be told. -/
theorem Writer.Telling.innerClass (h : w.Telling) {name : String} {outer inner : Option String} {access : UInt16}
    (hflags : (FlagOwner.innerClasses.truncate access.toUInt32).toUInt16 = access) :
    (w.innerClass name outer inner access).Telling := by
  have hnamed := h.intern (grows_type name)
  have hlater := (w.later_innerClass name outer inner access).context
  rw [innerClass_eq] at hlater ⊢
  dsimp only at hlater ⊢
  split at hlater
  · rwa [if_pos ‹_›]
  · rename_i hnew
    rw [if_neg hnew]
    refine h.later hlater fun later hb hext hf htold => ?_
    obtain ⟨-, hgrown, hparts⟩ := ensures_innerParts (w.intern (type name)).1 outer inner access
      (w.intern (type name)).2.context.pool hnamed.sound.built
    obtain ⟨hinner, haccess, houter, hname⟩ := hparts later hb hext hf
    have hi := h.asked (recalls_type name) hb (hgrown.trans hext) hf
    rw [← hinner] at hi hnew
    have he : InnerNames.Named later ⟨name, outer, inner, access⟩ _ := ⟨hi, houter, hname, haccess, hflags⟩
    exact ⟨htold.draft.push_innerClass he hnew, htold.member, htold.notes⟩

/-! ### Annotations -/

/-- The open annotation is changed by a step that keeps what can be told of it. -/
theorem Writer.Telling.mapNotes (h : w.Telling) {f : AnnotationDraft → Interning AnnotationDraft}
    (hgrows : ∀ notes, Grows (f notes))
    (hf : ∀ notes, w.notes = some notes → Ensures (f notes) notes.Continues) : (w.mapNotes f).Telling := by
  obtain ⟨context, draft, member, notes, copies⟩ := w
  cases notes with
  | none => exact h
  | some notes =>
    refine h.later (later_mapNotes _ hgrows).context fun later hb hext hfits htold =>
      ⟨htold.draft, htold.member, fun notes' hnotes' => ?_⟩
    obtain rfl := Option.some.inj hnotes'
    exact (hf notes rfl context.pool h.sound.built).2.2 later hb hext hfits hb hfits (htold.notes notes rfl)

/-- With an annotation opened, all that has been written can still be told. -/
theorem Writer.Telling.openNotes (h : w.Telling) (target : AnnotationTarget) (descriptor : String) :
    (w.openNotes target descriptor).Telling := by
  refine h.later (w.later_openNotes target descriptor).context fun later hb hext hf htold =>
    ⟨htold.draft, htold.member, fun notes hnotes => ?_⟩
  obtain rfl := Option.some.inj hnotes
  exact h.asked ( ensures_startAnnotation target descriptor) hb hext hf

/-- An annotation that is complete goes to what is open. -/
theorem Writer.Told.annotate (h : w.Told pool) (hroom : w.AdmitsAnnotation) {target : AnnotationTarget} {last : ElementLevel}
    (hlast : AnnotationDraft.Told pool ⟨target, last, []⟩) : (w.annotate target last.encode).Told pool := by
  obtain ⟨context, draft, member, notes, copies⟩ := w
  obtain ⟨hdraft, hmember, hnotes⟩ := h
  cases member with
  | none =>
    obtain ⟨events, hlist⟩ := hdraft.annotations
    obtain ⟨names, hnames⟩ := hdraft.names
    exact ⟨{ hdraft with names := ⟨names, { hnames with }⟩, annotations := hlast.complete hlist hroom }, hmember, hnotes⟩
  | some member =>
    cases hmember member rfl with
    | field hflags hname hdescriptor hlist =>
      refine ⟨hdraft, fun member' hmember' => ?_, hnotes⟩
      obtain rfl := Option.some.inj hmember'
      obtain ⟨events, hpushed⟩ := hlast.complete hlist hroom
      exact .field hflags hname hdescriptor hpushed
    | method hflags hname hdescriptor hsignature hexceptions hl =>
      refine ⟨hdraft, fun member' hmember' => ?_, hnotes⟩
      obtain rfl := Option.some.inj hmember'
      cases target <;> exact .method hflags hname hdescriptor hsignature hexceptions hl

theorem Writer.Telling.closeNotes (h : w.Telling) (hroom : w.AdmitsAnnotation) : w.closeNotes.Telling := by
  refine h.later w.later_closeNotes.context fun later hb _ hf htold => ?_
  obtain ⟨context, draft, member, notes, copies⟩ := w
  cases notes with
  | none => exact htold
  | some notes =>
    obtain ⟨target, level, outer⟩ := notes
    have hnotes := htold.notes _ rfl
    cases outer with
    | nil =>
      exact Writer.Told.annotate (w := ⟨context, draft, member, none, copies⟩)
        ⟨htold.draft, htold.member, nofun⟩ hroom hnotes
    | cons parent outer =>
      refine ⟨htold.draft, htold.member, fun notes' hnotes' => ?_⟩
      obtain rfl := Option.some.inj hnotes'
      exact hnotes.close hb hf

theorem Writer.Telling.closeAllNotes (h : w.Telling) (hroom : w.notes.isSome → w.AdmitsAnnotation) :
    w.closeAllNotes.Telling := by
  refine h.later w.later_closeAllNotes.context fun later hb _ hf htold => ?_
  obtain ⟨context, draft, member, notes, copies⟩ := w
  cases notes with
  | none => exact htold
  | some notes =>
    obtain ⟨target, level, outer⟩ := notes
    obtain ⟨last, hlast, hclosed⟩ := (htold.notes _ rfl).closeAll hb hf
    change (Writer.annotate ⟨context, draft, member, none, copies⟩ target
      (AnnotationDraft.closeAll ⟨target, level, outer⟩)).Told later
    rw [hclosed]
    exact Writer.Told.annotate (w := ⟨context, draft, member, none, copies⟩)
      ⟨htold.draft, htold.member, nofun⟩ (hroom rfl) hlast

/-! ### Fields and methods -/

/-- The head of a field can be told once it was opened. -/
theorem ensures_startField {access : UInt32} (hflags : FlagOwner.fields.truncate access = access) (name descriptor : String)
    (signature : Option String) (value : Option ConstantValue) :
    Ensures (FieldDraft.start access name descriptor signature value) fun f later => OpenMember.Told later (.field f) := by
  unfold FieldDraft.start
  exact (recalls_utf8 name).andThen fun _ => (recalls_utf8 descriptor).map fun _ _ hdescriptor hname =>
    .field hflags hname hdescriptor .none

/-- A method that is opened, as a step that takes constants from the pool. -/
def startMethod (ctx : Context) (access : UInt32) (name descriptor : String) (signature : Option String)
    (exceptions : List String) :
    Interning MethodDraft := do
  let nameIndex ← utf8 name
  let descriptorIndex ← utf8 descriptor
  let signature ← signature.mapM utf8
  let exceptions ← exceptions.mapM type
  return {
    access, name, descriptor, nameIndex, descriptorIndex, signature, exceptions
    flow := .start (ctx.policy.analysis ctx.version)
    maxLocals := if AccessFlags.isStatic access then Descriptor.argumentSlots descriptor - 1
      else Descriptor.argumentSlots descriptor }

/-- The head of a method can be told once it was opened. -/
theorem ensures_startMethod (ctx : Context) {access : UInt32} (hflags : FlagOwner.methods.truncate access = access)
    (name descriptor : String) (signature : Option String) {exceptions : List String} (hl : exceptions.length < 65536) :
    Ensures (startMethod ctx access name descriptor signature exceptions) fun m later =>
      OpenMember.Told later (.method m) := by
  unfold startMethod
  refine (recalls_utf8 name).andThen fun _ => (recalls_utf8 descriptor).andThen fun _ => ?_
  refine (Interns.optionMapM (fun text => .intern (.utf8 text)) signature).recalls.andThen fun _ => ?_
  exact (Interns.mapM (fun name => (settles_type name).interns) exceptions).recalls.map
    fun _ _ hexceptions hsignature hdescriptor hname =>
    .method hflags hname hdescriptor hsignature hexceptions hl

theorem Writer.Telling.openMethod (h : w.Telling) {access : UInt32} (hflags : FlagOwner.methods.truncate access = access)
    (name descriptor : String) (signature : Option String) {exceptions : List String} (hl : exceptions.length < 65536) :
    (w.openMethod access name descriptor signature exceptions).Telling := by
  refine h.later (w.later_openMethod access name descriptor signature exceptions).context fun later hb hext hf htold =>
    ⟨htold.draft, fun m hm => ?_, htold.notes⟩
  obtain rfl := Option.some.inj hm
  have hopened := ensures_startMethod w.context hflags name descriptor signature hl
  exact h.asked hopened hb hext hf

/-- The code of a method and its tables change nothing of what can be told of its head. -/
theorem Writer.Telling.mapMethod (h : w.Telling) {f : Context → MethodDraft → Context × MethodDraft}
    (hlater : ∀ (ctx : Context) (m : MethodDraft), ctx.Later (f ctx m).1)
    (hversion : ∀ ctx m, (f ctx m).1.version = ctx.version)
    (htold : ∀ ctx m pool, OpenMember.Told pool (.method m) → OpenMember.Told pool (.method (f ctx m).2)) :
    (w.mapMethod f).Telling := by
  refine h.later (w.later_mapMethod hlater).context fun later _ _ _ hw => ?_
  obtain ⟨context, draft, member, notes, copies⟩ := w
  cases member with
  | none => exact hw
  | some member =>
    cases member with
    | field f => exact hw
    | method m =>
      refine ⟨?_, fun m' hm' => ?_, hw.notes⟩
      · change draft.Told later (f context m).1.version.major
        rw [hversion]
        exact hw.draft
      · obtain rfl := Option.some.inj hm'
        exact htold context m later (hw.member _ rfl)

theorem Writer.Telling.record (h : w.Telling) (e : CodeEvent) : (w.step e.toEvent).Telling := by
  rw [Writer.step_toEvent]
  refine h.mapMethod (fun ctx m => m.later_record ctx e) (fun ctx m => ?_) fun ctx m pool hm => ?_
  · obtain ⟨pool, types, failure, hcontext⟩ := (MethodDraft.recorded_record ctx m e).context
    rw [hcontext]
  · obtain ⟨_, _, _, _, _, _, _, hmethod⟩ := (MethodDraft.recorded_record ctx m e).method
    rw [hmethod]
    cases hm with
    | method hflags hname hdescriptor hsignature hexceptions hl =>
      exact .method hflags hname hdescriptor hsignature hexceptions hl

/-- Writing a method leaves the version of the class alone. -/
theorem MethodDraft.version_encode (ctx : Context) (m : MethodDraft) : (m.encode ctx).2.version = ctx.version := by
  have hframed : ∀ (ctx : Context) (exceptions : List ExceptionRange),
    (m.framedCode ctx exceptions).2.1.version = ctx.version := by
    intro ctx exceptions
    unfold framedCode
    dsimp only
    generalize m.flow.computeFrames _ _ _ _ _ = r
    obtain ⟨result, flow, types⟩ := r
    cases result <;> rfl
  have hanalysed : ∀ (ctx : Context) (exceptions : List ExceptionRange),
    (m.analysed ctx exceptions).2.1.version = ctx.version := by
    intro ctx exceptions
    unfold analysed
    split
    · rfl
    · exact hframed ctx exceptions
  have hcode : (m.codeAttribute ctx).2.1.version = ctx.version := by
    rw [codeAttribute_eq]
    split
    · rfl
    · dsimp only
      have h := hanalysed (ctx.intern (exceptionTable m.flow.blocks m.handlers.toList)).2
        (ctx.intern (exceptionTable m.flow.blocks m.handlers.toList)).1
      generalize m.analysed _ _ = r at *
      obtain ⟨result, ctx', m'⟩ := r
      cases result <;> exact h
  unfold MethodDraft.encode
  dsimp only
  split
  · rfl
  · generalize m.codeAttribute ctx = r at *
    obtain ⟨result, ctx', m'⟩ := r
    cases result <;> exact hcode

/-- A class with another field. -/
theorem ClassDraft.Told.push_field (h : c.Told pool major) {bytes : Bytes} {events : List Event}
    (hfield : WrittenField pool major bytes events) :
    ClassDraft.Told pool major { c with fields := c.fields.push bytes } := by
  obtain ⟨names, hnames⟩ := h.names
  refine ⟨⟨names, { hnames with }⟩, h.annotations, fun b hmem => ?_, h.methods, h.distinct⟩
  obtain hmem | rfl := Array.mem_push.1 hmem
  · exact h.fields b hmem
  · exact ⟨events, hfield⟩

/-- A class with another method. -/
theorem ClassDraft.Told.push_method (h : c.Told pool major) {bytes : Bytes}
    (hmethod : ∀ source, ∃ events, WrittenMethod pool major source bytes events) :
    ClassDraft.Told pool major { c with methods := c.methods.push bytes } := by
  obtain ⟨names, hnames⟩ := h.names
  refine ⟨⟨names, { hnames with }⟩, h.annotations, h.fields, fun b hmem => ?_, h.distinct⟩
  obtain hmem | rfl := Array.mem_push.1 hmem
  · exact h.methods b hmem
  · exact hmethod

/-- A field or method that is closed has its place in the class. -/
theorem Writer.Telling.closeMember (h : w.Telling) : w.closeMember.Telling := by
  refine h.later w.later_closeMember.context fun later hb hext hf htold => ?_
  have hsound := h.sound
  obtain ⟨context, draft, member, notes, copies⟩ := w
  cases member with
  | none => exact htold
  | some member =>
    cases htold.member member rfl with
    | @field f _ _ _ hflags hname hdescriptor hlist =>
      have hbytes := ((f.interns_encode context.version.major).recalls context.pool hsound.built).2.2 later hb hext hf
      exact ⟨htold.draft.push_field (.intro hflags hname hdescriptor hlist hbytes), nofun, htold.notes⟩
    | @method m _ _ hflags hname hdescriptor hsignature hexceptions hl =>
      have hversion := m.version_encode context
      cases hfinished : m.finished with
      | true =>
        rw [show Writer.closeMember ⟨context, draft, some (.method m), notes, copies⟩ =
          ⟨context, draft, none, notes, copies⟩ from if_pos hfinished]
        exact ⟨htold.draft, nofun, htold.notes⟩
      | false =>
        rw [Writer.closeMember_eq rfl hfinished] at hext ⊢
        generalize hencode : m.encode context = r at *
        obtain ⟨result, context'⟩ := r
        dsimp only at hversion
        cases result with
        | error e =>
          refine ⟨?_, nofun, htold.notes⟩
          change draft.Told later context'.version.major
          rw [hversion]
          exact htold.draft
        | ok bytes =>
          obtain ⟨code, as, has, rfl⟩ := MethodDraft.encode_contents hencode hsound later hb hext hf
          refine ⟨?_, nofun, htold.notes⟩
          change ClassDraft.Told later context'.version.major { draft with methods := draft.methods.push _ }
          rw [hversion]
          exact htold.draft.push_method fun source => ⟨_, .intro hflags hname hdescriptor hsignature hexceptions hl has⟩

/-- A class of its own takes no methods as they stand. -/
theorem Writer.Telling.copyMethod (h : w.Telling) (source : SourceId) (attributes : Bytes) :
    (w.copyMethod source attributes).Telling := by
  refine h.later (w.later_copyMethod source attributes).context fun later _ _ _ htold => ?_
  have hsource := h.source
  obtain ⟨context, draft, member, notes, copies⟩ := w
  cases member with
  | none => exact htold
  | some member =>
    cases member with
    | field f => exact htold
    | method m =>
      have hown : ¬(context.source == some source && m.isUntouched) = true := by
        rw [show context.source = none from hsource]
        exact Bool.false_ne_true
      rw [show Writer.copyMethod ⟨context, draft, some (.method m), notes, copies⟩ source attributes =
        ⟨context, draft, some (.method m), notes, copies.push false⟩ from if_neg hown]
      exact ⟨htold.draft, htold.member, htold.notes⟩

/-! ### All of them -/

/-- An event that goes on with a class keeps what can be told of it. -/
theorem Writer.Telling.step (h : w.Telling) (e : Event) (hadmits : w.Admits e) : (w.step e).Telling := by
  cases e with
  | header => exact hadmits.elim
  | source file debug =>
    refine h.later (w.later_sourceNames file debug).context fun later hb hext hf htold => ?_
    have hfile := h.asked (Interns.optionMapM (fun text => .intern (.utf8 text)) file).recalls hb hext hf
    obtain ⟨names, hnames⟩ := htold.draft.names
    exact ⟨{ htold.draft with names := ⟨{ names with file, debug }, { hnames with sourceFile := hfile, sourceDebug := rfl }⟩
      }, htold.member, htold.notes⟩
  | outerClass owner name descriptor =>
    have hlater := (w.later_outerClass owner name descriptor).context
    change Writer.Telling (w.outerClass owner name descriptor)
    rw [Writer.outerClass_eq] at hlater ⊢
    refine h.later hlater fun later hb hext hf htold => ?_
    have he := h.asked (interns_enclosure (enclosingNames owner name descriptor)).recalls hb hext hf
    obtain ⟨names, hnames⟩ := htold.draft.names
    exact ⟨{ htold.draft with names := ⟨{ names with enclosing := some (enclosingNames owner name descriptor) },
      { hnames with enclosing := he.map some }⟩ }, htold.member, htold.notes⟩
  | nestHost name =>
    refine h.later (w.later_step (.nestHost name)).context fun later hb hext hf htold => ?_
    have hi := h.asked (recalls_type name) hb hext hf
    obtain ⟨names, hnames⟩ := htold.draft.names
    exact ⟨{ htold.draft with names := ⟨{ names with nestHost := some name }, { hnames with nestHost := hi.map some }⟩ },
      htold.member, htold.notes⟩
  | nestMember name =>
    refine h.later (w.later_step (.nestMember name)).context fun later hb hext hf htold => ?_
    have hi := h.asked (recalls_type name) hb hext hf
    obtain ⟨names, hnames⟩ := htold.draft.names
    exact ⟨{ htold.draft with names := ⟨_, hnames.push_nestMember hi⟩ }, htold.member, htold.notes⟩
  | innerClass name outer inner access => exact h.innerClass hadmits
  | annotationOpen descriptor => exact h.openNotes _ descriptor
  | parameterAnnotationOpen parameter descriptor =>
    refine Writer.Telling.openNotes (h.mapMethod (f := fun context m => (context, m.useParameter parameter.toNat))
      (fun ctx _ => .refl ctx) (fun _ _ => rfl) fun _ m pool hm => ?_) _ descriptor
    cases hm with
    | method hflags hname hdescriptor hsignature hexceptions hl =>
      exact .method hflags hname hdescriptor hsignature hexceptions hl
  | elementValue name v =>
    exact h.mapNotes (fun notes => grows_mapLevel notes fun level => grows_value level name v) fun notes hnotes =>
      ensures_mapLevel (ensures_value (hadmits.1 notes hnotes) hadmits.2 name)
  | elementEnum name descriptor constant =>
    exact h.mapNotes (fun notes => grows_mapLevel notes fun level => grows_enumConstant level name descriptor constant)
      fun notes hnotes =>
      ensures_mapLevel (ensures_enumConstant (hadmits notes hnotes) name descriptor constant)
  | elementNested name descriptor =>
    exact h.mapNotes (fun notes => grows_openNested notes name descriptor) fun notes hnotes =>
      ensures_openNested (hadmits notes hnotes) name descriptor
  | elementArray name =>
    exact h.mapNotes (fun notes => grows_openArray notes name) fun notes hnotes =>
      ensures_openArray (hadmits notes hnotes) name
  | elementsClose => exact h.closeNotes hadmits
  | fieldOpen access name descriptor signature value =>
    refine h.later (w.later_step (.fieldOpen access name descriptor signature value)).context fun later hb hext hf htold =>
      ⟨htold.draft, fun m hm => ?_, htold.notes⟩
    obtain rfl := Option.some.inj hm
    exact h.asked (ensures_startField hadmits name descriptor signature value) hb hext hf
  | methodOpen access name descriptor signature exceptions =>
    exact h.openMethod hadmits.1 name descriptor signature hadmits.2
  | fieldClose => exact h.closeMember
  | methodClose => exact h.closeMember
  | methodCopy source attributes => exact h.copyMethod source attributes
  | instruction i => exact h.record (.instruction i)
  | label l => exact h.record (.label l)
  | tryCatch start stop handler type => exact h.record (.tryCatch start stop handler type)
  | localVariable name descriptor signature start stop slot =>
    exact h.record (.localVariable name descriptor signature start stop slot)
  | lineNumber line start => exact h.record (.lineNumber line start)
  | maxStack height => exact h.record (.maxStack height)
  | classClose => exact h
  | abandon =>
    change Writer.Telling (if w.notes.isSome then w.closeNotes else w.closeMember)
    split
    · exact h.closeNotes hadmits
    · exact h.closeMember

/-- A class to which events have been told one after the other can tell all of them, closed. -/
theorem Writer.Telling.play {events : List Event} (h : w.Telling) (horderly : w.Orderly events) :
    (w.play events).closeAll.Telling := by
  induction events generalizing w with
  | nil => exact (h.closeAllNotes horderly).closeMember
  | cons e rest ih => exact ih (h.step e horderly.1) horderly.2

end Steps

/-! ## Headers -/

/-- The constants in the header of a class: its name, its superclass, its interfaces and its signature. -/
def headerParts (name : String) (signature superName : Option String) (interfaces : List String) :
    Interning (Option PoolIndex × Option PoolIndex × List PoolIndex × Option PoolIndex) := do
  let thisClass ← type name
  let superClass ← superName.mapM type
  let interfaces ← interfaces.mapM type
  let signature ← signature.mapM utf8
  return (some thisClass, superClass, interfaces, signature)

/-- The header takes its constants and stands in the draft. -/
theorem Writer.header_eq (w : Writer) (version : Version) (access : UInt32) (name : String)
    (signature superName : Option String) (interfaces : List String) :
    w.header version access name signature superName interfaces =
      let parts := w.intern (headerParts name signature superName interfaces)
      let hierarchy :=
        match superName with
        | some superName => parts.2.context.hierarchy.insert name superName
        | none => parts.2.context.hierarchy
      let context := { parts.2.context with version, className := name, hierarchy }
      let draft := { parts.2.draft with
        access, thisClass := parts.1.1, superClass := parts.1.2.1, interfaces := parts.1.2.2.1, signature := parts.1.2.2.2 }
      { parts.2 with context, draft } :=
  rfl

/-- The constants of the header are known once they were taken. -/
theorem ensures_headerParts (name : String) (signature superName : Option String) (interfaces : List String) :
    Ensures (headerParts name signature superName interfaces) fun parts later =>
      (∃ i, parts.1 = some i ∧ later.Knows (type name) i) ∧ later.Knows (superName.mapM type) parts.2.1 ∧
        later.Knows (interfaces.mapM type) parts.2.2.1 ∧ later.Knows (signature.mapM utf8) parts.2.2.2 := by
  unfold headerParts
  refine (recalls_type name).andThen fun _ => ?_
  refine (Interns.optionMapM (fun name => (settles_type name).interns) superName).recalls.andThen fun _ => ?_
  refine (Interns.mapM (fun name => (settles_type name).interns) interfaces).recalls.andThen fun _ => ?_
  exact (Interns.optionMapM (fun text => .intern (.utf8 text)) signature).recalls.map
    fun _ _ hsignature hinterfaces hsuper hname =>
    ⟨⟨_, rfl, hname⟩, hsuper, hinterfaces, hsignature⟩

/-- A class that has only its header can tell it. -/
theorem Writer.telling_header (context : Context) (hsource : context.source = none) (hsound : context.pool.Sound)
    (version : Version) {access : UInt32} (hflags : FlagOwner.classes.truncate access = access) (name : String)
    (signature superName : Option String) (interfaces : List String) :
    (Writer.step ⟨context, {}, none, none, #[]⟩ (.header version access name signature superName interfaces)).Telling := by
  have hlater := (Writer.later_header ⟨context, {}, none, none, #[]⟩ version access name signature
    superName interfaces).context
  refine ⟨hlater.source.trans hsource, (hlater.pool hsound).1, fun later hb hext hf => ?_⟩
  obtain ⟨hname, hsuper, hinterfaces, hsignature⟩ :=
    (ensures_headerParts name signature superName interfaces context.pool hsound.built).2.2 later hb hext hf
  have hnamed : ClassNames.Named later { name, superName, interfaces, signature }
      (Writer.header ⟨context, {}, none, none, #[]⟩ version access name signature superName interfaces).draft := {
    flags := hflags, thisClass := hname, superClass := hsuper, interfaces := hinterfaces, signature := hsignature
    sourceFile := knows_pure none, sourceDebug := rfl, enclosing := knows_pure none, nestHost := knows_pure none
    nestMembers := .nil, innerClasses := .nil }
  exact ⟨⟨⟨_, hnamed⟩, ⟨_, .none⟩, fun b hmem => absurd hmem (Array.not_mem_empty b),
    fun b hmem => absurd hmem (Array.not_mem_empty b), List.nodup_nil⟩, nofun, nofun⟩

end ClassFile
