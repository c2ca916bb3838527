import ClassFile.Draft.Class
import ClassFile.Proofs.AnnotationFormat
import ClassFile.Proofs.MethodClosing

/-!
# Writing annotations again

The events with which a reader reports annotations, played to a writer that knows their constants, put the same bytes where
the annotations belong and leave everything else as it was (`Elements.play`, `Annotations.play`).
-/

namespace ClassFile

open ConstantPool

/-- A context whose pool knows the answer comes with it unchanged. -/
theorem Context.intern_known {α : Type} {ctx : Context} {step : Interning α} {a : α} (h : ctx.pool.Knows step a) :
    ctx.intern step = (a, ctx) := by
  rw [Context.intern_eq, show step ctx.pool = (a, ctx.pool) from h]

section Elements

variable {pool : ConstantPool} {level : ElementLevel} {name : Option String} {label : Bytes}

/-- The level with more elements at the end. -/
def ElementLevel.grow (level : ElementLevel) (n : Nat) (bytes : Bytes) : ElementLevel :=
  { level with count := level.count + n.toUInt16, body := level.body ++ bytes }

theorem ElementLevel.grow_zero (level : ElementLevel) : level.grow 0 #[] = level := by
  unfold grow
  rw [Array.append_empty, show (0 : Nat).toUInt16 = 0 from rfl, UInt16.add_zero]

/-- One element behind others. -/
theorem ElementLevel.grow_succ (level : ElementLevel) (n : Nat) (bytes code : Bytes) :
    (level.grow n bytes).grow 1 code = level.grow (n + 1) (bytes ++ code) := by
  have hn : (n + 1).toUInt16 = n.toUInt16 + 1 := UInt16.ofNat_add n 1
  unfold grow
  dsimp only
  rw [hn, Array.append_assoc, ← UInt16.add_assoc]
  rfl

/-- What is written behind the elements of a level belongs to them. -/
theorem ElementLevel.extend_grow (level : ElementLevel) (n : Nat) (bytes code : Bytes) :
    (level.grow n bytes).extend code = level.grow n (bytes ++ code) :=
  congrArg (fun body => { level with count := level.count + n.toUInt16, body }) Array.append_assoc

/-- A level of its own, from its elements. -/
theorem ElementLevel.encode_grow (named : Bool) (head : Bytes) (n : Nat) (bytes : Bytes) :
    (ElementLevel.grow { named, head } n bytes).encode = head ++ (Bytes.ofUInt16 n.toUInt16 ++ bytes) := by
  change head ++ Bytes.ofUInt16 (0 + n.toUInt16) ++ (#[] ++ bytes) = _
  rw [UInt16.zero_add, Array.empty_append, Array.append_assoc]

section Known

variable (level) {i j : PoolIndex} (target : AnnotationTarget) (outer : List ElementLevel)

/-- A name that is known is written before its element. -/
theorem Naming.startElement (h : Naming pool level.named name label) :
    pool.Knows (level.startElement name) (level.grow 1 label) := by
  obtain ⟨named, head, count, body⟩ := level
  cases h with
  | named hname => exact hname.map fun i => (⟨true, head, count + 1, body ++ Bytes.ofUInt16 i⟩ : ElementLevel)
  | unnamed =>
    unfold ElementLevel.startElement ElementLevel.grow
    rw [Array.append_empty]
    exact knows_pure _

/-- Where its name and its constants are known, a value makes the level one element longer. -/
theorem Naming.value (h : Naming pool level.named name label) {v : AnnotationValue} {code : Bytes}
    (hv : pool.Knows v.encode code) :
    pool.Knows (level.value name v) (level.grow 1 (label ++ code)) := by
  rw [← level.extend_grow]
  exact (h.startElement level).bind (hv.map (level.grow 1 label).extend)

/-- Where its name and its constants are known, an enum constant makes the level one element longer. -/
theorem Naming.enumConstant (h : Naming pool level.named name label) {descriptor constant : String}
    (hi : pool.Knows (utf8 descriptor) i) (hj : pool.Knows (utf8 constant) j) :
    pool.Knows (level.enumConstant name descriptor constant)
      (level.grow 1 (label ++ (#[ElementTag.enumConstant] ++ (Bytes.ofUInt16 i ++ Bytes.ofUInt16 j)))) := by
  have hcode : #[ElementTag.enumConstant] ++ (Bytes.ofUInt16 i ++ Bytes.ofUInt16 j) =
      #[ElementTag.enumConstant] ++ Bytes.ofUInt16 i ++ Bytes.ofUInt16 j := Array.append_assoc.symm
  rw [← level.extend_grow, hcode]
  exact (h.startElement level).bind (hi.bind (hj.map fun j =>
    (level.grow 1 label).extend (#[ElementTag.enumConstant] ++ Bytes.ofUInt16 i ++ Bytes.ofUInt16 j)))

/-- Where its name and its descriptor are known, a nested annotation is opened without a new constant. -/
theorem Naming.openNested (h : Naming pool level.named name label) {descriptor : String}
    (hi : pool.Knows (utf8 descriptor) i) :
    pool.Knows (AnnotationDraft.openNested ⟨target, level, outer⟩ name descriptor)
      ⟨target, { named := true, head := #[] },
        level.grow 1 (label ++ (#[ElementTag.nested] ++ Bytes.ofUInt16 i)) :: outer⟩ := by
  rw [← level.extend_grow]
  exact (h.startElement level).bind (hi.map fun i => (⟨target, { named := true, head := #[] },
    (level.grow 1 label).extend (#[ElementTag.nested] ++ Bytes.ofUInt16 i) :: outer⟩ : AnnotationDraft))

/-- Where its name is known, an array is opened without a new constant. -/
theorem Naming.openArray (h : Naming pool level.named name label) :
    pool.Knows (AnnotationDraft.openArray ⟨target, level, outer⟩ name)
      ⟨target, { named := false, head := #[] }, level.grow 1 (label ++ #[ElementTag.array]) :: outer⟩ := by
  rw [← level.extend_grow]
  exact (h.startElement level).map fun level =>
    (⟨target, { named := false, head := #[] }, level.extend #[ElementTag.array] :: outer⟩ :
    AnnotationDraft)

variable {level} in
/-- What is known to come of the open level comes of the whole annotation. -/
theorem AnnotationDraft.mapLevel_known (f : ElementLevel → Interning ElementLevel) {level' : ElementLevel}
    (h : pool.Knows (f level) level') : pool.Knows (mapLevel ⟨target, level, outer⟩ f) ⟨target, level', outer⟩ :=
  h.map fun level => (⟨target, level, outer⟩ : AnnotationDraft)

end Known

variable {ctx : Context} {draft : ClassDraft} {member : Option OpenMember}
  {notes notes' : AnnotationDraft} {copies : Array Bool}

/-- A single event is one step. -/
theorem Writer.play_singleton (w : Writer) (e : Event) : w.play [e] = w.step e := rfl

/-- An event whose constants are known changes the open annotation and nothing else of the writer. -/
theorem Writer.step_known (e : Event) (f : AnnotationDraft → Interning AnnotationDraft)
    (he : ∀ w : Writer, w.step e = w.mapNotes f) (h : ctx.pool.Knows (f notes) notes') :
    Writer.step ⟨ctx, draft, member, some notes, copies⟩ e = ⟨ctx, draft, member, some notes', copies⟩ := by
  rw [he]
  exact congrArg (fun r : AnnotationDraft × Context => (⟨r.2, draft, member, some r.1, copies⟩ : Writer))
    (Context.intern_known h)

/-- A level that is opened, filled and closed becomes part of the level around it. -/
theorem Writer.play_level {target : AnnotationTarget} {outer : List ElementLevel} (e : Event)
    (f : AnnotationDraft → Interning AnnotationDraft) (he : ∀ w : Writer, w.step e = w.mapNotes f) {named : Bool} {n : Nat}
    {body : Bytes} (h : ctx.pool.Knows (f notes) ⟨target, { named, head := #[] }, level :: outer⟩) {events : List Event}
    (hinner : Writer.play ⟨ctx, draft, member, some ⟨target, { named, head := #[] }, level :: outer⟩, copies⟩ events =
      ⟨ctx, draft, member, some ⟨target, ElementLevel.grow { named, head := #[] } n body, level :: outer⟩, copies⟩) :
    Writer.play ⟨ctx, draft, member, some notes, copies⟩ (e :: (events ++ [.elementsClose])) =
      ⟨ctx, draft, member, some ⟨target, level.extend (Bytes.ofUInt16 n.toUInt16 ++ body), outer⟩, copies⟩ := by
  have hencode : (ElementLevel.grow { named, head := #[] } n body).encode = Bytes.ofUInt16 n.toUInt16 ++ body := by
    rw [ElementLevel.encode_grow, Array.empty_append]
  change Writer.play (Writer.step _ e) (events ++ [.elementsClose]) = _
  rw [Writer.step_known e f he h, Writer.play_append, hinner, ← hencode]
  rfl

/-- The events of elements put the elements into the open level. -/
theorem Elements.play {named : Bool} {tags : List UInt8} {events : List Event} {bytes : Bytes}
    (h : Elements ctx.pool named tags events bytes) (target : AnnotationTarget) (level : ElementLevel)
    (outer : List ElementLevel) (hnamed : level.named = named) :
    Writer.play ⟨ctx, draft, member, some ⟨target, level, outer⟩, copies⟩ events =
      ⟨ctx, draft, member, some ⟨target, level.grow tags.length bytes, outer⟩, copies⟩ := by
  induction h generalizing level outer with
  | none => rw [List.length_nil, level.grow_zero]; rfl
  | @value _ tags _ bytes _ _ name v _ hname _ hcode ih =>
    subst hnamed
    rw [Writer.play_append, ih level outer rfl, List.length_append, List.length_singleton, ← level.grow_succ,
      Writer.play_singleton]
    exact Writer.step_known (.elementValue name v) (fun notes => notes.mapLevel (·.value name v)) (fun _ => rfl)
      (AnnotationDraft.mapLevel_known target outer (·.value name v) (hname.value (level.grow tags.length bytes) hcode))
  | @enumConstant _ tags _ bytes _ name descriptor constant _ _ _ hname hi hj ih =>
    subst hnamed
    rw [Writer.play_append, ih level outer rfl, List.length_append, List.length_singleton, ← level.grow_succ,
      Writer.play_singleton]
    exact Writer.step_known (.elementEnum name descriptor constant)
      (fun notes => notes.mapLevel (·.enumConstant name descriptor constant)) (fun _ => rfl)
      (AnnotationDraft.mapLevel_known target outer (·.enumConstant name descriptor constant)
        (hname.enumConstant (level.grow tags.length bytes) hi hj))
  | @nested _ tags _ _ _ bytes _ _ name descriptor _ _ hname hi _ _ ih ihinner =>
    subst hnamed
    rw [Writer.play_append, ih level outer rfl,
      Writer.play_level (.elementNested name descriptor) (·.openNested name descriptor)
      (fun _ => rfl) (hname.openNested (level.grow tags.length bytes) target outer hi) (ihinner _ _ rfl), List.length_append,
      List.length_singleton, ← level.grow_succ, ElementLevel.extend_grow]
    simp only [Array.append_assoc]
  | @array _ tags _ _ _ bytes _ _ name _ hname _ _ _ ih ihinner =>
    subst hnamed
    rw [Writer.play_append, ih level outer rfl, Writer.play_level (.elementArray name) (·.openArray name)
      (fun _ => rfl) (hname.openArray (level.grow tags.length bytes) target outer) (ihinner _ _ rfl), List.length_append,
      List.length_singleton, ← level.grow_succ, ElementLevel.extend_grow]
    simp only [Array.append_assoc]

end Elements

/-! ## Lists of annotations -/

/-- The list with more annotations at the end. -/
def AnnotationList.grow (list : AnnotationList) (n : Nat) (bytes : Bytes) : AnnotationList :=
  ⟨list.count + n.toUInt16, list.bytes ++ bytes⟩

/-- An annotation more is counted and stands behind the others. -/
theorem AnnotationList.push_grow (list : AnnotationList) (n : Nat) (bytes code : Bytes) :
    (list.grow n bytes).push code = list.grow (n + 1) (bytes ++ code) := by
  have hn : list.count + n.toUInt16 + 1 = list.count + (n + 1).toUInt16 := by
    rw [UInt16.add_assoc]
    exact congrArg (list.count + ·) (UInt16.ofNat_add n 1).symm
  change (⟨list.count + n.toUInt16 + 1, list.bytes ++ bytes ++ code⟩ : AnnotationList) = _
  rw [hn, Array.append_assoc]
  rfl

/-- A list is what its own annotations make of the empty list. -/
theorem AnnotationList.grow_empty (list : AnnotationList) : grow {} list.count.toNat list.bytes = list := by
  change (⟨0 + UInt16.ofNat list.count.toNat, #[] ++ list.bytes⟩ : AnnotationList) = _
  rw [UInt16.zero_add, Array.empty_append, UInt16.ofNat_toNat]

section Lists

variable {ctx : Context} (own : AnnotationList → ClassDraft) (member : AnnotationList → Option OpenMember)
  (copies : Array Bool)

/-- The events of annotations put the annotations where they belong, one behind the other. -/
theorem Annotations.play {n : Nat} {events : List Event} {bytes : Bytes} (h : Annotations ctx.pool n events bytes)
    (hannotate : ∀ list bytes, Writer.annotate ⟨ctx, own list, member list, .none, copies⟩ .owner bytes =
      ⟨ctx, own (list.push bytes), member (list.push bytes), .none, copies⟩) (list : AnnotationList) :
    Writer.play ⟨ctx, own list, member list, .none, copies⟩ events =
      ⟨ctx, own (list.grow n bytes), member (list.grow n bytes), .none, copies⟩ := by
  induction h with
  | none => simp [AnnotationList.grow, Writer.play]
  | @push n tags _ events' bytes body descriptor i _ hi helements _ ih =>
    have hopened : Writer.step ⟨ctx, own (list.grow n bytes), member (list.grow n bytes), .none, copies⟩
      (.annotationOpen descriptor) = ⟨ctx, own (list.grow n bytes), member (list.grow n bytes),
          some ⟨.owner, { named := true, head := Bytes.ofUInt16 i }, []⟩, copies⟩ := by
      have hknown : ctx.pool.Knows (AnnotationDraft.start .owner descriptor)
        ⟨.owner, { named := true, head := Bytes.ofUInt16 i }, []⟩ :=
        hi.map fun i => (⟨.owner, { named := true, head := Bytes.ofUInt16 i }, []⟩ : AnnotationDraft)
      exact congrArg (fun r : AnnotationDraft × Context =>
        (⟨r.2, own (list.grow n bytes), member (list.grow n bytes), some r.1, copies⟩ : Writer))
          (Context.intern_known hknown)
    rw [Writer.play_append, ih]
    change Writer.play (Writer.step _ (.annotationOpen descriptor)) (events' ++ [.elementsClose]) = _
    rw [hopened, Writer.play_append, helements.play .owner _ [] rfl, Writer.play_singleton, ← list.push_grow, ← hannotate,
      ← ElementLevel.encode_grow true]
    rfl

end Lists

end ClassFile
