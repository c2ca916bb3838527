import ClassFile.Proofs.ClassCopying

/-!
# Annotations as trees

An annotation is a tree of values, nested annotations and arrays (`ElementTree`). Told to a writer event by event,
the tree becomes the bytes that `ElementTree.encodeAll` says, and a reader of these bytes hears of the same tree
again, with names put in or left out as the format has it and with an array of plain values as one value
(`ElementTree.asRead`, `Writer.annotation_reads`).
-/

namespace ClassFile

open ConstantPool

/-- An element of an annotation or of an array, with all that it holds. -/
inductive ElementTree where
  | value (name : Option String) (value : AnnotationValue)
  | enumConstant (name : Option String) (descriptor constant : String)
  | nested (name : Option String) (descriptor : String) (elements : List ElementTree)
  | array (name : Option String) (elements : List ElementTree)

/-- An array without values. -/
def AnnotationValue.isEmptyArray : AnnotationValue → Bool
  | array values => values.toList.isEmpty
  | _ => false

namespace ElementTree

mutual

/-- The events that tell of an element. -/
def events : ElementTree → List Event
  | value name v => [.elementValue name v]
  | enumConstant name descriptor constant => [.elementEnum name descriptor constant]
  | nested name descriptor elements => .elementNested name descriptor :: (eventsOf elements ++ [.elementsClose])
  | array name elements => .elementArray name :: (eventsOf elements ++ [.elementsClose])

/-- The events that tell of elements, one after the other. -/
def eventsOf : List ElementTree → List Event
  | [] => []
  | t :: ts => t.events ++ eventsOf ts

end

/-- The plain value that an element is. -/
def plain? : ElementTree → Option Primitive
  | value _ (.primitive p) => some p
  | _ => none

/-- The first of the elements if it is a plain value. -/
def firstPlain? (elements : List ElementTree) : Option Primitive :=
  elements.head?.bind plain?

/-- All elements are plain values of one kind if the first one is a plain value. -/
def Alike (elements : List ElementTree) : Prop :=
  ∀ kind ∈ firstPlain? elements, ∀ t ∈ elements, ∃ p, t.plain? = some p ∧ p.tag = kind.tag

mutual

/-- The elements of every level can be counted in two bytes, and arrays are of one kind if they start with a plain value. -/
def Regular : ElementTree → Prop
  | value _ (.array values) => values.toList.length < 65536
  | value .. | enumConstant .. => True
  | nested _ _ elements => elements.length < 65536 ∧ AllRegular elements
  | array _ elements => elements.length < 65536 ∧ Alike elements ∧ AllRegular elements

/-- All elements are regular. -/
def AllRegular : List ElementTree → Prop
  | [] => True
  | t :: ts => t.Regular ∧ AllRegular ts

end

/-- The name with which an element is read: where elements have names a missing one is read as the
value's, elsewhere there is none. -/
def nameAsRead (named : Bool) (name : Option String) : Option String :=
  if named then some (name.getD "value") else none

mutual

/-- An element as a reader tells of it. -/
def asRead (named : Bool) : ElementTree → ElementTree
  | value name v => if v.isEmptyArray then array (nameAsRead named name) [] else value (nameAsRead named name) v
  | enumConstant name descriptor constant => enumConstant (nameAsRead named name) descriptor constant
  | nested name descriptor elements => nested (nameAsRead named name) descriptor (allAsRead true elements)
  | array name elements =>
    match firstPlain? elements with
    | some kind => value (nameAsRead named name) (.array (.ofKind kind (elements.filterMap plain?)))
    | none => array (nameAsRead named name) (allAsRead false elements)

/-- Elements as a reader tells of them. -/
def allAsRead (named : Bool) : List ElementTree → List ElementTree
  | [] => []
  | t :: ts => t.asRead named :: allAsRead named ts

end

/-! ## What is written -/

/-- A name as it stands before an element. -/
def encodeName (named : Bool) (name : Option String) : Interning Bytes :=
  if named then do return Bytes.ofUInt16 (← utf8 (name.getD "value")) else pure #[]

/-- What stands before the elements of a nested annotation and their number. -/
def encodeNestedHead (named : Bool) (name : Option String) (descriptor : String) : Interning Bytes := do
  let label ← encodeName named name
  return label ++ (#[ElementTag.nested] ++ Bytes.ofUInt16 (← utf8 descriptor))

/-- What stands before the elements of an array and their number. -/
def encodeArrayHead (named : Bool) (name : Option String) : Interning Bytes := do
  return (← encodeName named name) ++ #[ElementTag.array]

/-- Elements behind their number, and what stands before it. -/
def encodeLevel (head : Interning Bytes) (n : Nat) (body : Interning Bytes) : Interning Bytes := do
  let head ← head
  return head ++ (Bytes.ofUInt16 n.toUInt16 ++ (← body))

mutual

/-- An element as it stands in a class file. -/
def encode (named : Bool) : ElementTree → Interning Bytes
  | value name v => do
    let label ← encodeName named name
    return label ++ (← v.encode)
  | enumConstant name descriptor constant => do
    let label ← encodeName named name
    let i ← utf8 descriptor
    let j ← utf8 constant
    return label ++ (#[ElementTag.enumConstant] ++ (Bytes.ofUInt16 i ++ Bytes.ofUInt16 j))
  | nested name descriptor elements =>
    encodeLevel (encodeNestedHead named name descriptor) elements.length (encodeAll true elements)
  | array name elements => encodeLevel (encodeArrayHead named name) elements.length (encodeAll false elements)

/-- Elements as they stand in a class file, one behind the other. -/
def encodeAll (named : Bool) : List ElementTree → Interning Bytes
  | [] => pure #[]
  | t :: ts => do
    let code ← encode named t
    return code ++ (← encodeAll named ts)

end

end ElementTree

/-! ## A writer that is told of a tree -/

section Writing

variable {level : ElementLevel} {target : AnnotationTarget} {outer : List ElementLevel}

/-- Elements that come in two goes are counted together. -/
theorem ElementLevel.grow_grow (level : ElementLevel) (m n : Nat) (bytes code : Bytes) :
    (level.grow m bytes).grow n code = level.grow (m + n) (bytes ++ code) := by
  have hsum : (m + n).toUInt16 = m.toUInt16 + n.toUInt16 := UInt16.ofNat_add m n
  unfold grow
  dsimp only
  rw [hsum, Array.append_assoc, ← UInt16.add_assoc]

/-- An element starts with its name. -/
theorem ElementLevel.startElement_eq (level : ElementLevel) (name : Option String) :
    level.startElement name = do return level.grow 1 (← ElementTree.encodeName level.named name) := by
  obtain ⟨named, head, count, body⟩ := level
  cases named with
  | true => rfl
  | false =>
    change pure _ = (pure (ElementLevel.grow ⟨false, head, count, body⟩ 1 #[]) : Interning ElementLevel)
    unfold grow
    rw [Array.append_empty]
    rfl

namespace AnnotationDraft

/-- A value told to the open level is its element in bytes. -/
theorem value_eq (name : Option String) (v : AnnotationValue) : mapLevel ⟨target, level, outer⟩ (·.value name v) = do
    return ⟨target, level.grow 1 (← (ElementTree.value name v).encode level.named), outer⟩ := by
  unfold mapLevel ElementLevel.value ElementTree.encode
  simp only [ElementLevel.startElement_eq, bind_assoc, pure_bind, ElementLevel.extend_grow]

/-- An enum constant told to the open level is its element in bytes. -/
theorem enumConstant_eq (name : Option String) (descriptor constant : String) :
    mapLevel ⟨target, level, outer⟩ (·.enumConstant name descriptor constant) = do
      return ⟨target, level.grow 1 (← (ElementTree.enumConstant name descriptor constant).encode level.named), outer⟩ := by
  unfold mapLevel ElementLevel.enumConstant ElementTree.encode
  simp only [ElementLevel.startElement_eq, bind_assoc, pure_bind, ElementLevel.extend_grow, Array.append_assoc]

/-- A nested annotation that is opened starts with its name, its letter and its descriptor. -/
theorem openNested_eq (name : Option String) (descriptor : String) : openNested ⟨target, level, outer⟩ name descriptor = do
    return ⟨target, { named := true, head := #[] },
      level.grow 1 (← ElementTree.encodeNestedHead level.named name descriptor) :: outer⟩ := by
  unfold openNested ElementTree.encodeNestedHead
  simp only [ElementLevel.startElement_eq, bind_assoc, pure_bind, ElementLevel.extend_grow]

/-- An array that is opened starts with its name and its letter. -/
theorem openArray_eq (name : Option String) : openArray ⟨target, level, outer⟩ name = do
    return ⟨target, { named := false, head := #[] },
      level.grow 1 (← ElementTree.encodeArrayHead level.named name) :: outer⟩ := by
  unfold openArray ElementTree.encodeArrayHead
  simp only [ElementLevel.startElement_eq, bind_assoc, pure_bind, ElementLevel.extend_grow]

end AnnotationDraft

namespace Writer

variable {draft : ClassDraft} {member : Option OpenMember} {notes : AnnotationDraft} {copies : Array Bool}

/-- An event that changes the open annotation takes its constants from the pool. -/
theorem step_interns (ctx : Context) {α : Type} (e : Event) (f : AnnotationDraft → Interning AnnotationDraft)
    (he : ∀ w : Writer, w.step e = w.mapNotes f) {step : Interning α} {g : α → AnnotationDraft}
    (h : f notes = do return g (← step)) :
    Writer.step ⟨ctx, draft, member, some notes, copies⟩ e =
      ⟨{ ctx with pool := (step ctx.pool).2 }, draft, member, some (g (step ctx.pool).1), copies⟩ := by
  rw [he, mapNotes, h]
  rfl

/-- A level that is opened, filled and closed is one more element of the level around it. -/
theorem play_encodeLevel (ctx : Context) (e : Event) (f : AnnotationDraft → Interning AnnotationDraft)
    (he : ∀ w : Writer, w.step e = w.mapNotes f) {named : Bool} {head body : Interning Bytes} {n : Nat} {events : List Event}
    (h : f notes = do return ⟨target, { named, head := #[] }, level.grow 1 (← head) :: outer⟩)
    (hinner : ∀ (ctx : Context) (outer : List ElementLevel),
      Writer.play ⟨ctx, draft, member, some ⟨target, { named, head := #[] }, outer⟩, copies⟩ events =
        ⟨{ ctx with pool := (body ctx.pool).2 }, draft, member,
          some ⟨target, ElementLevel.grow { named, head := #[] } n (body ctx.pool).1, outer⟩, copies⟩) :
    Writer.play ⟨ctx, draft, member, some notes, copies⟩ (e :: (events ++ [.elementsClose])) =
      ⟨{ ctx with pool := (ElementTree.encodeLevel head n body ctx.pool).2 }, draft, member,
        some ⟨target, level.grow 1 (ElementTree.encodeLevel head n body ctx.pool).1, outer⟩, copies⟩ := by
  have hencode : ∀ body : Bytes, (ElementLevel.grow { named, head := #[] } n body).encode =
    Bytes.ofUInt16 n.toUInt16 ++ body :=
    fun body => by rw [ElementLevel.encode_grow, Array.empty_append]
  change Writer.play (Writer.step _ e) (events ++ [.elementsClose]) = _
  rw [step_interns ctx e f he h, play_append, hinner]
  change (⟨_, draft, member, some ⟨target, (level.grow 1 _).extend (ElementLevel.encode _), outer⟩, copies⟩ : Writer) = _
  rw [hencode, ElementLevel.extend_grow]
  rfl

end Writer

mutual

/-- Told of an element, a writer puts it behind the elements of the open level. -/
theorem ElementTree.play (draft : ClassDraft) (member : Option OpenMember) (copies : Array Bool)
    (target : AnnotationTarget) :
    ∀ (t : ElementTree) (ctx : Context) (level : ElementLevel) (outer : List ElementLevel),
      Writer.play ⟨ctx, draft, member, some ⟨target, level, outer⟩, copies⟩ t.events =
        ⟨{ ctx with pool := (t.encode level.named ctx.pool).2 }, draft, member,
          some ⟨target, level.grow 1 (t.encode level.named ctx.pool).1, outer⟩, copies⟩
  | value name v, ctx, level, outer => by
    rw [events, Writer.play_singleton, Writer.step_interns ctx (.elementValue name v)
      (·.mapLevel (·.value name v)) (fun _ => rfl) (AnnotationDraft.value_eq name v)]
  | enumConstant name descriptor constant, ctx, level, outer => by
    rw [events, Writer.play_singleton, Writer.step_interns ctx (.elementEnum name descriptor constant)
      (·.mapLevel (·.enumConstant name descriptor constant)) (fun _ => rfl)
        (AnnotationDraft.enumConstant_eq name descriptor constant)]
  | nested name descriptor elements, ctx, level, outer => by
    rw [events, encode, Writer.play_encodeLevel ctx (.elementNested name descriptor)
      (·.openNested name descriptor) (fun _ => rfl) (AnnotationDraft.openNested_eq name descriptor)
      fun ctx outer => playAll draft member copies target elements ctx { named := true, head := #[] } outer]
  | array name elements, ctx, level, outer => by
    rw [events, encode, Writer.play_encodeLevel ctx (.elementArray name) (·.openArray name) (fun _ => rfl)
      (AnnotationDraft.openArray_eq name)
      fun ctx outer => playAll draft member copies target elements ctx { named := false, head := #[] } outer]

/-- Told of elements, a writer puts them behind the elements of the open level. -/
theorem ElementTree.playAll (draft : ClassDraft) (member : Option OpenMember) (copies : Array Bool)
    (target : AnnotationTarget) :
    ∀ (ts : List ElementTree) (ctx : Context) (level : ElementLevel) (outer : List ElementLevel),
      Writer.play ⟨ctx, draft, member, some ⟨target, level, outer⟩, copies⟩ (eventsOf ts) =
        ⟨{ ctx with pool := (encodeAll level.named ts ctx.pool).2 }, draft, member,
          some ⟨target, level.grow ts.length (encodeAll level.named ts ctx.pool).1, outer⟩, copies⟩
  | [], ctx, level, outer => by
    change _ = (⟨ctx, draft, member, some ⟨target, level.grow 0 #[], outer⟩, copies⟩ : Writer)
    rw [level.grow_zero]
    rfl
  | t :: ts, ctx, level, outer => by
    rw [eventsOf, Writer.play_append, t.play draft member copies target ctx level outer,
      playAll draft member copies target ts, ElementLevel.grow_grow, Nat.add_comm]
    rfl

end

end Writing

/-! ## What the bytes tell -/

namespace ElementTree

/-- The letter with which an element is written. -/
def letter : ElementTree → UInt8
  | value _ v => v.tag
  | enumConstant .. => ElementTag.enumConstant
  | nested .. => ElementTag.nested
  | array .. => ElementTag.array

/-- Behind other elements, bytes are elements with given letters that a reader reports with given events. -/
def Adds (named : Bool) (letters : List UInt8) (told : List Event) (code : Bytes) (later : ConstantPool) : Prop :=
  ∀ ⦃tags : List UInt8⦄ ⦃events : List Event⦄ ⦃bytes : Bytes⦄, Elements later named tags events bytes →
    Elements later named (tags ++ letters) (events ++ told) (bytes ++ code)

section Plain

variable {elements : List ElementTree}

/-- An element that is no plain value has none of the letters of plain values. -/
theorem isTag_letter {t : ElementTree} (h : t.plain? = none) : Primitive.isTag t.letter = false := by
  cases t with
  | value name v =>
    cases v with
    | primitive p => cases h
    | _ => rfl
  | _ => rfl

/-- An element that is a plain value starts with the letter of that value. -/
theorem letter_of_plain? {t : ElementTree} {p : Primitive} (h : t.plain? = some p) : t.letter = p.tag := by
  cases t with
  | value name v =>
    cases v with
    | primitive q => exact congrArg Primitive.tag (Option.some.inj h)
    | _ => cases h
  | _ => cases h

/-- Elements that do not start with a plain value do not start with its letter. -/
theorem head_letter (h : firstPlain? elements = none) :
    ∀ tag ∈ (elements.map letter).head?, Primitive.isTag tag = false := by
  intro tag htag
  cases elements with
  | nil => cases htag
  | cons t ts => exact Option.some.inj htag ▸ isTag_letter h

/-- Plain values are read as themselves, without names. -/
theorem eventsOf_plain (h : ∀ t ∈ elements, ∃ p, t.plain? = some p) :
    eventsOf (allAsRead false elements) = (elements.filterMap plain?).map fun p => .elementValue none (.primitive p) := by
  induction elements with
  | nil => rfl
  | cons t ts ih =>
    obtain ⟨p, hp⟩ := h t List.mem_cons_self
    have hrest := ih fun t ht => h t (List.mem_cons_of_mem _ ht)
    have hfirst : (t.asRead false).events = [.elementValue none (.primitive p)] := by
      cases t with
      | value name v =>
        cases v with
        | primitive q => exact Option.some.inj hp ▸ rfl
        | _ => cases hp
      | _ => cases hp
    rw [allAsRead, eventsOf, hfirst, hrest, List.filterMap_cons_some hp]
    rfl

end Plain

/-- The name of an element is known once it is written, and none is written inside an array. -/
theorem ensures_encodeName (named : Bool) (name : Option String) :
    Ensures (encodeName named name) fun label later => Naming later named (nameAsRead named name) label := by
  cases named with
  | true => exact (recalls_utf8 (name.getD "value")).map fun i later hi => .named hi
  | false => exact (Ensures.pure _).mono fun label later h => h ▸ .unnamed

/-- What stands in front of a nested annotation's elements is its name, its letter and its descriptor. -/
theorem ensures_encodeNestedHead (named : Bool) (name : Option String) (descriptor : String) :
    Ensures (encodeNestedHead named name descriptor) fun head later => ∃ label i,
    Naming later named (nameAsRead named name) label ∧
      later.Knows (utf8 descriptor) i ∧ head = label ++ (#[ElementTag.nested] ++ Bytes.ofUInt16 i) :=
  (ensures_encodeName named name).andThen fun label => (recalls_utf8 descriptor).map fun i _ hi hname =>
    ⟨label, i, hname, hi, rfl⟩

/-- What stands in front of an array's elements is its name and its letter. -/
theorem ensures_encodeArrayHead (named : Bool) (name : Option String) :
    Ensures (encodeArrayHead named name) fun head later =>
    ∃ label, Naming later named (nameAsRead named name) label ∧ head = label ++ #[ElementTag.array] :=
  (ensures_encodeName named name).map fun label _ hname => ⟨label, hname, rfl⟩

/-- A level is its head, its count and its elements, whatever each of these is known to be. -/
theorem ensures_encodeLevel {head body : Interning Bytes} {P Q S : Bytes → ConstantPool → Prop} (hhead : Ensures head P)
    (hbody : Ensures body Q) (n : Nat)
    (h : ∀ head body later, P head later → Q body later → S (head ++ (Bytes.ofUInt16 n.toUInt16 ++ body)) later) :
    Ensures (encodeLevel head n body) S :=
  hhead.andThen fun head => hbody.map fun body later hQ hP => h head body later hP hQ

section Ensured

variable {later : ConstantPool} {named : Bool} {name : Option String} {label : Bytes}

theorem adds_nil : Adds named [] [] #[] later := by
  intro tags events bytes h
  rwa [List.append_nil, List.append_nil, Array.append_empty]

/-- Elements that stand behind other elements are told behind them. -/
theorem Adds.append {letters letters' : List UInt8} {told told' : List Event} {code code' : Bytes}
    (h : Adds named letters told code later) (h' : Adds named letters' told' code' later) :
    Adds named (letters ++ letters') (told ++ told') (code ++ code') later := by
  intro tags events bytes helements
  rw [← List.append_assoc, ← List.append_assoc, ← Array.append_assoc]
  exact h' (h helements)

/-- Elements that stand behind no others. -/
theorem Adds.alone {letters : List UInt8} {told : List Event} {code : Bytes} (h : Adds named letters told code later) :
    Elements later named letters told code := by
  have := h (.none named)
  rwa [List.nil_append, List.nil_append, Array.empty_append] at this

/-- A value is read as itself, an array without values as one that is opened and closed. -/
theorem adds_value {v : AnnotationValue} {code : Bytes} (hname : Naming later named (nameAsRead named name) label)
    (hregular : (value name v).Regular) (hcode : later.Knows v.encode code) :
    Adds named [v.tag] ((value name v).asRead named).events (label ++ code) later := by
  intro tags events bytes helements
  rw [asRead]
  split
  · rename_i hempty
    obtain ⟨values, rfl, hvalues⟩ : ∃ values, v = .array values ∧ values.toList = [] := by
      cases v with
      | array values => exact ⟨values, rfl, List.isEmpty_iff.1 hempty⟩
      | _ => cases hempty
    have hknown : later.Knows (AnnotationValue.array values).encode (#[ElementTag.array] ++ (Bytes.ofUInt16 0 ++ #[])) := by
      change later.Knows (Primitive.encodeAll
        (#[ElementTag.array] ++ Bytes.ofUInt16 values.toList.length.toUInt16) values.toList) _
      rw [hvalues, Array.append_empty]
      exact knows_pure _
    obtain rfl := hcode.unique hknown
    have hinner : Elements later false [] [] #[] := .none false
    have hpushed := helements.array hname hinner (by decide) nofun
    exact hpushed
  · rename_i hvalue
    refine .value helements hname ?_ hcode
    cases v with
    | array values => exact ⟨fun hvalues => hvalue (List.isEmpty_iff.2 hvalues), hregular⟩
    | _ => trivial

/-- An array of plain values that were told one by one is read as one value. -/
theorem adds_plainArray {elements : List ElementTree} {kind : Primitive} {body : Bytes}
    (hname : Naming later named (nameAsRead named name) label) (hl : elements.length < 65536)
    (hplain : ∀ t ∈ elements, ∃ p, t.plain? = some p ∧ p.tag = kind.tag) (hne : elements ≠ [])
    (h : Elements later false (elements.map letter) (eventsOf (allAsRead false elements)) body) :
    Adds named [ElementTag.array] [.elementValue (nameAsRead named name) (.array (.ofKind kind (elements.filterMap plain?)))]
      (label ++ (#[ElementTag.array] ++ (Bytes.ofUInt16 elements.length.toUInt16 ++ body))) later := by
  intro tags events bytes helements
  rw [eventsOf_plain fun t ht => (hplain t ht).imp fun p hp => hp.1] at h
  obtain ⟨ps, hps, hevents, hknown⟩ := h.primitives rfl fun tag htag => by
    obtain ⟨t, ht, rfl⟩ := List.mem_map.1 htag
    obtain ⟨p, hp, -⟩ := hplain t ht
    exact letter_of_plain? hp ▸ p.isTag_tag
  obtain rfl : elements.filterMap plain? = ps := by
    refine (List.map_inj_right fun p q hpq => ?_).1 hevents
    simpa using hpq
  have hlength : (elements.filterMap plain?).length = elements.length := by
    have := congrArg List.length hps
    rwa [List.length_map, List.length_map] at this
  have hvalues : (PrimitiveArray.ofKind kind (elements.filterMap plain?)).toList = elements.filterMap plain? :=
    PrimitiveArray.toList_ofKind fun p hp => by
      obtain ⟨t, ht, htp⟩ := List.mem_filterMap.1 hp
      obtain ⟨q, hq, hkind⟩ := hplain t ht
      exact Option.some.inj (htp.symm.trans hq) ▸ hkind
  refine .value helements hname (v := .array (.ofKind kind (elements.filterMap plain?))) ⟨?_, ?_⟩ ?_
  · rw [hvalues]
    exact List.ne_nil_of_length_pos (hlength ▸ List.length_pos_iff.2 hne)
  · rw [hvalues, hlength]
    exact hl
  · rw [← Array.append_assoc, ← hlength]
    change later.Knows (Primitive.encodeAll (#[ElementTag.array] ++
      Bytes.ofUInt16 (PrimitiveArray.ofKind kind (elements.filterMap plain?)).toList.length.toUInt16)
      (PrimitiveArray.ofKind kind (elements.filterMap plain?)).toList) _
    rw [hvalues]
    exact hknown _

/-- A nested annotation is read as it is. -/
theorem adds_nested {elements : List ElementTree} {descriptor : String} {i : PoolIndex} {body : Bytes}
    (hname : Naming later named (nameAsRead named name) label) (hi : later.Knows (utf8 descriptor) i)
    (hl : elements.length < 65536)
    (h : Elements later true (elements.map letter) (eventsOf (allAsRead true elements)) body) :
    Adds named [ElementTag.nested] ((nested name descriptor elements).asRead named).events
      (label ++ (#[ElementTag.nested] ++ Bytes.ofUInt16 i) ++ (Bytes.ofUInt16 elements.length.toUInt16 ++ body)) later := by
  intro tags events bytes helements
  rw [← List.length_map letter] at hl ⊢
  rw [Array.append_assoc, Array.append_assoc]
  exact .nested helements hname hi h hl

/-- An array is read as one value if it starts with a plain value, and is opened and closed if not. -/
theorem adds_array {elements : List ElementTree} {body : Bytes} (hname : Naming later named (nameAsRead named name) label)
    (hl : elements.length < 65536) (halike : Alike elements)
    (h : Elements later false (elements.map letter) (eventsOf (allAsRead false elements)) body) :
    Adds named [ElementTag.array] ((array name elements).asRead named).events
      (label ++ #[ElementTag.array] ++ (Bytes.ofUInt16 elements.length.toUInt16 ++ body)) later := by
  rw [asRead, Array.append_assoc]
  split
  · rename_i kind hkind
    refine adds_plainArray hname hl (halike kind hkind) ?_ h
    rintro rfl
    cases hkind
  · rename_i hfirst
    intro tags events bytes helements
    rw [← List.length_map letter] at hl ⊢
    exact .array helements hname h hl (head_letter hfirst)

end Ensured

mutual

/-- What is written of an element is the element that a reader tells of. -/
theorem ensures_encode (named : Bool) : ∀ t : ElementTree, t.Regular →
    Ensures (t.encode named) (Adds named [t.letter] (t.asRead named).events)
  | value name v, hregular =>
    (ensures_encodeName named name).andThen fun _ => v.interns_encode.recalls.map fun _ _ hcode hname =>
      adds_value hname hregular hcode
  | enumConstant name descriptor constant, _ =>
    (ensures_encodeName named name).andThen fun _ => (recalls_utf8 descriptor).andThen fun _ => (recalls_utf8 constant).map
      fun _ _ hj hi hname _ _ _ helements => .enumConstant helements hname hi hj
  | nested name descriptor elements, hregular =>
    ensures_encodeLevel (ensures_encodeNestedHead named name descriptor) (ensures_encodeAll true elements hregular.2) _
      fun _ _ _ ⟨_, _, hname, hi, hhead⟩ hbody => hhead ▸ adds_nested hname hi hregular.1 hbody.alone
  | array name elements, hregular =>
    ensures_encodeLevel (ensures_encodeArrayHead named name) (ensures_encodeAll false elements hregular.2.2) _
      fun _ _ _ ⟨_, hname, hhead⟩ hbody => hhead ▸ adds_array hname hregular.1 hregular.2.1 hbody.alone

/-- What is written of elements are the elements that a reader tells of. -/
theorem ensures_encodeAll (named : Bool) : ∀ ts : List ElementTree, AllRegular ts →
    Ensures (encodeAll named ts) (Adds named (ts.map letter) (eventsOf (allAsRead named ts)))
  | [], _ => (Ensures.pure _).mono fun _ _ h => h ▸ adds_nil
  | t :: ts, hregular => (ensures_encode named t hregular.1).andThen fun _ => (ensures_encodeAll named ts hregular.2).map
      fun _ _ hrest ht => ht.append hrest

end

end ElementTree

/-! ## Whole annotations -/

/-- An annotation as it stands in a class file. -/
def ElementTree.encodeWhole (descriptor : String) (elements : List ElementTree) : Interning Bytes :=
  encodeLevel (do return Bytes.ofUInt16 (← utf8 descriptor)) elements.length (encodeAll true elements)

/-- The bytes of an annotation are read to their end, as given events, wherever they stand in a class file with the constants
of a pool or of one that has grown from it. -/
def AnnotationReads (pool : ConstantPool) (code : Bytes) (descriptor : String) (told : List Event) : Prop :=
  ∀ (later : ConstantPool) (constants b : Bytes) (start at0 : Nat),
    later.Built → pool.Extends later → later.encode = .ok constants →
    b.HasAt start constants → b.HasAt at0 code → ∃ view, PoolView.parse b start = .ok view ∧
      ∀ (bootstraps : Array Nat) (opened : String → Event),
        (Walk.annotationItem { view with bootstraps } {} opened).Tells ⟨b, at0⟩
        (opened descriptor :: (told ++ [.elementsClose])) () ⟨b, at0 + code.size⟩

/-- What is written of an annotation is the annotation that a reader tells of. -/
theorem ElementTree.ensures_encodeWhole (descriptor : String) {elements : List ElementTree}
    (hregular : AllRegular elements) :
    Ensures (encodeWhole descriptor elements) fun code later => ∃ i body, later.Knows (utf8 descriptor) i ∧
      Elements later true (elements.map letter) (eventsOf (allAsRead true elements)) body ∧
      code = Bytes.ofUInt16 i ++ (Bytes.ofUInt16 (elements.map letter).length.toUInt16 ++ body) := by
  have hhead : Ensures (do return Bytes.ofUInt16 (← utf8 descriptor)) fun head later =>
      ∃ i, later.Knows (utf8 descriptor) i ∧ head = Bytes.ofUInt16 i :=
        (recalls_utf8 descriptor).map fun i _ hi => ⟨i, hi, rfl⟩
  refine ensures_encodeLevel hhead (ensures_encodeAll true elements hregular) _ fun _ body later ⟨i, hi, hhead⟩ hbody => ?_
  rw [hhead, List.length_map]
  exact ⟨i, body, hi, hbody.alone, rfl⟩

namespace Writer

/-- Told of an annotation, a writer puts it where it belongs. -/
theorem play_annotation (w : Writer) (target : AnnotationTarget) (descriptor : String) (elements : List ElementTree) :
    (w.openNotes target descriptor).play (ElementTree.eventsOf elements ++ [.elementsClose]) =
      annotate { w with
        context := { w.context with pool := (ElementTree.encodeWhole descriptor elements w.context.pool).2 }, notes := none }
        target (ElementTree.encodeWhole descriptor elements w.context.pool).1 := by
  obtain ⟨ctx, draft, member, notes, copies⟩ := w
  have hopened : Writer.openNotes ⟨ctx, draft, member, notes, copies⟩ target descriptor =
      ⟨{ ctx with pool := (utf8 descriptor ctx.pool).2 }, draft, member,
        some ⟨target, { named := true, head := Bytes.ofUInt16 (utf8 descriptor ctx.pool).1 }, []⟩, copies⟩ := rfl
  rw [hopened, play_append, ElementTree.playAll, play_singleton]
  change annotate _ target (ElementLevel.encode _) = _
  rw [ElementLevel.encode_grow]
  rfl

/-- A tree of annotations told to a writer becomes bytes from which a reader, given the constants, tells of the same tree:
names are put in or left out as the format has it, and an array of plain values is one value. -/
theorem annotation_reads {w : Writer} (hw : w.context.pool.Built) (target : AnnotationTarget) (descriptor : String)
    {elements : List ElementTree} (hl : elements.length < 65536) (hregular : ElementTree.AllRegular elements) : ∃ code pool,
      (w.openNotes target descriptor).play (ElementTree.eventsOf elements ++ [.elementsClose]) =
        annotate { w with context := { w.context with pool }, notes := none } target code ∧
      pool.Built ∧ w.context.pool.Extends pool ∧
      AnnotationReads pool code descriptor (ElementTree.eventsOf (ElementTree.allAsRead true elements)) := by
  obtain ⟨hbuilt, hextends, hreads⟩ := ElementTree.ensures_encodeWhole descriptor hregular w.context.pool hw
  refine ⟨_, _, w.play_annotation target descriptor elements, hbuilt, hextends, ?_⟩
  intro later constants b start at0 hlater hgrown hconstants hat hcode
  obtain ⟨hfits, -, -⟩ := ConstantPool.encode_eq hconstants
  obtain ⟨i, body, hi, helements, heq⟩ := hreads later hlater hgrown hfits
  obtain ⟨offsets, hparse, hview⟩ := PoolView.parse_encode_lists hlater hconstants hat
  refine ⟨_, hparse, fun bootstraps opened => ?_⟩
  rw [heq] at hcode ⊢
  exact helements.tells_annotation (hview bootstraps).1 hlater hfits rfl rfl rfl (by rwa [List.length_map]) hi opened hcode

/-- An array of two numbers, told one by one. -/
def sampleElements : List ElementTree :=
  [.array none [.value none (.primitive (.integer 1)), .value none (.primitive (.integer 2))]]

/-- The sample elements are ones that a class file can count. -/
theorem regular_sampleElements : ElementTree.AllRegular sampleElements := by
  refine ⟨⟨by decide, fun kind hkind t ht => ?_, trivial, trivial, trivial⟩, trivial⟩
  obtain rfl := Option.some.inj hkind
  obtain rfl | rfl : t = .value none (.primitive (.integer 1)) ∨ t = .value none (.primitive (.integer 2)) := by
    simpa using ht
  · exact ⟨_, rfl, rfl⟩
  · exact ⟨_, rfl, rfl⟩

/-- Told of the sample elements, the writer holds the sample annotation. -/
theorem play_sampleElements : ((annotated 2 annotatedHead none).openNotes .owner "B").play
    (ElementTree.eventsOf sampleElements ++ [.elementsClose]) = annotated 6 annotatedDraft none := by
  change ((annotated 2 annotatedHead none).step (.annotationOpen "B")).play _ = _
  rw [open_annotated]
  change Writer.play _ [.elementArray none, .elementValue none (.primitive (.integer 1)),
    .elementValue none (.primitive (.integer 2)), .elementsClose, .elementsClose] = _
  rw [play_cons, array_annotated, play_cons, first_annotated, play_cons, second_annotated, play_cons,
    play_cons, close_annotated]
  rfl

/-- The numbers of the sample are read as one value, which has a name. -/
theorem annotation_reads_sample : ∃ constants view, (annotatedPool 6).encode = .ok constants ∧
    PoolView.parse (constants ++ #[0, 3, 0, 1, 0, 4, 91, 0, 2, 73, 0, 5, 73, 0, 6]) 0 = .ok view ∧
    (Walk.annotationItem view {} .annotationOpen).Tells
      ⟨constants ++ #[0, 3, 0, 1, 0, 4, 91, 0, 2, 73, 0, 5, 73, 0, 6], constants.size⟩
      [.annotationOpen "B", .elementValue (some "value") (.array (.integers [1, 2])), .elementsClose] ()
      ⟨constants ++ #[0, 3, 0, 1, 0, 4, 91, 0, 2, 73, 0, 5, 73, 0, 6], constants.size + 15⟩ := by
  have hl : sampleElements.length < 65536 := by decide
  obtain ⟨code, pool, hplay, -, -, hreads⟩ :=
    annotation_reads (w := annotated 2 annotatedHead none) (built_annotatedPool 2) .owner "B"
    hl regular_sampleElements
  rw [play_sampleElements] at hplay
  obtain rfl : annotatedPool 6 = pool := congrArg (·.context.pool) hplay
  obtain rfl : #[0, 3, 0, 1, 0, 4, 91, 0, 2, 73, 0, 5, 73, 0, 6] = code := by
    have hcode : (annotatedDraft.annotations).bytes = #[] ++ code := congrArg (·.draft.annotations.bytes) hplay
    rwa [Array.empty_append] at hcode
  obtain ⟨constants, hconstants⟩ : ∃ constants, (annotatedPool 6).encode = .ok constants := by
    have hentries : (annotatedPool 6).entries.toList = annotatedEntries.take 6 := rfl
    refine exists_encode (by unfold Fits; decide) ?_
    rw [hentries]
    simp [annotatedEntries, Entry.TextFits, ModifiedUtf8.length, ModifiedUtf8.width]
  obtain ⟨view, hparse, htells⟩ := hreads (annotatedPool 6) constants _ 0 constants.size (built_annotatedPool 6)
    (Extends.refl _) hconstants (Bytes.hasAt_append.1 (Bytes.hasAt_self _)).1
    (by simpa using (Bytes.hasAt_append.1 (Bytes.hasAt_self _)).2)
  exact ⟨constants, view, hconstants, hparse, htells view.bootstraps .annotationOpen⟩

end Writer

end ClassFile
