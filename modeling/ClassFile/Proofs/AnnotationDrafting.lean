import ClassFile.Proofs.AnnotationReplay

/-!
# Annotations while they are written

Whatever has been written of an annotation can be told again: the open level holds elements (`ElementLevel.Told`), and each
level around it waits for the one inside (`Surrounded`). A step that takes constants keeps that in every later pool, as long
as the number of the elements fits and the elements of an array are of one kind (`ElementLevel.Admits`). What is closed
becomes an element of the level around it, and at last an annotation of its owner.
-/

namespace ClassFile

open ConstantPool

/-! ## Elements of a level -/

/-- A level has room for an element with a letter: the elements of an array are of one kind. -/
def ElementLevel.Admits (level : ElementLevel) (tag : UInt8) : Prop :=
  level.count ≠ 65535 ∧ (level.named = false → level.count ≠ 0 → level.body.at0 0 = tag)

/-- A level holds elements with given letters, which a reader reports with given events. -/
structure ElementLevel.Has (pool : ConstantPool) (level : ElementLevel) (tags : List UInt8)
    (events : List Event) : Prop where
  elements : Elements pool level.named tags events level.body
  count : level.count.toNat = tags.length
  alike : level.named = false → ∀ tag ∈ tags, tags.head? = some tag

/-- What a level holds can be told again. -/
def ElementLevel.Told (pool : ConstantPool) (level : ElementLevel) : Prop :=
  ∃ tags events, level.Has pool tags events

/-- A level without elements tells of nothing. -/
theorem ElementLevel.told_empty (pool : ConstantPool) (named : Bool) (head : Bytes) : Told pool { named, head } :=
  ⟨[], [], .none named, rfl, fun _ _ h => absurd h List.not_mem_nil⟩

section Levels

variable {pool : ConstantPool} {level : ElementLevel} {tags : List UInt8} {tag : UInt8} {events events' : List Event}
  {name : Option String} {label code : Bytes}

/-- The number of elements of a level is kept in two bytes. -/
theorem ElementLevel.Has.count_eq (h : level.Has pool tags events) : level.count = tags.length.toUInt16 := by
  rw [← h.count]
  exact UInt16.ofNat_toNat.symm

/-- A level with one more element, if there was room for it. -/
theorem ElementLevel.Has.push (h : level.Has pool tags events) (hp : pool.Built) (hf : pool.Fits)
    (hadmits : level.Admits tag) (helements : Elements pool level.named (tags ++ [tag]) events' (level.body ++ code)) :
    (level.grow 1 code).Has pool (tags ++ [tag]) events' := by
  obtain ⟨hroom, hkind⟩ := hadmits
  refine ⟨helements, ?_, fun hnamed => ?_⟩
  · have hcount := h.count
    have hlow : level.count.toNat ≠ 65535 := fun heq => hroom (UInt16.toNat_inj.1 heq)
    have := level.count.toNat_lt
    change (level.count + 1).toNat = _
    rw [UInt16.toNat_add, List.length_append, List.length_singleton, ← hcount]
    change (level.count.toNat + 1) % 65536 = _
    omega
  · cases htags : tags with
    | nil => simp
    | cons first rest =>
      have hfirst : tags.head? = some first := by rw [htags]; rfl
      have hbody : level.body.at0 0 = first := by
        have hstands := h.elements
        rw [show level.named = false from hnamed] at hstands
        obtain ⟨others, hothers⟩ := hstands.starts hp hf hfirst
        rw [hothers]
        rw [Bytes.at0, Array.getD_eq_getD_getElem?, Array.getElem?_append_left (Nat.zero_lt_succ 0)]
        rfl
      have hcount : level.count ≠ 0 := by
        intro hzero
        have := h.count
        rw [hzero, htags] at this
        cases this
      intro t ht
      rcases List.mem_append.1 ht with ht | ht
      · exact hfirst.symm.trans (h.alike hnamed t (htags ▸ ht)) ▸ rfl
      · obtain rfl := List.mem_singleton.1 ht
        exact congrArg some (hbody.symm.trans (hkind hnamed hcount))

/-- A plain value more is written behind the others. -/
theorem Primitive.encodeAll_concat (out : Bytes) (ps : List Primitive) (p : Primitive) :
    encodeAll out (ps ++ [p]) = (do
      let out ← encodeAll out ps
      return out ++ (← p.encode)) := by
  induction ps generalizing out with
  | nil => simp [encodeAll]
  | cons q ps ih => simp [encodeAll, ih]

/-- Plain values that stand one behind the other are the values of an array. -/
theorem Elements.primitives {named : Bool} {bytes : Bytes} (h : Elements pool named tags events bytes)
    (hnamed : named = false) (hplain : ∀ tag ∈ tags, Primitive.isTag tag = true) :
    ∃ ps : List Primitive, ps.map Primitive.tag = tags ∧ events = ps.map (fun p => .elementValue .none (.primitive p)) ∧
      ∀ out, pool.Knows (Primitive.encodeAll out ps) (out ++ bytes) := by
  induction h with
  | none => exact ⟨[], rfl, rfl, fun out => by rw [Array.append_empty]; exact knows_pure out⟩
  | @value _ _ _ bytes label code _ v _ hname _ hcode ih =>
    subst hnamed
    obtain ⟨ps, hps, rfl, hknown⟩ := ih rfl fun t ht => hplain t (List.mem_append_left _ ht)
    have htag := hplain v.tag (List.mem_append_right _ (List.mem_singleton.2 rfl))
    cases v with
    | primitive p =>
      cases hname
      refine ⟨ps ++ [p], by rw [List.map_append, hps]; rfl, by rw [List.map_append]; rfl, fun out => ?_⟩
      rw [Primitive.encodeAll_concat, Array.empty_append, ← Array.append_assoc]
      exact (hknown out).bind (hcode.map fun code => out ++ bytes ++ code)
    | _ => cases htag
  | enumConstant => cases hplain _ (List.mem_append_right _ (List.mem_singleton.2 rfl))
  | nested => cases hplain _ (List.mem_append_right _ (List.mem_singleton.2 rfl))
  | array => cases hplain _ (List.mem_append_right _ (List.mem_singleton.2 rfl))

/-- A level that is closed into the level around it: a value if it holds plain values. -/
theorem ElementLevel.Has.push_array {child : ElementLevel} {inner : List UInt8} {innerEvents : List Event}
    (h : level.Has pool tags events) (hp : pool.Built) (hf : pool.Fits) (hadmits : level.Admits ElementTag.array)
    (hname : Naming pool level.named name label) (hchild : child.Has pool inner innerEvents)
    (hunnamed : child.named = false) :
    (level.grow 1 (label ++ (#[ElementTag.array] ++ (Bytes.ofUInt16 child.count ++ child.body)))).Told pool := by
  have hl : inner.length < 65536 := hchild.count ▸ child.count.toNat_lt
  have helements := hchild.elements
  rw [hunnamed] at helements
  rw [hchild.count_eq]
  by_cases hplain : ∃ tag, inner.head? = some tag ∧ Primitive.isTag tag = true
  · obtain ⟨tag, hhead, htag⟩ := hplain
    have halike := hchild.alike hunnamed
    obtain ⟨ps, rfl, -, hknown⟩ := helements.primitives rfl fun t ht => by
      obtain rfl := Option.some.inj (hhead.symm.trans (halike t ht))
      exact htag
    obtain ⟨kind, hkind⟩ : ∃ kind, ps.head? = some kind := by
      rw [List.head?_map] at hhead
      exact Option.map_eq_some_iff.1 hhead |>.imp fun _ h => h.1
    have hvalues : (PrimitiveArray.ofKind kind ps).toList = ps := PrimitiveArray.toList_ofKind fun p hmem => by
      have hfirst := halike p.tag (List.mem_map_of_mem hmem)
      rw [List.head?_map, hkind] at hfirst
      exact (Option.some.inj hfirst).symm
    rw [List.length_map] at hl ⊢
    refine ⟨_, _, h.push hp hf hadmits (.value h.elements hname (v := .array (.ofKind kind ps)) ⟨?_, ?_⟩ ?_)⟩
    · rw [hvalues]
      rintro rfl
      cases hkind
    · rw [hvalues]
      exact hl
    · rw [← Array.append_assoc]
      change pool.Knows (Primitive.encodeAll
        (#[ElementTag.array] ++ Bytes.ofUInt16 (PrimitiveArray.ofKind kind ps).toList.length.toUInt16)
        (PrimitiveArray.ofKind kind ps).toList) _
      rw [hvalues]
      exact hknown _
  · refine ⟨_, _, h.push hp hf hadmits (.array h.elements hname helements hl fun t ht => ?_)⟩
    exact Bool.eq_false_iff.2 fun htag => hplain ⟨t, ht, htag⟩

/-- A nested annotation that is closed into the level around it. -/
theorem ElementLevel.Has.push_nested {child : ElementLevel} {inner : List UInt8} {innerEvents : List Event}
    {descriptor : String} {i : PoolIndex} (h : level.Has pool tags events) (hp : pool.Built) (hf : pool.Fits)
    (hadmits : level.Admits ElementTag.nested)
    (hname : Naming pool level.named name label) (hi : pool.Knows (utf8 descriptor) i)
    (hchild : child.Has pool inner innerEvents) (hnamed : child.named = true) :
    (level.grow 1 (label ++ (#[ElementTag.nested] ++ (Bytes.ofUInt16 i ++ (Bytes.ofUInt16 child.count ++ child.body))))).Told
      pool := by
  have hl : inner.length < 65536 := hchild.count ▸ child.count.toNat_lt
  have helements := hchild.elements
  rw [hnamed] at helements
  rw [hchild.count_eq]
  exact ⟨_, _, h.push hp hf hadmits (.nested h.elements hname hi helements hl)⟩

/-- A value becomes an element, an array without values one that is opened and closed. -/
theorem ElementLevel.Has.push_value {v : AnnotationValue} (h : level.Has pool tags events) (hp : pool.Built) (hf : pool.Fits)
    (hadmits : level.Admits v.tag) (hname : Naming pool level.named name label) (hcode : pool.Knows v.encode code)
    (hl : ∀ values, v = .array values → values.toList.length < 65536) : (level.grow 1 (label ++ code)).Told pool := by
  by_cases hempty : ∃ values, v = .array values ∧ values.toList = []
  · obtain ⟨values, rfl, hvalues⟩ := hempty
    have hknown : pool.Knows (AnnotationValue.array values).encode (#[ElementTag.array] ++ (Bytes.ofUInt16 0 ++ #[])) := by
      change pool.Knows (Primitive.encodeAll
        (#[ElementTag.array] ++ Bytes.ofUInt16 values.toList.length.toUInt16) values.toList) _
      rw [hvalues, Array.append_empty]
      exact knows_pure _
    obtain rfl := hcode.unique hknown
    have hchild : ElementLevel.Has pool { named := false, head := #[] } [] [] :=
      ⟨.none false, rfl, fun _ _ h => absurd h List.not_mem_nil⟩
    have hpushed := h.push_array hp hf hadmits hname hchild rfl
    exact hpushed
  · refine ⟨_, _, h.push hp hf hadmits (.value h.elements hname ?_ hcode)⟩
    cases v with
    | array values => exact ⟨fun hvalues => hempty ⟨values, rfl, hvalues⟩, hl values rfl⟩
    | _ => trivial

/-- An enum constant becomes an element, named by its class and its own name. -/
theorem ElementLevel.Has.push_enumConstant {descriptor constant : String} {i j : PoolIndex} (h : level.Has pool tags events)
    (hp : pool.Built) (hf : pool.Fits) (hadmits : level.Admits ElementTag.enumConstant)
    (hname : Naming pool level.named name label) (hi : pool.Knows (utf8 descriptor) i) (hj : pool.Knows (utf8 constant) j) :
    (level.grow 1 (label ++ (#[ElementTag.enumConstant] ++ (Bytes.ofUInt16 i ++ Bytes.ofUInt16 j)))).Told pool :=
  ⟨_, _, h.push hp hf hadmits (.enumConstant h.elements hname hi hj)⟩

end Levels

/-! ## Levels around a level -/

/-- A level waits for one inside it to be closed, whose elements have names or not. -/
inductive Awaits (pool : ConstantPool) : (parent : ElementLevel) → (named : Bool) → Prop where
  | nested {level : ElementLevel} {tags : List UInt8} {events : List Event} {name : Option String}
    {label : Bytes} {descriptor : String} {i : PoolIndex} :
    level.Has pool tags events → level.Admits ElementTag.nested → Naming pool level.named name label →
    pool.Knows (utf8 descriptor) i → Awaits pool (level.grow 1 (label ++ (#[ElementTag.nested] ++ Bytes.ofUInt16 i))) true
  | array {level : ElementLevel} {tags : List UInt8} {events : List Event} {name : Option String} {label : Bytes} :
    level.Has pool tags events → level.Admits ElementTag.array → Naming pool level.named name label →
    Awaits pool (level.grow 1 (label ++ #[ElementTag.array])) false

/-- The levels around one with a given head; the outermost one is the annotation itself. -/
inductive Surrounded (pool : ConstantPool) : (named : Bool) → (head : Bytes) → (outer : List ElementLevel) → Prop where
  | top {descriptor : String} {i : PoolIndex} : pool.Knows (utf8 descriptor) i → Surrounded pool true (Bytes.ofUInt16 i) []
  | inner {parent : ElementLevel} {outer : List ElementLevel} {named : Bool} :
    Awaits pool parent named → Surrounded pool parent.named parent.head outer → Surrounded pool named #[] (parent :: outer)

/-- What has been written of an annotation can be told again. -/
structure AnnotationDraft.Told (pool : ConstantPool) (notes : AnnotationDraft) : Prop where
  level : notes.level.Told pool
  outer : Surrounded pool notes.level.named notes.level.head notes.outer

section Closing

variable {pool : ConstantPool} {level parent : ElementLevel} {outer : List ElementLevel}

/-- A level becomes an element of the one that waits for it. -/
theorem Awaits.close (h : Awaits pool parent level.named) (hp : pool.Built) (hf : pool.Fits) (hlevel : level.Told pool)
    (hhead : level.head = #[]) : (parent.extend level.encode).Told pool := by
  obtain ⟨inner, innerEvents, hlevel⟩ := hlevel
  have hencode : level.encode = Bytes.ofUInt16 level.count ++ level.body := by
    rw [ElementLevel.encode, hhead, Array.empty_append]
  rw [hencode]
  generalize hnamed : level.named = named at h
  cases h with
  | nested h hadmits hname hi =>
    rw [ElementLevel.extend_grow, Array.append_assoc, Array.append_assoc]
    exact h.push_nested hp hf hadmits hname hi hlevel hnamed
  | array h hadmits hname =>
    rw [ElementLevel.extend_grow, Array.append_assoc]
    exact h.push_array hp hf hadmits hname hlevel hnamed

/-- Closing a level leaves what can be told again. -/
theorem AnnotationDraft.Told.close {target : AnnotationTarget} (h : Told pool ⟨target, level, parent :: outer⟩)
    (hp : pool.Built) (hf : pool.Fits) : Told pool ⟨target, parent.extend level.encode, outer⟩ := by
  obtain ⟨hlevel, houter⟩ := h
  dsimp only at hlevel houter
  generalize hnamed : level.named = named at houter
  generalize hhead : level.head = head at houter
  cases houter with
  | inner hawaits houter => exact ⟨(hnamed ▸ hawaits : Awaits pool parent level.named).close hp hf hlevel hhead, houter⟩

/-- An annotation that is complete can be told again behind others. -/
theorem AnnotationDraft.Told.complete {target : AnnotationTarget} (h : Told pool ⟨target, level, []⟩) {list : AnnotationList}
    {events : List Event} (hlist : list.Stands pool events) (hroom : list.count ≠ 65535) :
    ∃ events, (list.push level.encode).Stands pool events := by
  obtain ⟨⟨tags, events', hhas⟩, houter⟩ := h
  dsimp only at hhas houter
  generalize hnamed : level.named = named at houter
  generalize hhead : level.head = head at houter
  cases houter with
  | @top _ i hi =>
    have helements := hhas.elements
    rw [hnamed] at helements
    have hl : tags.length < 65536 := hhas.count ▸ level.count.toNat_lt
    have hcount : (list.count + 1).toNat = list.count.toNat + 1 := by
      have hlow : list.count.toNat ≠ 65535 := fun heq => hroom (UInt16.toNat_inj.1 heq)
      have := list.count.toNat_lt
      rw [UInt16.toNat_add]
      change (list.count.toNat + 1) % 65536 = _
      omega
    have hbytes : (list.push level.encode).bytes = list.bytes ++
      (Bytes.ofUInt16 i ++ (Bytes.ofUInt16 tags.length.toUInt16 ++ level.body)) := by
      change list.bytes ++ level.encode = _
      rw [ElementLevel.encode, hhead, hhas.count_eq, Array.append_assoc]
    have hpushed := Annotations.push hlist hi helements hl
    rw [← hcount, ← hbytes] at hpushed
    exact ⟨_, hpushed⟩

/-- Closing all levels leaves an annotation that is complete. -/
theorem AnnotationDraft.Told.closeAll {target : AnnotationTarget} (h : Told pool ⟨target, level, outer⟩) (hp : pool.Built)
    (hf : pool.Fits) :
    ∃ last, Told pool ⟨target, last, []⟩ ∧ AnnotationDraft.closeAll ⟨target, level, outer⟩ = last.encode := by
  induction outer generalizing level with
  | nil => exact ⟨level, h, rfl⟩
  | cons parent outer ih => exact ih (h.close hp hf)

end Closing

/-! ## Steps -/

section Steps

variable {level : ElementLevel} {target : AnnotationTarget} {outer : List ElementLevel}

/-- A level becomes another one with more elements, and can still be told in a pool if it could before. -/
def ElementLevel.Continues (level level' : ElementLevel) (later : ConstantPool) : Prop :=
  ∃ code, level' = level.grow 1 code ∧ (later.Built → later.Fits → level.Told later → level'.Told later)

/-- An annotation can still be told in a pool if it could before. -/
def AnnotationDraft.Continues (notes notes' : AnnotationDraft) (later : ConstantPool) : Prop :=
  later.Built → later.Fits → notes.Told later → notes'.Told later

/-- A name becomes known before its element. -/
theorem ensures_startElement (level : ElementLevel) (name : Option String) :
    Ensures (level.startElement name) fun level' later =>
    ∃ name label, Naming later level.named name label ∧ level' = level.grow 1 label := by
  obtain ⟨named, head, count, body⟩ := level
  cases named with
  | true => exact (recalls_utf8 (name.getD "value")).map fun i later hi => ⟨_, _, .named hi, rfl⟩
  | false =>
    refine (Ensures.pure _).mono fun level' later h => ⟨none, #[], .unnamed, ?_⟩
    rw [h, ElementLevel.grow, Array.append_empty]
    rfl

/-- What a value leaves behind is a level that can still be told again. -/
theorem ensures_value {v : AnnotationValue} (hadmits : level.Admits v.tag)
    (hl : ∀ values, v = .array values → values.toList.length < 65536) (name : Option String) :
    Ensures (level.value name v) level.Continues := by
  refine (ensures_startElement level name).andThen fun level' => v.interns_encode.recalls.map ?_
  rintro code later hcode ⟨name, label, hname, rfl⟩
  rw [ElementLevel.extend_grow]
  exact ⟨_, rfl, fun hp hf ⟨_, _, hhas⟩ => hhas.push_value hp hf hadmits hname hcode hl⟩

/-- What an enum constant leaves behind is a level that can still be told again. -/
theorem ensures_enumConstant (hadmits : level.Admits ElementTag.enumConstant) (name : Option String)
    (descriptor constant : String) :
    Ensures (level.enumConstant name descriptor constant) level.Continues := by
  refine (ensures_startElement level name).andThen fun level' =>
    (recalls_utf8 descriptor).andThen fun i => (recalls_utf8 constant).map ?_
  rintro j later hj hi ⟨name, label, hname, rfl⟩
  rw [ElementLevel.extend_grow, Array.append_assoc]
  exact ⟨_, rfl, fun hp hf ⟨_, _, hhas⟩ => hhas.push_enumConstant hp hf hadmits hname hi hj⟩

/-- What keeps the open level keeps the whole annotation, since the levels around it wait as they did. -/
theorem ensures_mapLevel {f : ElementLevel → Interning ElementLevel} (h : Ensures (f level) level.Continues) :
    Ensures (AnnotationDraft.mapLevel ⟨target, level, outer⟩ f) (AnnotationDraft.Continues ⟨target, level, outer⟩) := by
  refine h.map ?_
  rintro level' later ⟨code, rfl, hlevel⟩ hp hf ⟨hbefore, houter⟩
  exact ⟨hlevel hp hf hbefore, houter⟩

/-- Opening a nested annotation leaves the open level waiting for it. -/
theorem ensures_openNested (hadmits : level.Admits ElementTag.nested) (name : Option String) (descriptor : String) :
    Ensures (AnnotationDraft.openNested ⟨target, level, outer⟩ name descriptor)
      (AnnotationDraft.Continues ⟨target, level, outer⟩) := by
  refine (ensures_startElement level name).andThen fun level' => (recalls_utf8 descriptor).map ?_
  rintro i later hi ⟨name, label, hname, rfl⟩ hp hf ⟨⟨_, _, hhas⟩, houter⟩
  rw [ElementLevel.extend_grow]
  exact ⟨ElementLevel.told_empty later true #[], .inner (.nested hhas hadmits hname hi) houter⟩

/-- Opening an array leaves the open level waiting for it. -/
theorem ensures_openArray (hadmits : level.Admits ElementTag.array) (name : Option String) :
    Ensures (AnnotationDraft.openArray ⟨target, level, outer⟩ name) (AnnotationDraft.Continues ⟨target, level, outer⟩) := by
  refine (ensures_startElement level name).map ?_
  rintro level' later ⟨name, label, hname, rfl⟩ hp hf ⟨⟨_, _, hhas⟩, houter⟩
  rw [ElementLevel.extend_grow]
  exact ⟨ElementLevel.told_empty later false #[], .inner (.array hhas hadmits hname) houter⟩

/-- An annotation that is started can be told from its descriptor on. -/
theorem ensures_startAnnotation (target : AnnotationTarget) (descriptor : String) :
    Ensures (AnnotationDraft.start target descriptor) fun notes later => notes.Told later :=
  (recalls_utf8 descriptor).map fun _ later hi => ⟨ElementLevel.told_empty later true _, .top hi⟩

end Steps

end ClassFile
