import ClassFile.Image.Annotations
import ClassFile.Proofs.ClassReading
import ClassFile.Proofs.CodeReports
import ClassFile.Proofs.PoolRecall

/-!
# The format of annotations

Elements stand one behind the other, each with the letter of its kind; annotations and arrays among them hold
elements of their own (`Elements`). The relation says with which events a reader reports them: an array whose
elements are plain values is one value, every other array is opened and closed. Whoever knows the constants reads
elements as these events (`Elements.tells`).
-/

namespace ClassFile

open ConstantPool

open Decoder (Goes)

/-! ## Walks -/

namespace Walk

variable {α β : Type} {w : Walk Unit} {c c' c'' : Cursor} {events events' : List Event}

/-- What is made of a walk's result changes nothing of what the walk tells. -/
theorem Tells.map {w : Walk α} {a : α} (f : α → β) (h : w.Tells c events a c') : (f <$> w).Tells c events (f a) c' := by
  rw [map_eq_pure_bind]
  exact h.bind (Tells.pure (f a)) (List.append_nil events)

/-- A reader that reports nothing, and then a walk. -/
theorem Tells.after {d : Decoder α} {a : α} {f : α → Walk β} {b : β} (h : d.Goes c a c') (hf : (f a).Tells c' events b c'') :
    (Walk.read d >>= f).Tells c events b c'' :=
  (Tells.read h).bind hf (List.nil_append events)

/-- A value that is known, and then a walk. -/
theorem Tells.known {x : Except Error α} {a : α} {f : α → Walk β} {b : β} (h : x = .ok a) (hf : (f a).Tells c events b c') :
    (Walk.read (x : Decoder α) >>= f).Tells c events b c' := by
  subst h
  exact Tells.after (Decoder.Goes.pure a c) hf

/-- All is wanted. -/
theorem tells_wanted {wish : Wish} (h : wish = true) (c : Cursor) : (wanted true wish).Tells c [] true c := by
  subst h
  exact fun before => congrArg (Except.ok (true, c), ·) Array.append_empty.symm

/-- A walk once more is the walk and then the others. -/
theorem times_succ (w : Walk Unit) (n : Nat) : times w (n + 1) = (do
    times w n
    w) := by
  induction n with
  | zero => simp [times]
  | succ n ih =>
    change (do
      w
      times w (n + 1)) = (do
        w
        times w n) >>= fun _ => w
    rw [ih, bind_assoc]

/-- A walk once more. -/
theorem Tells.times_succ {n : Nat} (h : (times w n).Tells c events () c') (hw : w.Tells c' events' () c'') :
    (times w (n + 1)).Tells c (events ++ events') () c'' := by
  rw [Walk.times_succ]
  exact h.bind hw rfl

/-- Walks behind their number, if that fits in two bytes. -/
theorem Tells.counted {b : Bytes} {at0 n : Nat} (hn : n < 65536) (hat : b.HasAt at0 (Bytes.ofUInt16 n.toUInt16))
    (h : (times w n).Tells ⟨b, at0 + 2⟩ events () c') : (Walk.counted w).Tells ⟨b, at0⟩ events () c' := by
  refine Tells.after (Decoder.goes_of_reads (Reads.u16 n.toUInt16) hat) ?_
  have hcount : n.toUInt16.toNat = n := by
    rw [UInt16.toNat_ofNat']
    omega
  rw [hcount]
  exact h

end Walk

/-! ## Values -/

/-- The values of a list are read one after the other. -/
theorem Reads.many_forall₂ {α : Type} {d : Decoder α} {as : List α} {codes : List Bytes}
    (h : List.Forall₂ (fun a code => Reads d code a) as codes) :
    Reads (Decoder.many as.length d) (Bytes.concat codes) as.toArray := by
  suffices hfrom : ∀ acc : Array α, Reads (Decoder.manyFrom d as.length acc) (Bytes.concat codes) (acc ++ as.toArray) by
    have := hfrom #[]
    rwa [Array.empty_append] at this
  induction h with
  | nil => exact fun acc => by simpa [Decoder.manyFrom] using Reads.pure acc
  | @cons a code as codes ha _ ih =>
    intro acc
    have hnext : Reads (d >>= fun a => Decoder.manyFrom d as.length (acc.push a)) (code ++ Bytes.concat codes)
        (acc.push a ++ as.toArray) := ha.bind (ih (acc.push a))
    rw [Bytes.concat_cons]
    simpa [Decoder.manyFrom] using hnext

/-- The values of a list are read behind their number if that fits in two bytes. -/
theorem Reads.counted_forall₂ {α : Type} {d : Decoder α} {as : List α} {codes : List Bytes}
    (h : List.Forall₂ (fun a code => Reads d code a) as codes) (hl : as.length < 65536) :
    Reads (Decoder.counted d) (Bytes.counted codes) as.toArray := by
  have hn : codes.length.toUInt16.toNat = as.length := by
    rw [← h.length_eq, UInt16.toNat_ofNat']
    omega
  rw [Bytes.counted_eq]
  refine (Reads.u16 codes.length.toUInt16).bind ?_
  rw [hn]
  exact Reads.many_forall₂ h

namespace Primitive

/-- A plain value as it stands in a class file with a pool. -/
def Stands (pool : ConstantPool) (p : Primitive) (code : Bytes) : Prop :=
  ∃ i, pool.Holds i p.entry ∧ code = #[p.tag] ++ Bytes.ofUInt16 i

/-- Writing a plain value only asks the pool for a constant. -/
theorem interns_encode (p : Primitive) : Interns p.encode :=
  (Interns.intern p.entry).bind fun i => .pure (#[p.tag] ++ Bytes.ofUInt16 i)

/-- Writing plain values only asks the pool for constants. -/
theorem interns_encodeAll (out : Bytes) (ps : List Primitive) : Interns (encodeAll out ps) := by
  induction ps generalizing out with
  | nil => exact .pure out
  | cons p ps ih => exact p.interns_encode.bind fun code => ih (out ++ code)

/-- What is written of a plain value stands for it in the pool and in all that come of it. -/
theorem ensures_encode (p : Primitive) : Ensures p.encode fun code later => p.Stands later code :=
  (ensures_intern p.entry).map fun i _ h => ⟨i, h, rfl⟩

/-- What is written of plain values is each one's own bytes, one behind the other. -/
theorem ensures_encodeAll (out : Bytes) (ps : List Primitive) : Ensures (encodeAll out ps) fun code later =>
    ∃ codes, List.Forall₂ (Stands later) ps codes ∧ code = out ++ Bytes.concat codes := by
  induction ps generalizing out with
  | nil => exact (Ensures.pure out).mono fun code _ h => ⟨[], .nil, by simp [h]⟩
  | cons p ps ih =>
    refine p.ensures_encode.bind (fun code => ih (out ++ code)) fun code rest later hp h => ?_
    obtain ⟨codes, hcodes, rfl⟩ := h
    exact ⟨code :: codes, .cons hp hcodes, by simp [Array.append_assoc]⟩

/-- The letter of a plain value is one of the letters of plain values. -/
theorem isTag_tag (p : Primitive) : isTag p.tag = true := by
  cases p <;> rfl

/-- The letter of a plain value is no other letter. -/
theorem tag_ne {p : Primitive} {tag : UInt8} (h : isTag tag = false) : (p.tag == tag) = false :=
  beq_false_of_ne fun heq => Bool.false_ne_true (h.symm.trans (heq ▸ p.isTag_tag))

section Reading

variable {view : PoolView} {pool : ConstantPool}

/-- A plain value is the one that its constant and its letter say. -/
theorem ofTag_tag (hs : view.ShowsEntries pool) {p : Primitive} {i : PoolIndex} (h : pool.Holds i p.entry) :
    ofTag view p.tag i = .ok p := by
  have hinteger : ∀ {v : Int32}, pool.Holds i (.integer v) → view.integer i = .ok v := fun h => hs.reads h (Reads.i32 _)
  cases p with
  | byte v =>
    change Except.map _ (view.integer i) = _
    rw [hinteger h]
    exact congrArg (Except.ok ∘ Primitive.byte) (by rw [toInt8_toUInt8, Int8.toInt8_toInt32])
  | char v =>
    change Except.map _ (view.integer i) = _
    rw [hinteger h]
    exact congrArg (Except.ok ∘ Primitive.char) (by simp)
  | short v =>
    change Except.map _ (view.integer i) = _
    rw [hinteger h]
    exact congrArg (Except.ok ∘ Primitive.short) (by rw [toInt16_toUInt16, Int16.toInt16_toInt32])
  | boolean v =>
    change Except.map _ (view.integer i) = _
    rw [hinteger h]
    cases v <;> rfl
  | integer v =>
    change Except.map _ (view.integer i) = _
    rw [hinteger h]
    rfl
  | long v =>
    change Except.map _ (view.long i) = _
    rw [show view.long i = .ok v from hs.reads h (Reads.i64 v)]
    rfl
  | float v =>
    change Except.map _ (view.float i) = _
    rw [show view.float i = .ok v from hs.reads h (Reads.u32 v)]
    rfl
  | double v =>
    change Except.map _ (view.double i) = _
    rw [show view.double i = .ok v from hs.reads h (Reads.u64 v)]
    rfl

/-- A view that shows the pool reads a plain value from the bytes that stand for it. -/
theorem Stands.reads (hs : view.ShowsEntries pool) {p : Primitive} {code : Bytes} (h : p.Stands pool code) :
    Reads (Primitive.read view) code p := by
  obtain ⟨i, hi, rfl⟩ := h
  exact (Reads.u8 p.tag).bind ((Reads.u16 i).bindEmpty (Reads.lift (ofTag_tag hs hi)))

end Reading

end Primitive

namespace PrimitiveArray

/-- Values of one kind are an array of that kind. -/
theorem toList_ofKind {kind : Primitive} {ps : List Primitive} (h : ∀ p ∈ ps, p.tag = kind.tag) :
    (ofKind kind ps).toList = ps := by
  induction ps with
  | nil => cases kind <;> rfl
  | cons p ps ih =>
    have hrest := ih fun q hq => h q (List.mem_cons_of_mem p hq)
    have hfirst := h p List.mem_cons_self
    cases kind <;> cases p <;> first
      | exact congrArg (List.cons _) hrest
      | simp [Primitive.tag] at hfirst

/-- An array is made of its values again. -/
theorem ofKind_toList (a : PrimitiveArray) {kind : Primitive} (h : a.toList.head? = some kind) :
    ofKind kind a.toList = a := by
  cases a <;> rename_i vs <;> cases vs with
  | nil => cases h
  | cons v vs =>
    obtain rfl := Option.some.inj h
    simp [toList, ofKind, List.filterMap_map]

end PrimitiveArray

namespace AnnotationValue

/-- The letter of a value. -/
def tag : AnnotationValue → UInt8
  | primitive p => p.tag
  | string _ => ElementTag.string
  | type _ => ElementTag.type
  | array _ => ElementTag.array

/-- A value that a reader reports as one: an array without values is opened and closed instead. -/
def Whole : AnnotationValue → Prop
  | array values => values.toList ≠ [] ∧ values.toList.length < 65536
  | _ => True

/-- A value as it stands in a class file with a pool. -/
def Stands (pool : ConstantPool) (v : AnnotationValue) (code : Bytes) : Prop :=
  match v with
  | primitive p => p.Stands pool code
  | string text => ∃ i, pool.HoldsText i text ∧ code = #[ElementTag.string] ++ Bytes.ofUInt16 i
  | type descriptor => ∃ i, pool.HoldsText i descriptor ∧ code = #[ElementTag.type] ++ Bytes.ofUInt16 i
  | array values => ∃ codes, List.Forall₂ (Primitive.Stands pool) values.toList codes ∧
      code = #[ElementTag.array] ++ (Bytes.ofUInt16 values.toList.length.toUInt16 ++ Bytes.concat codes)

theorem interns_encode (v : AnnotationValue) : Interns v.encode := by
  cases v with
  | primitive p => exact p.interns_encode
  | string text => exact (Interns.intern (.utf8 text)).bind fun _ => .pure _
  | type descriptor => exact (Interns.intern (.utf8 descriptor)).bind fun _ => .pure _
  | array values => exact Primitive.interns_encodeAll _ _

/-- What is written of a value stands for it in the pool and in all that come of it. -/
theorem ensures_encode (v : AnnotationValue) : Ensures v.encode fun code later => v.Stands later code := by
  cases v with
  | primitive p => exact p.ensures_encode
  | string text => exact (ensures_utf8 text).map fun i _ h => ⟨i, h, rfl⟩
  | type descriptor => exact (ensures_utf8 descriptor).map fun i _ h => ⟨i, h, rfl⟩
  | array values =>
    refine (Primitive.ensures_encodeAll _ values.toList).mono fun code later h => ?_
    obtain ⟨codes, hcodes, rfl⟩ := h
    exact ⟨codes, hcodes, by simp [Array.append_assoc]⟩

/-- A value starts with its letter. -/
theorem Stands.starts {pool : ConstantPool} {v : AnnotationValue} {code : Bytes} (h : v.Stands pool code) :
    ∃ rest, code = #[v.tag] ++ rest := by
  cases v with
  | array values =>
    obtain ⟨codes, -, rfl⟩ := h
    exact ⟨_, rfl⟩
  | _ =>
    obtain ⟨i, -, rfl⟩ := h
    exact ⟨_, rfl⟩

end AnnotationValue

/-! ## Elements -/

/-- The name before an element, which elements of arrays lack. -/
inductive Naming (pool : ConstantPool) : Bool → Option String → Bytes → Prop where
  | named {name : String} {i : PoolIndex} : pool.Knows (utf8 name) i → Naming pool true (some name) (Bytes.ofUInt16 i)
  | unnamed : Naming pool false none #[]

/-- Elements, with or without names: their letters, the events that a reader reports, and the bytes in which they stand. -/
inductive Elements (pool : ConstantPool) : (named : Bool) → List UInt8 → List Event → Bytes → Prop where
  | none (named : Bool) : Elements pool named [] [] #[]
  | value {named : Bool} {tags : List UInt8} {events : List Event} {bytes label code : Bytes} {name : Option String}
      {v : AnnotationValue} :
    Elements pool named tags events bytes → Naming pool named name label → v.Whole → pool.Knows v.encode code →
    Elements pool named (tags ++ [v.tag]) (events ++ [.elementValue name v]) (bytes ++ (label ++ code))
  | enumConstant {named : Bool} {tags : List UInt8} {events : List Event} {bytes label : Bytes} {name : Option String}
      {descriptor constant : String} {i j : PoolIndex} :
    Elements pool named tags events bytes → Naming pool named name label → pool.Knows (utf8 descriptor) i →
    pool.Knows (utf8 constant) j →
    Elements pool named (tags ++ [ElementTag.enumConstant]) (events ++ [.elementEnum name descriptor constant])
      (bytes ++ (label ++ (#[ElementTag.enumConstant] ++ (Bytes.ofUInt16 i ++ Bytes.ofUInt16 j))))
  | nested {named : Bool} {tags inner : List UInt8} {events events' : List Event}
    {bytes label body : Bytes} {name : Option String} {descriptor : String} {i : PoolIndex} :
    Elements pool named tags events bytes → Naming pool named name label → pool.Knows (utf8 descriptor) i →
    Elements pool true inner events' body → inner.length < 65536 →
    Elements pool named (tags ++ [ElementTag.nested])
    (events ++ (.elementNested name descriptor :: (events' ++ [.elementsClose])))
      (bytes ++ (label ++ (#[ElementTag.nested] ++ (Bytes.ofUInt16 i ++ (Bytes.ofUInt16 inner.length.toUInt16 ++ body)))))
  | array {named : Bool} {tags inner : List UInt8} {events events' : List Event} {bytes label body : Bytes}
    {name : Option String} : Elements pool named tags events bytes → Naming pool named name label →
    Elements pool false inner events' body → inner.length < 65536 → (∀ tag ∈ inner.head?, Primitive.isTag tag = false) →
    Elements pool named (tags ++ [ElementTag.array]) (events ++ (.elementArray name :: (events' ++ [.elementsClose])))
      (bytes ++ (label ++ (#[ElementTag.array] ++ (Bytes.ofUInt16 inner.length.toUInt16 ++ body))))

namespace Elements

variable {pool : ConstantPool} {named : Bool} {tags : List UInt8} {events : List Event} {bytes : Bytes}

/-- No elements tell of nothing and take no bytes. -/
theorem of_nil (h : Elements pool named [] events bytes) : events = [] ∧ bytes = #[] := by
  generalize hnone : ([] : List UInt8) = none at h
  cases h with
  | none => exact ⟨rfl, rfl⟩
  | _ => exact absurd hnone.symm (List.append_ne_nil_of_right_ne_nil _ (List.cons_ne_nil _ _))

/-- Elements of an array start with the letter of the first one. -/
theorem starts (hp : pool.Built) (hf : pool.Fits) (h : Elements pool false tags events bytes) {tag : UInt8}
    (ht : tags.head? = some tag) :
    ∃ rest, bytes = #[tag] ++ rest := by
  have hstep : ∀ {tags : List UInt8} {new : UInt8} {bytes label code : Bytes} {name : Option String} {events : List Event},
      Elements pool false tags events bytes → Naming pool false name label → (∃ rest, code = #[new] ++ rest) →
      (tags.head? = some tag → ∃ rest, bytes = #[tag] ++ rest) → (tags ++ [new]).head? = some tag →
      ∃ rest, bytes ++ (label ++ code) = #[tag] ++ rest := by
    rintro tags new bytes label code name events helements hname ⟨rest, rfl⟩ ih hhead
    cases hname
    cases tags with
    | nil =>
      obtain ⟨-, rfl⟩ := helements.of_nil
      obtain rfl := Option.some.inj hhead
      exact ⟨rest, by simp⟩
    | cons first others =>
      obtain ⟨rest', rfl⟩ := ih hhead
      exact ⟨rest' ++ (#[new] ++ rest), by simp⟩
  generalize hn : false = n at h
  induction h with
  | none => cases ht
  | value helements hname _ hknown ih =>
    subst hn
    exact hstep helements hname ((hknown.ensured hp hf (AnnotationValue.ensures_encode _)).starts)
      (fun hhead => ih hhead rfl) ht
  | enumConstant helements hname _ _ ih =>
    subst hn
    exact hstep helements hname ⟨_, rfl⟩ (fun hhead => ih hhead rfl) ht
  | nested helements hname _ _ _ ih =>
    subst hn
    exact hstep helements hname ⟨_, rfl⟩ (fun hhead => ih hhead rfl) ht
  | array helements hname _ _ _ ih =>
    subst hn
    exact hstep helements hname ⟨_, rfl⟩ (fun hhead => ih hhead rfl) ht

end Elements

/-! ## Reading -/

namespace Walk

section Reading

variable {view : PoolView} {pool : ConstantPool} {interest : Interest} {b : Bytes} {at0 : Nat}

/-- What is read of an element behind its letter. -/
def elementBody (view : PoolView) (interest : Interest) (depth : Nat) (heard : Bool) (name : Option String) (tag : UInt8) :
    Walk Unit := do
  if tag == ElementTag.nested then
    let descriptor ← read do view.utf8 (← Decoder.u16)
    reportIf heard (.elementNested name descriptor)
    let heard ← wanted heard interest.nested
    elementList heard (element view interest depth true heard)
  else if tag == ElementTag.array then
    match ← read (primitiveArray? view) with
    | some values => reportIf heard (.elementValue name (.array values))
    | none =>
      reportIf heard (.elementArray name)
      let heard ← wanted heard interest.arrays
      elementList heard (element view interest depth false heard)
  else
    reportIf heard (← read (simpleElement view name tag))

/-- The name of an element, if it has one. -/
def elementName (view : PoolView) (named : Bool) : Walk (Option String) :=
  if named then some <$> read do view.utf8 (← Decoder.u16) else pure none

/-- An element is its name, its letter and what the letter says. -/
theorem element_succ (view : PoolView) (interest : Interest) (depth : Nat) (named heard : Bool) :
    element view interest (depth + 1) named heard = (do
      let name ← elementName view named
      let tag ← read Decoder.u8
      elementBody view interest depth heard name tag) := by
  cases named <;> rfl

/-- A name and a letter, and then an element. -/
theorem tells_element (hs : view.ShowsEntries pool) (hp : pool.Built) (hf : pool.Fits) {named : Bool} {name : Option String}
    {label code : Bytes} {tag : UInt8} (hname : Naming pool named name label) (hat : b.HasAt at0 (label ++ (#[tag] ++ code)))
    {depth : Nat} {events : List Event} {c : Cursor} (hbody : b.HasAt (at0 + label.size + 1) code →
      (elementBody view interest depth true name tag).Tells ⟨b, at0 + label.size + 1⟩ events () c) :
    (element view interest (depth + 1) named true).Tells ⟨b, at0⟩ events () c := by
  obtain ⟨hlabel, hrest⟩ := Bytes.hasAt_append.1 hat
  obtain ⟨htag, hcode⟩ := Bytes.hasAt_append.1 hrest
  rw [element_succ]
  have hnamed : (elementName view named).Tells ⟨b, at0⟩ [] name ⟨b, at0 + label.size⟩ := by
    cases hname with
    | named hknown =>
      exact Tells.map some (Tells.read (Decoder.goes_of_reads ((Reads.u16 _).bindEmpty
        (Reads.lift (hs.utf8 (hknown.holdsText hp hf)))) hlabel))
    | unnamed => exact Tells.pure none
  exact hnamed.bind (Tells.after (Decoder.goes_of_reads (Reads.u8 tag) htag) (hbody hcode)) rfl

/-- Whether a plain value comes next, behind the number of values. -/
def plainNext (count : UInt16) : Decoder Bool :=
  if count > 0 then Primitive.isTag <$> Decoder.peek else pure false

/-- An array is read as one value if a plain value stands in front, and the reader goes back to its start if not. -/
theorem primitiveArray?_eq (view : PoolView) : primitiveArray? view = (do
    let start ← Decoder.position
    let count ← Decoder.u16
    let plain ← plainNext count
    if plain then
      let values ← Decoder.many count.toNat (Primitive.read view)
      return values[0]?.map fun kind => .ofKind kind values.toList
    else
      Decoder.seek start
      return none) := by
  unfold primitiveArray? plainNext
  refine bind_congr fun start => bind_congr fun count => ?_
  split <;> rfl

/-- Looking at the letter in front tells whether plain values follow, and moves nothing. -/
theorem goes_plainNext {n : Nat} (hn : n < 65536) {tag : UInt8} (hpos : 0 < n) (hat : b.HasAt at0 #[tag]) :
    (plainNext n.toUInt16).Goes ⟨b, at0⟩ (Primitive.isTag tag) ⟨b, at0⟩ := by
  have hcount : n.toUInt16 > 0 := by
    rw [gt_iff_lt, UInt16.lt_iff_toNat_lt, UInt16.toNat_ofNat', Nat.mod_eq_of_lt hn]
    exact hpos
  have hpeek : Decoder.peek.Goes ⟨b, at0⟩ tag ⟨b, at0⟩ := by
    have hread := Decoder.goes_of_reads (Reads.u8 tag) hat
    unfold Goes at hread ⊢
    unfold Decoder.peek
    rw [hread]
    rfl
  unfold plainNext
  rw [if_pos hcount, map_eq_pure_bind]
  exact hpeek.map Primitive.isTag

/-- An array of plain values is read as one value. -/
theorem goes_primitiveArray (hs : view.ShowsEntries pool) {values : PrimitiveArray} {codes : List Bytes}
    (hne : values.toList ≠ [])
    (hl : values.toList.length < 65536) (hcodes : List.Forall₂ (Primitive.Stands pool) values.toList codes)
    (hat : b.HasAt at0 (Bytes.ofUInt16 values.toList.length.toUInt16 ++ Bytes.concat codes)) :
    (primitiveArray? view).Goes ⟨b, at0⟩ (some values)
      ⟨b, at0 + (Bytes.ofUInt16 values.toList.length.toUInt16 ++ Bytes.concat codes).size⟩ := by
  obtain ⟨hcount, hitems⟩ := Bytes.hasAt_append.1 hat
  have hmany := Decoder.goes_of_reads (Reads.many_forall₂ (hcodes.imp fun p code h => h.reads hs)) hitems
  have hn : values.toList.length.toUInt16.toNat = values.toList.length := by
    rw [UInt16.toNat_ofNat']
    omega
  obtain ⟨kind, hkind⟩ : ∃ kind, values.toList.head? = some kind := Option.isSome_iff_exists.1 (List.isSome_head?.2 hne)
  have hplain : (plainNext values.toList.length.toUInt16).Goes ⟨b, at0 + 2⟩ true ⟨b, at0 + 2⟩ := by
    have hfirst : b.HasAt (at0 + 2) #[kind.tag] := by
      obtain ⟨ps, hps⟩ := List.head?_eq_some_iff.1 hkind
      rw [hps] at hcodes
      obtain ⟨code, codes', ⟨i, -, rfl⟩, -, rfl⟩ := List.forall₂_cons_left_iff.1 hcodes
      rw [Bytes.concat_cons, Array.append_assoc] at hitems
      exact (Bytes.hasAt_append.1 hitems).1
    rw [← kind.isTag_tag]
    exact goes_plainNext hl (List.length_pos_iff.2 hne) hfirst
  rw [primitiveArray?_eq, Array.size_append, ← Nat.add_assoc]
  refine (Goes.position _).bind ((Decoder.goes_of_reads (Reads.u16 _) hcount).bind (hplain.bind ?_))
  rw [if_pos rfl, hn]
  have hvalue : (values.toList.toArray[0]?.map fun kind => PrimitiveArray.ofKind kind values.toList.toArray.toList) =
    some values := by
    rw [List.getElem?_toArray, ← List.head?_eq_getElem?, hkind]
    exact congrArg some (values.ofKind_toList hkind)
  rw [← hvalue]
  exact hmany.map fun found : Array Primitive => found[0]?.map fun kind => PrimitiveArray.ofKind kind found.toList

/-- Any other array is left where it stands. -/
theorem goes_noPrimitiveArray {n : Nat} (hn : n < 65536) {body : Bytes}
    (hat : b.HasAt at0 (Bytes.ofUInt16 n.toUInt16 ++ body))
    (hbody : 0 < n → ∃ tag rest, body = #[tag] ++ rest ∧ Primitive.isTag tag = false) :
    (primitiveArray? view).Goes ⟨b, at0⟩ none ⟨b, at0⟩ := by
  obtain ⟨hcount, hitems⟩ := Bytes.hasAt_append.1 hat
  have hplain : (plainNext n.toUInt16).Goes ⟨b, at0 + 2⟩ false ⟨b, at0 + 2⟩ := by
    rcases Nat.eq_zero_or_pos n with rfl | hpos
    · exact Goes.pure false _
    · obtain ⟨tag, rest, rfl, htag⟩ := hbody hpos
      rw [← htag]
      exact goes_plainNext hn hpos (Bytes.hasAt_append.1 hitems).1
  rw [primitiveArray?_eq]
  refine (Goes.position _).bind ((Decoder.goes_of_reads (Reads.u16 _) hcount).bind (hplain.bind ?_))
  rw [if_neg Bool.false_ne_true]
  have hback : (Decoder.seek at0).Goes ⟨b, at0 + 2⟩ () ⟨b, at0⟩ := rfl
  exact hback.bind (Goes.pure none _)

/-- A value is reported as it is. -/
theorem tells_value (hs : view.ShowsEntries pool) {v : AnnotationValue} (hv : v.Whole) {code : Bytes}
    (h : v.Stands pool (#[v.tag] ++ code)) (hat : b.HasAt at0 code) (depth : Nat) (name : Option String) :
    (elementBody view interest depth true name v.tag).Tells ⟨b, at0⟩ [.elementValue name v] () ⟨b, at0 + code.size⟩ := by
  have htext : ∀ {text : String} {i : PoolIndex} (f : String → Event), pool.HoldsText i text →
      Reads (do return f (← view.utf8 (← Decoder.u16)) : Decoder Event) (Bytes.ofUInt16 i) (f text) := fun f h =>
    (Reads.u16 _).bindEmpty ((Reads.lift (hs.utf8 h)).map f)
  have hplain : ∀ {tag : UInt8}, (tag == ElementTag.nested) = false → (tag == ElementTag.array) = false →
      Reads (simpleElement view name tag) code (.elementValue name v) →
      (elementBody view interest depth true name tag).Tells ⟨b, at0⟩ [.elementValue name v] () ⟨b, at0 + code.size⟩ := by
    intro tag hnested harray hread
    unfold elementBody
    rw [hnested, harray]
    exact Tells.after (Decoder.goes_of_reads hread hat) (Tells.report _)
  cases v with
  | primitive p =>
    obtain ⟨i, hi, hcode⟩ := h
    obtain rfl : code = Bytes.ofUInt16 i := (Array.append_right_inj _).1 hcode
    refine hplain (p.tag_ne rfl) (p.tag_ne rfl) ?_
    unfold simpleElement
    change Reads (if Primitive.isTag p.tag then _ else _) _ _
    rw [if_pos p.isTag_tag]
    exact (Reads.u16 i).bindEmpty ((Reads.lift (Primitive.ofTag_tag hs hi)).map fun p =>
      Event.elementValue name (.primitive p))
  | string text =>
    obtain ⟨i, hi, hcode⟩ := h
    obtain rfl : code = Bytes.ofUInt16 i := (Array.append_right_inj _).1 hcode
    exact hplain rfl rfl (htext (fun text => .elementValue name (.string text)) hi)
  | type descriptor =>
    obtain ⟨i, hi, hcode⟩ := h
    obtain rfl : code = Bytes.ofUInt16 i := (Array.append_right_inj _).1 hcode
    exact hplain rfl rfl (htext (fun text => .elementValue name (.type text)) hi)
  | array values =>
    obtain ⟨codes, hcodes, hcode⟩ := h
    obtain rfl := (Array.append_right_inj _).1 hcode
    exact Tells.after (goes_primitiveArray hs hv.1 hv.2 hcodes hat) (Tells.report _)

/-- Elements behind their number, and the close. -/
theorem tells_elementList {w : Walk Unit} {n : Nat} (hn : n < 65536) {body : Bytes} {events : List Event}
    (hat : b.HasAt at0 (Bytes.ofUInt16 n.toUInt16 ++ body))
    (h : b.HasAt (at0 + 2) body → (times w n).Tells ⟨b, at0 + 2⟩ events () ⟨b, at0 + 2 + body.size⟩) :
    (elementList true w).Tells ⟨b, at0⟩ (events ++ [.elementsClose]) ()
      ⟨b, at0 + (Bytes.ofUInt16 n.toUInt16 ++ body).size⟩ := by
  obtain ⟨hcount, hbody⟩ := Bytes.hasAt_append.1 hat
  rw [Array.size_append, ← Nat.add_assoc]
  exact (Tells.counted hn hcount (h hbody)).bind (Tells.report .elementsClose) rfl

/-- The last element stands behind the others; what it holds takes fewer bytes than all of them. -/
theorem tells_lastElement (hs : view.ShowsEntries pool) (hp : pool.Built) (hf : pool.Fits) {named : Bool} {tags : List UInt8}
    {tag : UInt8} {events events' : List Event} {bytes label code : Bytes} {name : Option String} {depth : Nat}
    (hname : Naming pool named name label)
    (hat : b.HasAt at0 (bytes ++ (label ++ (#[tag] ++ code)))) (hdepth : (bytes ++ (label ++ (#[tag] ++ code))).size ≤ depth)
    (helements : b.HasAt at0 bytes → bytes.size ≤ depth →
      (times (element view interest depth named true) tags.length).Tells ⟨b, at0⟩ events () ⟨b, at0 + bytes.size⟩)
    (hbody : ∀ {at0 depth : Nat}, b.HasAt at0 code → code.size ≤ depth →
      (elementBody view interest depth true name tag).Tells ⟨b, at0⟩ events' () ⟨b, at0 + code.size⟩) :
    (times (element view interest depth named true) (tags ++ [tag]).length).Tells ⟨b, at0⟩ (events ++ events') ()
      ⟨b, at0 + (bytes ++ (label ++ (#[tag] ++ code))).size⟩ := by
  obtain ⟨hbytes, hrest⟩ := Bytes.hasAt_append.1 hat
  have hsize : (bytes ++ (label ++ (#[tag] ++ code))).size = bytes.size + label.size + 1 + code.size := by
    simp [Nat.add_assoc]
  rw [hsize] at hdepth ⊢
  obtain ⟨depth, rfl⟩ : ∃ n, depth = n + 1 := ⟨depth - 1, by omega⟩
  rw [List.length_append]
  refine (helements hbytes (by omega)).times_succ (tells_element hs hp hf hname hrest fun hcode => ?_)
  have hroom : code.size ≤ depth := by omega
  have hlast := hbody hcode hroom
  simpa only [Nat.add_assoc] using hlast

end Reading

end Walk

/-- Who knows the constants, and wants to hear of nested annotations and arrays, reads elements as their events. -/
theorem Elements.tells {view : PoolView} {pool : ConstantPool} {interest : Interest} {b : Bytes}
    (hs : view.ShowsEntries pool)
    (hp : pool.Built) (hf : pool.Fits) (hnested : interest.nested = true) (harrays : interest.arrays = true) {named : Bool}
    {tags : List UInt8} {events : List Event} {bytes : Bytes} (h : Elements pool named tags events bytes) {at0 depth : Nat}
    (hat : b.HasAt at0 bytes) (hdepth : bytes.size ≤ depth) :
    (Walk.times (Walk.element view interest depth named true) tags.length).Tells ⟨b, at0⟩ events ()
      ⟨b, at0 + bytes.size⟩ := by
  induction h generalizing at0 depth with
  | none named => exact Walk.Tells.pure ()
  | value helements hname hv hknown ih =>
    have hstands := hknown.ensured hp hf (AnnotationValue.ensures_encode _)
    obtain ⟨code, rfl⟩ := hstands.starts
    exact Walk.tells_lastElement hs hp hf hname hat hdepth ih fun hcode _ => Walk.tells_value hs hv hstands hcode _ _
  | @enumConstant _ _ _ _ _ name descriptor constant i j helements hname hi hj ih =>
    refine Walk.tells_lastElement hs hp hf hname hat hdepth ih fun hcode _ => ?_
    have hread : Reads (Walk.simpleElement view name ElementTag.enumConstant) (Bytes.ofUInt16 i ++ (#[] ++ Bytes.ofUInt16 j))
        (.elementEnum name descriptor constant) :=
      (Reads.u16 i).bind ((Reads.lift (hs.utf8 (hi.holdsText hp hf))).bind ((Reads.u16 j).bindEmpty
        ((Reads.lift (hs.utf8 (hj.holdsText hp hf))).map (Event.elementEnum name descriptor))))
    rw [Array.empty_append] at hread
    exact Walk.Tells.after (Decoder.goes_of_reads hread hcode) (Walk.Tells.report _)
  | @nested _ _ inner _ _ _ _ body name descriptor i helements hname hi hinner hl ih ihinner =>
    refine Walk.tells_lastElement hs hp hf hname hat hdepth ih fun {at0 depth} hcode hroom => ?_
    obtain ⟨hindex, hlist⟩ := Bytes.hasAt_append.1 hcode
    have hsize : (Bytes.ofUInt16 i ++ (Bytes.ofUInt16 inner.length.toUInt16 ++ body)).size =
        2 + (Bytes.ofUInt16 inner.length.toUInt16 ++ body).size := Array.size_append
    have hread : Reads (do view.utf8 (← Decoder.u16) : Decoder String) (Bytes.ofUInt16 i) descriptor :=
      (Reads.u16 i).bindEmpty (Reads.lift (hs.utf8 (hi.holdsText hp hf)))
    rw [hsize, ← Nat.add_assoc]
    unfold Walk.elementBody
    refine Walk.Tells.after (Decoder.goes_of_reads hread hindex)
      ((Walk.Tells.report _).bind ((Walk.tells_wanted hnested _).bind ?_ rfl) rfl)
    exact Walk.tells_elementList hl hlist fun hbody => ihinner hbody (by rw [hsize, Array.size_append] at hroom; omega)
  | @array _ _ inner _ _ _ _ body name helements hname hinner hl hplain ih ihinner =>
    refine Walk.tells_lastElement hs hp hf hname hat hdepth ih fun {at0 depth} hcode hroom => ?_
    unfold Walk.elementBody
    refine Walk.Tells.after (Walk.goes_noPrimitiveArray hl hcode fun hpos => ?_)
      ((Walk.Tells.report _).bind ((Walk.tells_wanted harrays _).bind ?_ rfl) rfl)
    · obtain ⟨tag, htag⟩ : ∃ tag, inner.head? = some tag :=
        Option.isSome_iff_exists.1 (List.isSome_head?.2 (List.length_pos_iff.1 hpos))
      obtain ⟨rest, hrest⟩ := hinner.starts hp hf htag
      exact ⟨tag, rest, hrest, hplain tag htag⟩
    · exact Walk.tells_elementList hl hcode fun hbody => ihinner hbody (by rw [Array.size_append] at hroom; omega)

/-! ## Lists of annotations -/

/-- Annotations one behind the other: their number, the events that a reader reports, and the bytes in which they stand. -/
inductive Annotations (pool : ConstantPool) : Nat → List Event → Bytes → Prop where
  | none : Annotations pool 0 [] #[]
  | push {n : Nat} {tags : List UInt8} {events events' : List Event} {bytes body : Bytes}
    {descriptor : String} {i : PoolIndex} : Annotations pool n events bytes → pool.Knows (utf8 descriptor) i →
    Elements pool true tags events' body → tags.length < 65536 →
    Annotations pool (n + 1) (events ++ (.annotationOpen descriptor :: (events' ++ [.elementsClose])))
      (bytes ++ (Bytes.ofUInt16 i ++ (Bytes.ofUInt16 tags.length.toUInt16 ++ body)))

/-- A list of annotations as it stands in a class file with a pool, and the events that a reader reports. -/
def AnnotationList.Stands (pool : ConstantPool) (list : AnnotationList) (events : List Event) : Prop :=
  Annotations pool list.count.toNat events list.bytes

section Lists

variable {view : PoolView} {pool : ConstantPool} {interest : Interest} {events : List Event} {at0 : Nat}

/-- An annotation is read as its descriptor says and as its elements. -/
theorem Elements.tells_annotation (hs : view.ShowsEntries pool) (hp : pool.Built) (hf : pool.Fits)
    (hannotations : interest.annotations = true) (hnested : interest.nested = true) (harrays : interest.arrays = true)
    {tags : List UInt8} {body : Bytes} (h : Elements pool true tags events body)
    (hl : tags.length < 65536) {descriptor : String}
    {i : PoolIndex} (hi : pool.Knows (utf8 descriptor) i) (opened : String → Event)
    (hat : view.bytes.HasAt at0 (Bytes.ofUInt16 i ++ (Bytes.ofUInt16 tags.length.toUInt16 ++ body))) :
    (Walk.annotationItem view interest opened).Tells ⟨view.bytes, at0⟩ (opened descriptor :: (events ++ [.elementsClose])) ()
      ⟨view.bytes, at0 + (Bytes.ofUInt16 i ++ (Bytes.ofUInt16 tags.length.toUInt16 ++ body)).size⟩ := by
  obtain ⟨hindex, hlist⟩ := Bytes.hasAt_append.1 hat
  have hread : Reads (do view.utf8 (← Decoder.u16) : Decoder String) (Bytes.ofUInt16 i) descriptor :=
    (Reads.u16 i).bindEmpty (Reads.lift (hs.utf8 (hi.holdsText hp hf)))
  rw [Array.size_append, ← Nat.add_assoc]
  refine Walk.Tells.after (Decoder.goes_of_reads hread hindex)
    ((Walk.Tells.report _).bind ((Walk.tells_wanted hannotations _).bind ?_ rfl) rfl)
  unfold Walk.elements
  refine Walk.tells_elementList hl hlist fun hbody => h.tells hs hp hf hnested harrays hbody ?_
  have := hbody.le_size
  omega

/-- Annotations are read one after the other. -/
theorem Annotations.tells (hs : view.ShowsEntries pool) (hp : pool.Built) (hf : pool.Fits)
    (hannotations : interest.annotations = true)
    (hnested : interest.nested = true) (harrays : interest.arrays = true) {n : Nat} {bytes : Bytes}
    (h : Annotations pool n events bytes) (hat : view.bytes.HasAt at0 bytes) :
    (Walk.times (Walk.annotationItem view interest .annotationOpen) n).Tells ⟨view.bytes, at0⟩ events ()
      ⟨view.bytes, at0 + bytes.size⟩ := by
  induction h with
  | none => exact Walk.Tells.pure ()
  | @push n tags _ _ bytes body descriptor i _ hi helements hl ih =>
    obtain ⟨hbytes, hlast⟩ := Bytes.hasAt_append.1 hat
    rw [Array.size_append, ← Nat.add_assoc]
    exact (ih hbytes).times_succ (helements.tells_annotation hs hp hf hannotations hnested harrays
      hl hi .annotationOpen hlast)

/-- A list of annotations is read as its events. -/
theorem AnnotationList.Stands.tells (hs : view.ShowsEntries pool) (hp : pool.Built) (hf : pool.Fits)
    (hannotations : interest.annotations = true) (hnested : interest.nested = true) (harrays : interest.arrays = true)
    {list : AnnotationList} (h : list.Stands pool events) (hat : view.bytes.HasAt at0 list.encode) :
    (Walk.annotationList view interest).Tells ⟨view.bytes, at0⟩ events () ⟨view.bytes, at0 + list.encode.size⟩ := by
  obtain ⟨hcount, hbytes⟩ := Bytes.hasAt_append.1 hat
  have hread := Annotations.tells hs hp hf hannotations hnested harrays h hbytes
  rw [AnnotationList.encode, Array.size_append, ← Nat.add_assoc]
  exact Walk.Tells.after (Decoder.goes_of_reads (Reads.u16 list.count) hcount) hread

end Lists

end ClassFile
