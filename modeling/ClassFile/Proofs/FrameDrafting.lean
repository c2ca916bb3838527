import ClassFile.Proofs.FrameInstructions
import ClassFile.Proofs.FrameMerge

/-!
# Effects of blocks that have not been entered

While code is written, the effect of a block is in types that it may have left: slots of an input that is not known yet, or
types that mean something by themselves. Every instruction keeps to that, and the type table keeps finding its entries.
-/

namespace ClassFile

namespace FrameType

/-- A type that may have been found, with the table grown by its classes: a slot can hold it, unless
it is that of no value. -/
structure Found (h : Hierarchy) (types : TypeTable) (r : Option FrameType × TypeTable) : Prop where
  consistent : TypeTable.Consistent h r.2
  grown : types.Extends r.2
  meaningful : ∀ t ∈ r.1, t.isUnset = false → t.shape ≠ .null ∧ t.Meaningful r.2

section Found

variable {h : Hierarchy} {types : TypeTable} {t : FrameType}

/-- Where no type was found, the table stays as it is. -/
theorem found_none (hc : TypeTable.Consistent h types) : Found h types (none, types) :=
  ⟨hc, TypeTable.Extends.refl types, fun _ ht => nomatch ht⟩

/-- A type that has no number means something in every table. -/
theorem meaningful_of_plain (types : TypeTable) (ht : Frame.plain t = true) : t.Meaningful types := by
  obtain ⟨d, s⟩ := t
  cases s <;> first | cases ht; done | exact ⟨rfl, fun _ e => (nomatch e), fun _ e => (nomatch e)⟩

/-- A type without a number is found without a change of the table. -/
theorem found_plain (hc : TypeTable.Consistent h types) (hnull : t.shape ≠ .null) (ht : Frame.plain t = true) :
    Found h types (some t, types) :=
  ⟨hc, TypeTable.Extends.refl types, fun u hu _ => by
    obtain rfl := Option.some.inj hu
    exact ⟨hnull, meaningful_of_plain types ht⟩⟩

/-- The type of a name is found, and its class is in the table. -/
theorem found_ofName (hc : TypeTable.Consistent h types) (rest : List Char) : Found h types (ofName types rest) := by
  unfold ofName
  split
  · rename_i name _
    obtain ⟨-, hext, hi⟩ := TypeTable.addNormal_spec hc.sound (String.ofList name)
    refine ⟨hc.add _, hext, fun t ht _ => ?_⟩
    obtain rfl := Option.some.inj ht
    exact ⟨fun e => (nomatch e), (held_object hi 0).toMeaningful⟩
  · exact found_none hc

/-- The type of an element is found, and its class is in the table. -/
theorem found_ofElement (hc : TypeTable.Consistent h types) (cs : List Char) : Found h types (ofElement types cs) := by
  unfold ofElement
  split
  case h_9 rest => exact found_ofName hc rest
  case h_10 => exact found_none hc
  all_goals exact found_plain hc (fun e => nomatch e) rfl

/-- A descriptor names a type that a slot can hold, or that of no value. -/
theorem found_ofValue (hc : TypeTable.Consistent h types) (cs : List Char) : Found h types (ofValue types cs) := by
  unfold ofValue
  split
  case h_1 =>
    refine ⟨hc, TypeTable.Extends.refl types, fun t ht hset => ?_⟩
    obtain rfl := Option.some.inj ht
    cases hset
  case h_10 rest => exact found_ofName hc rest
  case h_11 rest =>
    dsimp only
    split
    · exact found_none hc
    · obtain ⟨hc', hext, hmeans⟩ := found_ofElement hc (Descriptor.skipBrackets rest)
      refine ⟨hc', hext, fun t ht _ => ?_⟩
      obtain ⟨u, hu, rfl⟩ := Option.map_eq_some_iff.1 ht
      obtain ⟨hnull, hu⟩ := hmeans u hu (ofElement_isUnset _ hu)
      exact ⟨hnull, hu.of_shape rfl⟩
  case h_12 => exact found_none hc
  all_goals exact found_plain hc (fun e => nomatch e) rfl

/-- An element type is never that of no value, under whatever dimensions. -/
theorem ofElement_set (types : TypeTable) (cs : List Char) (ht : t ∈ (ofElement types cs).1) : t.shape ≠ .unset := by
  unfold ofElement at ht
  split at ht
  case h_9 rest =>
    unfold ofName at ht
    split at ht
    · obtain rfl := Option.some.inj ht
      exact fun e => nomatch e
    · cases ht
  case h_10 => cases ht
  all_goals
    obtain rfl := Option.some.inj ht
    exact fun e => nomatch e

/-- Only a descriptor that starts as that of no value names no value. -/
theorem ofValue_isUnset {cs : List Char} (hcs : cs.head? ≠ some 'V') (ht : t ∈ (ofValue types cs).1) :
    t.isUnset = false := by
  unfold ofValue at ht
  split at ht
  case h_1 => exact absurd rfl hcs
  case h_10 rest => exact ofName_isUnset rest ht
  case h_11 rest =>
    dsimp only at ht
    split at ht
    · cases ht
    · obtain ⟨u, hu, rfl⟩ := Option.map_eq_some_iff.1 ht
      have hset := ofElement_set types _ hu
      simp only [isUnset, beq_eq_false_iff_ne]
      exact fun e => hset (congrArg shape e)
  case h_12 => cases ht
  all_goals
    obtain rfl := Option.some.inj ht
    rfl

end Found

end FrameType

namespace FrameType

section Left

variable {types : TypeTable} {t : FrameType}

/-- What a slot of the input held may be left anywhere. -/
theorem left_of_abstract (hset : t.shape ≠ .unset) (ht : t.shape.isConcrete = false) : t.Left types :=
  ⟨hset, fun hc => absurd (ht.symm.trans hc) Bool.false_ne_true⟩

/-- What a slot held is a type that a block may have left. -/
theorem left_ofSlot (kind number : Nat) : (ofSlot kind number).Left types := by
  apply left_of_abstract
  all_goals
    unfold ofSlot
    dsimp only
    split
    · first | rfl | exact fun e => nomatch e
    · split
      · first | rfl | exact fun e => nomatch e
      · first | rfl | exact fun e => nomatch e

/-- A type without a number is one that a block may have left. -/
theorem left_of_plain (ht : Frame.plain t = true) : t.Left types :=
  (meaningful_of_plain types ht).left

/-- Only the shape counts. -/
theorem Left.of_shape (ht : t.Left types) {u : FrameType} (hs : u.shape = t.shape) : u.Left types :=
  ⟨hs ▸ ht.set, fun hc => (ht.meaningful (hs ▸ hc)).of_shape hs⟩

/-- A type that becomes unusable if it takes two slots is one that a block may have left. -/
theorem Left.topIfWide (ht : t.Left types) : t.topIfWide.Left types := by
  obtain ⟨d, s⟩ := t
  cases s with
  | localSlot slot b => exact left_of_abstract (fun e => nomatch e) rfl
  | stackSlot slot b => exact left_of_abstract (fun e => nomatch e) rfl
  | straySlot kind slot b => exact left_of_abstract (fun e => nomatch e) rfl
  | _ => exact ht

end Left

end FrameType

namespace Frame

/-- The frame of a block that has not been entered, and whose effect is in types that it may have left. -/
structure Unentered (types : TypeTable) (f : Frame) : Prop extends Sane types f where
  entered : f.entered = false

section Unentered

variable {h : Hierarchy} {types grown : TypeTable} {f : Frame} {t : FrameType}

/-- The empty frame has not been entered. -/
theorem unentered_empty (types : TypeTable) : empty.Unentered types :=
  ⟨⟨fun _ ht => (nomatch Array.not_mem_empty _ ht), fun _ ht => (nomatch Array.not_mem_empty _ ht)⟩, rfl⟩

/-- A frame stays as it is for a table that has grown. -/
theorem Unentered.mono (hf : f.Unentered types) (hext : types.Extends grown) : f.Unentered grown :=
  ⟨hf.toSane.mono hext, hf.entered⟩

/-- A frame that has not been entered may have a type pushed. -/
theorem Unentered.push (hf : f.Unentered types) (ht : t.Left types) : (f.push t).Unentered types := by
  refine ⟨⟨hf.outLocals, fun u hu => ?_⟩, hf.entered⟩
  rcases Array.mem_push.1 hu with hu | rfl
  · exact hf.outStack u hu
  · exact ht

/-- A frame that has not been entered may have types pushed. -/
theorem Unentered.pushAll {ts : List FrameType} (hf : f.Unentered types) (hts : ∀ t ∈ ts, t.Left types) :
    (f.pushAll ts).Unentered types := by
  induction ts generalizing f with
  | nil => exact hf
  | cons t ts ih => exact ih (hf.push (hts t List.mem_cons_self)) fun u hu => hts u (List.mem_cons_of_mem _ hu)

/-- What is taken off the stack may have been left there. -/
theorem Unentered.pop (hf : f.Unentered types) : f.pop.1.Left types ∧ f.pop.2.Unentered types := by
  unfold Frame.pop
  split
  · rename_i t ht
    refine ⟨hf.outStack t (Array.mem_of_back? ht), ⟨hf.outLocals, fun u hu => ?_⟩, hf.entered⟩
    rw [← Array.mem_toList_iff, Array.toList_pop] at hu
    exact hf.outStack u (Array.mem_toList_iff.1 (List.dropLast_subset _ hu))
  · exact ⟨FrameType.left_ofSlot _ _, ⟨hf.outLocals, hf.outStack⟩, hf.entered⟩

/-- What is popped off a frame that has not been entered is what a block may have left. -/
theorem Unentered.popMany (hf : f.Unentered types) (n : Nat) :
    (∀ t ∈ (Frame.popMany n f).1, t.Left types) ∧ (Frame.popMany n f).2.Unentered types := by
  induction n generalizing f with
  | zero => exact ⟨fun _ ht => (nomatch ht), hf⟩
  | succ n ih =>
    obtain ⟨htop, hrest⟩ := hf.pop
    obtain ⟨hts, hdone⟩ := ih hrest
    refine ⟨fun t ht => ?_, hdone⟩
    rcases List.mem_cons.1 ht with rfl | ht
    · exact htop
    · exact hts t ht

theorem Unentered.drop (hf : f.Unentered types) (n : Nat) : (f.drop n).Unentered types := by
  unfold Frame.drop
  split
  · refine ⟨⟨hf.outLocals, fun u hu => hf.outStack u ?_⟩, hf.entered⟩
    dsimp only at hu
    rw [← Array.mem_toList_iff, Array.toList_shrink] at hu
    exact Array.mem_toList_iff.1 (List.mem_of_mem_take hu)
  · exact ⟨⟨hf.outLocals, fun _ hu => (nomatch Array.not_mem_empty _ hu)⟩, hf.entered⟩

theorem Unentered.dropDescriptor (hf : f.Unentered types) (descriptor : String) :
    (f.dropDescriptor descriptor).Unentered types := by
  obtain ⟨n, hdrop⟩ := dropDescriptor_eq descriptor
  rw [hdrop]
  exact hf.drop n

/-- A local of a frame that has not been entered is what a block may have left. -/
theorem Unentered.getLocal (hf : f.Unentered types) (i : Nat) : (f.getLocal i).Left types := by
  unfold Frame.getLocal
  split
  · rename_i t ht
    split
    · exact FrameType.left_ofSlot _ _
    · rename_i hset
      exact hf.outLocals t (Array.mem_of_getElem? ht) (by simpa using hset)
  · exact FrameType.left_ofSlot _ _

theorem Unentered.setLocal (hf : f.Unentered types) (i : Nat) (ht : t.Left types) : (f.setLocal i t).Unentered types := by
  refine ⟨⟨fun u hu hset => ?_, hf.outStack⟩, hf.entered⟩
  rcases Array.mem_or_eq_of_mem_setIfInBounds hu with hu | rfl
  · rcases Array.mem_append.1 hu with hu | hu
    · exact hf.outLocals u hu hset
    · rw [(Array.mem_replicate.1 hu).2] at hset
      cases hset
  · exact ht

theorem left_top (types : TypeTable) : FrameType.top.Left types :=
  FrameType.held_top.toMeaningful.left

theorem Unentered.spoil (hf : f.Unentered types) (i : Nat) : (f.spoil i).Unentered types := by
  unfold Frame.spoil
  split
  · exact hf.setLocal i (left_top types)
  · split
    · exact hf
    · exact hf.setLocal i (hf.getLocal i).topIfWide

theorem Unentered.store (hf : f.Unentered types) (i : Nat) (ht : t.Left types) (wide : Bool) :
    (f.store i t wide).Unentered types := by
  have hset : (if wide then (f.setLocal i t).setLocal (i + 1) .top else f.setLocal i t).Unentered types := by
    split
    · exact (hf.setLocal i ht).setLocal (i + 1) (left_top types)
    · exact hf.setLocal i ht
  rw [store_eq]
  dsimp only
  split
  · exact hset
  · exact hset.spoil (i - 1)

theorem Unentered.pushPlain (hf : f.Unentered types) (ht : plain t = true) : (f.push t).Unentered types :=
  hf.push (FrameType.left_of_plain ht)

theorem Unentered.pushPlains {ts : List FrameType} (hf : f.Unentered types) (hts : ∀ t ∈ ts, plain t = true) :
    (f.pushAll ts).Unentered types :=
  hf.pushAll fun t ht => FrameType.left_of_plain (hts t ht)

theorem Unentered.bare (hf : f.Unentered types) (op : UInt8) : (f.bare op).Unentered types := by
  unfold Frame.bare
  cases he : StackEffect.ofOpcode op with
  | replace pops pushes => exact (hf.drop pops).pushPlains fun t ht => plain_of_mem_pushes he ht
  | shuffle depth order =>
    obtain ⟨hts, hdone⟩ := hf.popMany depth
    refine hdone.pushAll fun t ht => ?_
    obtain ⟨i, -, rfl⟩ := List.mem_map.1 ht
    rw [List.getD_eq_getElem?_getD]
    cases hi : (Frame.popMany depth f).1[i - 1]? with
    | none => exact left_top types
    | some u => exact hts u (List.mem_of_getElem? hi)
  | loadElement =>
    obtain ⟨htop, hrest⟩ := (hf.drop 1).pop
    exact hrest.push (htop.of_shape rfl)

theorem Unentered.immediate (hf : f.Unentered types) (op : UInt8) (operand : Int32) :
    (f.immediate op operand).Unentered types := by
  unfold Frame.immediate
  split
  · exact (hf.drop 1).pushPlain (plain_newArrayElement _)
  · exact hf.pushPlain rfl

theorem Unentered.moveLocal (hf : f.Unentered types) (op : UInt8) (i : Nat) : (f.moveLocal op i).Unentered types := by
  rcases moveLocal_cases op with ⟨ts, hts, heq⟩ | heq | heq | heq | heq
  all_goals rw [heq]
  · exact hf.pushPlains hts
  · exact hf.push (hf.getLocal i)
  · exact hf.pop.2.store i hf.pop.1 false
  · exact (hf.drop 1).pop.2.store i (hf.drop 1).pop.1 true
  · exact hf

theorem Unentered.jump (hf : f.Unentered types) (op : UInt8) : (f.jump op).Unentered types := by
  unfold Frame.jump
  split
  · exact hf.drop 1
  · split
    · exact hf.drop 2
    · exact hf

/-- What a step that looks at the type table makes of the frame of a block that has not been entered. -/
structure Drafted (h : Hierarchy) (types : TypeTable) (r : Frame × TypeTable × Option Error) : Prop where
  consistent : TypeTable.Consistent h r.2.1
  grown : types.Extends r.2.1
  unentered : r.1.Unentered r.2.1

/-- A step that looks at no types leaves the frame as one that has not been entered. -/
theorem Unentered.drafted (hf : f.Unentered types) (hc : TypeTable.Consistent h types) (e : Option Error) :
    Drafted h types (f, types, e) :=
  ⟨hc, TypeTable.Extends.refl types, hf⟩

/-- A class or arrays of it are put on the stack. -/
theorem Unentered.pushObject (hf : f.Unentered types) (hc : TypeTable.Consistent h types) (name : String) (dims : BitVec 4) :
    Drafted h types (f.push ⟨dims, .object (types.addNormal name).1⟩, (types.addNormal name).2, none) := by
  obtain ⟨-, hext, hi⟩ := TypeTable.addNormal_spec hc.sound name
  exact ⟨hc.add _, hext, (hf.mono hext).push (FrameType.held_object hi dims).toMeaningful.left⟩

/-- The value of a descriptor is pushed with its class in the table. -/
theorem Unentered.pushDescriptor (hf : f.Unentered types) (hc : TypeTable.Consistent h types) (descriptor : String) :
    Drafted h types (f.pushDescriptor types descriptor) := by
  unfold Frame.pushDescriptor FrameType.ofDescriptor
  obtain ⟨hc', hext, hmeans⟩ := FrameType.found_ofValue hc (Descriptor.returnChars descriptor.toList)
  generalize FrameType.ofValue types (Descriptor.returnChars descriptor.toList) = r at hc' hext hmeans
  obtain ⟨found, later⟩ := r
  cases found with
  | none => exact ⟨hc', hext, hf.mono hext⟩
  | some t =>
    refine ⟨hc', hext, (hf.mono hext).pushAll fun u hu => ?_⟩
    unfold slotsOf at hu
    split at hu
    · cases hu
    · rename_i hset
      have ht := (hmeans t rfl (by simpa using hset)).2.left
      split at hu
      · rcases List.mem_cons.1 hu with rfl | hu
        · exact ht
        · obtain rfl := List.mem_singleton.1 hu
          exact left_top later
      · obtain rfl := List.mem_singleton.1 hu
        exact ht

/-- An instruction with a class is followed with that class in the table. -/
theorem Unentered.typed (hf : f.Unentered types) (hc : TypeTable.Consistent h types) (op : UInt8) (name : String)
    (offset : Nat) :
    Drafted h types (f.typed types op name offset) := by
  unfold Frame.typed
  split
  · obtain ⟨-, hext, hi⟩ := TypeTable.addUninitialized_spec hc.sound name offset
    refine ⟨hc.add _, hext, (hf.mono hext).push (FrameType.Meaningful.left ⟨rfl, fun _ e => (nomatch e), fun j hj => ?_⟩)⟩
    obtain rfl := Shape.uninitialized.inj hj
    exact ⟨_, hi⟩
  · split
    · dsimp only
      split
      · exact hf.pop.2.pushDescriptor hc _
      · exact hf.pop.2.pushObject hc name _
    · split
      · dsimp only
        split
        · exact hf.pop.2.pushDescriptor hc _
        · exact hf.pop.2.pushObject hc name _
      · exact ((hf.drop 1).pushPlain rfl).drafted hc none

/-- An instruction with a field is followed with the class of its value in the table. -/
theorem Unentered.field (hf : f.Unentered types) (hc : TypeTable.Consistent h types) (op : UInt8) (descriptor : String) :
    Drafted h types (f.field types op descriptor) := by
  unfold Frame.field
  split
  · exact hf.pushDescriptor hc descriptor
  · split
    · exact (hf.dropDescriptor descriptor).drafted hc none
    · split
      · exact (hf.drop 1).pushDescriptor hc descriptor
      · exact (hf.dropDescriptor descriptor).pop.2.drafted hc none

/-- Calling a constructor is noted, and nothing is entered. -/
theorem Unentered.called (hf : f.Unentered types) (t : FrameType) : (f.called t).Unentered types :=
  ⟨⟨hf.outLocals, hf.outStack⟩, hf.entered⟩

/-- A call is followed with the class of its result in the table. -/
theorem Unentered.invoke (hf : f.Unentered types) (hc : TypeTable.Consistent h types) (op : UInt8)
    (name descriptor : String) :
    Drafted h types (f.invoke types op name descriptor) := by
  have hrest := (hf.dropDescriptor descriptor).pop.2
  unfold Frame.invoke
  dsimp only
  split
  · exact (hf.dropDescriptor descriptor).pushDescriptor hc descriptor
  · split
    · exact (hrest.called _).pushDescriptor hc descriptor
    · exact hrest.pushDescriptor hc descriptor

/-- A constant is pushed with its class in the table. -/
theorem Unentered.constant (hf : f.Unentered types) (hc : TypeTable.Consistent h types) (value : ConstantValue) :
    Drafted h types (f.constant types value) := by
  cases value with
  | integer _ => exact (hf.pushPlain rfl).drafted hc none
  | float _ => exact (hf.pushPlain rfl).drafted hc none
  | long _ => exact (hf.pushPlains (by decide)).drafted hc none
  | double _ => exact (hf.pushPlains (by decide)).drafted hc none
  | dynamic _ descriptor _ _ => exact hf.pushDescriptor hc descriptor
  | _ => exact hf.pushObject hc _ 0

/-- Every instruction keeps to types that a block may have left. -/
theorem Unentered.execute (hf : f.Unentered types) (hc : TypeTable.Consistent h types) (i : Operation) :
    Drafted h types (f.execute types i) := by
  cases i with
  | bare op => exact (hf.bare op).drafted hc none
  | immediate op operand => exact (hf.immediate op operand).drafted hc none
  | moveLocal op slot => exact (hf.moveLocal op slot.toNat).drafted hc none
  | increment slot => exact (hf.setLocal slot.toNat (FrameType.left_of_plain rfl)).drafted hc none
  | typed op name offset => exact hf.typed hc op name offset
  | field op descriptor => exact hf.field hc op descriptor
  | invoke op name descriptor => exact hf.invoke hc op name descriptor
  | invokeDynamic descriptor => exact (hf.dropDescriptor descriptor).pushDescriptor hc descriptor
  | constant value => exact hf.constant hc value
  | jump op => exact (hf.jump op).drafted hc none
  | switch => exact (hf.drop 1).drafted hc none
  | multiArray descriptor dimensions => exact (hf.drop dimensions.toNat).pushDescriptor hc descriptor

end Unentered

end Frame

end ClassFile
