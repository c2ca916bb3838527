import ClassFile.Proofs.DescriptorScans
import ClassFile.Proofs.FrameDrafting
import ClassFile.Proofs.TypeTableGrowth
import ClassFile.Proofs.TypeWords
import ClassFile.StackMap

/-!
# Descriptors of references in stack maps

The descriptor of a class or an array is read into a frame type, with the class as a number of the type table; a stack map
spells that type out again, as a class constant. For the descriptor of a class the constant is the name of the class, for
that of an array it is the descriptor. This is so for any name without a parenthesis. Of a text with one only what follows
the last is read, which serves to find the type that a method returns and cuts a class name in two.
-/

namespace ClassFile

/-- The letters of the types that are no classes and no arrays. -/
def Descriptor.plainLetters : List Char :=
  ['Z', 'C', 'B', 'S', 'I', 'F', 'J', 'D']

/-- The descriptor of a class or of an array of up to seven dimensions, and the text by which a class constant names it. -/
inductive Descriptor.NamedBy : List Char → List Char → Prop
  | ofClass (name : List Char) : NamedBy ('L' :: (name ++ [';'])) name
  | plainArray {dimensions : Nat} {c : Char} (hpos : 0 < dimensions) (hmax : dimensions ≤ FrameType.maxDimensions)
      (hc : c ∈ Descriptor.plainLetters) :
      NamedBy (List.replicate dimensions '[' ++ [c]) (List.replicate dimensions '[' ++ [c])
  | classArray {dimensions : Nat} (hpos : 0 < dimensions) (hmax : dimensions ≤ FrameType.maxDimensions) (name : List Char) :
      NamedBy (List.replicate dimensions '[' ++ 'L' :: (name ++ [';']))
        (List.replicate dimensions '[' ++ 'L' :: (name ++ [';']))

/-- Such a descriptor is not that of no value. -/
theorem Descriptor.NamedBy.head?_ne {value constant : List Char} (h : Descriptor.NamedBy value constant) :
    value.head? ≠ some 'V' := by
  have harray : ∀ {n : Nat} (_ : 0 < n) (rest : List Char), (List.replicate n '[' ++ rest).head? ≠ some 'V' := by
    intro n hpos rest
    obtain ⟨n, rfl⟩ := Nat.exists_eq_succ_of_ne_zero (Nat.ne_of_gt hpos)
    exact fun hv => absurd (Option.some.inj hv) (by decide)
  cases h with
  | ofClass => exact fun hv => absurd (Option.some.inj hv) (by decide)
  | plainArray hpos => exact harray hpos _
  | classArray hpos => exact harray hpos _

namespace FrameType

variable {types : TypeTable}

/-- What an array descriptor names behind its brackets is spelled as it was. -/
def Spelled (result : Option FrameType × TypeTable) (cs : List Char) : Prop :=
  ∃ t, result.1 = some t ∧ VerificationType.elementDescriptor result.2 t.shape = String.ofList cs

/-- The type of a name that is closed is that of the class. -/
theorem ofName_closed (types : TypeTable) (name : List Char) : ofName types (name ++ [';']) =
    (some (object (types.addNormal (String.ofList name)).1), (types.addNormal (String.ofList name)).2) := by
  simp [ofName, Descriptor.dropSemicolon]

/-- A class that is put into the table is named there. -/
theorem name_addNormal (h : types.Sound) (name : String) :
    (types.addNormal name).2.name (types.addNormal name).1 = name := by
  rw [TypeTable.name, (TypeTable.addNormal_spec h name).2.2]
  rfl

/-- A letter of a type is spelled as it was. -/
theorem spelled_plain {c : Char} (hc : c ∈ Descriptor.plainLetters) : Spelled (ofElement types [c]) [c] := by
  simp only [Descriptor.plainLetters, List.mem_cons, List.not_mem_nil, or_false] at hc
  rcases hc with rfl | rfl | rfl | rfl | rfl | rfl | rfl | rfl
  all_goals exact ⟨_, rfl, rfl⟩

/-- A class is spelled as it was. -/
theorem spelled_class (h : types.Sound) (name : List Char) :
    Spelled (ofElement types ('L' :: (name ++ [';']))) ('L' :: (name ++ [';'])) := by
  refine ⟨object (types.addNormal (String.ofList name)).1, ?_, ?_⟩
  · rw [ofElement, ofName_closed]
  · rw [ofElement, ofName_closed]
    change "L" ++ (types.addNormal (String.ofList name)).2.name (types.addNormal (String.ofList name)).1 ++ ";" = _
    rw [name_addNormal h, ← String.toList_inj]
    simp

/-- The descriptor of an array comes back if its element type is spelled as it was. -/
theorem ofValue_array {n : Nat} (hpos : 0 < n) (hmax : n ≤ maxDimensions) {c : Char} (hc : c ≠ '[') {rest : List Char}
    (h : Spelled (ofElement types (c :: rest)) (c :: rest)) :
    ∃ t grown, ofValue types (List.replicate n '[' ++ c :: rest) = (some t, grown) ∧
      VerificationType.ofFrameType grown t =
        (do return .object (← ConstantPool.type (String.ofList (List.replicate n '[' ++ c :: rest)))) := by
  obtain ⟨n, rfl⟩ := Nat.exists_eq_succ_of_ne_zero (Nat.ne_of_gt hpos)
  obtain ⟨u, hu, hspelled⟩ := h
  have htake := Descriptor.takeBrackets_replicate (n + 1) hc rest
  have hskip := Descriptor.skipBrackets_replicate n hc rest
  rw [List.replicate_succ, List.cons_append] at htake ⊢
  have hvalue : ofValue types ('[' :: (List.replicate n '[' ++ c :: rest)) =
      (some { u with dims := BitVec.ofNat 4 (n + 1) }, (ofElement types (c :: rest)).2) := by
    rw [ofValue, htake]
    simp only [List.length_cons, List.length_replicate]
    rw [if_neg (Nat.not_lt.2 hmax), hskip, hu, Option.map_some]
  refine ⟨_, _, hvalue, ?_⟩
  have hdims : FrameType.dimensions { u with dims := BitVec.ofNat 4 (n + 1) } = (n + 1 : Nat) := by
    unfold maxDimensions at hmax
    have htoNat : (BitVec.ofNat 4 (n + 1)).toNat = n + 1 := by
      rw [BitVec.toNat_ofNat]
      exact Nat.mod_eq_of_lt (by omega)
    change (BitVec.ofNat 4 (n + 1)).toInt = _
    rw [BitVec.toInt_eq_toNat_of_lt (by omega), htoNat]
  have htext : VerificationType.arrayDescriptor (ofElement types (c :: rest)).2 (n + 1) u.shape =
      String.ofList ('[' :: (List.replicate n '[' ++ c :: rest)) := by
    rw [VerificationType.arrayDescriptor, hspelled, List.replicate_succ, ← String.toList_inj]
    simp
  unfold VerificationType.ofFrameType
  rw [hdims, if_pos (by omega), Int.toNat_natCast, htext]

/-- Without a parenthesis, the descriptor of a class or an array comes back as the class constant by which it is named. -/
theorem ofValue_named (h : types.Sound) {value constant : List Char} (hnamed : Descriptor.NamedBy value constant) :
    ∃ t grown, ofValue types value = (some t, grown) ∧
      VerificationType.ofFrameType grown t = (do return .object (← ConstantPool.type (String.ofList constant))) := by
  cases hnamed with
  | ofClass name =>
    refine ⟨_, _, by rw [ofValue, ofName_closed], ?_⟩
    change (do return VerificationType.object (← ConstantPool.type
      ((types.addNormal (String.ofList constant)).2.name (types.addNormal (String.ofList constant)).1))) = _
    rw [name_addNormal h]
  | plainArray hpos hmax hc =>
    refine ofValue_array hpos hmax ?_ (spelled_plain hc)
    rintro rfl
    exact absurd hc (by decide)
  | classArray hpos hmax name => exact ofValue_array hpos hmax (by decide) (spelled_class h name)

/-- The type of a field with such a descriptor, or of what a method with such a result returns, comes back
from its descriptor as the class constant by which it is named, and its word says which type it is if the
type table has room for its number. -/
theorem ofDescriptor_named {h : Hierarchy} (hc : TypeTable.Consistent h types) {value constant : List Char}
    (hnamed : Descriptor.NamedBy value constant) (hparen : ')' ∉ value) {d : String}
    (hd : d.toList = value ∨ ∃ before, d.toList = before ++ ')' :: value) :
    ∃ t grown, ofDescriptor types d = (.ok t, grown) ∧
      VerificationType.ofFrameType grown t = (do return .object (← ConstantPool.type (String.ofList constant))) ∧
      (grown.Roomy → t.Told) := by
  have hreturn : Descriptor.returnChars d.toList = value := by
    rcases hd with hd | ⟨before, hd⟩
    · rw [hd, Descriptor.returnChars_plain hparen]
    · rw [hd, Descriptor.returnChars_append before hparen]
  obtain ⟨t, grown, hvalue, hback⟩ := ofValue_named hc.sound hnamed
  have hmem : t ∈ (ofValue types value).1 := by rw [hvalue]; rfl
  refine ⟨t, grown, ?_, hback, fun hroomy => ?_⟩
  · rw [ofDescriptor, hreturn, hvalue]
  · obtain ⟨-, hmeaningful⟩ := (found_ofValue hc value).meaningful t hmem (ofValue_isUnset hnamed.head?_ne hmem)
    rw [hvalue] at hmeaningful
    exact ofWord_word hmeaningful.concrete (hmeaningful.numbered.fits hroomy)

/-- The result of a method that returns arrays of arrays of a class. -/
theorem ofDescriptor_named_arrays : ∃ t grown, ofDescriptor .empty "(I)[[La/B;" = (.ok t, grown) ∧
    VerificationType.ofFrameType grown t = (do return .object (← ConstantPool.type "[[La/B;")) ∧ (grown.Roomy → t.Told) := by
  have hnamed : Descriptor.NamedBy (List.replicate 2 '[' ++ 'L' :: ("a/B".toList ++ [';']))
      (List.replicate 2 '[' ++ 'L' :: ("a/B".toList ++ [';'])) := .classArray (by decide) (by decide) _
  obtain ⟨t, grown, hread, hback⟩ := ofDescriptor_named (TypeTable.consistent_empty .empty) hnamed
    (by decide) (d := "(I)[[La/B;") (.inr ⟨"(I".toList, rfl⟩)
  exact ⟨t, grown, hread, hback⟩

example : (ofDescriptor .empty "La)b;").1 = .error (.badDescriptor "La)b;") := by rfl

end FrameType

end ClassFile
