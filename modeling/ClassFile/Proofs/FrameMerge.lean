import ClassFile.Proofs.TypeJoin

/-!
# Merging frames

A block hands over what it leaves in its locals and on its stack. The frame of the block behind an edge takes
that in: each of its slots goes up to a type above what is handed over. A frame that has taken it in does not
change when it is handed over again.
-/

namespace ClassFile

namespace FrameType

/-- A type that a block may have left somewhere: it stands for a slot of the input, or means something by itself. -/
structure Left (types : TypeTable) (t : FrameType) : Prop where
  set : t.shape ≠ .unset
  meaningful : t.shape.isConcrete = true → t.Meaningful types

/-- A type of the same shape means something as well, whatever its dimensions. -/
theorem Meaningful.of_shape {types : TypeTable} {t u : FrameType} (h : t.Meaningful types) (hs : u.shape = t.shape) :
    u.Meaningful types :=
  ⟨hs ▸ h.concrete, fun i hi => h.normal i (hs ▸ hi), fun i hi => h.entry i (hs ▸ hi)⟩

/-- A type that means something is one that a block may have left. -/
theorem Meaningful.left {types : TypeTable} {t : FrameType} (h : t.Meaningful types) : t.Left types :=
  ⟨h.shape_ne_unset, fun _ => h⟩

/-- What a block may have left it may have left with a table that has grown. -/
theorem Left.mono {types grown : TypeTable} {t : FrameType} (h : t.Left types) (hg : types.Extends grown) : t.Left grown :=
  ⟨h.set, fun hc => (h.meaningful hc).mono hg⟩

end FrameType

namespace Frame

/-- The effect of a block is in types that it may have left. -/
structure Sane (types : TypeTable) (f : Frame) : Prop where
  outLocals : ∀ t ∈ f.outLocals, t.isUnset = false → t.Left types
  outStack : ∀ t ∈ f.outStack, t.Left types

/-- The frame of a block that has been entered, with so many locals. -/
structure Entered (types : TypeTable) (count : Nat) (f : Frame) : Prop where
  entered : f.entered = true
  size : f.locals.size = count
  locals : ∀ t ∈ f.locals, t.Held types
  stack : ∀ t ∈ f.stack, t.Held types

section Handing

variable {h : Hierarchy} {types grown : TypeTable} {count : Nat} {f g : Frame} {t : FrameType} {className : String}

/-- The effect of a block stays in types that it may have left when the table grows. -/
theorem Sane.mono (hf : f.Sane types) (hg : types.Extends grown) : f.Sane grown :=
  ⟨fun t ht hset => (hf.outLocals t ht hset).mono hg, fun t ht => (hf.outStack t ht).mono hg⟩

/-- A frame that has been entered stays so when the table grows. -/
theorem Entered.mono (hf : f.Entered types count) (hg : types.Extends grown) : f.Entered grown count :=
  ⟨hf.entered, hf.size, fun t ht => (hf.locals t ht).mono hg, fun t ht => (hf.stack t ht).mono hg⟩

/-- What is left in a slot means something once the input is known. -/
theorem Entered.meaningful_resolve (hf : f.Entered types count) (ht : t.Left types) : (f.resolve t).Meaningful types := by
  have hinput : ∀ input : Option FrameType, (∀ u ∈ input, u.Held types) →
      (if t.wantsTop && ((input.getD .top).withDimensionsOf t).isWide then .top
        else (input.getD .top).withDimensionsOf t).Meaningful types := by
    intro input hheld
    split
    · exact FrameType.held_top.toMeaningful
    · refine FrameType.Meaningful.of_shape (t := input.getD .top) ?_ rfl
      cases input with
      | none => exact FrameType.held_top.toMeaningful
      | some u => exact (hheld u rfl).toMeaningful
  have hstack : ∀ slot, ∀ u ∈ (if slot ≤ f.stack.size then f.stack[f.stack.size - slot]? else none), u.Held types := by
    intro slot u hu
    split at hu
    · exact hf.stack u (Array.mem_of_getElem? hu)
    · cases hu
  obtain ⟨d, s⟩ := t
  cases s with
  | localSlot slot b => exact hinput f.locals[slot]? fun u hu => hf.locals u (Array.mem_of_getElem? hu)
  | stackSlot slot b => exact hinput _ (hstack slot)
  | straySlot kind slot b => exact hinput _ (hstack slot)
  | unset => exact absurd rfl ht.set
  | _ => exact ht.meaningful rfl

/-- The input of a frame that has been entered consists of types that slots can hold. -/
theorem Entered.meaningful_input (hf : f.Entered types count) (i : Nat) : (f.locals.getD i .top).Held types := by
  rw [Array.getD_eq_getD_getElem?]
  cases hi : f.locals[i]? with
  | none => exact FrameType.held_top
  | some u => exact hf.locals u (Array.mem_of_getElem? hi)

/-- What an object becomes if the block has called its constructor, by name. -/
def constructedName (f : Frame) (types : TypeTable) (className : String) (t : FrameType) : NamedType :=
  if f.constructed.any fun c => f.resolve c == t then (t.settled.named types).initialized className
    else t.settled.named types

/-- What a constructor makes of an object does not depend on what the table has grown by. -/
theorem constructedName_of_extends (hg : types.Extends grown) (ht : t.Meaningful types) :
    f.constructedName grown className t = f.constructedName types className t := by
  unfold constructedName
  rw [FrameType.named_of_extends hg ht.settled.numbered]

/-- An object that has been constructed is an object of its class, and everything else stays what it is. -/
theorem afterConstructor_spec (f : Frame) (className : String) (hc : TypeTable.Consistent h types)
    (ht : t.Meaningful types) :
    ∃ u grown, f.afterConstructor types className t = (u, grown) ∧ TypeTable.Consistent h grown ∧ types.Extends grown ∧
      u.Meaningful grown ∧ u.settled.named grown = f.constructedName types className t := by
  have hself : (t.settled.named types).initialized className = t.settled.named types →
      t.settled.named types = f.constructedName types className t := by
    intro hfix
    unfold constructedName
    rw [hfix, ite_self]
  have hclass : ∀ name : String, (t.settled.named types).initialized className = ⟨0, .object name⟩ →
      ∃ u grown, (if f.constructed.any fun c => f.resolve c == t then .object (types.addNormal name).1 else t,
          (types.addNormal name).2) = (u, grown) ∧ TypeTable.Consistent h grown ∧ types.Extends grown ∧
        u.Meaningful grown ∧ u.settled.named grown = f.constructedName types className t := by
    intro name hname
    obtain ⟨-, hg, hi⟩ := TypeTable.addNormal_spec hc.sound name
    refine ⟨_, _, rfl, hc.add _, hg, ?_⟩
    unfold constructedName
    split
    · have hheld := FrameType.held_object hi 0
      rw [hname, FrameType.object, hheld.settled, FrameType.named_object hi]
      exact ⟨hheld.toMeaningful, rfl⟩
    · exact ⟨ht.mono hg, FrameType.named_of_extends hg ht.settled.numbered⟩
  unfold afterConstructor
  split
  · rename_i hempty
    refine ⟨t, types, rfl, hc, TypeTable.Extends.refl types, ht, ?_⟩
    have hnone : f.constructed = #[] := by simpa using hempty
    simp [constructedName, hnone]
  · dsimp only
    split
    · exact hclass className rfl
    · exact hclass _ rfl
    · rename_i hthis huninit
      refine ⟨t, types, rfl, hc, TypeTable.Extends.refl types, ht,
        hself (FrameType.initialized_named types className hthis huninit)⟩

/-- What the block leaves in a local, before constructors are looked at. -/
def leftLocal (f : Frame) (i : Nat) : FrameType :=
  match f.outLocals[i]? with
  | some t => if t.isUnset then f.locals.getD i .top else f.resolve t
  | none => f.locals.getD i .top

/-- What the block leaves in a slot of the stack, before constructors are looked at. -/
def leftStack (f : Frame) (i : Nat) : FrameType :=
  if i < f.untouched then f.stack.getD i .top else f.resolve (f.outStack.getD (i - f.untouched) .top)

/-- What a block that has been entered leaves in a local means something. -/
theorem Entered.meaningful_leftLocal (hf : f.Entered types count) (hs : f.Sane types) (i : Nat) :
    (f.leftLocal i).Meaningful types := by
  have hinput := (hf.meaningful_input i).toMeaningful
  unfold leftLocal
  split
  · rename_i t ht
    split
    · exact hinput
    · rename_i hset
      exact hf.meaningful_resolve (hs.outLocals t (Array.mem_of_getElem? ht) (by simpa using hset))
  · exact hinput

/-- What a block that has been entered leaves on the stack means something. -/
theorem Entered.meaningful_leftStack (hf : f.Entered types count) (hs : f.Sane types) (i : Nat) :
    (f.leftStack i).Meaningful types := by
  unfold leftStack
  rw [Array.getD_eq_getD_getElem?, Array.getD_eq_getD_getElem?]
  split
  · cases hi : f.stack[i]? with
    | none => exact FrameType.held_top.toMeaningful
    | some u => exact (hf.stack u (Array.mem_of_getElem? hi)).toMeaningful
  · refine hf.meaningful_resolve ?_
    cases hi : f.outStack[i - f.untouched]? with
    | none => exact FrameType.held_top.toMeaningful.left
    | some u => exact hs.outStack u (Array.mem_of_getElem? hi)

end Handing

/-! ## Joining into slots -/

/-- What joins the slots from `i` on, one by one: types that mean something, by name. -/
def Delivers (h : Hierarchy) (types : TypeTable) (incoming : Nat → TypeTable → FrameType × TypeTable) (S : Nat → NamedType)
    (count i : Nat) : Prop :=
  ∀ j, i ≤ j → j < i + count → ∀ grown : TypeTable, types.Extends grown → TypeTable.Consistent h grown →
    ∃ u later, incoming j grown = (u, later) ∧ TypeTable.Consistent h later ∧ grown.Extends later ∧ u.Meaningful later ∧
      u.settled.named later = S j

/-- A slot that holds a type above another one. -/
def HoldsAbove (h : Hierarchy) (types : TypeTable) (slots : Array FrameType) (i : Nat) (n : NamedType) : Prop :=
  ∃ u, slots[i]? = some u ∧ u.Held types ∧ NamedType.Below h n (u.named types)

/-- Slots that have gone up, where they were set. -/
def Risen (h : Hierarchy) (types : TypeTable) (slots : Array FrameType) (grown : TypeTable)
    (slots' : Array FrameType) : Prop :=
  slots'.size = slots.size ∧ ∀ i s, slots[i]? = some s → s ≠ .unset → HoldsAbove h grown slots' i (s.named types)

section Slots

variable {h : Hierarchy} {types grown later : TypeTable} {incoming : Nat → TypeTable → FrameType × TypeTable}
variable {S : Nat → NamedType} {count i : Nat} {slots slots' slots'' : Array FrameType} {changed : Bool} {n : NamedType}

/-- A slot that holds a type is set. -/
theorem Held.ne_unset {t : FrameType} (ht : t.Held types) : t ≠ .unset := by
  rintro rfl
  exact ht.shape_ne_unset rfl

/-- A slot that is above a type stays above it when slots go up. -/
theorem HoldsAbove.rise (hg : h.Grounded) (hobject : h.superClass objectClass = none) (hn : HoldsAbove h types slots i n)
    (hr : Risen h types slots grown slots') : HoldsAbove h grown slots' i n := by
  obtain ⟨u, hu, hheld, hbelow⟩ := hn
  obtain ⟨u', hu', hheld', hbelow'⟩ := hr.2 i u hu (Held.ne_unset hheld)
  exact ⟨u', hu', hheld', hbelow.trans hg hobject hbelow'⟩

/-- Slots that go up twice have gone up. -/
theorem Risen.trans (hg : h.Grounded) (hobject : h.superClass objectClass = none) (hr : Risen h types slots grown slots')
    (hr' : Risen h grown slots' later slots'') : Risen h types slots later slots'' :=
  ⟨hr'.1.trans hr.1, fun i s hs hset => (hr.2 i s hs hset).rise hg hobject hr'⟩

/-- Slots stay as they are while the table grows. -/
theorem risen_of_extends (hext : types.Extends grown) (hslots : ∀ s ∈ slots, s = .unset ∨ s.Held types) :
    Risen h types slots grown slots := by
  refine ⟨rfl, fun i s hs hset => ⟨s, hs, ?_⟩⟩
  have hheld := (hslots s (Array.mem_of_getElem? hs)).resolve_left hset
  refine ⟨hheld.mono hext, ?_⟩
  rw [FrameType.named_of_extends hext hheld.numbered]
  exact .refl _

/-- What joins the slots behind the first one is what joins all of them but the first. -/
theorem Delivers.tail (hin : Delivers h types incoming S (count + 1) i) (hext : types.Extends grown) :
    Delivers h grown incoming S count (i + 1) :=
  fun j h₁ h₂ later hlater hc => hin j (by omega) (by omega) later (hext.trans hlater) hc

/-- Joining one type takes a slot up to a type above what it held and above what has joined it. -/
theorem joinSlot_spec (hg : h.Grounded) (hc : TypeTable.Consistent h types) (slots : Array FrameType) (hi : i < slots.size)
    (hslots : ∀ s ∈ slots, s = .unset ∨ s.Held types) {t : FrameType} (ht : t.Meaningful types) :
    ∃ joined grown, FrameType.mergeInto h types (slots.getD i .unset) t = (joined, joined != slots.getD i .unset, grown) ∧
      TypeTable.Consistent h grown ∧ types.Extends grown ∧
      (∀ s ∈ slots.setIfInBounds i joined, s = .unset ∨ s.Held grown) ∧
      Risen h types slots grown (slots.setIfInBounds i joined) ∧
      HoldsAbove h grown (slots.setIfInBounds i joined) i (t.settled.named types) := by
  have hget : slots[i]? = some (slots.getD i .unset) := by
    rw [Array.getD_eq_getD_getElem?, Array.getElem?_eq_getElem hi]
    rfl
  have hslot := hslots _ (Array.mem_of_getElem? hget)
  obtain ⟨joined, grown, hjoined, hc', hext, -, hrise, hbelow, hheld⟩ :=
    FrameType.mergeInto_spec hg hc (FrameType.listed_of_slot hslot) ht.listed
  have hheld := hheld hslot ht
  have hself : (slots.setIfInBounds i joined)[i]? = some joined := by
    rw [Array.getElem?_setIfInBounds, if_pos rfl, if_pos hi]
  refine ⟨joined, grown, hjoined, hc', hext, ?_, ⟨Array.size_setIfInBounds, ?_⟩, joined, hself, hheld, hbelow⟩
  · intro s hs
    rcases Array.mem_or_eq_of_mem_setIfInBounds hs with hs | rfl
    · exact (hslots s hs).imp_right fun hs => hs.mono hext
    · exact Or.inr hheld
  · intro j s hs hset
    by_cases hij : i = j
    · subst hij
      rw [hget] at hs
      obtain rfl := Option.some.inj hs
      exact ⟨joined, hself, hheld, hrise hset⟩
    · have hsj : s.Held types := (hslots s (Array.mem_of_getElem? hs)).resolve_left hset
      refine ⟨s, by rwa [Array.getElem?_setIfInBounds, if_neg hij], hsj.mono hext, ?_⟩
      rw [FrameType.named_of_extends hext hsj.numbered]
      exact .refl _

/-- Writing back what stands in a slot changes nothing. -/
theorem setIfInBounds_getD (slots : Array FrameType) (i : Nat) : slots.setIfInBounds i (slots.getD i .unset) = slots := by
  apply Array.ext_getElem?
  intro j
  rw [Array.getElem?_setIfInBounds, Array.getD_eq_getD_getElem?]
  by_cases hij : i = j
  · subst hij
    by_cases hi : i < slots.size
    · simp [hi]
    · simp [hi]
  · rw [if_neg hij]

/-- Joining takes every slot up to a type above what it held and above what has joined it. -/
theorem joinSlots_spec (hg : h.Grounded) (hobject : h.superClass objectClass = none) (hc : TypeTable.Consistent h types)
    (hin : Delivers h types incoming S count i) (slots : Array FrameType) (changed : Bool) (hsize : i + count ≤ slots.size)
    (hslots : ∀ s ∈ slots, s = .unset ∨ s.Held types) :
    ∃ slots' changed' grown, joinSlots h incoming count i slots changed types = (slots', changed', grown) ∧
      (changed' = false ↔ changed = false ∧ slots' = slots) ∧
      TypeTable.Consistent h grown ∧ types.Extends grown ∧ (∀ s ∈ slots', s = .unset ∨ s.Held grown) ∧
      Risen h types slots grown slots' ∧ (∀ j < i, slots'[j]? = slots[j]?) ∧
      ∀ j, i ≤ j → j < i + count → HoldsAbove h grown slots' j (S j) := by
  induction count generalizing i slots changed types with
  | zero =>
    have hext := TypeTable.Extends.refl types
    exact ⟨slots, changed, types, rfl, by simp, hc, hext, hslots, risen_of_extends hext hslots, fun _ _ => rfl,
      fun j h₁ h₂ => by omega⟩
  | succ count ih =>
    obtain ⟨u, grown, hu, hc', hext, hmeans, hnamed⟩ :=
      hin i (Nat.le_refl _) (by omega) types (TypeTable.Extends.refl types) hc
    obtain ⟨joined, later, hjoined, hc'', hext', hslots', hrise, habove⟩ :=
      joinSlot_spec (i := i) hg hc' slots (by omega) (fun s hs => (hslots s hs).imp_right fun hs => hs.mono hext) hmeans
    obtain ⟨slots', changed', final, hfinal, hchanged, hc3, hext3, hslots3, hrise3, hbefore, hafter⟩ :=
      ih (i := i + 1) hc'' (hin.tail (hext.trans hext')) (slots.setIfInBounds i joined)
        (changed || joined != slots.getD i .unset) (by rw [Array.size_setIfInBounds]; omega) hslots'
    refine ⟨slots', changed', final, ?_, ?_, hc3, hext.trans (hext'.trans hext3), hslots3, ?_, ?_, ?_⟩
    · unfold joinSlots
      rw [hu]
      dsimp only
      rw [hjoined]
      exact hfinal
    · rw [hchanged, Bool.or_eq_false_iff, bne_eq_false_iff_eq, and_assoc]
      refine and_congr_right fun _ => ⟨?_, ?_⟩
      · rintro ⟨hsame, rfl⟩
        rw [hsame, setIfInBounds_getD]
      · rintro rfl
        have hget := hbefore i (Nat.lt_succ_self i)
        rw [Array.getElem?_setIfInBounds, if_pos rfl, if_pos (by omega)] at hget
        have hsame : joined = slots'.getD i .unset := by rw [Array.getD_eq_getD_getElem?, hget, Option.getD_some]
        refine ⟨hsame, ?_⟩
        rw [hsame, setIfInBounds_getD]
    · exact ((risen_of_extends hext hslots).trans hg hobject hrise).trans hg hobject hrise3
    · intro j hj
      rw [hbefore j (by omega), Array.getElem?_setIfInBounds, if_neg (by omega)]
    · intro j h₁ h₂
      by_cases hji : j = i
      · subst hji
        rw [← hnamed]
        exact habove.rise hg hobject hrise3
      · exact hafter j (by omega) (by omega)

/-- A slot that is above a type is so for a table that has grown. -/
theorem HoldsAbove.mono (hn : HoldsAbove h types slots i n) (hext : types.Extends grown) : HoldsAbove h grown slots i n := by
  obtain ⟨u, hu, hheld, hbelow⟩ := hn
  refine ⟨u, hu, hheld.mono hext, ?_⟩
  rwa [FrameType.named_of_extends hext hheld.numbered]

/-- Slots that are above all types that were once there. -/
def Covers (h : Hierarchy) (types : TypeTable) (slots entry : Array FrameType) : Prop :=
  ∀ i t, entry[i]? = some t → t.Held types ∧ HoldsAbove h types slots i (t.named types)

/-- Slots that cover others do so for a table that has grown. -/
theorem Covers.mono {entry : Array FrameType} (hn : Covers h types slots entry) (hext : types.Extends grown) :
    Covers h grown slots entry := by
  intro i t ht
  obtain ⟨hheld, habove⟩ := hn i t ht
  rw [FrameType.named_of_extends hext hheld.numbered]
  exact ⟨hheld.mono hext, habove.mono hext⟩

/-- Slots that cover others still do when they go up. -/
theorem Covers.rise (hg : h.Grounded) (hobject : h.superClass objectClass = none) {entry : Array FrameType}
    (hn : Covers h types slots entry) (hr : Risen h types slots grown slots') (hext : types.Extends grown) :
    Covers h grown slots' entry := by
  intro i t ht
  obtain ⟨hheld, habove⟩ := hn i t ht
  rw [FrameType.named_of_extends hext hheld.numbered]
  exact ⟨hheld.mono hext, habove.rise hg hobject hr⟩

/-- Slots that are above everything that joins them stay as they are. -/
theorem joinSlots_of_above (hg : h.Grounded) (hobject : h.superClass objectClass = none) (hc : TypeTable.Consistent h types)
    (hin : Delivers h types incoming S count i) (slots : Array FrameType) (changed : Bool)
    (habove : ∀ j, i ≤ j → j < i + count → HoldsAbove h types slots j (S j)) :
    ∃ grown, joinSlots h incoming count i slots changed types = (slots, changed, grown) ∧ TypeTable.Consistent h grown ∧
      types.Extends grown := by
  induction count generalizing i types with
  | zero => exact ⟨types, rfl, hc, TypeTable.Extends.refl types⟩
  | succ count ih =>
    obtain ⟨u, grown, hu, hc', hext, hmeans, hnamed⟩ :=
      hin i (Nat.le_refl _) (by omega) types (TypeTable.Extends.refl types) hc
    obtain ⟨s, hs, hheld, hbelow⟩ := (habove i (Nat.le_refl _) (by omega)).mono hext
    have hslot : slots.getD i .unset = s := by rw [Array.getD_eq_getD_getElem?, hs, Option.getD_some]
    rw [← hnamed] at hbelow
    obtain ⟨hsame, hchanged⟩ := FrameType.mergeInto_of_below hg hobject hc' hheld hmeans hbelow
    obtain ⟨joined, later, hjoined, hc'', hext', -⟩ :=
      FrameType.mergeInto_spec hg hc' hheld.toMeaningful.listed hmeans.listed
    rw [hjoined] at hsame hchanged
    dsimp only at hsame hchanged
    subst hsame
    obtain ⟨final, hfinal, hc3, hext3⟩ := ih (i := i + 1) hc'' (hin.tail (hext.trans hext')) fun j h₁ h₂ =>
      (habove j (by omega) (by omega)).mono (hext.trans hext')
    refine ⟨final, ?_, hc3, hext.trans (hext'.trans hext3)⟩
    unfold joinSlots
    rw [hu]
    dsimp only
    rw [hslot, hjoined]
    dsimp only
    rw [hchanged, Bool.or_false, ← hslot, setIfInBounds_getD]
    exact hfinal

end Slots

end Frame

end ClassFile
