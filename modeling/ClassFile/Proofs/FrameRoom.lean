import ClassFile.Proofs.FrameTaking
import Mathlib.Algebra.Group.Action.Defs
import Mathlib.Algebra.Order.BigOperators.Group.Finset

/-!
# How often a frame can change

Every merge that changes a frame leaves less room above its slots, whatever types they hold: a type need not be that of a
value, and may have lost more dimensions than it had. A frame that has not been entered yet may still have any stack, up to a
height that the search never exceeds.
-/

namespace ClassFile

namespace FrameType

section Room

variable {h : Hierarchy} {types : TypeTable} {s t : FrameType}

/-- Of a slot of which nothing is known all others can still become. -/
theorem room_lt_unset (hg : h.Grounded) (types : TypeTable) (hne : t ≠ unset) : (t.named types).room h < h.size + 40 := by
  by_cases hr : (t.named types).isReference = true
  · exact Nat.lt_of_le_of_lt (NamedType.room_le_of_isReference hg hr) (by omega)
  · have hd := NamedType.dims_eq_zero_of_not_isReference hr
    obtain ⟨d, x⟩ := t
    obtain rfl : d = 0 := hd
    cases x with
    | unset => exact absurd rfl hne
    | object i => exact absurd rfl hr
    | _ => simp [NamedType.room, named, Shape.named]

/-- Joining a type into a slot leaves less room above the slot, if it changes it. -/
theorem mergeInto_room (hg : h.Grounded) (hobject : h.superClass objectClass = none) (hc : TypeTable.Consistent h types)
    (hs : s.Listed types) (ht : t.Listed types) :
    ∃ joined changed grown, mergeInto h types s t = (joined, changed, grown) ∧ TypeTable.Consistent h grown ∧
      types.Extends grown ∧ joined.Listed grown ∧ (joined.named grown).room h + changed.toNat ≤ (s.named types).room h := by
  obtain ⟨joined, grown, hjoined, hc', hext, hlisted, hbelow, -, -⟩ := mergeInto_spec hg hc hs ht
  refine ⟨joined, _, grown, hjoined, hc', hext, hlisted, ?_⟩
  by_cases hsame : joined = s
  · rw [hsame, bne_self_eq_false, named_of_extends hext hs.numbered]
    exact Nat.le_refl _
  · rw [bne_iff_ne.2 hsame]
    by_cases hunset : s = unset
    · subst hunset
      exact room_lt_unset hg grown hsame
    · refine (hbelow hunset).room_lt hg hobject fun e => hsame ?_
      rw [← named_of_extends hext hs.numbered] at e
      exact hlisted.eq_of_named hc'.sound (hs.mono hext) e.symm

end Room

end FrameType

namespace Frame

/-- How many times slots can still go up, at most. -/
def slotsRoom (h : Hierarchy) (types : TypeTable) (slots : Array FrameType) : Nat :=
  ∑ i ∈ Finset.range slots.size, ((slots.getD i .unset).named types).room h

/-- How many times a frame that has been entered can still change, at most. -/
def inputRoom (h : Hierarchy) (types : TypeTable) (f : Frame) : Nat :=
  slotsRoom h types f.locals + slotsRoom h types f.stack + (if f.stack.size = 0 then h.size + 41 else 0)

/-- How many times a frame can still change, at most. A frame that has not been entered may change
`limit` times after that. -/
def potential (h : Hierarchy) (types : TypeTable) (limit : Nat) (f : Frame) : Nat :=
  if f.entered then f.inputRoom h types else limit + 2

/-- The effect of a block is in types of the table. -/
structure EffectListed (types : TypeTable) (f : Frame) : Prop where
  outLocals : ∀ t ∈ f.outLocals, t.Listed types
  outStack : ∀ t ∈ f.outStack, t.Listed types

/-- The frame of a block that has been entered, with so many locals, in types of the table. -/
structure InputListed (types : TypeTable) (count : Nat) (f : Frame) : Prop where
  entered : f.entered = true
  size : f.locals.size = count
  locals : ∀ t ∈ f.locals, t.Listed types
  stack : ∀ t ∈ f.stack, t.Listed types

section Room

variable {h : Hierarchy} {types grown : TypeTable} {slots : Array FrameType} {count limit height i : Nat} {f g g' : Frame}
variable {className : String} {handled : Option FrameType} {changed : Bool} {t : FrameType}
variable {incoming : Nat → TypeTable → FrameType × TypeTable}

/-- An effect in types of the table is so when the table grows. -/
theorem EffectListed.mono (hf : f.EffectListed types) (hext : types.Extends grown) : f.EffectListed grown :=
  ⟨fun t ht => (hf.outLocals t ht).mono hext, fun t ht => (hf.outStack t ht).mono hext⟩

/-- An input in types of the table is so when the table grows. -/
theorem InputListed.mono (hf : f.InputListed types count) (hext : types.Extends grown) : f.InputListed grown count :=
  ⟨hf.entered, hf.size, fun t ht => (hf.locals t ht).mono hext, fun t ht => (hf.stack t ht).mono hext⟩

/-- What stands in a slot, or instead of it, is a type of the table. -/
theorem listed_getD (hslots : ∀ s ∈ slots, s.Listed types) (i : Nat) (ht : t.Listed types) :
    (slots.getD i t).Listed types := by
  rw [Array.getD_eq_getD_getElem?]
  cases hi : slots[i]? with
  | none => exact ht
  | some u => exact hslots u (Array.mem_of_getElem? hi)

theorem listed_top : FrameType.top.Listed types :=
  FrameType.held_top.toMeaningful.listed

/-! ## What is handed over -/

/-- What a type says of the input is a type of the table. -/
theorem InputListed.resolve (hf : f.InputListed types count) (ht : t.Listed types) : (f.resolve t).Listed types := by
  have hinput : ∀ input : Option FrameType, (∀ u ∈ input, u.Listed types) →
      (if t.wantsTop && ((input.getD .top).withDimensionsOf t).isWide then .top
        else (input.getD .top).withDimensionsOf t).Listed types := by
    intro input hlisted
    split
    · exact listed_top
    · refine FrameType.Listed.of_shape (t := input.getD .top) ?_ rfl
      cases input with
      | none => exact listed_top
      | some u => exact hlisted u rfl
  have hstack : ∀ slot, ∀ u ∈ (if slot ≤ f.stack.size then f.stack[f.stack.size - slot]? else none), u.Listed types := by
    intro slot u hu
    split at hu
    · exact hf.stack u (Array.mem_of_getElem? hu)
    · cases hu
  obtain ⟨d, s⟩ := t
  cases s with
  | localSlot slot b => exact hinput f.locals[slot]? fun u hu => hf.locals u (Array.mem_of_getElem? hu)
  | stackSlot slot b => exact hinput _ (hstack slot)
  | straySlot kind slot b => exact hinput _ (hstack slot)
  | _ => exact ht

/-- What becomes of an object when its constructor runs is a type of the table. -/
theorem afterConstructor_listed (f : Frame) (className : String) (hc : TypeTable.Consistent h types) (ht : t.Listed types) :
    ∃ u grown, f.afterConstructor types className t = (u, grown) ∧ TypeTable.Consistent h grown ∧ types.Extends grown ∧
      u.Listed grown := by
  have hclass : ∀ name : String,
      ∃ u grown, (if f.constructed.any fun c => f.resolve c == t then .object (types.addNormal name).1 else t,
          (types.addNormal name).2) = (u, grown) ∧ TypeTable.Consistent h grown ∧ types.Extends grown ∧ u.Listed grown := by
    intro name
    obtain ⟨-, hext, hi⟩ := TypeTable.addNormal_spec hc.sound name
    refine ⟨_, _, rfl, hc.add _, hext, ?_⟩
    split
    · exact (FrameType.held_object hi 0).toMeaningful.listed
    · exact ht.mono hext
  unfold afterConstructor
  split
  · exact ⟨t, types, rfl, hc, TypeTable.Extends.refl types, ht⟩
  · dsimp only
    split
    · exact hclass className
    · exact hclass _
    · exact ⟨t, types, rfl, hc, TypeTable.Extends.refl types, ht⟩

/-- What a block leaves in a local is a type of the table. -/
theorem InputListed.leftLocal (hf : f.InputListed types count) (he : f.EffectListed types) (i : Nat) :
    (f.leftLocal i).Listed types := by
  have hinput := listed_getD hf.locals i listed_top
  unfold Frame.leftLocal
  split
  · rename_i t ht
    split
    · exact hinput
    · exact hf.resolve (he.outLocals t (Array.mem_of_getElem? ht))
  · exact hinput

/-- What a block leaves on the stack is a type of the table. -/
theorem InputListed.leftStack (hf : f.InputListed types count) (he : f.EffectListed types) (i : Nat) :
    (f.leftStack i).Listed types := by
  unfold Frame.leftStack
  split
  · exact listed_getD hf.stack i listed_top
  · exact hf.resolve (listed_getD he.outStack _ listed_top)

/-- What joins slots one by one is in types of the table. -/
def Offers (h : Hierarchy) (types : TypeTable) (incoming : Nat → TypeTable → FrameType × TypeTable) : Prop :=
  ∀ j, ∀ grown : TypeTable, types.Extends grown → TypeTable.Consistent h grown →
    ∃ u later, incoming j grown = (u, later) ∧ TypeTable.Consistent h later ∧ grown.Extends later ∧ u.Listed later

/-- What joins slots in types of the table does so when the table grows. -/
theorem Offers.mono (hin : Offers h types incoming) (hext : types.Extends grown) : Offers h grown incoming :=
  fun j later hlater hc => hin j later (hext.trans hlater) hc

/-- What becomes of types of the table when constructors run are types of the table. -/
theorem offers_afterConstructor (f : Frame) (className : String) {left : Nat → FrameType}
    (hleft : ∀ i, (left i).Listed types) :
    Offers h types fun i grown => f.afterConstructor grown className (left i) :=
  fun j _ hext hc => afterConstructor_listed f className hc ((hleft j).mono hext)

/-- Types of the table join slots as they are. -/
theorem offers_listed {left : Nat → FrameType} (hleft : ∀ i, (left i).Listed types) :
    Offers h types fun i grown => (left i, grown) :=
  fun j grown hext hc => ⟨_, grown, rfl, hc, TypeTable.Extends.refl grown, (hleft j).mono hext⟩

/-! ## Slots -/

/-- A slot that is there holds what stands in it. -/
theorem getElem?_eq_getD {slots : Array FrameType} {i : Nat} (hi : i < slots.size) :
    slots[i]? = some (slots.getD i .unset) := by
  rw [Array.getD_eq_getD_getElem?, Array.getElem?_eq_getElem hi]
  rfl

/-- How often slots can still go up does not depend on what the table has grown by. -/
theorem slotsRoom_of_extends (hext : types.Extends grown) (hlisted : ∀ s ∈ slots, s.Listed types) :
    slotsRoom h grown slots = slotsRoom h types slots := by
  refine Finset.sum_congr rfl fun i hi => ?_
  have hslot := hlisted _ (Array.mem_of_getElem? (getElem?_eq_getD (Finset.mem_range.1 hi)))
  rw [FrameType.named_of_extends hext hslot.numbered]

/-- A slot can go up at most as often as there are classes, and forty times more. -/
theorem slotsRoom_le (hg : h.Grounded) (types : TypeTable) (slots : Array FrameType) :
    slotsRoom h types slots ≤ slots.size * (h.size + 40) := by
  have hle := Finset.sum_le_card_nsmul (Finset.range slots.size) (fun i => ((slots.getD i .unset).named types).room h)
    (h.size + 40) fun i _ => NamedType.room_le hg _
  rwa [Finset.card_range, smul_eq_mul] at hle

/-- Only the slot that is set counts for more or less room. -/
theorem slotsRoom_setIfInBounds (h : Hierarchy) (types : TypeTable) (hi : i < slots.size) (t : FrameType) :
    slotsRoom h types (slots.setIfInBounds i t) + ((slots.getD i .unset).named types).room h =
      slotsRoom h types slots + (t.named types).room h := by
  have hmem : i ∈ Finset.range slots.size := Finset.mem_range.2 hi
  unfold slotsRoom
  rw [Array.size_setIfInBounds, ← Finset.add_sum_erase _ _ hmem, ← Finset.add_sum_erase (Finset.range slots.size)
    (fun i => ((slots.getD i .unset).named types).room h) hmem]
  have hself : (slots.setIfInBounds i t).getD i .unset = t := by
    rw [Array.getD_eq_getD_getElem?, Array.getElem?_setIfInBounds, if_pos rfl, if_pos hi, Option.getD_some]
  have hrest : ∀ j ∈ (Finset.range slots.size).erase i,
      (((slots.setIfInBounds i t).getD j .unset).named types).room h = ((slots.getD j .unset).named types).room h := by
    intro j hj
    rw [Array.getD_eq_getD_getElem?, Array.getElem?_setIfInBounds, if_neg (Ne.symm (Finset.ne_of_mem_erase hj)),
      ← Array.getD_eq_getD_getElem?]
  rw [hself, Finset.sum_congr rfl hrest]
  omega

/-- Joining types into slots takes room from them, if one of them changes. -/
theorem joinSlots_room (hg : h.Grounded) (hobject : h.superClass objectClass = none) (hc : TypeTable.Consistent h types)
    (hin : Offers h types incoming) (slots : Array FrameType) (changed : Bool) {n : Nat} (hsize : i + n ≤ slots.size)
    (hslots : ∀ s ∈ slots, s.Listed types) :
    ∃ slots' changed' grown, joinSlots h incoming n i slots changed types = (slots', changed', grown) ∧
      TypeTable.Consistent h grown ∧ types.Extends grown ∧ slots'.size = slots.size ∧ (∀ s ∈ slots', s.Listed grown) ∧
      (changed = true → changed' = true) ∧
      slotsRoom h grown slots' + changed'.toNat ≤ slotsRoom h types slots + changed.toNat := by
  induction n generalizing i slots changed types with
  | zero => exact ⟨slots, changed, types, rfl, hc, TypeTable.Extends.refl types, rfl, hslots, id, Nat.le_refl _⟩
  | succ n ih =>
    obtain ⟨u, grown, hu, hc', hext, hlisted⟩ := hin i types (TypeTable.Extends.refl types) hc
    have hgrown : ∀ s ∈ slots, s.Listed grown := fun s hs => (hslots s hs).mono hext
    have hslot := listed_getD hgrown i FrameType.listed_unset
    obtain ⟨joined, different, later, hjoined, hc'', hext', hlisted', hroom⟩ :=
      FrameType.mergeInto_room hg hobject hc' hslot hlisted
    have hset : ∀ s ∈ slots.setIfInBounds i joined, s.Listed later := by
      intro s hs
      rcases Array.mem_or_eq_of_mem_setIfInBounds hs with hs | rfl
      · exact (hgrown s hs).mono hext'
      · exact hlisted'
    obtain ⟨slots', changed', final, hfinal, hc3, hext3, hsize3, hlisted3, hstays, hroom3⟩ :=
      ih (i := i + 1) hc'' (hin.mono (hext.trans hext')) (slots.setIfInBounds i joined) (changed || different)
        (by rw [Array.size_setIfInBounds]; omega) hset
    refine ⟨slots', changed', final, ?_, hc3, hext.trans (hext'.trans hext3),
      hsize3.trans Array.size_setIfInBounds, hlisted3, fun he => hstays (by rw [he, Bool.true_or]), ?_⟩
    · unfold joinSlots
      rw [hu]
      dsimp only
      rw [hjoined]
      exact hfinal
    · have hi : i < slots.size := by omega
      have hbefore := slotsRoom_setIfInBounds h later hi joined
      rw [FrameType.named_of_extends hext' hslot.numbered, slotsRoom_of_extends (hext.trans hext') hslots] at hbefore
      have hor : (changed || different).toNat ≤ changed.toNat + different.toNat := by
        cases changed <;> cases different <;> decide
      omega

/-! ## Merges -/

/-- What a merge does to a frame, if it does not find another height of the stack. -/
structure Lowered (h : Hierarchy) (types : TypeTable) (count : Nat) (f g : Frame) (handled : Option FrameType)
    (changed : Bool) (g' : Frame) (grown : TypeTable) : Prop where
  effect : g' = { g with locals := g'.locals, stack := g'.stack, entered := true }
  input : g'.InputListed grown count
  height : g'.stack.size ≤ if g.entered then max 1 g.stack.size else max 1 f.heightAfter
  changes : g.entered = false → changed = true
  room : g.entered = true → g'.inputRoom h grown + changed.toNat ≤ g.inputRoom h types

/-- A merge into a frame that has been entered starts from its locals. -/
theorem startLocals_of_entered (hg : g.entered = true → g.InputListed types count) (hentered : g.entered = true) :
    g.startLocals count = g.locals := by
  simp [startLocals, hentered, extendTo, (hg hentered).size]

/-- A merge starts from as many locals as the method has. -/
theorem size_startLocals (hg : g.entered = true → g.InputListed types count) : (g.startLocals count).size = count := by
  by_cases he : g.entered = true
  · rw [startLocals_of_entered hg he, (hg he).size]
  · rw [startLocals, if_neg he, Array.size_replicate]

/-- The locals that a merge starts from are types of the table. -/
theorem listed_startLocals (hg : g.entered = true → g.InputListed types count) :
    ∀ s ∈ g.startLocals count, s.Listed types := by
  intro s hs
  by_cases he : g.entered = true
  · exact (hg he).locals s (startLocals_of_entered hg he ▸ hs)
  · rw [startLocals, if_neg he] at hs
    exact Array.eq_of_mem_replicate hs ▸ FrameType.listed_unset

/-- The stack that a merge along plain flow starts from is in types of the table. -/
theorem listed_startStack (hg : g.entered = true → g.InputListed types count) :
    ∀ s ∈ g.startStack height, s.Listed types := by
  intro s hs
  unfold startStack at hs
  split at hs
  · rename_i he
    exact (hg he).stack s hs
  · exact Array.eq_of_mem_replicate hs ▸ FrameType.listed_unset

/-- The stack that a merge on the way to a handler starts from is in types of the table. -/
theorem listed_handlerStack (hg : g.entered = true → g.InputListed types count) : ∀ s ∈ g.handlerStack, s.Listed types := by
  intro s hs
  by_cases hhas : g.hasStack = true
  · rw [handlerStack_of_hasStack hhas] at hs
    exact (hg (Bool.and_eq_true_iff.1 hhas).1).stack s hs
  · rw [handlerStack_of_not_hasStack hhas] at hs
    exact Array.mem_singleton.1 hs ▸ FrameType.listed_unset

/-- On the way to a handler there is one slot at least, and no more than that or the stack. -/
theorem size_handlerStack_le (g : Frame) : g.handlerStack.size ≤ if g.entered then max 1 g.stack.size else 1 := by
  unfold handlerStack hasStack
  cases g.entered with
  | false => exact Nat.le_refl _
  | true =>
    rw [Bool.true_and]
    split
    · exact Nat.le_max_right _ _
    · exact Nat.le_max_left _ _

/-- Room of the locals and of the stack make up that of the frame. -/
theorem inputRoom_of_pos (types : TypeTable) (hpos : 0 < f.stack.size) :
    f.inputRoom h types = slotsRoom h types f.locals + slotsRoom h types f.stack := by
  rw [inputRoom, if_neg (Nat.ne_of_gt hpos), Nat.add_zero]

/-- A merge along plain flow. -/
theorem merge_none_lowered (className : String) (hg : h.Grounded) (hobject : h.superClass objectClass = none)
    (hc : TypeTable.Consistent h types) (hf : f.InputListed types count) (he : f.EffectListed types)
    (hentered : g.entered = true → g.InputListed types count) :
    ∃ result g' grown, f.merge g none className h types = (result, g', grown) ∧ TypeTable.Consistent h grown ∧
      types.Extends grown ∧ ∀ changed, result = some changed → Lowered h types count f g none changed g' grown := by
  obtain ⟨locals, changed, grown, hlocals, hc', hext, hsize, hlisted, hstays, hroom⟩ :=
    joinSlots_room (i := 0) (n := count) hg hobject hc (offers_afterConstructor f className (hf.leftLocal he))
      (g.startLocals count) (!g.entered || decide (g.locals.size < count)) (by rw [size_startLocals hentered]; omega)
      (listed_startLocals hentered)
  change joinSlots h (fun i types => f.localAfter types className i) count 0 _ _ types = _ at hlocals
  rw [merge_none_eq, hf.size, hlocals]
  dsimp only
  split
  · exact ⟨_, _, grown, rfl, hc', hext, fun _ e => (nomatch e)⟩
  · rename_i hheight
    rw [not_not] at hheight
    have hf' := hf.mono hext
    obtain ⟨stack, changed', grown', hstack, hc'', hext', hsize', hlisted', hstays', hroom'⟩ :=
      joinSlots_room (i := 0) (n := f.heightAfter) hg hobject hc'
        (offers_afterConstructor f className (hf'.leftStack (he.mono hext))) (g.startStack f.heightAfter) changed
        (by omega) (listed_startStack fun hent => (hentered hent).mono hext)
    change joinSlots h (fun i types => f.stackAfter types className i) f.heightAfter 0 _ _ grown = _ at hstack
    rw [hstack]
    dsimp only
    refine ⟨_, _, grown', rfl, hc'', hext.trans hext', fun result hresult => ?_⟩
    obtain rfl := Option.some.inj hresult
    refine ⟨rfl, ⟨rfl, hsize.trans (size_startLocals hentered), fun t ht => (hlisted t ht).mono hext', hlisted'⟩, ?_, ?_, ?_⟩
    · rw [hsize', startStack]
      split
      · exact Nat.le_max_right _ _
      · rw [Array.size_replicate]
        exact Nat.le_max_right _ _
    · exact fun hfresh => hstays' (hstays (by rw [hfresh]; rfl))
    · intro hent
      have hsame : (!g.entered || decide (g.locals.size < count)) = false := by simp [hent, (hentered hent).size]
      rw [startStack, if_pos hent] at hsize' hroom'
      rw [hsame, startLocals_of_entered hentered hent] at hroom
      rw [slotsRoom_of_extends hext (hentered hent).stack] at hroom'
      rw [inputRoom, inputRoom, hsize', slotsRoom_of_extends hext' hlisted]
      simp only [Bool.toNat_false] at hroom
      dsimp only
      omega

/-- A merge on the way to a handler. -/
theorem merge_some_lowered (className : String) (hg : h.Grounded) (hobject : h.superClass objectClass = none)
    (hc : TypeTable.Consistent h types) (hf : f.InputListed types count) (he : f.EffectListed types)
    (hentered : g.entered = true → g.InputListed types count) {e : FrameType} (hlisted : e.Listed types) :
    ∃ changed g' grown, f.merge g (some e) className h types = (some changed, g', grown) ∧ TypeTable.Consistent h grown ∧
      types.Extends grown ∧ Lowered h types count f g (some e) changed g' grown := by
  obtain ⟨locals, changed, grown, hlocals, hc', hext, hsize, hlisted₁, hstays, hroom⟩ :=
    joinSlots_room (i := 0) (n := count) hg hobject hc (offers_afterConstructor f className (hf.leftLocal he))
      (g.startLocals count) (!g.entered || decide (g.locals.size < count)) (by rw [size_startLocals hentered]; omega)
      (listed_startLocals hentered)
  change joinSlots h (fun i types => f.localAfter types className i) count 0 _ _ types = _ at hlocals
  rw [size_startLocals hentered] at hsize
  obtain ⟨locals', changed', grown', hlocals', hc'', hext', hsize', hlisted₂, hstays', hroom'⟩ :=
    joinSlots_room (i := 0) (n := count) hg hobject hc'
      (offers_listed fun i => listed_getD (hf.mono hext).locals i listed_top)
      locals changed (by omega) hlisted₁
  have hwhole := hext.trans hext'
  obtain ⟨stack, changed'', grown'', hstack, hc3, hext'', hsize'', hlisted₃, hstays'', hroom''⟩ :=
    joinSlots_room (i := 0) (n := 1) hg hobject hc'' (offers_listed fun _ => hlisted.mono hwhole)
      g.handlerStack (changed' || !g.hasStack) (by have := g.handlerStack_pos; omega)
      (listed_handlerStack fun hent => (hentered hent).mono hwhole)
  rw [merge_some_eq, hf.size, hlocals]
  dsimp only
  rw [hlocals']
  dsimp only
  rw [hstack]
  dsimp only
  have hfinal : slotsRoom h grown'' locals' = slotsRoom h grown' locals' := slotsRoom_of_extends hext'' hlisted₂
  refine ⟨_, _, grown'', rfl, hc3, hwhole.trans hext'', rfl,
    ⟨rfl, hsize'.trans hsize, fun t ht => (hlisted₂ t ht).mono hext'', hlisted₃⟩, ?_, ?_, ?_⟩
  · have hle := g.size_handlerStack_le
    dsimp only
    split at hle
    · rw [if_pos ‹_›]
      omega
    · rw [if_neg ‹_›]
      omega
  · exact fun hfresh => hstays'' (by rw [hstays' (hstays (by rw [hfresh]; rfl)), Bool.true_or])
  · intro hent
    have hsame : (!g.entered || decide (g.locals.size < count)) = false := by simp [hent, (hentered hent).size]
    rw [hsame, startLocals_of_entered hentered hent] at hroom
    simp only [Bool.toNat_false] at hroom
    by_cases hhas : g.hasStack = true
    · rw [hhas, Bool.not_true, Bool.or_false, handlerStack_of_hasStack hhas,
        slotsRoom_of_extends hwhole (hentered hent).stack] at hroom''
      rw [handlerStack_of_hasStack hhas] at hsize''
      rw [inputRoom, inputRoom, hsize'', hfinal]
      dsimp only
      omega
    · have hempty : g.stack.size = 0 := by
        rw [hasStack, hent, Bool.true_and, Bool.not_eq_true', Bool.not_eq_false] at hhas
        rw [Array.isEmpty_iff.1 hhas]
        rfl
      rw [handlerStack_of_not_hasStack hhas] at hsize''
      have hone := slotsRoom_le hg grown'' stack
      rw [hsize''] at hone
      have hflag : changed''.toNat ≤ 1 := by cases changed'' <;> decide
      rw [inputRoom_of_pos _ (by rw [hsize'']; exact Nat.one_pos), inputRoom, if_pos hempty, hfinal]
      simp only [List.size_toArray, List.length_singleton, Nat.one_mul] at hone
      dsimp only
      omega

/-- A merge lowers the room of the frame behind an edge, unless the stack has another height already. -/
theorem merge_lowered (className : String) (hg : h.Grounded) (hobject : h.superClass objectClass = none)
    (hc : TypeTable.Consistent h types) (hf : f.InputListed types count) (he : f.EffectListed types)
    (hentered : g.entered = true → g.InputListed types count) (hhandled : ∀ e ∈ handled, e.Listed types) :
    ∃ result g' grown, f.merge g handled className h types = (result, g', grown) ∧ TypeTable.Consistent h grown ∧
      types.Extends grown ∧ ∀ changed, result = some changed → Lowered h types count f g handled changed g' grown := by
  cases handled with
  | none => exact merge_none_lowered className hg hobject hc hf he hentered
  | some e =>
    obtain ⟨changed, g', grown, hmerged, hc', hext, hspec⟩ :=
      merge_some_lowered className hg hobject hc hf he hentered (hhandled e rfl)
    refine ⟨some changed, g', grown, hmerged, hc', hext, fun result hresult => ?_⟩
    obtain rfl := Option.some.inj hresult
    exact hspec

/-! ## What a frame can still change -/

/-- A table that grows changes nothing of this. -/
theorem potential_of_extends (hext : types.Extends grown) (hf : f.entered = true → f.InputListed types count) :
    f.potential h grown limit = f.potential h types limit := by
  unfold potential
  split
  · rename_i he
    rw [inputRoom, inputRoom, slotsRoom_of_extends hext (hf he).locals, slotsRoom_of_extends hext (hf he).stack]
  · rfl

/-- A frame that has been entered can change less than one that has not. -/
theorem InputListed.potential_le (hg : h.Grounded) (hf : f.InputListed types count) (hsize : f.stack.size ≤ height)
    (hpos : 1 ≤ height) (hlimit : limit = (count + height) * (h.size + 40)) : f.potential h types limit ≤ limit + 1 := by
  have hlocals := Frame.slotsRoom_le hg types f.locals
  have hstack := Frame.slotsRoom_le hg types f.stack
  rw [potential, if_pos hf.entered, inputRoom, hlimit, Nat.add_mul]
  rw [hf.size] at hlocals
  split
  · rename_i hzero
    rw [hzero, Nat.zero_mul] at hstack
    have hle : 1 * (h.size + 40) ≤ height * (h.size + 40) := Nat.mul_le_mul_right _ hpos
    omega
  · have hle : f.stack.size * (h.size + 40) ≤ height * (h.size + 40) := Nat.mul_le_mul_right _ hsize
    omega

/-- A merge that changes a frame leaves it less to change. -/
theorem Lowered.potential_le (hg : h.Grounded) (hl : Lowered h types count f g handled changed g' grown)
    (hsize : g.entered = false → g'.stack.size ≤ height) (hpos : 1 ≤ height)
    (hlimit : limit = (count + height) * (h.size + 40)) :
    g'.potential h grown limit + changed.toNat ≤ g.potential h types limit := by
  by_cases he : g.entered = true
  · have hroom := hl.room he
    rwa [potential, if_pos hl.input.entered, potential, if_pos he]
  · have hfresh : g.entered = false := by simpa using he
    have hle := hl.input.potential_le hg (hsize hfresh) hpos hlimit
    have hbefore : g.potential h types limit = limit + 2 := if_neg he
    rw [hl.changes hfresh]
    simp only [Bool.toNat_true]
    omega

end Room

end Frame

end ClassFile
