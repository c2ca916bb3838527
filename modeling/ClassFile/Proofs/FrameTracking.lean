import ClassFile.Proofs.FrameMoves
import ClassFile.Proofs.FlowStretches
import ClassFile.Proofs.FrameTaking

/-!
# Locals between the instructions of a block

Instructions that store nothing, each in a frame of its own, leave every local as it is when the block is entered, unless it
waits for a constructor and the block calls one on it (`Frame.Follows`). The frame of the block, which has followed the same
instructions, notes what the constructors are called on: wherever the stack holds what waits for a constructor, the frame of
the block says so. The block may be entered with what one of its instructions allocates again, so that frames that come to
the same by name are too much to ask for.
-/

namespace ClassFile

/-- Whether a shape is that of what waits for a constructor. -/
def Shape.waits : Shape → Bool
  | uninitializedThis | uninitialized _ => true
  | _ => false

namespace FrameType

/-- A type that a constructor changes. -/
def Awaits (t : FrameType) : Prop :=
  t = uninitializedThis ∨ ∃ i, t = uninitialized i

/-- What a constructor changes waits for one. -/
theorem Awaits.waits {t : FrameType} (ht : t.Awaits) : t.shape.waits = true := by
  rcases ht with rfl | ⟨i, rfl⟩ <;> rfl

/-- What waits for a constructor is settled. -/
theorem waits_of_settled {t : FrameType} (ht : t.settled.shape.waits = true) : t.settled = t := by
  unfold settled at ht ⊢
  split
  · rename_i hnull
    rw [if_pos hnull] at ht
    cases ht
  · rfl

/-- A type is kept in mind as another one, at least as long as this waits for a constructor. -/
def Shadows (t u : FrameType) : Prop :=
  u.shape.waits = true → t = u

/-- A slot of which nothing is known takes in any type as it settles. -/
theorem mergeInto_fresh (h : Hierarchy) (types : TypeTable) (t : FrameType) :
    ∃ changed, mergeInto h types unset t = (t.settled, changed, types) := by
  by_cases ht : t.shape = .unset
  · obtain ⟨d, s⟩ := t
    obtain rfl : s = .unset := ht
    by_cases hd : d = 0
    · subst hd
      exact ⟨false, rfl⟩
    · refine ⟨true, ?_⟩
      have hne : unset ≠ ⟨d, .unset⟩ := fun heq => hd (congrArg FrameType.dims heq).symm
      simp [mergeInto, hne, settled, isUnset]
  · exact ⟨true, mergeInto_unset h types ht⟩

end FrameType

namespace Frame

/-! ## The frame behind an instruction -/

/-- What a slot holds behind a frame that leaves a type in it. -/
def Leaves (f : Frame) (t u : FrameType) : Prop :=
  u.settled = u ∧ (u = t.settled ∨ u.shape.waits = false ∧ t.Awaits ∧ ∃ c ∈ f.constructed, f.resolve c = t)

/-- Joining into slots of which nothing is known, while the table stays what it is known to be. -/
theorem joinSlots_fresh (h : Hierarchy) {incoming : Nat → TypeTable → FrameType × TypeTable} {Fit : TypeTable → Prop}
    (Come : Nat → FrameType → TypeTable → Prop) (hcome : ∀ j u T later, Come j u T → T.Extends later → Come j u later)
    (count i : Nat) (slots : Array FrameType) (changed : Bool) (types : TypeTable) (hfit : Fit types)
    (hin : ∀ j, i ≤ j → j < i + count → ∀ grown : TypeTable, types.Extends grown → Fit grown →
      Fit (incoming j grown).2 ∧ grown.Extends (incoming j grown).2 ∧
      Come j (incoming j grown).1.settled (incoming j grown).2)
    (hsize : i + count ≤ slots.size) (hunset : ∀ j, i ≤ j → slots.getD j .unset = .unset) :
    let r := joinSlots h incoming count i slots changed types
    Fit r.2.2 ∧ types.Extends r.2.2 ∧ r.1.size = slots.size ∧ (changed = true → r.2.1 = true) ∧
      (∀ j < i, r.1[j]? = slots[j]?) ∧ ∀ j, i ≤ j → j < i + count → ∃ u, r.1[j]? = some u ∧ Come j u r.2.2 := by
  induction count generalizing i slots changed types with
  | zero => exact ⟨hfit, TypeTable.Extends.refl types, rfl, id, fun _ _ => rfl, fun j h₁ h₂ => by omega⟩
  | succ count ih =>
    obtain ⟨hfit', hg, hnew⟩ := hin i (Nat.le_refl _) (by omega) types (TypeTable.Extends.refl types) hfit
    obtain ⟨different, hmerge⟩ := FrameType.mergeInto_fresh h (incoming i types).2 (incoming i types).1
    rw [← hunset i (Nat.le_refl _)] at hmerge
    unfold joinSlots
    dsimp only
    rw [hmerge]
    dsimp only
    obtain ⟨rfit, rg, rsize, rchanged, rbefore, rafter⟩ := ih (i + 1)
      (slots.setIfInBounds i (incoming i types).1.settled) (changed || different) (incoming i types).2 hfit'
      (fun j h₁ h₂ grown hgrown => hin j (by omega) (by omega) grown (hg.trans hgrown))
      (by rw [Array.size_setIfInBounds]; omega)
      (fun j hj => by
        rw [Array.getD_eq_getD_getElem?, Array.getElem?_setIfInBounds, if_neg (by omega), ← Array.getD_eq_getD_getElem?]
        exact hunset j (by omega))
    refine ⟨rfit, hg.trans rg, ?_, fun hc => rchanged (by rw [hc, Bool.true_or]), ?_, ?_⟩
    · rw [rsize, Array.size_setIfInBounds]
    · intro j hj
      rw [rbefore j (by omega), Array.getElem?_setIfInBounds, if_neg (by omega)]
    · intro j h₁ h₂
      by_cases hji : j = i
      · subst hji
        have hset := rbefore j (Nat.lt_succ_self j)
        rw [Array.getElem?_setIfInBounds, if_pos rfl, if_pos (by omega)] at hset
        exact ⟨_, hset, hcome _ _ _ _ hnew rg⟩
      · exact rafter j (by omega) (by omega)

section Leave

variable {h : Hierarchy} {types : TypeTable} {f : Frame}

/-- What waits for a constructor is an object of a class once the constructor has been called, and all else stays. -/
theorem leaves_afterConstructor (f : Frame) (className : String) (hc : TypeTable.Consistent h types) (t : FrameType) :
    TypeTable.Consistent h (f.afterConstructor types className t).2 ∧
    types.Extends (f.afterConstructor types className t).2 ∧
      f.Leaves t (f.afterConstructor types className t).1.settled := by
  have hsame : f.Leaves t t.settled := ⟨FrameType.settled_settled t, Or.inl rfl⟩
  have hclass : ∀ name : String, t.Awaits →
      let r : FrameType × TypeTable := (if f.constructed.any fun c => f.resolve c == t then
        .object (types.addNormal name).1 else t, (types.addNormal name).2)
      TypeTable.Consistent h r.2 ∧ types.Extends r.2 ∧ f.Leaves t r.1.settled := by
    intro name ht
    refine ⟨hc.add _, (TypeTable.addNormal_spec hc.sound name).2.1, ?_⟩
    dsimp only
    split
    · rename_i hany
      obtain ⟨c, hmem, heq⟩ := Array.any_eq_true'.1 hany
      exact ⟨rfl, Or.inr ⟨rfl, ht, c, hmem, eq_of_beq heq⟩⟩
    · exact hsame
  unfold afterConstructor
  split
  · exact ⟨hc, TypeTable.Extends.refl types, hsame⟩
  · dsimp only
    split
    · exact hclass className (Or.inl rfl)
    · exact hclass _ (Or.inr ⟨_, rfl⟩)
    · exact ⟨hc, TypeTable.Extends.refl types, hsame⟩

/-- Slots of which nothing is known come to hold what a frame leaves in them. -/
theorem joinSlots_leaves (f : Frame) (className : String) (left : Nat → FrameType) (hc : TypeTable.Consistent h types)
    (count : Nat) :
    ∃ slots grown, joinSlots h (fun i types => f.afterConstructor types className (left i)) count 0
    (Array.replicate count .unset) true types =
      (slots, true, grown) ∧ TypeTable.Consistent h grown ∧ types.Extends grown ∧ slots.size = count ∧
      ∀ i < count, f.Leaves (left i) (slots.getD i .top) := by
  have hunset : ∀ j, 0 ≤ j → (Array.replicate count FrameType.unset).getD j .unset = .unset := by
    intro j _
    rw [Array.getD_eq_getD_getElem?, Array.getElem?_replicate]
    split <;> rfl
  obtain ⟨hc', hext, hsize, hchanged, -, hleaves⟩ :=
    joinSlots_fresh h (fun i u _ => f.Leaves (left i) u) (fun _ _ _ _ hu _ => hu) count 0
    (Array.replicate count .unset) true types hc
      (fun j _ _ grown _ hgrown => leaves_afterConstructor f className hgrown (left j)) (by simp) hunset
  have hchanged := hchanged rfl
  generalize joinSlots h (fun i types => f.afterConstructor types className (left i)) count 0
    (Array.replicate count .unset) true types = r at *
  obtain ⟨slots, changed, grown⟩ := r
  obtain rfl : changed = true := hchanged
  refine ⟨slots, grown, rfl, hc', hext, hsize.trans Array.size_replicate, fun i hi => ?_⟩
  obtain ⟨u, hu, hleft⟩ := hleaves i (Nat.zero_le i) (by omega)
  rw [Array.getD_eq_getD_getElem?]
  dsimp only at hu
  rwa [hu]

/-- The frame behind an instruction in a frame of its own. -/
theorem leave_spec (f : Frame) (className : String) (hc : TypeTable.Consistent h types) :
    ∃ locals stack grown, f.leave className h types = (entering locals stack, grown) ∧
      TypeTable.Consistent h grown ∧ types.Extends grown ∧
      locals.size = f.locals.size ∧ stack.size = f.heightAfter ∧
      (∀ i < f.locals.size, f.Leaves (f.leftLocal i) (locals.getD i .top)) ∧
      ∀ i < f.heightAfter, f.Leaves (f.leftStack i) (stack.getD i .top) := by
  obtain ⟨locals, grown, hlocals, hc', hext, hsize, hleft⟩ := joinSlots_leaves f className f.leftLocal hc f.locals.size
  obtain ⟨stack, later, hstack, hc'', hext', hheight, hpending⟩ := joinSlots_leaves f className f.leftStack hc' f.heightAfter
  refine ⟨locals, stack, later, ?_, hc'', hext.trans hext', hsize, hheight, hleft, hpending⟩
  change joinSlots h (fun i types => f.localAfter types className i) _ _ _ _ _ = _ at hlocals
  change joinSlots h (fun i types => f.stackAfter types className i) _ _ _ _ _ = _ at hstack
  simp [leave, merge, Frame.empty, hlocals, hstack, entering]

end Leave

/-! ## The stack by depth -/

section Depth

variable {f : Frame} {t : FrameType} {m : Move} {k n : Nat}

/-- What stands so far below the top: what the block has put there, or a slot of the input. -/
theorem below_eq (f : Frame) (k : Nat) : f.below k =
    if k < f.outStack.size then f.outStack.getD (f.outStack.size - 1 - k) .top
    else .stackSlot (f.consumed + (k - f.outStack.size) + 1) := by
  unfold below pop
  rw [drop_eq]
  dsimp only
  by_cases hlt : k < f.outStack.size
  · have hlast : (f.outStack.shrink (f.outStack.size - k)).back? =
      some (f.outStack.getD (f.outStack.size - 1 - k) .top) := by
      rw [Array.back?_eq_getElem?, Array.size_shrink, ← Array.getElem?_toList, Array.toList_shrink,
        List.getElem?_take, if_pos (by omega), Array.getElem?_toList,
        show min (f.outStack.size - k) f.outStack.size - 1 = f.outStack.size - 1 - k by omega,
        Array.getD_eq_getD_getElem?, Array.getElem?_eq_getElem (by omega), Option.getD_some]
    rw [hlast, if_pos hlt]
  · have hempty : (f.outStack.shrink (f.outStack.size - k)).back? = none := by
      rw [Array.back?_eq_none_iff, ← Array.size_eq_zero_iff, Array.size_shrink]
      omega
    rw [hempty, if_neg hlt]

/-- What is pushed stands on top. -/
theorem below_push_zero (f : Frame) (t : FrameType) : (f.push t).below 0 = t := by
  rw [below_eq]
  simp [push]

/-- What is pushed puts all else one deeper. -/
theorem below_push_succ (f : Frame) (t : FrameType) (k : Nat) : (f.push t).below (k + 1) = f.below k := by
  rw [below_eq, below_eq f k]
  simp only [push, Array.size_push, Nat.add_lt_add_iff_right]
  split
  · rw [Array.getD_eq_getD_getElem?, Array.getD_eq_getD_getElem?, Array.getElem?_push, if_neg (by omega)]
    congr 2
    omega
  · congr 2
    omega

/-- What has been put on the stack last stands on top of it. -/
theorem below_pushAll (f : Frame) (ts : List FrameType) (k : Nat) :
    (f.pushAll ts).below k = if k < ts.length then ts.reverse.getD k .top else f.below (k - ts.length) := by
  induction ts generalizing f with
  | nil => rfl
  | cons t rest ih =>
    rw [show f.pushAll (t :: rest) = (f.push t).pushAll rest from rfl, ih, List.length_cons, List.reverse_cons]
    by_cases hlt : k < rest.length
    · rw [if_pos hlt, if_pos (by omega), List.getD_eq_getElem?_getD, List.getD_eq_getElem?_getD,
        List.getElem?_append_left (by simpa using hlt)]
    · rw [if_neg hlt]
      by_cases heq : k = rest.length
      · subst heq
        simp [below_push_zero]
      · rw [if_neg (by omega), show k - rest.length = k - (rest.length + 1) + 1 by omega, below_push_succ]

/-- Types that are pushed stand behind what the block has put on the stack. -/
theorem pushAll_eq (f : Frame) (ts : List FrameType) :
    ∃ peak, f.pushAll ts = { f with outStack := f.outStack ++ ts.toArray, peak } := by
  induction ts generalizing f with
  | nil => exact ⟨f.peak, by simp [pushAll]⟩
  | cons t rest ih =>
    obtain ⟨peak, hrest⟩ := ih (f.push t)
    refine ⟨peak, ?_⟩
    rw [show f.pushAll (t :: rest) = (f.push t).pushAll rest from rfl, hrest]
    simp [push]

/-- What a move does to a frame. -/
theorem moved_eq (f : Frame) (m : Move) : ∃ peak, f.moved m = { f with
    outStack := f.outStack.shrink (f.outStack.size - m.pops) ++ (m.puts.map (Put.type f)).toArray
    consumed := f.consumed + (m.pops - f.outStack.size), peak
    constructed := match m.receiver with
      | some depth => f.constructed.push (f.below depth)
      | none => f.constructed } := by
  obtain ⟨peak, hpushed⟩ := pushAll_eq ((f.drop m.pops).noted (m.receiver.map f.below)) (m.puts.map (Put.type f))
  refine ⟨peak, ?_⟩
  rw [moved, hpushed, drop_eq]
  cases m.receiver <;> rfl

/-- Below the top stands what a move puts there, and then what it has left. -/
theorem below_moved (f : Frame) (m : Move) (k : Nat) : (f.moved m).below k =
    if k < m.puts.length then (m.puts.map (Put.type f)).reverse.getD k .top else f.below (m.pops + (k - m.puts.length)) := by
  have hnoted : ((f.drop m.pops).noted (m.receiver.map f.below)).below = (f.drop m.pops).below := by
    funext k
    rw [below_eq, below_eq]
    cases m.receiver <;> rfl
  rw [moved, below_pushAll, List.length_map, hnoted, below_drop]

/-- Frames with one input see the same in it. -/
theorem resolve_congr {f g : Frame} (hlocals : g.locals = f.locals) (hstack : g.stack = f.stack) (t : FrameType) :
    g.resolve t = f.resolve t := by
  unfold resolve
  rw [hlocals, hstack]

/-- A move leaves alone what types say of the input. -/
theorem resolve_moved (f : Frame) (m : Move) (t : FrameType) : (f.moved m).resolve t = f.resolve t := by
  obtain ⟨peak, hmoved⟩ := moved_eq f m
  rw [hmoved]
  exact resolve_congr rfl rfl t

/-- A move takes as many slots as there are, at the most. -/
theorem consumed_moved_le (hf : f.consumed ≤ f.stack.size) :
    (f.moved m).consumed ≤ f.stack.size ↔ m.pops ≤ f.heightAfter := by
  obtain ⟨peak, hmoved⟩ := moved_eq f m
  rw [hmoved, heightAfter, untouched]
  dsimp only
  omega

/-- A move lowers the stack by what it takes and raises it by what it puts. -/
theorem heightAfter_moved (hf : f.consumed ≤ f.stack.size) :
    (f.moved m).heightAfter = f.heightAfter - m.pops + m.puts.length := by
  obtain ⟨peak, hmoved⟩ := moved_eq f m
  rw [hmoved]
  simp only [heightAfter, untouched, Array.size_append, Array.size_shrink, List.size_toArray, List.length_map]
  omega

/-- A block leaves on its stack what stands there at last. -/
theorem leftStack_below (hf : f.consumed ≤ f.stack.size) (hsmall : f.stack.size < 2 ^ 23) (hk : k < f.heightAfter) :
    f.leftStack (f.heightAfter - 1 - k) = f.resolve (f.below k) := by
  rw [below_eq]
  unfold leftStack
  unfold heightAfter at hk ⊢
  unfold untouched at hk ⊢
  by_cases hlt : k < f.outStack.size
  · rw [if_pos hlt, if_neg (by omega)]
    congr 2
    omega
  · rw [if_neg hlt, if_pos (by omega), resolve_stackSlot (by omega) (by omega)]
    congr 1
    omega

/-- In a block that is just entered the slots below the top are those of the input. -/
theorem resolve_below_entering {locals stack : Array FrameType} (hsmall : stack.size < 2 ^ 23) (hk : k < stack.size) :
    (entering locals stack).resolve ((entering locals stack).below k) = stack.getD (stack.size - 1 - k) .top := by
  have hheight : (entering locals stack).heightAfter = stack.size := rfl
  rw [← leftStack_below (Nat.zero_le _) hsmall (hheight ▸ hk), hheight, leftStack]
  exact if_pos (show stack.size - 1 - k < stack.size by omega)

end Depth

/-! ## Instructions of a block, one by one -/

/-- The locals and the stack that single frames have come to from the input of a block, whose frame has followed the same
instructions: what waits for a constructor stands where the frame of the block says so, and a local is as it was unless its
constructor has been called. -/
structure Follows (f : Frame) (locals stack : Array FrameType) : Prop where
  consumed : f.consumed ≤ f.stack.size
  height : stack.size = f.heightAfter
  pending : ∀ k < stack.size, FrameType.Shadows (f.resolve (f.below k)) (stack.getD (stack.size - 1 - k) .top)
  getLocal : ∀ i < 2 ^ 16, FrameType.Shadows (f.resolve (f.getLocal i)) (locals.getD i .top)
  size : locals.size = f.locals.size
  settled : ∀ i, (locals.getD i .top).settled = locals.getD i .top
  kept : ∀ i, locals.getD i .top = f.locals.getD i .top ∨ (locals.getD i .top).shape.waits = false ∧
    (f.locals.getD i .top).Awaits ∧ ∃ c ∈ f.constructed, f.resolve c = f.locals.getD i .top

section Follows

variable {h : Hierarchy} {types : TypeTable} {f : Frame} {locals stack : Array FrameType} {m : Move}
  {t u v : FrameType} {className : String}

/-- What is kept in mind as a type that a slot is left with is kept in mind as what the slot holds. -/
theorem Leaves.shadows (hu : f.Leaves t u) (hv : FrameType.Shadows v t) : FrameType.Shadows v u := by
  intro hw
  rcases hu.2 with rfl | ⟨hnot, -⟩
  · have hsame := FrameType.waits_of_settled hw
    rw [hsame] at hw ⊢
    exact hv hw
  · rw [hnot] at hw
    cases hw

/-- Anything may be kept in mind as unusable. -/
theorem shadows_top (t : FrameType) : FrameType.Shadows t .top :=
  fun hw => (nomatch hw)

/-- A frame that has followed nothing. -/
theorem follows_entering (hsettled : ∀ t ∈ locals, t.settled = t) (hsmall : stack.size < 2 ^ 23) :
    (entering locals stack).Follows locals stack := by
  refine ⟨Nat.zero_le _, rfl, fun k hk _ => resolve_below_entering hsmall hk,
    fun i hi _ => resolve_localSlot (Nat.lt_trans hi (by decide)), rfl,
    fun i => ?_, fun i => Or.inl rfl⟩
  rw [Array.getD_eq_getD_getElem?]
  cases hi : locals[i]? with
  | none => rfl
  | some t => exact hsettled t (Array.mem_of_getElem? hi)

/-- What waits for a constructor in an array comes from such an array. -/
theorem resolve_elementOf (ht : (f.resolve t.elementOf).shape.waits = true ∨ (f.resolve t).shape.waits = true) :
    f.resolve t.elementOf = (f.resolve t).elementOf := by
  have hinput : ∀ (x : FrameType) (b : Bool),
      (if b && (x.withDimensionsOf t.elementOf).isWide then FrameType.top
      else x.withDimensionsOf t.elementOf).shape.waits = true ∨
        (if b && (x.withDimensionsOf t).isWide then FrameType.top else x.withDimensionsOf t).shape.waits = true →
      (if b && (x.withDimensionsOf t.elementOf).isWide then FrameType.top else x.withDimensionsOf t.elementOf) =
        (if b && (x.withDimensionsOf t).isWide then FrameType.top else x.withDimensionsOf t).elementOf := by
    intro x b hw
    have hshape : ∀ y : FrameType, (if b && (x.withDimensionsOf y).isWide then FrameType.top
      else x.withDimensionsOf y).shape.waits = true →
        x.shape.waits = true := by
      intro y hy
      split at hy
      · cases hy
      · exact hy
    have hx : x.shape.waits = true := hw.elim (hshape _) (hshape _)
    have hnarrow : ∀ d, FrameType.isWide ⟨d, x.shape⟩ = false := by
      intro d
      cases hs : x.shape <;> rw [hs] at hx <;>
        first | (cases hx; done) | simp [FrameType.isWide, FrameType.long, FrameType.double]
    have hnot : ∀ y : FrameType, (b && (x.withDimensionsOf y).isWide) = false := fun y => by
      rw [show (x.withDimensionsOf y).isWide = false from hnarrow _, Bool.and_false]
    rw [hnot, hnot]
    simp only [Bool.false_eq_true, if_false, FrameType.withDimensionsOf, FrameType.elementOf, FrameType.mk.injEq, and_true]
    bv_omega
  obtain ⟨d, s⟩ := t
  cases s with
  | localSlot n b => exact hinput _ b ht
  | stackSlot n b => exact hinput _ b ht
  | straySlot k n b => exact hinput _ b ht
  | _ => rfl

/-- What an instruction puts on the stack. -/
theorem Follows.put (hf : f.Follows locals stack) (hm : m.Valid) (hpops : m.pops ≤ stack.size) (hsmall : stack.size < 2 ^ 23)
    {p : Put} (hp : p ∈ m.puts) :
    FrameType.Shadows (f.resolve (p.type f)) ((entering locals stack).resolve (p.type (entering locals stack))) := by
  have hslot : ∀ k < m.pops, FrameType.Shadows (f.resolve (f.below k))
    ((entering locals stack).resolve ((entering locals stack).below k)) := by
    intro k hk
    rw [resolve_below_entering hsmall (Nat.lt_of_lt_of_le hk hpops)]
    exact hf.pending k (Nat.lt_of_lt_of_le hk hpops)
  cases p with
  | own t =>
    intro _
    exact (hm.own t hp f).trans (hm.own t hp _).symm
  | slot k => exact hslot k (hm.slot k hp)
  | element k =>
    intro hw
    have hw : ((entering locals stack).resolve ((entering locals stack).below k).elementOf).shape.waits = true := hw
    change f.resolve (f.below k).elementOf = (entering locals stack).resolve ((entering locals stack).below k).elementOf
    have hentering := resolve_elementOf (Or.inl hw)
    rw [hentering] at hw ⊢
    have hsame := hslot k (hm.element k hp) hw
    rw [← hsame]
    exact resolve_elementOf (Or.inr (hsame ▸ hw))
  | ofLocal i =>
    have hi := hm.ofLocal i hp
    have hgets : (entering locals stack).resolve ((entering locals stack).getLocal i) = locals.getD i .top :=
      resolve_localSlot (Nat.lt_trans hi (by decide))
    change FrameType.Shadows _ ((entering locals stack).resolve ((entering locals stack).getLocal i))
    rw [hgets]
    exact hf.getLocal i hi

/-- What a move puts on the stack or leaves there is kept in mind, slot by slot from the top. -/
theorem Follows.pending_moved (hf : f.Follows locals stack) (hm : m.Valid) (hpops : m.pops ≤ stack.size)
    (hsmall : stack.size < 2 ^ 23) {k : Nat} (hk : k < stack.size - m.pops + m.puts.length) :
    FrameType.Shadows (f.resolve ((f.moved m).below k))
      ((entering locals stack).resolve (((entering locals stack).moved m).below k)) := by
  rw [below_moved, below_moved]
  split
  · rename_i hput
    have hmem : ∀ g : Frame,
        (m.puts.map (Put.type g)).reverse.getD k .top = (m.puts.reverse.getD k (.own .top)).type g := by
      intro g
      rw [← List.map_reverse, List.getD_eq_getElem?_getD, List.getD_eq_getElem?_getD, List.getElem?_map,
        List.getElem?_eq_getElem (by simpa using hput)]
      rfl
    rw [hmem, hmem]
    refine hf.put hm hpops hsmall ?_
    rw [List.getD_eq_getElem?_getD, List.getElem?_eq_getElem (by simpa using hput), Option.getD_some]
    exact List.mem_reverse.1 (List.getElem_mem _)
  · have hdeep : m.pops + (k - m.puts.length) < stack.size := by omega
    rw [resolve_below_entering hsmall hdeep]
    exact hf.pending _ hdeep

/-- As long as a local waits for its constructor, it holds what the block was entered with. -/
theorem Follows.input_of_awaits (hf : f.Follows locals stack) {i : Nat} (hawaits : (locals.getD i .top).Awaits) :
    locals.getD i .top = f.locals.getD i .top := by
  refine (hf.kept i).resolve_right ?_
  rintro ⟨hnot, -⟩
  rw [hawaits.waits] at hnot
  cases hnot

/-- A constructor that a move calls in a frame of its own is called on the same object in the frame of the block. -/
theorem Follows.called_moved (hf : f.Follows locals stack) (hm : m.Valid) (hpops : m.pops ≤ stack.size)
    (hsmall : stack.size < 2 ^ 23) {c : FrameType} (hcalled : c ∈ ((entering locals stack).moved m).constructed)
    (hawaits : ((entering locals stack).resolve c).Awaits) :
    ∃ c' ∈ (f.moved m).constructed, (f.moved m).resolve c' = (entering locals stack).resolve c := by
  obtain ⟨peak, heq⟩ := moved_eq f m
  obtain ⟨peak', hentering⟩ := moved_eq (entering locals stack) m
  rw [hentering] at hcalled
  dsimp only at hcalled
  cases hreceiver : m.receiver with
  | none =>
    rw [hreceiver] at hcalled
    exact absurd hcalled (Array.not_mem_empty c)
  | some depth =>
    rw [hreceiver] at hcalled
    have hdepth : depth < stack.size := Nat.lt_of_lt_of_le (hm.receiver depth hreceiver) hpops
    obtain rfl : c = (entering locals stack).below depth := by simpa [entering] using hcalled
    rw [resolve_below_entering hsmall hdepth] at hawaits ⊢
    refine ⟨f.below depth, ?_, ?_⟩
    · rw [heq, hreceiver]
      exact Array.mem_push_self
    · rw [resolve_moved]
      exact hf.pending depth hdepth hawaits.waits

/-- What a move leaves in a local is what the block was entered with, or the object of a constructor that has been called. -/
theorem Follows.kept_moved (hf : f.Follows locals stack) (hm : m.Valid) (hpops : m.pops ≤ stack.size)
    (hsmall : stack.size < 2 ^ 23) {i : Nat}
    (hleft : ((entering locals stack).moved m).Leaves (locals.getD i .top) u) :
    u = f.locals.getD i .top ∨ u.shape.waits = false ∧ (f.locals.getD i .top).Awaits ∧
      ∃ c ∈ (f.moved m).constructed, (f.moved m).resolve c = f.locals.getD i .top := by
  rcases hleft.2 with hstays | ⟨hnot, hawaits, c, hcalled, hresolved⟩
  · rw [hstays, hf.settled]
    refine (hf.kept i).imp_right ?_
    rintro ⟨hnot, hawaits, c, hcalled, hresolved⟩
    obtain ⟨peak, heq⟩ := moved_eq f m
    refine ⟨hnot, hawaits, c, ?_, (resolve_moved f m c).trans hresolved⟩
    rw [heq]
    dsimp only
    split
    · exact Array.mem_push_of_mem _ hcalled
    · exact hcalled
  · rw [resolve_moved] at hresolved
    have hinput := hf.input_of_awaits hawaits
    obtain ⟨c', hc', hsame⟩ := hf.called_moved hm hpops hsmall hcalled (hresolved ▸ hawaits)
    exact Or.inr ⟨hnot, hinput ▸ hawaits, c', hc', hsame.trans (hresolved.trans hinput)⟩

/-- A move leaves each local of a frame of its own as it was, with the types of those that are not there unusable. -/
theorem leaves_moved (locals : Array FrameType) {locals' : Array FrameType}
    (hsize : locals'.size = ((entering locals stack).moved m).locals.size)
    (hleft : ∀ i < ((entering locals stack).moved m).locals.size,
      ((entering locals stack).moved m).Leaves (((entering locals stack).moved m).leftLocal i) (locals'.getD i .top))
    (i : Nat) :
    ((entering locals stack).moved m).Leaves (locals.getD i .top) (locals'.getD i .top) := by
  obtain ⟨peak, hentering⟩ := moved_eq (entering locals stack) m
  have hlocals : ((entering locals stack).moved m).locals = locals := by rw [hentering]; rfl
  rw [hlocals] at hsize hleft
  by_cases hlt : i < locals.size
  · have hgets : ((entering locals stack).moved m).leftLocal i = locals.getD i .top := by
      rw [hentering]
      rfl
    rw [← hgets]
    exact hleft i hlt
  · have hbeyond : ∀ slots : Array FrameType, slots.size = locals.size → slots.getD i .top = .top := by
      intro slots hslots
      rw [Array.getD_eq_getD_getElem?, Array.getElem?_eq_none (by omega)]
      rfl
    rw [hbeyond locals rfl, hbeyond locals' hsize]
    exact ⟨rfl, Or.inl rfl⟩

/-- A move in a frame of its own, and in the frame of the block. -/
theorem Follows.moved (hf : f.Follows locals stack) (hm : m.Valid) (hpops : m.pops ≤ stack.size)
    (hsmall : stack.size < 2 ^ 23) (className : String) (hc : TypeTable.Consistent h types) : ∃ locals' stack' grown,
      ((entering locals stack).moved m).leave className h types = (entering locals' stack', grown) ∧
        TypeTable.Consistent h grown ∧ types.Extends grown ∧ (f.moved m).Follows locals' stack' ∧
        stack'.size ≤ stack.size + 6 := by
  obtain ⟨locals', stack', grown, hleave, hc', hext, hsize, hheight, hlocals, hstack⟩ :=
    leave_spec ((entering locals stack).moved m) className hc
  obtain ⟨peak, heq⟩ := moved_eq f m
  obtain ⟨peak', hentering⟩ := moved_eq (entering locals stack) m
  have hafter : stack'.size = stack.size - m.pops + m.puts.length :=
    hheight.trans (heightAfter_moved (Nat.zero_le _))
  have hleft := leaves_moved locals hsize hlocals
  have hfixed : (f.moved m).locals = f.locals ∧ (f.moved m).stack = f.stack := by rw [heq]; exact ⟨rfl, rfl⟩
  refine ⟨locals', stack', grown, hleave, hc', hext,
    ⟨?_, ?_, fun k hk => ?_, fun i hi => ?_, ?_, fun i => ?_, fun i => ?_⟩, ?_⟩
  · rw [hfixed.2]
    exact (consumed_moved_le hf.consumed).2 (hf.height ▸ hpops)
  · rw [hafter, heightAfter_moved hf.consumed, hf.height]
  · have hfits : ((entering locals stack).moved m).consumed ≤ ((entering locals stack).moved m).stack.size := by
      have hstack : ((entering locals stack).moved m).stack = (entering locals stack).stack := by rw [hentering]
      rw [hstack]
      exact (consumed_moved_le (Nat.zero_le _)).2 hpops
    have hleaves := hstack (stack'.size - 1 - k) (by omega)
    rw [hheight] at hleaves ⊢
    rw [leftStack_below hfits (by rw [hentering]; exact hsmall) (hheight ▸ hk)] at hleaves
    refine hleaves.shadows ?_
    rw [resolve_moved, resolve_moved]
    exact hf.pending_moved hm hpops hsmall (hafter ▸ hk)
  · have hgets : (f.moved m).getLocal i = f.getLocal i := by rw [heq]; rfl
    rw [resolve_moved, hgets]
    exact (hleft i).shadows (hf.getLocal i hi)
  · rw [hsize, hfixed.1, hentering]
    exact hf.size
  · exact (hleft i).1
  · rw [hfixed.1]
    exact hf.kept_moved hm hpops hsmall (hleft i)
  · have := hm.few
    omega

/-- A local that is set is noted in the effect. -/
theorem outLocals_setLocal_self (f : Frame) (i : Nat) (t : FrameType) : (f.setLocal i t).outLocals[i]? = some t := by
  have hi : i < (extendTo f.outLocals (i + 1)).size := by
    simp [extendTo]
    omega
  change ((extendTo f.outLocals (i + 1)).setIfInBounds i t)[i]? = _
  rw [Array.getElem?_setIfInBounds, if_pos rfl, if_pos hi]

/-- Another local is as it was, or is now among those of which nothing is set. -/
theorem outLocals_setLocal_of_ne (f : Frame) {i j : Nat} (t : FrameType) (hij : i ≠ j) :
    (f.setLocal i t).outLocals[j]? = f.outLocals[j]? ∨ f.outLocals[j]? = none ∧
    (f.setLocal i t).outLocals[j]? = some .unset := by
  have hout : (f.setLocal i t).outLocals[j]? = (extendTo f.outLocals (i + 1))[j]? := by
    change ((extendTo f.outLocals (i + 1)).setIfInBounds i t)[j]? = _
    rw [Array.getElem?_setIfInBounds, if_neg hij]
  rw [hout, extendTo, Array.getElem?_append]
  by_cases hlt : j < f.outLocals.size
  · rw [if_pos hlt]
    exact Or.inl rfl
  · rw [if_neg hlt, Array.getElem?_eq_none (Nat.le_of_not_lt hlt), Array.getElem?_replicate]
    split
    · exact Or.inr ⟨rfl, rfl⟩
    · exact Or.inl rfl

/-- Setting a local is seen in that local and in no other. -/
theorem getLocal_setLocal (f : Frame) (i j : Nat) (ht : t.isUnset = false) :
    (f.setLocal i t).getLocal j = if i = j then t else f.getLocal j := by
  unfold Frame.getLocal
  by_cases hij : i = j
  · subst hij
    rw [outLocals_setLocal_self, if_pos rfl]
    simp [ht]
  · rw [if_neg hij]
    rcases outLocals_setLocal_of_ne f t hij with hsame | ⟨hnone, hunset⟩
    · rw [hsame]
    · rw [hnone, hunset]
      rfl

/-- A local that is set is left as what the type says of the input. -/
theorem leftLocal_setLocal (f : Frame) (i j : Nat) (ht : t.isUnset = false) :
    (f.setLocal i t).leftLocal j = if i = j then f.resolve t else f.leftLocal j := by
  unfold Frame.leftLocal
  by_cases hij : i = j
  · subst hij
    rw [outLocals_setLocal_self, if_pos rfl]
    simp only [ht, Bool.false_eq_true, if_false]
    exact resolve_congr rfl rfl t
  · rw [if_neg hij]
    rcases outLocals_setLocal_of_ne f t hij with hsame | ⟨hnone, hunset⟩
    · rw [hsame]
      rfl
    · rw [hnone, hunset]
      rfl

/-- An increment of an int in a frame of its own, and in the frame of the block. -/
theorem Follows.incremented (hf : f.Follows locals stack) {slot : Nat} (hslot : locals.getD slot .top = .integer)
    (hsmall : stack.size < 2 ^ 23) (className : String) (hc : TypeTable.Consistent h types) : ∃ locals' stack' grown,
      ((entering locals stack).increment slot).leave className h types = (entering locals' stack', grown) ∧
      TypeTable.Consistent h grown ∧
        types.Extends grown ∧ (f.increment slot).Follows locals' stack' ∧ stack'.size = stack.size := by
  obtain ⟨locals', stack', grown, hleave, hc', hext, hsize, hheight, hlocals, hstack⟩ :=
    leave_spec ((entering locals stack).increment slot) className hc
  have hsize : locals'.size = locals.size := hsize
  have hheight : stack'.size = stack.size := hheight
  have hnothing : ∀ t u, ((entering locals stack).increment slot).Leaves t u → u = t.settled := by
    rintro t u ⟨-, rfl | ⟨-, -, c, hcalled, -⟩⟩
    · rfl
    · exact absurd hcalled (Array.not_mem_empty c)
  -- the int that is incremented is an int again
  have hsame : ∀ i, locals'.getD i .top = locals.getD i .top := by
    intro i
    by_cases hlt : i < locals.size
    · have hleft : ((entering locals stack).increment slot).leftLocal i = locals.getD i .top := by
        rw [increment, leftLocal_setLocal _ _ _ rfl]
        by_cases hij : slot = i
        · subst hij
          rw [if_pos rfl, hslot]
          rfl
        · rw [if_neg hij]
          rfl
      rw [hnothing _ _ (hlocals i hlt), hleft, hf.settled]
    · rw [Array.getD_eq_getD_getElem?, Array.getD_eq_getD_getElem?, Array.getElem?_eq_none (by omega),
        Array.getElem?_eq_none (by omega)]
  have hbelow : ∀ (g : Frame) (k : Nat), (g.increment slot).below k = g.below k := by
    intro g k
    rw [below_eq, below_eq]
    rfl
  have hresolve : ∀ (g : Frame) (t : FrameType),
    (g.increment slot).resolve t = g.resolve t := fun g t => resolve_congr rfl rfl t
  refine ⟨locals', stack', grown, hleave, hc', hext, ⟨hf.consumed, hheight.trans hf.height, fun k hk => ?_, fun i hi => ?_,
    hsize.trans hf.size, fun i => ?_, fun i => ?_⟩, hheight⟩
  · rw [hheight] at hk
    have hleaves := hstack (stack.size - 1 - k) (show stack.size - 1 - k < stack.size by omega)
    have hleft := leftStack_below (f := (entering locals stack).increment slot) (Nat.zero_le _) hsmall hk
    rw [show ((entering locals stack).increment slot).heightAfter - 1 - k = stack.size - 1 - k from rfl, hbelow, hresolve,
      resolve_below_entering hsmall hk] at hleft
    rw [hleft] at hleaves
    rw [hbelow, hresolve, hheight]
    exact hleaves.shadows (hf.pending k hk)
  · rw [hsame, increment, getLocal_setLocal _ _ _ rfl]
    split
    · rename_i hij
      rw [← hij, hslot]
      exact fun hw => (nomatch hw)
    · rw [show (f.setLocal slot .integer).resolve = f.resolve from funext fun t => resolve_congr rfl rfl t]
      exact hf.getLocal i hi
  · rw [hsame]
    exact hf.settled i
  · rw [hsame]
    exact hf.kept i

end Follows

/-! ## A prefix of a block -/

/-- What an instruction finds in a frame of its own: enough slots on the stack, and an int where it counts. -/
structure Admissible (f : Frame) (types : TypeTable) (i : Operation) : Prop where
  operands : (f.execute types i).1.consumed ≤ f.stack.size
  counter : ∀ slot : UInt16, i = .increment slot → f.locals.getD slot.toNat .top = .integer

/-- Every instruction finds in a frame of its own what it takes. -/
def AdmissibleAll (f : Frame) (className : String) (h : Hierarchy) (types : TypeTable) : List Operation → Prop
  | [] => True
  | i :: rest =>
    f.Admissible types i ∧ (f.step className h types i).1.AdmissibleAll className h (f.step className h types i).2 rest

section Prefix

variable {h : Hierarchy} {types : TypeTable} {f : Frame} {className : String} {is : List Operation} {i : Operation}

/-- One more step comes behind the others. -/
theorem steps_concat (f : Frame) (className : String) (h : Hierarchy) (types : TypeTable) (reached : Nat)
    (is : List Operation) (i : Operation) :
    let r := f.steps className h types reached is
    let next := r.1.step className h r.2.1 i
    f.steps className h types reached (is ++ [i]) = (next.1, next.2, max r.2.2 (r.1.execute r.2.1 i).1.reach) := by
  induction is generalizing f types reached with
  | nil => rfl
  | cons first rest ih => exact ih _ _ _

/-- One more instruction is asked of the frame that the others leave. -/
theorem admissibleAll_concat (f : Frame) (className : String) (h : Hierarchy) (types : TypeTable) (reached : Nat)
    (is : List Operation) (i : Operation) : f.AdmissibleAll className h types (is ++ [i]) ↔
      f.AdmissibleAll className h types is ∧
        (f.steps className h types reached is).1.Admissible (f.steps className h types reached is).2.1 i := by
  induction is generalizing f types reached with
  | nil => simp [AdmissibleAll, steps]
  | cons first rest ih =>
    rw [List.cons_append, AdmissibleAll, AdmissibleAll, ih _ _ (max reached (f.execute types first).1.reach), and_assoc]
    rfl

/-- The frame with another input. -/
def on (f : Frame) (locals stack : Array FrameType) : Frame :=
  { f with locals, stack, entered := true }

/-- A move does the same whatever the input. -/
theorem moved_on (f : Frame) (locals stack : Array FrameType) (m : Move) :
    (f.on locals stack).moved m = (f.moved m).on locals stack := by
  have hbelow : (f.on locals stack).below = f.below := by
    funext k
    rw [below_eq, below_eq]
    rfl
  have htypes : m.puts.map (Put.type (f.on locals stack)) = m.puts.map (Put.type f) := by
    refine List.map_congr_left fun p _ => ?_
    cases p with
    | own t => rfl
    | slot k => exact congrFun hbelow k
    | element k => exact congrArg FrameType.elementOf (congrFun hbelow k)
    | ofLocal i => rfl
  have hpush : ∀ (ts : List FrameType) (g : Frame), (g.on locals stack).pushAll ts = (g.pushAll ts).on locals stack := by
    intro ts
    induction ts with
    | nil => exact fun _ => rfl
    | cons t rest ih => exact fun g => ih (g.push t)
  have hdrop : ((f.on locals stack).drop m.pops).noted (m.receiver.map f.below) =
      ((f.drop m.pops).noted (m.receiver.map f.below)).on locals stack := by
    rw [drop_eq, drop_eq]
    cases m.receiver <;> rfl
  unfold moved
  rw [htypes, hbelow, hdrop, hpush]

/-- What single frames come to along instructions that store nothing is what the frame of the block, which has followed them
before its input was known, says of it. -/
theorem Traced.follows (ht : f.Traced h types is) {known : TypeTable} (hknown : TypeTable.Consistent h known)
    (hext : types.Extends known)
    {locals stack : Array FrameType} (hsettled : ∀ t ∈ locals, t.settled = t) (hsmall : stack.size + 6 * is.length < 2 ^ 23)
    (hkeeps : ∀ i ∈ is, i.stores = false) (hadm : (entering locals stack).AdmissibleAll className h known is)
    (reached : Nat) :
    ∃ locals' stack' grown reached', (entering locals stack).steps className h known reached is =
      (entering locals' stack', grown, reached') ∧
      TypeTable.Consistent h grown ∧ known.Extends grown ∧ (f.on locals stack).Follows locals' stack' ∧
      stack'.size ≤ stack.size + 6 * is.length := by
  induction ht with
  | nil hc =>
    exact ⟨locals, stack, known, reached, rfl, hknown, TypeTable.Extends.refl known,
      follows_entering hsettled (by omega), Nat.le_refl _⟩
  | grow _ hgrown hc ih => exact ih (hgrown.trans hext) hsmall hkeeps hadm
  | @step types is f ht i ih =>
    obtain ⟨hc, hunentered⟩ := ht.unentered
    have hgrown := (hunentered.execute hc i).grown
    rw [List.length_append, List.length_singleton] at hsmall ⊢
    obtain ⟨hbefore, hlast⟩ := (admissibleAll_concat _ className h known reached is i).1 hadm
    obtain ⟨locals', stack', grown, reached', hsteps, hc', hext', hfollows, hheight⟩ :=
      ih (hgrown.trans hext) (by omega) (fun i hi => hkeeps i (List.mem_append_left _ hi)) hbefore
    rw [steps_concat, hsteps]
    rw [hsteps] at hlast
    dsimp only at hlast ⊢
    have hsmall' : stack'.size < 2 ^ 23 := by omega
    by_cases hcounter : ∃ slot, i = .increment slot
    · obtain ⟨slot, rfl⟩ := hcounter
      obtain ⟨locals'', stack'', grown', hleave, hc'', hext'', hnext, hsame⟩ :=
        hfollows.incremented (hlast.counter slot rfl) hsmall' className hc'
      have hstep : (entering locals' stack').step className h grown (.increment slot) =
        (entering locals'' stack'', grown') := hleave
      rw [hstep]
      exact ⟨locals'', stack'', grown', _, rfl, hc'', hext'.trans hext'', hnext, by omega⟩
    · obtain ⟨m, hm, table, e, hnow, hlater⟩ := exists_move hc.sound (hkeeps i (by simp)) fun slot hi => hcounter ⟨slot, hi⟩
      have hnow : f.execute types i = (f.moved m, table, e) := hnow f
      rw [hnow] at hext
      have hexecuted : (entering locals' stack').execute grown i = ((entering locals' stack').moved m, grown, e) :=
        hlater grown hc'.sound (hext.trans hext') _
      have hpops : m.pops ≤ stack'.size := by
        have hoperands := hlast.operands
        rw [hexecuted] at hoperands
        exact (consumed_moved_le (Nat.zero_le _)).1 hoperands
      obtain ⟨locals'', stack'', grown', hleave, hc'', hext'', hnext, hhigher⟩ :=
        hfollows.moved hm hpops hsmall' className hc'
      have hstep : (entering locals' stack').step className h grown i = (entering locals'' stack'', grown') := by
        unfold Frame.step
        rw [hexecuted]
        exact hleave
      rw [hstep]
      rw [moved_on] at hnext
      rw [hnow]
      exact ⟨locals'', stack'', grown', _, rfl, hc'', hext'.trans hext'', hnext, by omega⟩

/-- Pushing types leaves the input alone. -/
theorem sameInput_pushAll (f : Frame) (ts : List FrameType) : SameInput f (f.pushAll ts) := by
  obtain ⟨peak, hpushed⟩ := pushAll_eq f ts
  rw [hpushed]
  exact ⟨rfl, rfl, rfl⟩

/-- Storing leaves the input alone. -/
theorem sameInput_store (f : Frame) (i : Nat) (t : FrameType) (wide : Bool) : SameInput f (f.store i t wide) := by
  have hset : SameInput f (if wide then (f.setLocal i t).setLocal (i + 1) .top else f.setLocal i t) := by
    cases wide
    · exact sameInput_setLocal f i t
    · exact (sameInput_setLocal f i t).trans (sameInput_setLocal _ (i + 1) .top)
  rw [store_eq]
  dsimp only
  split
  · exact hset
  · exact hset.trans (sameInput_spoil _ _)

theorem sameInput_moveLocal (f : Frame) (op : UInt8) (i : Nat) : SameInput f (f.moveLocal op i) := by
  rcases moveLocal_cases op with ⟨ts, -, heq⟩ | heq | heq | heq | heq
  all_goals rw [heq]
  · exact sameInput_pushAll f ts
  · exact sameInput_push f _
  · exact (sameInput_pop f).trans (sameInput_store _ _ _ _)
  · exact ((sameInput_drop f 1).trans (sameInput_pop _)).trans (sameInput_store _ _ _ _)
  · exact sameInput_refl f

/-- No instruction forgets what constructors have been called on. -/
theorem mem_constructed_execute (hs : types.Sound) (i : Operation) {t : FrameType} (ht : t ∈ f.constructed) :
    t ∈ (f.execute types i).1.constructed := by
  by_cases hstores : i.stores = true
  · cases i with
    | moveLocal op slot =>
      have hsame : (f.moveLocal op slot.toNat).constructed = f.constructed :=
        (sameInput_moveLocal f op slot.toNat).constructed
      exact hsame.symm ▸ ht
    | _ => cases hstores
  · by_cases hcounter : ∃ slot, i = .increment slot
    · obtain ⟨slot, rfl⟩ := hcounter
      exact ht
    · obtain ⟨m, -, table, e, hnow, -⟩ := exists_move hs (Bool.eq_false_of_not_eq_true hstores) fun slot hi =>
        hcounter ⟨slot, hi⟩
      obtain ⟨peak, hmoved⟩ := moved_eq f m
      rw [show f.execute types i = (f.moved m, table, e) from hnow f, hmoved]
      dsimp only
      split
      · exact Array.mem_push_of_mem _ ht
      · exact ht

/-- A frame has followed the first instructions of a block before the others. -/
theorem Traced.before (ht : f.Traced h types is) {before after : List Operation} (his : is = before ++ after) :
    ∃ (g : Frame) (table : TypeTable), g.Traced h table before ∧ table.Extends types ∧
      ∀ c ∈ g.constructed, c ∈ f.constructed := by
  induction ht generalizing after with
  | @nil types hc =>
    obtain ⟨rfl, rfl⟩ := List.append_eq_nil_iff.1 his.symm
    exact ⟨_, types, .nil hc, TypeTable.Extends.refl types, fun _ hc => hc⟩
  | @step types is f ht i ih =>
    obtain ⟨hc, hunentered⟩ := ht.unentered
    rcases List.eq_nil_or_concat' after with rfl | ⟨rest, last, rfl⟩
    · rw [List.append_nil] at his
      subst his
      exact ⟨_, _, .step ht i, TypeTable.Extends.refl _, fun _ hc => hc⟩
    · rw [← List.append_assoc] at his
      obtain ⟨g, table, hg, hext, hcalled⟩ := ih (List.append_inj_left' his rfl)
      exact ⟨g, table, hg, hext.trans (hunentered.execute hc i).grown,
        fun c hmem => mem_constructed_execute hc.sound i (hcalled c hmem)⟩
  | grow _ hgrown _ ih =>
    obtain ⟨g, table, hg, hext, hcalled⟩ := ih his
    exact ⟨g, table, hg, hext.trans hgrown, hcalled⟩

/-- Setting a local leaves the stack alone. -/
theorem outStack_setLocal (f : Frame) (i : Nat) (t : FrameType) : (f.setLocal i t).outStack = f.outStack := rfl

/-- Storing leaves the stack as it is when the value was taken. -/
theorem outStack_store (f : Frame) (i : Nat) (t : FrameType) (wide : Bool) : (f.store i t wide).outStack = f.outStack := by
  have hspoil : ∀ (g : Frame) (j : Nat), (g.spoil j).outStack = g.outStack := by
    intro g j
    unfold spoil
    split
    · rfl
    · split <;> rfl
  have hset : (if wide then (f.setLocal i t).setLocal (i + 1) .top else f.setLocal i t).outStack = f.outStack := by
    cases wide
    · exact outStack_setLocal f i t
    · exact (outStack_setLocal _ (i + 1) .top).trans (outStack_setLocal f i t)
  rw [store_eq]
  dsimp only
  split
  · exact hset
  · rw [hspoil, hset]

/-- A store puts nothing on the stack. -/
theorem size_moveLocal_le {op : UInt8} (hop : Opcode.istore ≤ op) (f : Frame) (i : Nat) :
    (f.moveLocal op i).outStack.size ≤ f.outStack.size := by
  have hne : ∀ load : UInt8, load < Opcode.istore → ¬(op == load) = true := fun load hlt heq => by
    rw [beq_iff_eq.1 heq] at hop
    exact absurd hlt (UInt8.not_lt.2 hop)
  have hdrop : ∀ (g : Frame) n, (g.drop n).outStack.size ≤ g.outStack.size := by
    intro g n
    rw [drop_eq, Array.size_shrink]
    omega
  unfold Frame.moveLocal
  rw [if_neg (hne Opcode.iload (by decide)), if_neg (hne Opcode.fload (by decide)), if_neg (hne Opcode.lload (by decide)),
    if_neg (hne Opcode.dload (by decide)), if_neg (hne Opcode.aload (by decide))]
  dsimp only
  split
  · rw [outStack_store, pop_snd]
    exact hdrop f 1
  · split
    · rw [outStack_store, pop_snd, drop_drop]
      exact hdrop f 2
    · exact Nat.le_refl _

/-- No instruction puts more than six slots on the stack. -/
theorem size_execute_le (hs : types.Sound) (i : Operation) : (f.execute types i).1.outStack.size ≤ f.outStack.size + 6 := by
  by_cases hstores : i.stores = true
  · cases i with
    | moveLocal op slot =>
      exact Nat.le_trans (size_moveLocal_le (of_decide_eq_true hstores) f slot.toNat) (Nat.le_add_right _ _)
    | _ => cases hstores
  · by_cases hcounter : ∃ slot, i = .increment slot
    · obtain ⟨slot, rfl⟩ := hcounter
      exact Nat.le_add_right _ _
    · obtain ⟨m, hm, table, e, hnow, -⟩ := exists_move hs (Bool.eq_false_of_not_eq_true hstores) fun slot hi =>
        hcounter ⟨slot, hi⟩
      obtain ⟨peak, hmoved⟩ := moved_eq f m
      rw [show f.execute types i = (f.moved m, table, e) from hnow f, hmoved]
      simp only [Array.size_append, Array.size_shrink, List.size_toArray, List.length_map]
      have := hm.few
      omega

/-- An instruction puts six slots on the stack at most. -/
theorem Traced.size_le (ht : f.Traced h types is) : f.outStack.size ≤ 6 * is.length := by
  induction ht with
  | nil => exact Nat.le_refl _
  | @step types is f ht i ih =>
    have hexecuted := size_execute_le (f := f) ht.unentered.1.sound i
    rw [List.length_append, List.length_singleton]
    omega
  | grow _ _ _ ih => exact ih

end Prefix

end Frame

end ClassFile
