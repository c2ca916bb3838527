import ClassFile.Proofs.FrameInstructions
import ClassFile.Proofs.TypeWords
import Mathlib.Data.List.Nodup

/-!
# A block as the composition of its instructions

All instructions in one frame come to the same as each in a frame of its own. Every instruction keeps two frames in
agreement, and a frame agrees with the one behind it. The one frame knows no types when it meets the instructions, so it must
not hold an object that one of them allocates again: the constructors that it has noted would run on the new object too.
-/

namespace ClassFile

namespace Frame

/-! ## Runs -/

/-- Running on does not lower the height that was reached. -/
theorem le_steps_reached (f : Frame) (className : String) (h : Hierarchy) (types : TypeTable) (reached : Nat)
    (is : List Operation) : reached ≤ (f.steps className h types reached is).2.2 := by
  induction is generalizing f types reached with
  | nil => exact Nat.le_refl _
  | cons i rest ih => exact Nat.le_trans (Nat.le_max_left _ _) (ih _ _ _)

/-- A run in one frame agrees with the steps in frames of their own, if it agrees with the first of those. -/
theorem Agree.run {className : String} (h : Hierarchy) {f : Frame} {types : TypeTable} {locals stack : Array FrameType}
    {types' : TypeTable} {reached : Nat} {is : List Operation}
    (hagree : Agree className reached (is.filterMap Operation.allocates) f types (entering locals stack) types')
    (hl : ∀ t ∈ locals, t.Concrete types') (hst : ∀ t ∈ stack, t.Concrete types')
    (hreached : stack.size ≤ reached) (hnodup : (is.filterMap Operation.allocates).Nodup)
    (hsup : (entering locals stack).Supplies className h types' is)
    (hwide : (entering locals stack).AvoidsWideArrays className h types' is)
    (hsmall : ((entering locals stack).steps className h types' reached is).2.2 < 2 ^ 23) :
    ∃ locals' stack' grown reached', (entering locals stack).steps className h types' reached is =
        (entering locals' stack', grown, reached') ∧
      Agree className reached' [] (f.run types is).1 (f.run types is).2 (entering locals' stack') grown ∧
      (∀ t ∈ locals', t.Concrete grown) ∧ (∀ t ∈ stack', t.Concrete grown) ∧ stack'.size ≤ reached' := by
  induction is generalizing f types locals stack types' reached with
  | nil => exact ⟨locals, stack, types', reached, rfl, hagree, hl, hst, hreached⟩
  | cons i rest ih =>
    obtain ⟨hsuits, hsup⟩ := hsup
    obtain ⟨hnarrow, hwide⟩ := hwide
    have hlater : (i :: rest).filterMap Operation.allocates =
        i.allocates.toList ++ rest.filterMap Operation.allocates := by
      cases hi : i.allocates <;> simp [hi]
    rw [hlater, List.nodup_append] at hnodup
    have hfresh : ∀ e ∈ i.allocates, e ∉ rest.filterMap Operation.allocates := fun e he hmem =>
      hnodup.2.2 e (by simp [Option.mem_def.1 he]) e hmem rfl
    have hload : i.loadsElement = true →
        ((entering locals stack).value types' className ((entering locals stack).drop 1).pop.1).Loadable := by
      intro hi
      refine loadable_arrayOperand hagree.right hagree.smallRight hst ?_ (hsuits.array hi) (hnarrow hi)
      cases i with
      | bare op =>
        have hop := hsuits.operands
        simp only [Operation.loadsElement, beq_iff_eq] at hi
        simp only [Frame.execute, Frame.bare, hi] at hop
        exact hop
      | _ => cases hi
    have hexecuted := hagree.execute hlater rfl hfresh hsuits.operands hsuits.locals hload
    obtain ⟨nlocals, nstack, grown, hmerge, hs, hg, hlc, hsc, hlnamed, hsnamed⟩ := hexecuted.right.leave className h
    have hstep : (entering locals stack).step className h types' i = (entering nlocals nstack, grown) := by
      unfold Frame.step Frame.leave
      dsimp only
      rw [hmerge]
    have hsteps : (entering locals stack).steps className h types' reached (i :: rest) =
        (entering nlocals nstack).steps className h grown
          (max reached ((entering locals stack).execute types' i).1.reach) rest := by
      rw [Frame.steps, hstep]
    rw [hstep] at hsup hwide
    rw [hsteps] at hsmall ⊢
    have hbound := le_steps_reached (entering nlocals nstack) className h grown
      (max reached ((entering locals stack).execute types' i).1.reach) rest
    have hheight := hexecuted.right.size_le_reach hsnamed
    obtain ⟨hnext, hnextsize⟩ := hexecuted.leave hs hlc hsc hlnamed hsnamed
      (Nat.lt_of_le_of_lt (Nat.le_trans (Nat.le_trans hheight (Nat.le_max_right _ _)) hbound) hsmall)
    exact ih hnext hlc hsc hnextsize hnodup.2.1 hsup hwide hsmall

/-- The place of an allocation. -/
def allocatedAt : TypeEntry → Nat
  | .normal _ => 0
  | .uninitialized _ offset => offset

/-- Allocations at different places are different. -/
theorem nodup_allocates {is : List Operation} (h : (is.filterMap Operation.allocationOffset).Nodup) :
    (is.filterMap Operation.allocates).Nodup := by
  refine List.Nodup.of_map allocatedAt ?_
  have hoffset : ∀ i : Operation, i.allocates.map allocatedAt = i.allocationOffset := by
    intro i
    cases i with
    | typed op name offset =>
      simp only [Operation.allocates, Operation.allocationOffset]
      split <;> rfl
    | _ => rfl
  rw [List.map_filterMap]
  simpa only [hoffset] using h

/-- The locals of a frame that nothing has been done in are what a frame that agrees with it comes to. -/
theorem named_of_agree_locals {className : String} {reached : Nat} {later : List TypeEntry} {f : Frame}
    {types types' : TypeTable} {locals stack : Array FrameType}
    (h : Agree className reached later f types (entering locals stack) types') (hl : ∀ t ∈ locals, t.Concrete types') :
    locals.toList.map (FrameType.named types') =
      (List.range f.locals.size).map fun i => f.value types className (f.current i) := by
  have hsize : locals.size = f.locals.size := h.size
  apply List.ext_getElem?
  intro i
  by_cases hi : i < f.locals.size
  · have hil : i < locals.size := hsize ▸ hi
    rw [List.getElem?_map, List.getElem?_map, List.getElem?_range hi, Array.getElem?_toList,
      Array.getElem?_eq_getElem hil, Option.map_some, Option.map_some, h.locals i hi, current_entering,
      Array.getD_eq_getD_getElem?, Array.getElem?_eq_getElem hil, Option.getD_some,
      value_entering (hl _ (Array.getElem_mem hil))]
  · rw [List.getElem?_eq_none (by simp; omega), List.getElem?_eq_none (by simp; omega)]

/-- The type table has room for its numbers when all instructions have been followed in one frame, and when each has been
followed in a frame of its own. -/
def LeavesRoom (className : String) (h : Hierarchy) (types : TypeTable) (locals stack : Array FrameType)
    (is : List Operation) : Prop :=
  let single := (entering locals stack).run types is
  (single.1.merge Frame.empty none className h single.2).2.2.Roomy ∧
    ((entering locals stack).steps className h types stack.size is).2.1.Roomy

instance (className : String) (h : Hierarchy) (types : TypeTable) (locals stack : Array FrameType) (is : List Operation) :
    Decidable (LeavesRoom className h types locals stack is) :=
  inferInstanceAs (Decidable (_ ∧ _))

/-- The words of all types behind a block say which types they are, in either way. -/
def EndsTold (className : String) (h : Hierarchy) (types : TypeTable) (locals stack : Array FrameType)
    (is : List Operation) : Prop :=
  let single := (entering locals stack).run types is
  (single.1.merge Frame.empty none className h single.2).2.1.Told ∧
    ((entering locals stack).steps className h types stack.size is).1.Told

/-- A block's effect is the composition of its instructions, of types that their words tell apart, as long as no
instruction loads an element of an array of longs or doubles, the stack stays lower than the numbers of slots reach, and
the type table has room for its numbers. -/
theorem composes_of_admits (className : String) (h : Hierarchy) (types : TypeTable) (locals stack : Array FrameType)
    (is : List Operation) (hadmits : Admits className h types locals stack is)
    (hwide : (entering locals stack).AvoidsWideArrays className h types is)
    (hsmall : ((entering locals stack).steps className h types stack.size is).2.2 < 2 ^ 23)
    (hroom : LeavesRoom className h types locals stack is) :
    Composes className h types locals stack is ∧ EndsTold className h types locals stack is := by
  obtain ⟨hs, hl, hst, hnew, hfresh, hsup⟩ := hadmits
  have hsize : stack.size < 2 ^ 23 := Nat.lt_of_le_of_lt (le_steps_reached _ className h types _ is) hsmall
  have hleft : (entering locals stack).WellFormed types (is.filterMap Operation.allocates) :=
    wellFormed_entering hs (fun t ht => (hl t ht).known (hfresh t (Or.inl ht)))
      (fun t ht => (hst t ht).known (hfresh t (Or.inr ht)))
  have hright : (entering locals stack).WellFormed types [] := hleft.mono hs (TypeTable.Extends.refl types) (by simp)
  have hagree : Agree className stack.size (is.filterMap Operation.allocates) (entering locals stack) types
      (entering locals stack) types := by
    refine ⟨hleft, hright, hsize, hsize, rfl, fun _ _ => rfl, rfl, ?_⟩
    change stack.size + 0 = max stack.size (stack.size + 0)
    omega
  obtain ⟨locals', stack', grown, reached', hsteps, hend, hlc, hsc, hreached⟩ :=
    hagree.run h hl hst (Nat.le_refl _) (nodup_allocates hnew) hsup hwide hsmall
  obtain ⟨nlocals, nstack, ngrown, hmerge, -, -, hnlc, hnsc, hlnamed, hsnamed⟩ := hend.left.leave className h
  unfold LeavesRoom at hroom
  unfold Composes EndsTold
  dsimp only at hroom ⊢
  rw [hsteps, hmerge] at hroom ⊢
  refine ⟨⟨rfl, ?_, ?_, ?_⟩, ?_, ?_⟩
  · change nlocals.map (FrameType.named ngrown) = locals'.map (FrameType.named grown)
    rw [← Array.toList_inj, Array.toList_map, Array.toList_map, hlnamed]
    exact (named_of_agree_locals hend hlc).symm
  · change nstack.map (FrameType.named ngrown) = stack'.map (FrameType.named grown)
    rw [← Array.toList_inj, Array.toList_map, Array.toList_map, hsnamed, hend.stack, pending_entering, List.map_reverse,
      List.reverse_reverse]
    exact List.map_congr_left fun t ht => value_entering (hsc t (Array.mem_toList_iff.1 ht))
  · rw [hend.reach]
    change max reached' (stack'.size + 0) = reached'
    omega
  · rintro t (ht | ht)
    · exact (hnlc t ht).told hroom.1
    · exact (hnsc t ht).told hroom.1
  · rintro t (ht | ht)
    · exact (hlc t ht).told hroom.2
    · exact (hsc t ht).told hroom.2

/-- What an input without classes has to have, with no class in the type table. -/
theorem admits_empty {className : String} {h : Hierarchy} {locals stack : Array FrameType} {is : List Operation}
    (hshapes : ∀ t, t ∈ locals ∨ t ∈ stack → t.shape = .top ∨ t.shape = .integer ∨ t.shape = .long)
    (hoffsets : (is.filterMap Operation.allocationOffset).Nodup)
    (hsup : (entering locals stack).Supplies className h .empty is) :
    Admits className h .empty locals stack is := by
  have hconcrete : ∀ t, t ∈ locals ∨ t ∈ stack → t.Concrete .empty := by
    intro t ht
    obtain ⟨d, s⟩ := t
    rcases hshapes _ ht with rfl | rfl | rfl <;> exact ⟨trivial, rfl, fun e => nomatch e⟩
  refine ⟨TypeTable.sound_empty, fun t ht => hconcrete t (Or.inl ht), fun t ht => hconcrete t (Or.inr ht),
    hoffsets, ?_, hsup⟩
  intro t _ i _ e he
  exact absurd he (by simp [TypeTable.get?, TypeTable.empty])

/-- A block that loads an element of an array of arrays, and overwrites the second half of a long. -/
def sampleBlock : List Operation :=
  [.moveLocal Opcode.aload 0, .bare 3, .bare 50, .moveLocal Opcode.astore 2, .bare 9, .moveLocal Opcode.lstore 0, .bare 3,
    .moveLocal Opcode.istore 1, .moveLocal Opcode.aload 2, .bare 89]

/-- The block comes to the same in one frame and in steps. -/
theorem composes_sampleBlock :
    Admits "a/A" {} .empty #[⟨2, .integer⟩, .integer, .top] #[] sampleBlock ∧
      (entering #[⟨2, .integer⟩, .integer, .top] #[]).AvoidsWideArrays "a/A" {} .empty sampleBlock ∧
      ((entering #[⟨2, .integer⟩, .integer, .top] #[]).steps "a/A" {} .empty 0 sampleBlock).2.2 < 2 ^ 23 ∧
      LeavesRoom "a/A" {} .empty #[⟨2, .integer⟩, .integer, .top] #[] sampleBlock ∧
      Composes "a/A" {} .empty #[⟨2, .integer⟩, .integer, .top] #[] sampleBlock ∧
      EndsTold "a/A" {} .empty #[⟨2, .integer⟩, .integer, .top] #[] sampleBlock := by
  -- one evaluation, since the table of effects is worked out anew in each
  have ⟨hsup, hwide, hsmall, hroom⟩ :
      (entering #[⟨2, .integer⟩, .integer, .top] #[]).Supplies "a/A" {} .empty sampleBlock ∧
        (entering #[⟨2, .integer⟩, .integer, .top] #[]).AvoidsWideArrays "a/A" {} .empty sampleBlock ∧
        ((entering #[⟨2, .integer⟩, .integer, .top] #[]).steps "a/A" {} .empty 0 sampleBlock).2.2 < 2 ^ 23 ∧
        LeavesRoom "a/A" {} .empty #[⟨2, .integer⟩, .integer, .top] #[] sampleBlock := by
    decide +kernel
  have hadmits : Admits "a/A" {} .empty #[⟨2, .integer⟩, .integer, .top] #[] sampleBlock :=
    admits_empty (by simp [FrameType.integer, FrameType.top]) (by decide) hsup
  refine ⟨hadmits, hwide, hsmall, hroom, composes_of_admits "a/A" {} .empty _ #[] sampleBlock hadmits hwide ?_ hroom⟩
  rwa [List.size_toArray, List.length_nil]

/-- A block that overwrites the second half of a long, and then loads an element of an array of longs
from the local below. -/
def wideElementBlock : List Operation :=
  [.bare 3, .moveLocal Opcode.istore 1, .moveLocal Opcode.aload 0, .bare 3, .bare 50]

/-- A frame with an unusable local and a stack of ints. -/
def piled (height : Nat) : Frame :=
  entering #[.top] (Array.replicate height .integer)

/-- A block that takes ints off the stack and stores the last of them. -/
def unpilingBlock (height : Nat) : List Operation :=
  List.replicate height (.bare 87) ++ [.moveLocal Opcode.astore 0]

/-- Joining one type into slots of which nothing is known. -/
theorem joinSlots_same {h : Hierarchy} (incoming : Nat → TypeTable → FrameType × TypeTable) {t : FrameType}
    {types : TypeTable} (count i : Nat) (hin : ∀ j, i ≤ j → j < i + count → incoming j types = (t, types))
    (ht : FrameType.mergeInto h types .unset t = (t, true, types)) :
    joinSlots h incoming count i (Array.replicate i t ++ Array.replicate count .unset) true types =
      (Array.replicate (i + count) t, true, types) := by
  induction count generalizing i with
  | zero => simp [joinSlots]
  | succ count ih =>
    have hslot : (Array.replicate i t ++ Array.replicate (count + 1) FrameType.unset).getD i .unset = .unset := by
      simp [Array.getD_eq_getD_getElem?]
    have hset : (Array.replicate i t ++ Array.replicate (count + 1) FrameType.unset).setIfInBounds i t =
        Array.replicate (i + 1) t ++ Array.replicate count .unset := by
      apply Array.ext_getElem?
      intro j
      rw [Array.getElem?_setIfInBounds]
      simp only [Array.getElem?_append, Array.getElem?_replicate, Array.size_replicate, Array.size_append]
      grind
    unfold joinSlots
    rw [hin i (Nat.le_refl _) (by omega)]
    dsimp only
    rw [hslot, ht]
    dsimp only
    rw [hset, Bool.or_self, ih (i + 1) fun j h₁ h₂ => hin j (by omega) (by omega), Nat.add_assoc, Nat.add_comm 1 count]

theorem ofOpcode_pop : StackEffect.ofOpcode 87 = .replace 1 [] := by
  decide +kernel

/-- One instruction that takes a slot off the stack. -/
theorem execute_pop (f : Frame) (types : TypeTable) : f.execute types (.bare 87) = (f.drop 1, types, none) := by
  simp [execute, bare, ofOpcode_pop, apply, pushAll]

/-- The block behind a frame with one local that leaves only ints of its input on the stack. -/
theorem merge_ints {className : String} {h : Hierarchy} {types : TypeTable} {f : Frame} {t : FrameType} (height : Nat)
    (hsize : f.locals.size = 1) (hlocal : f.localAfter types className 0 = (t, types))
    (ht : FrameType.mergeInto h types .unset t = (t, true, types)) (hstack : f.stack = Array.replicate height .integer)
    (hout : f.outStack = #[]) (hconstructed : f.constructed = #[]) :
    f.merge Frame.empty none className h types =
      (some true, entering #[t] (Array.replicate (height - f.consumed) .integer), types) := by
  have huntouched : f.untouched = height - f.consumed := by rw [untouched, hstack, Array.size_replicate]
  have hheight : f.heightAfter = height - f.consumed := by rw [heightAfter, huntouched, hout]; rfl
  have honly : ∀ j, 0 ≤ j → j < 0 + 1 → f.localAfter types className j = (t, types) := by
    intro j _ hj
    obtain rfl : j = 0 := by omega
    exact hlocal
  have hlocals : joinSlots h (fun i types => f.localAfter types className i) 1 0 #[.unset] true types =
    (#[t], true, types) :=
    joinSlots_same (fun i types => f.localAfter types className i) 1 0 honly ht
  have hints : ∀ j < height - f.consumed, f.stackAfter types className j = (.integer, types) := by
    intro j hj
    have hlt : j < f.untouched := by omega
    have hget : f.stack.getD j .top = .integer := by
      rw [hstack, Array.getD_eq_getD_getElem?, Array.getElem?_replicate, if_pos (by omega)]
      rfl
    unfold stackAfter
    rw [if_pos hlt, hget]
    simp [afterConstructor, hconstructed]
  have hstacked := joinSlots_same (h := h) (fun i types => f.stackAfter types className i) (height - f.consumed) 0
    (fun j _ hj => hints j (by omega)) (show FrameType.mergeInto h types .unset .integer = (.integer, true, types) from rfl)
  simp only [Array.replicate_zero, Array.empty_append, Nat.zero_add] at hstacked
  simp [merge, Frame.empty, hsize, hlocals, hheight, hstacked, entering]

/-- Taking an int off the stack in a frame of its own. -/
theorem step_pop_piled (className : String) (h : Hierarchy) (types : TypeTable) (height : Nat) :
    (piled (height + 1)).step className h types (.bare 87) = (piled height, types) := by
  unfold Frame.step leave
  rw [execute_pop]
  dsimp only
  rw [merge_ints (t := .top) (height + 1) rfl rfl rfl rfl rfl rfl]
  rfl

/-- Taking slots off the stack in one frame. -/
theorem run_pops (types : TypeTable) (is : List Operation) (n : Nat) (f : Frame) (hout : f.outStack = #[]) :
    f.run types (List.replicate n (.bare 87) ++ is) = { f with consumed := f.consumed + n }.run types is := by
  induction n generalizing f with
  | zero => rfl
  | succ n ih =>
    have hdrop : f.drop 1 = { f with consumed := f.consumed + 1, outStack := #[] } := by simp [drop, hout]
    rw [List.replicate_succ, List.cons_append, Frame.run, execute_pop]
    dsimp only
    rw [ih (f.drop 1) (by rw [hdrop]), hdrop]
    dsimp only
    rw [Nat.add_assoc, Nat.add_comm 1 n, hout]

/-- Taking slots off the stack, each in a frame of its own. -/
theorem steps_pops_piled (className : String) (h : Hierarchy) (types : TypeTable) (is : List Operation)
    (n height reached : Nat) :
    ∃ reached', (piled (height + n)).steps className h types reached (List.replicate n (.bare 87) ++ is) =
      (piled height).steps className h types reached' is := by
  induction n generalizing reached with
  | zero => exact ⟨reached, rfl⟩
  | succ n ih =>
    rw [List.replicate_succ, List.cons_append, ← Nat.add_assoc, Frame.steps, step_pop_piled]
    exact ih _

/-- A stack of ints supplies what takes no more of them off. -/
theorem supplies_pops_piled (className : String) (h : Hierarchy) (types : TypeTable) (is : List Operation) (n height : Nat)
    (hrest : (piled height).Supplies className h types is) :
    (piled (height + n)).Supplies className h types (List.replicate n (.bare 87) ++ is) := by
  induction n with
  | zero => exact hrest
  | succ n ih =>
    rw [List.replicate_succ, List.cons_append, ← Nat.add_assoc, Supplies, step_pop_piled]
    refine ⟨⟨?_, Nat.zero_le _, ?_⟩, ih⟩
    · rw [execute_pop]
      simp [drop, piled, entering]
    · rw [Operation.loadsElement, ofOpcode_pop]
      intro e
      cases e

/-- Storing the top of the stack in the only local. -/
theorem execute_astore (f : Frame) (types : TypeTable) (hlocals : f.outLocals = #[]) (hout : f.outStack = #[]) :
    f.execute types (.moveLocal Opcode.astore 0) =
      ({ f with consumed := f.consumed + 1, outLocals := #[.stackSlot (f.consumed + 1)] }, types, none) := by
  have hpop : f.pop = (.stackSlot (f.consumed + 1), { f with consumed := f.consumed + 1 }) := by simp [pop, hout]
  simp [execute, moveLocal, Opcode.astore, Opcode.iload, Opcode.fload, Opcode.lload, Opcode.dload,
    Opcode.aload, Opcode.istore, Opcode.fstore, hpop, store, setLocal, extendTo, hlocals]

/-- A stack of ints supplies the block that takes them off. -/
theorem admits_unpilingBlock (className : String) (h : Hierarchy) (n : Nat) :
    Admits className h .empty #[.top] (Array.replicate (n + 1) .integer) (unpilingBlock n) := by
  refine admits_empty ?_ ?_ ?_
  · rintro t (ht | ht)
    · obtain rfl : t = .top := by simpa using ht
      exact Or.inl rfl
    · obtain rfl := Array.eq_of_mem_replicate ht
      exact Or.inr (Or.inl rfl)
  · simp [unpilingBlock, List.filterMap_append, Operation.allocationOffset, List.filterMap_replicate, List.filterMap]
  · rw [Nat.add_comm n 1]
    refine supplies_pops_piled className h .empty [.moveLocal Opcode.astore 0] n 1 ⟨⟨?_, ?_, fun e => nomatch e⟩, trivial⟩
    · rw [execute_astore _ _ rfl rfl]
      exact Nat.le_refl _
    · decide +kernel

/-- A stack that is higher than numbers of slots reach leads to different types. -/
theorem not_composes_unpilingBlock (className : String) (h : Hierarchy) :
    ¬Composes className h .empty #[.top] (Array.replicate (2 ^ 23) .integer) (unpilingBlock (2 ^ 23 - 1)) := by
  obtain ⟨n, hn⟩ : ∃ n, n = 2 ^ 23 - 1 := ⟨_, rfl⟩
  rw [← hn, show 2 ^ 23 = n + 1 by omega]
  intro hcomposes
  obtain ⟨-, hlocals, -, -⟩ := hcomposes
  have hrun : (piled (n + 1)).run .empty (unpilingBlock n) =
      ({ piled (n + 1) with consumed := 0 + n + 1, outLocals := #[.stackSlot (0 + n + 1)] }, .empty) := by
    rw [unpilingBlock, run_pops .empty _ n (piled (n + 1)) rfl, Frame.run, execute_astore _ _ rfl rfl]
    rfl
  -- the number of the lowest slot loses its highest bit, and names a slot that there is not
  have hslot : FrameType.stackSlot (0 + n + 1) = ⟨0, .stackSlot 0 true⟩ := by
    rw [hn]
    decide +kernel
  have hlocal : localAfter { piled (n + 1) with consumed := 0 + n + 1, outLocals := #[.stackSlot (0 + n + 1)] }
    .empty className 0 = (.top, .empty) := by
    rw [hslot]
    simp [localAfter, FrameType.isUnset, FrameType.unset, resolve, piled, entering, afterConstructor]
    decide +kernel
  have hstep : (piled 1).step className h .empty (.moveLocal Opcode.astore 0) = (entering #[.integer] #[], .empty) := by
    unfold Frame.step leave
    rw [execute_astore _ _ rfl rfl]
    dsimp only
    rw [merge_ints (t := .integer) 1 rfl rfl rfl rfl rfl rfl]
    rfl
  obtain ⟨reached, hsteps⟩ := steps_pops_piled className h .empty [.moveLocal Opcode.astore 0] n 1 (n + 1)
  rw [Frame.steps, hstep, Nat.add_comm 1 n] at hsteps
  have hmerge := merge_ints (h := h) (n + 1) rfl hlocal rfl rfl rfl rfl
  have hreached : (Array.replicate (n + 1) FrameType.integer).size = n + 1 := Array.size_replicate
  change Array.map (FrameType.named (Frame.merge ((piled (n + 1)).run .empty (unpilingBlock n)).1 _ _ _ _
      ((piled (n + 1)).run .empty (unpilingBlock n)).2).2.2)
    (Frame.merge ((piled (n + 1)).run .empty (unpilingBlock n)).1 _ _ _ _
      ((piled (n + 1)).run .empty (unpilingBlock n)).2).2.1.locals =
    Array.map (FrameType.named ((piled (n + 1)).steps className h .empty _ (unpilingBlock n)).2.1)
      ((piled (n + 1)).steps className h .empty _ (unpilingBlock n)).1.locals at hlocals
  rw [hrun, hreached, unpilingBlock, hsteps] at hlocals
  dsimp only at hlocals
  rw [hmerge] at hlocals
  change #[FrameType.top].map (FrameType.named .empty) = #[FrameType.integer].map (FrameType.named .empty) at hlocals
  exact absurd hlocals (by decide +kernel)

/-- No condition can be left out: an element of an array of longs becomes unusable where nothing is unusable in
single steps, a number of a slot that has too many bits names another slot, and two objects of which one has a number
with too many bits have one word. -/
theorem not_composes_samples :
    (Admits "a/A" {} .empty #[FrameType.long.arrayOf, .integer] #[] wideElementBlock ∧
      ¬Composes "a/A" {} .empty #[FrameType.long.arrayOf, .integer] #[] wideElementBlock) ∧
    (Admits "a/A" {} .empty #[.top] (Array.replicate (2 ^ 23) .integer) (unpilingBlock (2 ^ 23 - 1)) ∧
      ¬Composes "a/A" {} .empty #[.top] (Array.replicate (2 ^ 23) .integer) (unpilingBlock (2 ^ 23 - 1))) ∧
    (FrameType.uninitialized (2 ^ 23)).word = (FrameType.uninitialized 0).word := by
  have ⟨hsup, hdiffers⟩ :
      (entering #[FrameType.long.arrayOf, .integer] #[]).Supplies "a/A" {} .empty wideElementBlock ∧
        ¬Composes "a/A" {} .empty #[FrameType.long.arrayOf, .integer] #[] wideElementBlock := by
    unfold Composes
    decide +kernel
  refine ⟨⟨admits_empty ?_ (by decide) hsup, hdiffers⟩, ⟨?_, ?_⟩, by decide⟩
  · rintro t (ht | ht)
    · rcases (by simpa using ht : t = FrameType.long.arrayOf ∨ t = .integer) with rfl | rfl
      · exact Or.inr (Or.inr rfl)
      · exact Or.inr (Or.inl rfl)
    · exact absurd ht (Array.not_mem_empty t)
  · exact admits_unpilingBlock "a/A" {} (2 ^ 23 - 1)
  · exact not_composes_unpilingBlock "a/A" {}

end Frame

end ClassFile
