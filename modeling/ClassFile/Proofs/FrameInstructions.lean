import ClassFile.Proofs.FrameLeaving

/-!
# Instructions keep frames in agreement

Two frames in agreement stay so over each instruction, whether it is followed in a frame that holds more instructions before
it or in one of its own. A frame of its own agrees with the one behind it, which is entered with what the first comes to.
-/

namespace ClassFile

namespace Frame

section Execute

variable {className : String} {reached : Nat} {later : List TypeEntry} {f g : Frame} {types types' : TypeTable}
  {t u : FrameType}

/-! ## Constructors -/

/-- The frame with a constructor called on one more object. -/
def called (f : Frame) (t : FrameType) : Frame :=
  { f with constructed := f.constructed.push t }

/-- A constructor changes all that comes to the object that it was called on, and nothing else. -/
theorem value_called (f : Frame) (types : TypeTable) (className : String) (t u : FrameType) :
    (f.called t).value types className u =
      if f.value types className u = f.value types className t then (f.value types className u).initialized className
      else f.value types className u := by
  have hlist : (f.called t).constructed.toList.map ((f.called t).said types) =
      f.constructed.toList.map (f.said types) ++ [f.said types t] := by
    change (f.constructed.push t).toList.map (f.said types) = _
    simp
  unfold value
  rw [hlist]
  exact NamedType.afterAll_append className _ _ _

/-- A frame may have a constructor called on a type that may stand in it. -/
theorem WellFormed.called (h : f.WellFormed types later) (ht : t.Known types later f.locals.size f.stack.size) :
    (f.called t).WellFormed types later where
  sound := h.sound
  locals := h.locals
  stack := h.stack
  outLocals := h.outLocals
  outStack := h.outStack
  constructed := by
    intro u hu
    rcases Array.mem_push.1 hu with hu | rfl
    · exact h.constructed u hu
    · exact ht
  consumed := h.consumed
  height := h.height

/-- Frames that agree do so with constructors called on values that come to the same. -/
theorem Agree.called (h : Agree className reached later f types g types')
    (ht : SameValue className later f types t g types' u) :
    Agree className reached later (f.called t) types (g.called u) types' where
  left := h.left.called ht.left
  right := h.right.called ht.right
  smallLeft := h.smallLeft
  smallRight := h.smallRight
  size := h.size
  locals := by
    intro i hi
    rw [value_called, value_called, ht.value]
    change (if f.value types className (f.current i) = _ then (f.value types className (f.current i)).initialized className
      else f.value types className (f.current i)) = _
    rw [h.locals i hi]
    rfl
  stack := by
    have hmap : ∀ (f : Frame) (types : TypeTable) (t : FrameType), (f.called t).pending.map
        ((f.called t).value types className) = (f.pending.map (f.value types className)).map fun v =>
          if v = f.value types className t then v.initialized className else v := by
      intro f types t
      rw [List.map_map]
      exact List.map_congr_left fun v _ => value_called f types className t v
    rw [hmap, hmap, h.stack, ht.value]
  reach := h.reach

/-- A newly allocated object has not been constructed: it comes to the same in both frames. -/
theorem Agree.pushAllocated {name : String} {offset : Nat} {rest : List TypeEntry}
    (h : Agree className reached (.uninitialized name offset :: rest) f types g types') (hg : g.constructed = #[])
    (hrest : TypeEntry.uninitialized name offset ∉ rest) :
    Agree className reached rest (f.push (.uninitialized (types.addUninitialized name offset).1))
      (types.addUninitialized name offset).2 (g.push (.uninitialized (types'.addUninitialized name offset).1))
      (types'.addUninitialized name offset).2 := by
  obtain ⟨hs, hgr, hi⟩ := TypeTable.addUninitialized_spec h.left.sound name offset
  obtain ⟨hs', hgr', hi'⟩ := TypeTable.addUninitialized_spec h.right.sound name offset
  have hgrown := h.mono hs hs' hgr hgr' fun e he => he
  have hnew : ∀ (f : Frame) (T : TypeTable) (i : Nat), T.get? i = some (.uninitialized name offset) →
      f.said T (.uninitialized i) = ⟨0, .uninitialized (some (.uninitialized name offset))⟩ := by
    intro f T i hi
    change (⟨0, .uninitialized (T.get? i)⟩ : NamedType) = _
    rw [hi]
  refine (h.mono hs hs' hgr hgr' fun e he => List.mem_cons_of_mem _ he).push ⟨⟨⟨_, hi⟩, trivial, ?_⟩,
    ⟨⟨_, hi'⟩, trivial, fun _ _ _ _ => List.not_mem_nil⟩, ?_⟩
  · rintro j hj e he
    cases hj
    obtain rfl := Option.some.inj (hi.symm.trans he)
    exact hrest
  · have hleft : f.said (types.addUninitialized name offset).2 (.uninitialized (types.addUninitialized name offset).1) ∉
        f.constructed.toList.map (f.said (types.addUninitialized name offset).2) := by
      rw [hnew f _ _ hi]
      intro hmem
      obtain ⟨c, hc, hcn⟩ := List.mem_map.1 hmem
      have hknown := hgrown.left.known_resolve (hgrown.left.constructed c (Array.mem_toList_iff.1 hc))
      unfold said at hcn
      revert hcn hknown
      generalize f.resolve c = r
      obtain ⟨d, s⟩ := r
      intro hcn hknown
      cases s with
      | uninitialized j =>
        exact hknown.early j rfl _ (NamedShape.uninitialized.inj (NamedType.mk.inj hcn).2) List.mem_cons_self
      | _ => cases (NamedType.mk.inj hcn).2
    have hright : g.said (types'.addUninitialized name offset).2 (.uninitialized (types'.addUninitialized name offset).1) ∉
        g.constructed.toList.map (g.said (types'.addUninitialized name offset).2) := by
      rw [hg]
      exact List.not_mem_nil
    rw [value, value, NamedType.afterAll, NamedType.afterAll, if_neg hleft, if_neg hright, hnew f _ _ hi, hnew g _ _ hi']

/-! ## Instructions -/

/-- Pushing the value of a descriptor takes nothing off the input. -/
theorem consumed_pushDescriptor (f : Frame) (types : TypeTable) (descriptor : String) :
    (f.pushDescriptor types descriptor).1.consumed = f.consumed := by
  unfold pushDescriptor
  split
  · exact consumed_pushAll f _
  · rfl

/-- A descriptor says how many slots are taken off the stack. -/
theorem dropDescriptor_eq (descriptor : String) : ∃ n, ∀ f : Frame, f.dropDescriptor descriptor = f.drop n := by
  unfold dropDescriptor
  split <;> exact ⟨_, fun _ => rfl⟩

/-- Frames that agree do so with the slots of a descriptor dropped. -/
theorem Agree.dropDescriptor (h : Agree className reached later f types g types') {descriptor : String}
    (hn : (g.dropDescriptor descriptor).consumed ≤ g.stack.size) :
    Agree className reached later (f.dropDescriptor descriptor) types (g.dropDescriptor descriptor) types' := by
  obtain ⟨n, hdrop⟩ := dropDescriptor_eq descriptor
  rw [hdrop] at hn
  rw [hdrop, hdrop]
  exact h.drop hn

/-- Dropping slots leaves the input alone. -/
theorem stack_dropDescriptor (f : Frame) (descriptor : String) : (f.dropDescriptor descriptor).stack = f.stack := by
  obtain ⟨n, hdrop⟩ := dropDescriptor_eq descriptor
  rw [hdrop]
  exact (sameInput_drop f n).stack

/-- The elements of a new array of plain values have no number. -/
theorem plain_newArrayElement (operand : UInt8) : plain (newArrayElement operand).arrayOf = true := by
  unfold newArrayElement
  split <;> rfl

theorem Agree.pushPlain (h : Agree className reached later f types g types') (ht : plain t = true) :
    Agree className reached later (f.push t) types (g.push t) types' :=
  h.push (sameValue_plain ht)

theorem Agree.immediate (h : Agree className reached later f types g types') {op : UInt8} {operand : Int32}
    (hn : (g.immediate op operand).consumed ≤ g.stack.size) :
    Agree className reached later (f.immediate op operand) types (g.immediate op operand) types' := by
  unfold Frame.immediate at hn ⊢
  by_cases hop : (op == Opcode.newarray) = true
  · rw [if_pos hop] at hn
    rw [if_pos hop, if_pos hop]
    exact (h.drop hn).pushPlain (plain_newArrayElement _)
  · rw [if_neg hop, if_neg hop]
    exact h.pushPlain rfl

/-- Setting a local takes nothing off the stack. -/
theorem consumed_setLocal (f : Frame) (i : Nat) (t : FrameType) : (f.setLocal i t).consumed = f.consumed := rfl

theorem consumed_spoil (f : Frame) (i : Nat) : (f.spoil i).consumed = f.consumed := by
  unfold Frame.spoil
  split
  · rfl
  · split <;> rfl

theorem consumed_store (f : Frame) (i : Nat) (t : FrameType) (wide : Bool) : (f.store i t wide).consumed = f.consumed := by
  have hset : (if wide then (f.setLocal i t).setLocal (i + 1) .top else f.setLocal i t).consumed = f.consumed := by
    split
    · rw [consumed_setLocal, consumed_setLocal]
    · rw [consumed_setLocal]
  rw [store_eq]
  dsimp only
  split
  · exact hset
  · rw [consumed_spoil]
    exact hset

/-- A load or store of a local puts plain types or a local on the stack, or takes one type off and
stores it, or does nothing. -/
theorem moveLocal_cases (op : UInt8) :
    (∃ ts, (∀ t ∈ ts, plain t = true) ∧ ∀ f i, moveLocal f op i = f.pushAll ts) ∨
      (∀ f i, moveLocal f op i = f.push (f.getLocal i)) ∨ (∀ f i, moveLocal f op i = f.pop.2.store i f.pop.1 false) ∨
      (∀ f i, moveLocal f op i = (f.drop 1).pop.2.store i (f.drop 1).pop.1 true) ∨ ∀ f i, moveLocal f op i = f := by
  unfold Frame.moveLocal
  by_cases hiload : (op == Opcode.iload) = true
  · exact Or.inl ⟨[.integer], by decide, fun _ _ => if_pos hiload⟩
  by_cases hfload : (op == Opcode.fload) = true
  · exact Or.inl ⟨[.float], by decide, fun f i => by rw [if_neg hiload, if_pos hfload]; rfl⟩
  by_cases hlload : (op == Opcode.lload) = true
  · exact Or.inl ⟨StackEffect.longSlots, by decide, fun f i => by rw [if_neg hiload, if_neg hfload, if_pos hlload]⟩
  by_cases hdload : (op == Opcode.dload) = true
  · exact Or.inl ⟨StackEffect.doubleSlots, by decide, fun f i => by
      rw [if_neg hiload, if_neg hfload, if_neg hlload, if_pos hdload]⟩
  refine Or.inr ?_
  by_cases haload : (op == Opcode.aload) = true
  · exact Or.inl fun f i => by rw [if_neg hiload, if_neg hfload, if_neg hlload, if_neg hdload, if_pos haload]
  refine Or.inr ?_
  by_cases hstore : (op == Opcode.istore || op == Opcode.fstore || op == Opcode.astore) = true
  · exact Or.inl fun f i => by
      rw [if_neg hiload, if_neg hfload, if_neg hlload, if_neg hdload, if_neg haload, if_pos hstore]
  refine Or.inr ?_
  by_cases hwide : (op == Opcode.lstore || op == Opcode.dstore) = true
  · exact Or.inl fun f i => by
      rw [if_neg hiload, if_neg hfload, if_neg hlload, if_neg hdload, if_neg haload, if_neg hstore, if_pos hwide]
  · exact Or.inr fun f i => by
      rw [if_neg hiload, if_neg hfload, if_neg hlload, if_neg hdload, if_neg haload, if_neg hstore, if_neg hwide]

theorem Agree.moveLocal (h : Agree className reached later f types g types') {op : UInt8} {slot : UInt16}
    (hn : (g.moveLocal op slot.toNat).consumed ≤ g.stack.size) (hl : slot.toNat + 1 ≤ g.locals.size) :
    Agree className reached later (f.moveLocal op slot.toNat) types (g.moveLocal op slot.toNat) types' := by
  have h23 : slot.toNat < 2 ^ 23 := Nat.lt_trans slot.toNat_lt (by decide)
  rcases moveLocal_cases op with ⟨ts, hts, heq⟩ | heq | heq | heq | heq
  all_goals
    rw [heq] at hn
    rw [heq, heq]
  · exact h.pushPlains hts
  · exact h.push (h.getLocal hl h23)
  · rw [consumed_store] at hn
    obtain ⟨hrest, ht⟩ := h.pop hn
    refine hrest.store ?_ h23 (ht.congr (sameInput_pop f) (sameInput_pop g))
    rw [(sameInput_pop g).locals]
    exact hl
  · rw [consumed_store] at hn
    have hd := h.drop (Nat.le_trans (consumed_le_pop _) hn)
    obtain ⟨hrest, ht⟩ := hd.pop (by rwa [(sameInput_drop g 1).stack])
    refine hrest.store ?_ h23 (ht.congr (sameInput_pop _) (sameInput_pop _))
    rw [(sameInput_pop _).locals, (sameInput_drop g 1).locals]
    exact hl
  · exact h

theorem Agree.typed {name : String} {offset : Nat} {op : UInt8} {rest : List TypeEntry}
    (h : Agree className reached later f types g types')
    (hlater : later = (Operation.typed op name offset).allocates.toList ++ rest)
    (hg : g.constructed = #[]) (hrest : ∀ e ∈ (Operation.typed op name offset).allocates, e ∉ rest)
    (hn : (g.typed types' op name offset).1.consumed ≤ g.stack.size) :
    Agree className reached rest (f.typed types op name offset).1 (f.typed types op name offset).2.1
      (g.typed types' op name offset).1 (g.typed types' op name offset).2.1 := by
  unfold Frame.typed at hn ⊢
  simp only [Operation.allocates] at hlater hrest
  by_cases hnew : (op == Opcode.newObject) = true
  · rw [if_pos hnew, if_pos hnew]
    rw [if_pos hnew] at hlater hrest
    subst hlater
    exact h.pushAllocated hg (hrest _ rfl)
  rw [if_neg hnew] at hn hlater
  rw [if_neg hnew, if_neg hnew]
  obtain rfl : later = rest := hlater
  by_cases harray : (op == Opcode.anewarray) = true
  · rw [if_pos harray] at hn
    rw [if_pos harray, if_pos harray]
    dsimp only at hn ⊢
    by_cases hname : isArrayName name = true
    · rw [if_pos hname, consumed_pushDescriptor] at hn
      rw [if_pos hname, if_pos hname]
      exact (h.pop hn).1.pushDescriptor _
    · rw [if_neg hname] at hn
      rw [if_neg hname, if_neg hname]
      exact (h.pop hn).1.pushObject name 1
  rw [if_neg harray] at hn
  rw [if_neg harray, if_neg harray]
  by_cases hcast : (op == Opcode.checkcast) = true
  · rw [if_pos hcast] at hn
    rw [if_pos hcast, if_pos hcast]
    dsimp only at hn ⊢
    by_cases hname : isArrayName name = true
    · rw [if_pos hname, consumed_pushDescriptor] at hn
      rw [if_pos hname, if_pos hname]
      exact (h.pop hn).1.pushDescriptor _
    · rw [if_neg hname] at hn
      rw [if_neg hname, if_neg hname]
      exact (h.pop hn).1.pushObject name 0
  · rw [if_neg hcast] at hn
    rw [if_neg hcast, if_neg hcast]
    exact (h.drop hn).pushPlain rfl

theorem Agree.field (h : Agree className reached later f types g types') {op : UInt8} {descriptor : String}
    (hn : (g.field types' op descriptor).1.consumed ≤ g.stack.size) :
    Agree className reached later (f.field types op descriptor).1 (f.field types op descriptor).2.1
      (g.field types' op descriptor).1 (g.field types' op descriptor).2.1 := by
  unfold Frame.field at hn ⊢
  by_cases hget : (op == Opcode.getstatic) = true
  · rw [if_pos hget, if_pos hget]
    exact h.pushDescriptor descriptor
  rw [if_neg hget] at hn
  rw [if_neg hget, if_neg hget]
  by_cases hput : (op == Opcode.putstatic) = true
  · rw [if_pos hput] at hn
    rw [if_pos hput, if_pos hput]
    exact h.dropDescriptor hn
  rw [if_neg hput] at hn
  rw [if_neg hput, if_neg hput]
  by_cases hfield : (op == Opcode.getfield) = true
  · rw [if_pos hfield, consumed_pushDescriptor] at hn
    rw [if_pos hfield, if_pos hfield]
    exact (h.drop hn).pushDescriptor descriptor
  · rw [if_neg hfield] at hn
    rw [if_neg hfield, if_neg hfield]
    have hd := h.dropDescriptor (Nat.le_trans (consumed_le_pop _) hn)
    exact (hd.pop (by rw [stack_dropDescriptor]; exact hn)).1

/-- The receiver of a call is taken off the stack, and noted if its constructor is called. -/
theorem Agree.receiver (h : Agree className reached later f types g types') {op : UInt8} {name : String}
    (hn : g.pop.2.consumed ≤ g.stack.size) :
    Agree className reached later
      (if op == Opcode.invokespecial && name.toList.head? == some '<' then f.pop.2.called f.pop.1 else f.pop.2) types
      (if op == Opcode.invokespecial && name.toList.head? == some '<' then g.pop.2.called g.pop.1 else g.pop.2) types' := by
  obtain ⟨hrest, ht⟩ := h.pop hn
  by_cases hinit : (op == Opcode.invokespecial && name.toList.head? == some '<') = true
  · rw [if_pos hinit, if_pos hinit]
    exact hrest.called (ht.congr (sameInput_pop f) (sameInput_pop g))
  · rw [if_neg hinit, if_neg hinit]
    exact hrest

theorem Agree.invoke (h : Agree className reached later f types g types') {op : UInt8} {name descriptor : String}
    (hn : (g.invoke types' op name descriptor).1.consumed ≤ g.stack.size) :
    Agree className reached later (f.invoke types op name descriptor).1 (f.invoke types op name descriptor).2.1
      (g.invoke types' op name descriptor).1 (g.invoke types' op name descriptor).2.1 := by
  unfold Frame.invoke at hn ⊢
  rw [consumed_pushDescriptor] at hn
  refine Agree.pushDescriptor ?_ descriptor
  by_cases hstatic : (op == Opcode.invokestatic) = true
  · rw [if_pos hstatic] at hn
    rw [if_pos hstatic, if_pos hstatic]
    exact h.dropDescriptor hn
  · rw [if_neg hstatic] at hn
    rw [if_neg hstatic, if_neg hstatic]
    have hc : (g.dropDescriptor descriptor).pop.2.consumed ≤ g.stack.size := by
      refine Nat.le_trans (Nat.le_of_eq ?_) hn
      dsimp only
      split <;> rfl
    have hd := h.dropDescriptor (Nat.le_trans (consumed_le_pop _) hc)
    exact hd.receiver (by rw [stack_dropDescriptor]; exact hc)

theorem Agree.constant (h : Agree className reached later f types g types') (value : ConstantValue) :
    Agree className reached later (f.constant types value).1 (f.constant types value).2.1
      (g.constant types' value).1 (g.constant types' value).2.1 := by
  cases value with
  | integer v => exact h.pushPlain rfl
  | float v => exact h.pushPlain rfl
  | long v => exact h.pushPlains (by decide)
  | double v => exact h.pushPlains (by decide)
  | dynamic name descriptor bootstrap arguments => exact h.pushDescriptor descriptor
  | _ => exact h.pushObject _ 0

theorem Agree.jump (h : Agree className reached later f types g types') {op : UInt8}
    (hn : (g.jump op).consumed ≤ g.stack.size) : Agree className reached later (f.jump op) types (g.jump op) types' := by
  unfold Frame.jump at hn ⊢
  split
  · rename_i hone
    rw [if_pos hone] at hn
    exact h.drop hn
  · rename_i hone
    rw [if_neg hone] at hn
    split
    · rename_i htwo
      rw [if_pos htwo] at hn
      exact h.drop hn
    · exact h

/-- An instruction keeps frames in agreement. The other frame must have what the instruction takes, and must not have noted
a constructor. -/
theorem Agree.execute {i : Operation} {rest : List TypeEntry} (h : Agree className reached later f types g types')
    (hlater : later = i.allocates.toList ++ rest) (hg : g.constructed = #[]) (hrest : ∀ e ∈ i.allocates, e ∉ rest)
    (hn : (g.execute types' i).1.consumed ≤ g.stack.size) (hl : i.localsUsed ≤ g.locals.size)
    (ha : i.loadsElement = true → (g.value types' className (g.drop 1).pop.1).Loadable) :
    Agree className reached rest (f.execute types i).1 (f.execute types i).2.1 (g.execute types' i).1
      (g.execute types' i).2.1 := by
  cases i with
  | typed op name offset => exact h.typed hlater hg hrest hn
  | bare op =>
    obtain rfl : later = rest := hlater
    simp only [Frame.execute, Frame.bare] at hn ⊢
    refine h.apply hn fun he => ha ?_
    simp only [Operation.loadsElement, he]
    rfl
  | immediate op operand =>
    obtain rfl : later = rest := hlater
    exact h.immediate hn
  | moveLocal op slot =>
    obtain rfl : later = rest := hlater
    refine h.moveLocal hn (Nat.le_trans ?_ hl)
    simp only [Operation.localsUsed]
    split
    · exact Nat.le_succ _
    · exact Nat.le_refl _
  | increment slot =>
    obtain rfl : later = rest := hlater
    exact h.setLocal _ (sameValue_plain rfl)
  | field op descriptor =>
    obtain rfl : later = rest := hlater
    exact h.field hn
  | invoke op name descriptor =>
    obtain rfl : later = rest := hlater
    exact h.invoke hn
  | invokeDynamic descriptor =>
    obtain rfl : later = rest := hlater
    refine (h.dropDescriptor ?_).pushDescriptor descriptor
    rw [← consumed_pushDescriptor (g.dropDescriptor descriptor) types' descriptor]
    exact hn
  | constant value =>
    obtain rfl : later = rest := hlater
    exact h.constant value
  | jump op =>
    obtain rfl : later = rest := hlater
    exact h.jump hn
  | switch =>
    obtain rfl : later = rest := hlater
    exact h.drop hn
  | multiArray descriptor dimensions =>
    obtain rfl : later = rest := hlater
    refine (h.drop ?_).pushDescriptor descriptor
    rw [← consumed_pushDescriptor (g.drop dimensions.toNat) types' descriptor]
    exact hn

/-! ## Entering a block -/

section Entering

variable {locals stack : Array FrameType}

/-- A block that is just entered is well-formed if its input is. -/
theorem wellFormed_entering (hs : types.Sound) (hl : ∀ t ∈ locals, t.Known types later 0 0)
    (hst : ∀ t ∈ stack, t.Known types later 0 0) :
    (entering locals stack).WellFormed types later where
  sound := hs
  locals := hl
  stack := hst
  outLocals t ht := absurd ht (Array.not_mem_empty t)
  outStack t ht := absurd ht (Array.not_mem_empty t)
  constructed t ht := absurd ht (Array.not_mem_empty t)
  consumed := Nat.zero_le _
  height := Nat.zero_le _

/-- The stack of a block that is just entered is its input. -/
theorem pending_entering : (entering locals stack).pending = stack.toList.reverse := by
  have htake : stack.toList.take stack.size = stack.toList := List.take_of_length_le (Nat.le_of_eq Array.length_toList)
  simp [pending, entering, untouched, htake]

/-- The locals of a block that is just entered are its input. -/
theorem current_entering (i : Nat) : (entering locals stack).current i = locals.getD i .top := rfl

/-- Where nothing has been done yet, types of values come to themselves. -/
theorem value_entering (h : t.Concrete types) :
    (entering locals stack).value types className t = t.named types := by
  have hknown : t.Known types [] 0 0 := h.known fun _ _ _ _ => List.not_mem_nil
  unfold value said
  rw [resolve_of_known _ hknown, h.settled_eq]
  rfl

/-- An array whose elements take one slot each, by name. -/
theorem loadable_named (types : TypeTable) (ha : t.ArrayOrNull) (hw : ¬t.WideArray) : (t.named types).Loadable := by
  rcases ha with rfl | ⟨hd, he⟩
  · exact Or.inl rfl
  · have hnarrow : ∀ u : FrameType, u ≠ .long → u ≠ .double → (u.named types).isWide = false := by
      intro u h₁ h₂
      rw [← isWide_eq_named]
      unfold FrameType.isWide
      rw [beq_eq_false_iff_ne.2 h₁, beq_eq_false_iff_ne.2 h₂]
      rfl
    have harray : ∀ s : Shape, t.elementOf = ⟨0, s⟩ → t = FrameType.arrayOf ⟨0, s⟩ := by
      intro s e
      obtain ⟨d, s'⟩ := t
      obtain ⟨hd', rfl⟩ := FrameType.mk.inj e
      simp only [FrameType.arrayOf, FrameType.mk.injEq, and_true]
      bv_omega
    have hflat : ∀ s : Shape, t ≠ ⟨0, s⟩ := by
      rintro s rfl
      exact absurd (show (0 : Int) < (0#4).toInt from hd) (by decide)
    refine Or.inr ⟨hd, hnarrow t (hflat _) (hflat _), ?_, ?_⟩
    · exact hnarrow t.elementOf (fun e => hw (Or.inl (harray _ e))) fun e => hw (Or.inr (harray _ e))
    · obtain ⟨d, s⟩ := t
      cases s <;> first | exact he | trivial

/-- The array of which an element is loaded is what stands below the topmost slot. -/
theorem loadable_arrayOperand (hwf : (entering locals stack).WellFormed types []) (hsmall : stack.size < 2 ^ 23)
    (hst : ∀ t ∈ stack, t.Concrete types) (hn : ((entering locals stack).drop 1).pop.2.consumed ≤ stack.size)
    (ha : (entering locals stack).arrayOperand.ArrayOrNull) (hw : ¬(entering locals stack).arrayOperand.WideArray) :
    ((entering locals stack).value types className ((entering locals stack).drop 1).pop.1).Loadable := by
  have hd : 1 ≤ (entering locals stack).pending.length :=
    (consumed_drop_le hwf.consumed).1 (Nat.le_trans (consumed_le_pop _) hn)
  have hdrop := hwf.drop hd
  have hin := sameInput_drop (entering locals stack) 1
  have hp : 0 < ((entering locals stack).drop 1).pending.length :=
    (consumed_pop_le hdrop.consumed).1 (by rw [hin.stack]; exact hn)
  obtain ⟨a, rest, hcons⟩ := List.exists_cons_of_length_pos hp
  have hvalue : ((entering locals stack).drop 1).value types className ((entering locals stack).drop 1).pop.1 =
      ((entering locals stack).drop 1).value types className a := hdrop.value_pop (hin.stack ▸ hsmall) hcons
  rw [hin.value] at hvalue
  have hget : (stack.toList.reverse.drop 1)[0]? = some a := by
    have hpending : (entering locals stack).pending = stack.toList.reverse := pending_entering
    rw [← hpending, ← pending_drop, hcons]
    rfl
  have hlen : 2 ≤ stack.size := by
    rw [pending_drop, pending_entering] at hp
    simp at hp
    omega
  have htop : (entering locals stack).arrayOperand = a := by
    rw [List.getElem?_drop, List.getElem?_reverse (by simp; omega), Array.length_toList, Array.getElem?_toList] at hget
    unfold arrayOperand
    rw [Array.getD_eq_getD_getElem?]
    change stack[stack.size - 2]?.getD .top = a
    rw [show stack.size - 2 = stack.size - 1 - (1 + 0) by omega, hget]
    rfl
  have hmem : a ∈ stack := by
    have := List.mem_of_getElem? hget
    exact Array.mem_toList_iff.1 (List.mem_reverse.1 (List.mem_of_mem_drop this))
  rw [hvalue, value_entering (hst a hmem), ← htop]
  exact loadable_named types ha hw

/-- The stack behind a frame is no higher than the frame's has been. -/
theorem WellFormed.size_le_reach (h : g.WellFormed types later) {grown : TypeTable}
    (hstack : stack.toList.map (FrameType.named grown) = (g.pending.map (g.value types className)).reverse) :
    stack.size ≤ g.reach := by
  have hlen : stack.size = g.heightAfter := by
    rw [← length_pending]
    simpa using congrArg List.length hstack
  have := h.height
  have := h.consumed
  rw [hlen, heightAfter, untouched, Frame.reach]
  omega

/-- A frame agrees with the one behind the frame that it agrees with. -/
theorem Agree.leave (h : Agree className reached later f types g types') {grown : TypeTable} (hs : grown.Sound)
    (hl : ∀ t ∈ locals, t.Concrete grown) (hst : ∀ t ∈ stack, t.Concrete grown)
    (hlocals : locals.toList.map (FrameType.named grown) =
      (List.range g.locals.size).map fun i => g.value types' className (g.current i))
    (hstack : stack.toList.map (FrameType.named grown) = (g.pending.map (g.value types' className)).reverse)
    (hsmall : stack.size < 2 ^ 23) :
    Agree className (max reached g.reach) later f types (entering locals stack) grown ∧
      stack.size ≤ max reached g.reach := by
  have hsize : locals.size = g.locals.size := by simpa using congrArg List.length hlocals
  have hheight := h.right.size_le_reach hstack
  refine ⟨⟨h.left, ?_, h.smallLeft, hsmall, ?_, ?_, ?_, ?_⟩, ?_⟩
  · exact wellFormed_entering hs (fun t ht => (hl t ht).known fun _ _ _ _ => List.not_mem_nil)
      (fun t ht => (hst t ht).known fun _ _ _ _ => List.not_mem_nil)
  · exact hsize.trans h.size
  · intro i hi
    have hig : i < g.locals.size := h.size ▸ hi
    have hget : (locals.toList.map (FrameType.named grown))[i]? = some (g.value types' className (g.current i)) := by
      rw [hlocals, List.getElem?_map, List.getElem?_range hig]
      rfl
    have hil : i < locals.size := hsize ▸ hig
    rw [List.getElem?_map, Array.getElem?_toList, Array.getElem?_eq_getElem hil] at hget
    rw [h.locals i hi, current_entering, Array.getD_eq_getD_getElem?, Array.getElem?_eq_getElem hil, Option.getD_some,
      value_entering (hl _ (Array.getElem_mem hil))]
    exact (Option.some.inj hget).symm
  · have hvalues : (entering locals stack).pending.map ((entering locals stack).value grown className) =
        (stack.toList.map (FrameType.named grown)).reverse := by
      rw [pending_entering, List.map_reverse]
      exact congrArg _ (List.map_congr_left fun t ht => value_entering (hst t (Array.mem_toList_iff.1 ht)))
    rw [hvalues, hstack, List.reverse_reverse]
    exact h.stack
  · rw [h.reach]
    change _ = max (max reached g.reach) (stack.size + 0)
    omega
  · omega

end Entering

end Execute

end Frame

end ClassFile
