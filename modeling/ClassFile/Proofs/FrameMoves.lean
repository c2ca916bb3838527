import ClassFile.Proofs.FrameInstructions
import Mathlib.Algebra.Group.Nat.Defs

/-!
# What instructions take and put

An instruction that leaves the locals alone takes slots off the stack, may call a constructor on one of them, and puts
others on: a type of its own, what one of the slots held or an array in one of them, or what a local holds
(`Frame.Move`). Which ones hangs on the instruction and on the type table alone, and in a table that has grown it does
the same again (`Frame.exists_move`).
-/

namespace ClassFile

namespace TypeTable

/-- An entry keeps its number in a table that has grown. -/
theorem add_of_extends {types later : TypeTable} {e : TypeEntry} (hs : types.Sound) (hs' : later.Sound)
    (hext : (types.add e).2.Extends later) :
    later.add e = ((types.add e).1, later) := by
  have hfound := (hs' e _).2 (hext.get? (add_spec hs e).2.2)
  unfold TypeTable.add at hfound ⊢
  rw [hfound]

end TypeTable

namespace StackEffect

/-- Number of slots that are put on the stack. -/
def puts : StackEffect → Nat
  | replace _ pushes => pushes.length
  | shuffle _ order => order.length
  | loadElement => 1

/-- No plain instruction puts more than six slots on the stack. -/
theorem puts_ofOpcode_le (op : UInt8) : (ofOpcode op).puts ≤ 6 := by
  have hall : ∀ row ∈ table, row.2.puts ≤ 6 := by decide
  have heffect : ofOpcode op = find op.toNat := by
    unfold ofOpcode effects
    rw [Array.getD_eq_getD_getElem?, Array.getElem?_ofFn, dif_pos op.toNat_lt]
    rfl
  rw [heffect]
  unfold find
  cases hrow : table.find? fun row => row.1.contains op.toNat with
  | none => exact Nat.zero_le _
  | some row => exact hall row (List.mem_of_find?_eq_some hrow)

end StackEffect

namespace FrameType

section Grown

variable {types later : TypeTable}

/-- The type of a name that is in the table is found there again. -/
theorem ofName_of_extends (hs : types.Sound) (hs' : later.Sound) (rest : List Char)
    (hext : (ofName types rest).2.Extends later) :
    ofName later rest = ((ofName types rest).1, later) := by
  unfold ofName at hext ⊢
  cases hname : Descriptor.dropSemicolon rest with
  | none => rfl
  | some name =>
    rw [hname] at hext
    dsimp only [TypeTable.addNormal] at hext ⊢
    rw [TypeTable.add_of_extends hs hs' hext]

/-- The type of an element that is in the table is found there again. -/
theorem ofElement_of_extends (hs : types.Sound) (hs' : later.Sound) (cs : List Char)
    (hext : (ofElement types cs).2.Extends later) :
    ofElement later cs = ((ofElement types cs).1, later) := by
  unfold ofElement at hext ⊢
  split
  case h_9 rest => exact ofName_of_extends hs hs' rest hext
  all_goals rfl

/-- A descriptor describes the type that it did before in a table that has grown. -/
theorem ofValue_of_extends (hs : types.Sound) (hs' : later.Sound) (cs : List Char)
    (hext : (ofValue types cs).2.Extends later) :
    ofValue later cs = ((ofValue types cs).1, later) := by
  unfold ofValue at hext ⊢
  split
  case h_10 rest => exact ofName_of_extends hs hs' rest hext
  case h_11 rest =>
    dsimp only at hext ⊢
    split
    · rfl
    · rename_i hdims
      have hext' : (ofElement types (Descriptor.skipBrackets rest)).2.Extends later := by
        simpa only [if_neg hdims] using hext
      rw [ofElement_of_extends hs hs' _ hext']
  all_goals rfl

end Grown

end FrameType

namespace Frame

/-- What an instruction puts on the stack. -/
inductive Put where
  /-- A type of its own. -/
  | own (t : FrameType)
  /-- What stood so far below the top of the stack. -/
  | slot (depth : Nat)
  /-- What an array holds that stood so far below the top of the stack. -/
  | element (depth : Nat)
  /-- What a local holds. -/
  | ofLocal (i : Nat)

/-- What an instruction does that leaves the locals alone. -/
structure Move where
  /-- Number of slots that are taken off the stack. -/
  pops : Nat := 0
  /-- How far below the top of the stack the object stands of which the constructor is called. -/
  receiver : Option Nat := none
  /-- What is put on the stack, the topmost last. -/
  puts : List Put := []

/-- A type of its own names no slot. -/
def Fixed (t : FrameType) : Prop :=
  ∀ f : Frame, f.resolve t = t

/-- What an instruction puts on the stack is its own, or comes from slots that it takes or from locals.
It is never more than six slots. -/
structure Move.Valid (m : Move) : Prop where
  few : m.puts.length ≤ 6
  receiver : ∀ k ∈ m.receiver, k < m.pops
  own : ∀ t, .own t ∈ m.puts → Fixed t
  slot : ∀ k, .slot k ∈ m.puts → k < m.pops
  element : ∀ k, .element k ∈ m.puts → k < m.pops
  ofLocal : ∀ i, .ofLocal i ∈ m.puts → i < 2 ^ 16

/-- What stands so far below the top of the stack. -/
def below (f : Frame) (depth : Nat) : FrameType :=
  (f.drop depth).pop.1

/-- The type that is put on the stack. -/
def Put.type (f : Frame) : Put → FrameType
  | .own t => t
  | .slot depth => f.below depth
  | .element depth => (f.below depth).elementOf
  | .ofLocal i => f.getLocal i

/-- The frame after the call of a constructor, if there is one. -/
def noted (f : Frame) : Option FrameType → Frame
  | some t => f.called t
  | none => f

/-- The frame after a move. -/
def moved (f : Frame) (m : Move) : Frame :=
  ((f.drop m.pops).noted (m.receiver.map f.below)).pushAll (m.puts.map (Put.type f))

/-! ## Taking slots off -/

/-- Dropping takes off what the block has put on the stack, and then counts what it takes off its input. -/
theorem drop_eq (f : Frame) (n : Nat) :
    f.drop n = { f with
      outStack := f.outStack.shrink (f.outStack.size - n), consumed := f.consumed + (n - f.outStack.size) } := by
  unfold drop
  split
  · rename_i hle
    rw [Nat.sub_eq_zero_of_le hle]
    rfl
  · rename_i hlt
    have hempty : f.outStack.shrink (f.outStack.size - n) = #[] := by
      rw [show f.outStack.size - n = 0 by omega]
      simp
    rw [hempty]

@[simp] theorem drop_zero (f : Frame) : f.drop 0 = f := by
  rw [drop_eq]
  simp

/-- Slots dropped in two goes are dropped together. -/
theorem drop_drop (f : Frame) (m n : Nat) : (f.drop m).drop n = f.drop (m + n) := by
  rw [drop_eq, drop_eq f m, drop_eq f (m + n)]
  have hstack : (f.outStack.shrink (f.outStack.size - m)).shrink ((f.outStack.shrink (f.outStack.size - m)).size - n) =
      f.outStack.shrink (f.outStack.size - (m + n)) := by
    apply Array.ext'
    simp only [Array.toList_shrink, Array.size_shrink, List.take_take]
    congr 1
    omega
  have hconsumed : f.consumed + (m - f.outStack.size) + (n - (f.outStack.shrink (f.outStack.size - m)).size) =
      f.consumed + (m + n - f.outStack.size) := by
    rw [Array.size_shrink]
    omega
  dsimp only
  rw [hstack, hconsumed]

/-- Taking the topmost slot off leaves what taking off one slot leaves. -/
theorem pop_snd (f : Frame) : f.pop.2 = f.drop 1 := by
  rw [drop_eq]
  rcases outStack_cases f with h | ⟨ts, t, h⟩
  · rw [pop_of_empty h, h]
    rfl
  · rw [pop_of_push h, h]
    simp

/-- What is popped stands on top, and popping drops it. -/
theorem pop_eq (f : Frame) : f.pop = (f.below 0, f.drop 1) := by
  rw [← pop_snd, below, drop_zero]

/-- What stands below the top after slots are dropped stood that much deeper. -/
theorem below_drop (f : Frame) (m n : Nat) : (f.drop m).below n = f.below (m + n) := by
  rw [below, below, drop_drop]

/-- What is popped stands below the top, one by one. -/
theorem popMany_eq (f : Frame) (n : Nat) : popMany n f = ((List.range n).map f.below, f.drop n) := by
  induction n generalizing f with
  | zero => simp [popMany]
  | succ n ih =>
    have hbelow : (f.drop 1).below = fun k => f.below (k + 1) := funext fun k => by rw [below_drop, Nat.add_comm]
    rw [popMany, pop_eq]
    dsimp only
    rw [ih, hbelow, drop_drop, Nat.add_comm 1 n, List.range_succ_eq_map, List.map_cons, List.map_map]
    rfl

/-! ## Moves of instructions -/

/-- A type of a value names no slot. -/
theorem fixed_of_isValue {t : FrameType} (ht : t.shape.isValue = true) : Fixed t := by
  intro f
  obtain ⟨d, s⟩ := t
  cases s <;> first | rfl | cases ht

/-- A type without a number names no slot. -/
theorem fixed_plain {t : FrameType} (ht : plain t = true) : Fixed t :=
  fixed_of_isValue (Bool.and_eq_true_iff.1 ht).1

/-- A move that puts types of its own on the stack. -/
theorem valid_owns (n : Nat) {ts : List FrameType} (hfew : ts.length ≤ 6) (hts : ∀ t ∈ ts, Fixed t) :
    Move.Valid { pops := n, puts := ts.map .own } := by
  have howned : ∀ p ∈ ts.map Put.own, ∃ t ∈ ts, p = .own t := fun p hp => by
    obtain ⟨t, ht, rfl⟩ := List.mem_map.1 hp
    exact ⟨t, ht, rfl⟩
  refine ⟨by rwa [List.length_map], fun _ hk => (nomatch hk), fun t ht => ?_, fun k hk => ?_, fun k hk => ?_, fun i hi => ?_⟩
  · obtain ⟨u, hu, h⟩ := howned _ ht
    exact Put.own.inj h ▸ hts u hu
  · obtain ⟨u, -, h⟩ := howned _ hk
    cases h
  · obtain ⟨u, -, h⟩ := howned _ hk
    cases h
  · obtain ⟨u, -, h⟩ := howned _ hi
    cases h

/-- A move that only puts types of its own drops slots and pushes the types. -/
theorem moved_owns (f : Frame) (n : Nat) (ts : List FrameType) :
    f.moved { pops := n, puts := ts.map .own } = (f.drop n).pushAll ts := by
  have hown : (ts.map Put.own).map (Put.type f) = ts := by
    rw [List.map_map]
    exact List.map_id ts
  unfold moved
  rw [hown]
  rfl

/-- A step that does a move, with what it does to the type table and whether it fails, and the same
in a table that has grown. -/
def Moves (types : TypeTable) (step : Frame → TypeTable → Frame × TypeTable × Option Error) (m : Move) : Prop :=
  ∃ (grown : TypeTable) (e : Option Error), (∀ f, step f types = (f.moved m, grown, e)) ∧
    ∀ later : TypeTable, later.Sound → grown.Extends later → ∀ f, step f later = (f.moved m, later, e)

section Moves

variable {types : TypeTable}

/-- A step that looks at no types. -/
theorem moves_of_eq {step : Frame → Frame} {m : Move} (h : ∀ f, step f = f.moved m) :
    Moves types (fun f T => (step f, T, none)) m :=
  ⟨types, none, fun f => congrArg (·, types, none) (h f), fun later _ _ f => congrArg (·, later, none) (h f)⟩

/-- A step that takes slots off the stack and puts types of its own on. -/
theorem moves_owns {step : Frame → Frame} {n : Nat} {ts : List FrameType} (h : ∀ f, step f = (f.drop n).pushAll ts) :
    Moves types (fun f T => (step f, T, none)) { pops := n, puts := ts.map .own } :=
  moves_of_eq fun f => (h f).trans (moved_owns f n ts).symm

/-- The slots of a value name no slot of the input. -/
theorem fixed_slotsOf {t : FrameType} (ht : t.isUnset = true ∨ t.shape.isValue = true) : ∀ u ∈ slotsOf t, Fixed u := by
  intro u hu
  unfold slotsOf at hu
  split at hu
  · exact absurd hu List.not_mem_nil
  · rename_i hset
    have hfixed := fixed_of_isValue (ht.resolve_left hset)
    split at hu
    · rcases List.mem_cons.1 hu with rfl | hu
      · exact hfixed
      · obtain rfl := List.mem_singleton.1 hu
        exact fun _ => rfl
    · obtain rfl := List.mem_singleton.1 hu
      exact hfixed

/-- A value takes two slots at most. -/
theorem length_slotsOf_le (t : FrameType) : (slotsOf t).length ≤ 2 := by
  unfold slotsOf
  split
  · exact Nat.zero_le _
  · split <;> simp

/-- What a descriptor describes is put on the stack, in a table that has grown as well. -/
theorem pushDescriptor_spec (hs : types.Sound) (descriptor : String) :
    ∃ (ts : List FrameType) (grown : TypeTable) (e : Option Error),
    ts.length ≤ 6 ∧ (∀ t ∈ ts, Fixed t) ∧ (∀ f : Frame, f.pushDescriptor types descriptor = (f.pushAll ts, grown, e)) ∧
      ∀ later : TypeTable, later.Sound → grown.Extends later → ∀ f : Frame,
        f.pushDescriptor later descriptor = (f.pushAll ts, later, e) := by
  obtain ⟨n, hn, -⟩ := FrameType.described_ofValue hs hs (Descriptor.returnChars descriptor.toList)
  have hlater := fun (later : TypeTable) (hs' : later.Sound) =>
    FrameType.ofValue_of_extends hs hs' (Descriptor.returnChars descriptor.toList)
  unfold pushDescriptor FrameType.ofDescriptor
  generalize FrameType.ofValue types (Descriptor.returnChars descriptor.toList) = r at hn hlater
  obtain ⟨found, grown⟩ := r
  cases found with
  | none =>
    exact ⟨[], grown, _, Nat.zero_le _, fun _ ht => absurd ht List.not_mem_nil, fun _ => rfl,
      fun later hs' hext f => by rw [hlater later hs' hext]; rfl⟩
  | some t =>
    exact ⟨slotsOf t, grown, none, Nat.le_trans (length_slotsOf_le t) (by decide),
      fixed_slotsOf ((hn.value t rfl).imp_right And.left), fun _ => rfl,
      fun later hs' hext f => by rw [hlater later hs' hext]⟩

/-- A step that takes slots off the stack and puts on what a descriptor describes. -/
theorem exists_descriptor (hs : types.Sound) (descriptor : String) {n : Nat} {drops : Frame → Frame}
    (h : ∀ f, drops f = f.drop n) :
    ∃ m : Move, m.Valid ∧ Moves types (fun f T => (drops f).pushDescriptor T descriptor) m := by
  obtain ⟨ts, grown, e, hfew, hts, hpush, hlater⟩ := pushDescriptor_spec hs descriptor
  refine ⟨_, valid_owns n hfew hts, grown, e, fun f => ?_, fun later hs' hext f => ?_⟩
  · rw [moved_owns, ← h]
    exact hpush _
  · rw [moved_owns, ← h]
    exact hlater later hs' hext _

/-- A step that takes slots off the stack and puts a class on, or arrays of it. -/
theorem exists_object (hs : types.Sound) (name : String) (dims : BitVec 4) {n : Nat} {drops : Frame → Frame}
    (h : ∀ f, drops f = f.drop n) :
    ∃ m : Move, m.Valid ∧ Moves types
      (fun f T => ((drops f).push ⟨dims, .object (T.addNormal name).1⟩, (T.addNormal name).2, none)) m := by
  refine ⟨_, valid_owns n (show [(⟨dims, .object (types.addNormal name).1⟩ : FrameType)].length ≤ 6 by simp) ?_,
    (types.addNormal name).2, none, fun f => ?_,
    fun later hs' hext f => ?_⟩
  · intro t ht
    obtain rfl := List.mem_singleton.1 ht
    exact fun _ => rfl
  · rw [moved_owns, ← h]
    rfl
  · have hsame : later.addNormal name = ((types.addNormal name).1, later) := TypeTable.add_of_extends hs hs' hext
    dsimp only
    rw [moved_owns, ← h, hsame]
    rfl

/-- The effects of plain instructions. -/
theorem exists_bare (op : UInt8) : ∃ m : Move, m.Valid ∧ ∀ f : Frame, f.bare op = f.moved m := by
  unfold bare
  cases he : StackEffect.ofOpcode op with
  | replace pops pushes =>
    have hfew := StackEffect.puts_ofOpcode_le op
    rw [he] at hfew
    exact ⟨_, valid_owns pops hfew fun t ht => fixed_plain (plain_of_mem_pushes he ht),
      fun f => (moved_owns f pops pushes).symm⟩
  | shuffle depth order =>
    have hcases : ∀ (i : Nat) (p : Put), (if i - 1 < depth then Put.slot (i - 1) else .own .top) = p →
        p = .slot (i - 1) ∧ i - 1 < depth ∨ p = .own .top := by
      intro i p hp
      split at hp
      · exact Or.inl ⟨hp.symm, ‹_›⟩
      · exact Or.inr hp.symm
    have hfew := StackEffect.puts_ofOpcode_le op
    rw [he] at hfew
    refine ⟨⟨depth, none, order.map fun i => if i - 1 < depth then .slot (i - 1) else .own .top⟩,
      ⟨by rwa [List.length_map], fun _ hk => (nomatch hk), ?_, ?_, ?_, ?_⟩, fun f => ?_⟩
    · intro t ht
      obtain ⟨i, -, hi⟩ := List.mem_map.1 ht
      rcases hcases i _ hi with ⟨hp, -⟩ | hp
      · cases hp
      · obtain rfl := Put.own.inj hp
        exact fun _ => rfl
    · intro k hk
      obtain ⟨i, -, hi⟩ := List.mem_map.1 hk
      rcases hcases i _ hi with ⟨hp, hlt⟩ | hp
      · exact Put.slot.inj hp ▸ hlt
      · cases hp
    · intro k hk
      obtain ⟨i, -, hi⟩ := List.mem_map.1 hk
      rcases hcases i _ hi with ⟨hp, -⟩ | hp <;> cases hp
    · intro k hk
      obtain ⟨i, -, hi⟩ := List.mem_map.1 hk
      rcases hcases i _ hi with ⟨hp, -⟩ | hp <;> cases hp
    · have happly : f.apply (.shuffle depth order) =
          (popMany depth f).2.pushAll (order.map fun i => (popMany depth f).1.getD (i - 1) .top) := rfl
      rw [happly, popMany_eq]
      unfold moved
      dsimp only
      rw [List.map_map]
      refine congrArg (f.drop depth).pushAll (List.map_congr_left fun i _ => ?_)
      by_cases hlt : i - 1 < depth
      · simp [hlt, Put.type]
      · simp [hlt, Put.type]
  | loadElement =>
    refine ⟨⟨2, none, [.element 1]⟩, ⟨by simp, fun _ hk => (nomatch hk), ?_, ?_, ?_, ?_⟩, fun f => ?_⟩
    · simp
    · simp
    · simp
    · simp
    · unfold apply moved
      rw [pop_eq, below_drop, drop_drop]
      rfl

/-- An instruction with a number is a move. -/
theorem exists_immediate (op : UInt8) (operand : Int32) :
    ∃ m : Move, m.Valid ∧ ∀ f : Frame, f.immediate op operand = f.moved m := by
  unfold immediate
  by_cases hop : (op == Opcode.newarray) = true
  · refine ⟨_, valid_owns 1 (show [(newArrayElement operand.toUInt32.toUInt8).arrayOf].length ≤ 6 by simp) fun t ht => ?_,
      fun f => ?_⟩
    · obtain rfl := List.mem_singleton.1 ht
      exact fixed_plain (plain_newArrayElement _)
    · rw [if_pos hop, moved_owns]
      rfl
  · refine ⟨_, valid_owns 0 (show [FrameType.integer].length ≤ 6 by decide) fun t ht => ?_, fun f => ?_⟩
    · obtain rfl := List.mem_singleton.1 ht
      exact fun _ => rfl
    · rw [if_neg hop, moved_owns, drop_zero]
      rfl

/-- A load of a local. -/
theorem exists_load {op : UInt8} (hop : op < Opcode.istore) (slot : UInt16) :
    ∃ m : Move, m.Valid ∧ ∀ f : Frame, f.moveLocal op slot.toNat = f.moved m := by
  have hne : ∀ store : UInt8, Opcode.istore ≤ store → (op == store) = false := fun store hle =>
    beq_eq_false_iff_ne.2 fun heq => absurd (UInt8.lt_of_lt_of_le hop hle) (heq ▸ UInt8.lt_irrefl _)
  have hplain : ∀ ts : List FrameType, ts.length ≤ 6 ∧ (∀ t ∈ ts, plain t = true) →
      (∀ f : Frame, f.moveLocal op slot.toNat = f.pushAll ts) →
      ∃ m : Move, m.Valid ∧ ∀ f : Frame, f.moveLocal op slot.toNat = f.moved m := fun ts ⟨hfew, hts⟩ heq =>
    ⟨_, valid_owns 0 hfew fun t ht => fixed_plain (hts t ht), fun f => by rw [heq, moved_owns, drop_zero]⟩
  by_cases hiload : (op == Opcode.iload) = true
  · exact hplain [.integer] (by decide) fun f => if_pos hiload
  by_cases hfload : (op == Opcode.fload) = true
  · exact hplain [.float] (by decide) fun f => by rw [moveLocal, if_neg hiload, if_pos hfload]; rfl
  by_cases hlload : (op == Opcode.lload) = true
  · exact hplain StackEffect.longSlots (by decide) fun f => by rw [moveLocal, if_neg hiload, if_neg hfload, if_pos hlload]
  by_cases hdload : (op == Opcode.dload) = true
  · exact hplain StackEffect.doubleSlots (by decide) fun f => by
      rw [moveLocal, if_neg hiload, if_neg hfload, if_neg hlload, if_pos hdload]
  by_cases haload : (op == Opcode.aload) = true
  · refine ⟨{ puts := [.ofLocal slot.toNat] },
      ⟨by simp, fun _ hk => (nomatch hk), by simp, by simp, by simp, fun i hi => ?_⟩, fun f => ?_⟩
    · obtain rfl : i = slot.toNat := by simpa using hi
      exact slot.toNat_lt
    · rw [moveLocal, if_neg hiload, if_neg hfload, if_neg hlload, if_neg hdload, if_pos haload, moved, drop_zero]
      rfl
  · refine hplain [] (by decide) fun f => ?_
    rw [moveLocal, if_neg hiload, if_neg hfload, if_neg hlload, if_neg hdload, if_neg haload, hne Opcode.istore (by decide),
      hne Opcode.fstore (by decide), hne Opcode.astore (by decide), hne Opcode.lstore (by decide),
      hne Opcode.dstore (by decide)]
    rfl

/-- An instruction with a class is a move, with what it does to the table. -/
theorem exists_typed (hs : types.Sound) (op : UInt8) (name : String) (offset : Nat) :
    ∃ m : Move, m.Valid ∧ Moves types (fun f T => f.typed T op name offset) m := by
  have harray : ∀ descriptor : String, ∃ m : Move, m.Valid ∧
    Moves types (fun f T => f.pop.2.pushDescriptor T descriptor) m :=
    fun descriptor => exists_descriptor hs descriptor pop_snd
  unfold typed
  by_cases hnew : (op == Opcode.newObject) = true
  · simp only [hnew, if_true]
    refine ⟨_, valid_owns 0 (show [FrameType.uninitialized (types.addUninitialized name offset).1].length ≤ 6 by simp)
      fun t ht => ?_, (types.addUninitialized name offset).2, none, fun f => ?_, fun later hs' hext f => ?_⟩
    · obtain rfl := List.mem_singleton.1 ht
      exact fun _ => rfl
    · rw [moved_owns, drop_zero]
      rfl
    · have hsame : later.addUninitialized name offset = ((types.addUninitialized name offset).1, later) :=
        TypeTable.add_of_extends hs hs' hext
      dsimp only
      rw [moved_owns, drop_zero, hsame]
      rfl
  simp only [hnew, Bool.false_eq_true, if_false]
  by_cases hmany : (op == Opcode.anewarray) = true
  · simp only [hmany, if_true]
    by_cases hname : isArrayName name = true
    · simp only [hname, if_true]
      exact harray _
    · simp only [hname, Bool.false_eq_true, if_false]
      exact exists_object hs name 1 pop_snd
  simp only [hmany, Bool.false_eq_true, if_false]
  by_cases hcast : (op == Opcode.checkcast) = true
  · simp only [hcast, if_true]
    by_cases hname : isArrayName name = true
    · simp only [hname, if_true]
      exact harray _
    · simp only [hname, Bool.false_eq_true, if_false]
      exact exists_object hs name 0 pop_snd
  · simp only [hcast, Bool.false_eq_true, if_false]
    refine ⟨_, valid_owns 1 (show [FrameType.integer].length ≤ 6 by decide) fun t ht => ?_, moves_owns fun f => rfl⟩
    obtain rfl := List.mem_singleton.1 ht
    exact fun _ => rfl

/-- An instruction with a field is a move, with what it does to the table. -/
theorem exists_field (hs : types.Sound) (op : UInt8) (descriptor : String) :
    ∃ m : Move, m.Valid ∧ Moves types (fun f T => f.field T op descriptor) m := by
  obtain ⟨n, hn⟩ := dropDescriptor_eq descriptor
  have hnone : ∀ n, Move.Valid { pops := n, puts := [].map .own } :=
    fun n => valid_owns n (by simp) fun _ ht => absurd ht List.not_mem_nil
  unfold field
  by_cases hget : (op == Opcode.getstatic) = true
  · simp only [hget, if_true]
    exact exists_descriptor hs descriptor fun f => (drop_zero f).symm
  simp only [hget, Bool.false_eq_true, if_false]
  by_cases hput : (op == Opcode.putstatic) = true
  · simp only [hput, if_true]
    exact ⟨_, hnone n, moves_owns hn⟩
  simp only [hput, Bool.false_eq_true, if_false]
  by_cases hfield : (op == Opcode.getfield) = true
  · simp only [hfield, if_true]
    exact exists_descriptor hs descriptor fun f => rfl
  · simp only [hfield, Bool.false_eq_true, if_false]
    refine ⟨_, hnone (n + 1), moves_owns fun f => ?_⟩
    rw [pop_snd, hn, drop_drop]
    rfl

/-- A call takes arguments off the stack and the receiver, of which it may be the constructor, and puts the result on. -/
theorem exists_invoke (hs : types.Sound) (op : UInt8) (name descriptor : String) :
    ∃ m : Move, m.Valid ∧ Moves types (fun f T => f.invoke T op name descriptor) m := by
  obtain ⟨n, hn⟩ := dropDescriptor_eq descriptor
  unfold invoke
  by_cases hstatic : (op == Opcode.invokestatic) = true
  · simp only [hstatic, if_true]
    exact exists_descriptor hs descriptor hn
  simp only [hstatic, Bool.false_eq_true, if_false]
  by_cases hinit : (op == Opcode.invokespecial && name.toList.head? == some '<') = true
  · simp only [hinit, if_true]
    obtain ⟨ts, grown, e, hfew, hts, hpush, hlater⟩ := pushDescriptor_spec hs descriptor
    obtain ⟨hfew', -, hown, hslot, helement, hlocal⟩ := valid_owns (n + 1) hfew hts
    have hmoved : ∀ f : Frame, (((f.dropDescriptor descriptor).pop.2).called
      (f.dropDescriptor descriptor).pop.1).pushAll ts =
        f.moved ⟨n + 1, some n, ts.map .own⟩ := by
      intro f
      have howned : (ts.map Put.own).map (Put.type f) = ts := by
        rw [List.map_map]
        exact List.map_id ts
      rw [moved, howned, pop_snd, hn, drop_drop]
      rfl
    refine ⟨⟨n + 1, some n, ts.map .own⟩, ⟨hfew', fun k hk => ?_, hown, hslot, helement, hlocal⟩, grown,
      e, fun f => ?_, fun later hs' hext f => ?_⟩
    · obtain rfl := Option.some.inj hk
      exact Nat.lt_succ_self _
    · rw [← hmoved]
      exact hpush _
    · rw [← hmoved]
      exact hlater later hs' hext _
  · simp only [hinit, Bool.false_eq_true, if_false]
    refine exists_descriptor (n := n + 1) hs descriptor fun f => ?_
    rw [pop_snd, hn, drop_drop]

/-- A constant is a move, with what it does to the table. -/
theorem exists_constant (hs : types.Sound) (value : ConstantValue) :
    ∃ m : Move, m.Valid ∧ Moves types (fun f T => f.constant T value) m := by
  have hplain : ∀ ts : List FrameType, ts.length ≤ 6 ∧ (∀ t ∈ ts, plain t = true) →
      (∀ (f : Frame) T, f.constant T value = (f.pushAll ts, T, none)) → ∃ m : Move, m.Valid ∧
      Moves types (fun f T => f.constant T value) m := by
    rintro ts ⟨hfew, hts⟩ heq
    simp only [heq]
    exact ⟨_, valid_owns 0 hfew fun t ht => fixed_plain (hts t ht), moves_owns fun f => by rw [drop_zero]⟩
  cases value with
  | integer v => exact hplain [.integer] (by decide) fun _ _ => rfl
  | float v => exact hplain [.float] (by decide) fun _ _ => rfl
  | long v => exact hplain StackEffect.longSlots (by decide) fun _ _ => rfl
  | double v => exact hplain StackEffect.doubleSlots (by decide) fun _ _ => rfl
  | dynamic name descriptor bootstrap arguments => exact exists_descriptor hs descriptor fun f => (drop_zero f).symm
  | _ => exact exists_object hs _ 0 fun f => (drop_zero f).symm

/-- A jump only drops slots. -/
theorem exists_jump (op : UInt8) : ∃ n, ∀ f : Frame, f.jump op = f.drop n := by
  unfold jump
  split
  · exact ⟨1, fun _ => rfl⟩
  · split
    · exact ⟨2, fun _ => rfl⟩
    · exact ⟨0, fun f => (drop_zero f).symm⟩

end Moves

namespace Operation

/-- Whether an instruction stores what it takes off the stack in a local. -/
def stores : Operation → Bool
  | moveLocal op _ => op ≥ Opcode.istore
  | _ => false

end Operation

/-- An instruction that leaves the locals alone does a move. -/
theorem exists_move {types : TypeTable} (hs : types.Sound) {i : Operation} (hi : i.stores = false)
    (hcounter : ∀ slot, i ≠ .increment slot) :
    ∃ m : Move, m.Valid ∧ Moves types (fun f T => f.execute T i) m := by
  have hstep : ∀ {step : Frame → Frame}, (∃ m : Move, m.Valid ∧ ∀ f, step f = f.moved m) →
      ∃ m : Move, m.Valid ∧ Moves types (fun f T => (step f, T, none)) m := fun ⟨m, hm, heq⟩ => ⟨m, hm, moves_of_eq heq⟩
  have hdrop : ∀ {step : Frame → Frame} {n : Nat}, (∀ f, step f = f.drop n) →
      ∃ m : Move, m.Valid ∧ Moves types (fun f T => (step f, T, none)) m := fun heq =>
    ⟨_, valid_owns _ (by simp) fun _ ht => absurd ht List.not_mem_nil, moves_owns heq⟩
  cases i with
  | bare op => exact hstep (exists_bare op)
  | immediate op operand => exact hstep (exists_immediate op operand)
  | moveLocal op slot => exact hstep (exists_load (UInt8.not_le.1 (of_decide_eq_false hi)) slot)
  | increment slot => exact absurd rfl (hcounter slot)
  | typed op name offset => exact exists_typed hs op name offset
  | field op descriptor => exact exists_field hs op descriptor
  | invoke op name descriptor => exact exists_invoke hs op name descriptor
  | invokeDynamic descriptor =>
    obtain ⟨n, hn⟩ := dropDescriptor_eq descriptor
    exact exists_descriptor hs descriptor hn
  | constant value => exact exists_constant hs value
  | jump op =>
    obtain ⟨n, hn⟩ := exists_jump op
    exact hdrop hn
  | switch => exact hdrop fun _ => rfl
  | multiArray descriptor dimensions => exact exists_descriptor hs descriptor fun _ => rfl

end Frame

end ClassFile
