import ClassFile.Proofs.FrameTypes
import Mathlib.Algebra.Group.Nat.Defs

/-!
# What a frame stands for

The types of a frame may name slots of its input, and objects whose constructors have been called still have the types of
uninitialised ones. `Frame.value` is what a type of a frame comes to, classes by name: the named slot looked up, and the
object initialised. `Frame.pending` is the stack as the instructions see it, the topmost slot first. Every operation on
frames is described by what it does to the two.
-/

namespace ClassFile

namespace Frame

/-- The stack as the instructions see it, the topmost slot first: what the block has put there, and below it what it has left
of its input. -/
def pending (f : Frame) : List FrameType :=
  f.outStack.toList.reverse ++ (f.stack.toList.take f.untouched).reverse

/-- What a type of the frame says of the input, before any constructor has run. -/
def said (f : Frame) (types : TypeTable) (t : FrameType) : NamedType :=
  (f.resolve t).settled.named types

/-- What a type of the frame comes to. -/
def value (f : Frame) (types : TypeTable) (className : String) (t : FrameType) : NamedType :=
  NamedType.afterAll className (f.constructed.toList.map (f.said types)) (f.said types t)

/-- Two frames with one input, in which the same constructors have been called. -/
structure SameInput (f g : Frame) : Prop where
  locals : g.locals = f.locals
  stack : g.stack = f.stack
  constructed : g.constructed = f.constructed

/-- What types say of the input depends on the input only. -/
theorem SameInput.said {f g : Frame} (h : SameInput f g) : g.said = f.said := by
  obtain ⟨locals, stack, _⟩ := h
  funext types t
  unfold Frame.said resolve
  rw [locals, stack]

/-- What types come to depends on the input and on the constructors only. -/
theorem SameInput.value {f g : Frame} (h : SameInput f g) : g.value = f.value := by
  funext types className t
  unfold Frame.value
  rw [h.said, h.constructed]

/-- Pushing leaves the input alone. -/
theorem sameInput_push (f : Frame) (t : FrameType) : SameInput f (f.push t) :=
  ⟨rfl, rfl, rfl⟩

/-- Setting a local leaves the input alone. -/
theorem sameInput_setLocal (f : Frame) (i : Nat) (t : FrameType) : SameInput f (f.setLocal i t) :=
  ⟨rfl, rfl, rfl⟩

theorem sameInput_pop (f : Frame) : SameInput f f.pop.2 := by
  unfold pop
  split <;> exact ⟨rfl, rfl, rfl⟩

theorem sameInput_drop (f : Frame) (n : Nat) : SameInput f (f.drop n) := by
  unfold drop
  split <;> exact ⟨rfl, rfl, rfl⟩

/-! ## The stack -/

@[simp] theorem pending_push (f : Frame) (t : FrameType) : (f.push t).pending = t :: f.pending := by
  simp [pending, push, untouched]

/-- The stack is as high as the frame says. -/
theorem length_pending (f : Frame) : f.pending.length = f.heightAfter := by
  simp [pending, heightAfter, untouched, Nat.add_comm]

/-- Dropping takes the topmost slots off the stack. -/
theorem pending_drop (f : Frame) (n : Nat) : (f.drop n).pending = f.pending.drop n := by
  have hl : f.outStack.toList.reverse.length = f.outStack.size := by simp
  unfold pending
  rw [List.drop_append, hl, List.drop_reverse, Array.length_toList]
  unfold drop
  by_cases h : n ≤ f.outStack.size
  · rw [if_pos h, Nat.sub_eq_zero_of_le h, List.drop_zero]
    simp [untouched]
  · have ho : f.outStack.size - n = 0 := by omega
    rw [if_neg h, ho, List.drop_reverse, List.take_take]
    simp only [untouched, List.take_zero, List.reverse_nil, List.nil_append, List.length_take, Array.length_toList]
    exact congrArg (fun k => (f.stack.toList.take k).reverse) (by omega)

/-- Where the block has put nothing, a slot of the input is popped. -/
theorem pop_of_empty {f : Frame} (h : f.outStack = #[]) :
    f.pop = (.stackSlot (f.consumed + 1), { f with consumed := f.consumed + 1 }) := by
  unfold pop
  rw [h]
  rfl

/-- What the block has put last is popped first. -/
theorem pop_of_push {f : Frame} {ts : Array FrameType} {t : FrameType} (h : f.outStack = ts.push t) :
    f.pop = (t, { f with outStack := ts }) := by
  unfold pop
  rw [h]
  simp

/-- The output stack is empty or has a topmost type. -/
theorem outStack_cases (f : Frame) :
    f.outStack = #[] ∨ ∃ (ts : Array FrameType) (t : FrameType), f.outStack = ts.push t := by
  by_cases h : f.outStack.size = 0
  · exact Or.inl (Array.eq_empty_of_size_eq_zero h)
  · obtain ⟨ts, t, e⟩ := Array.exists_push_of_size_pos (Nat.pos_of_ne_zero h)
    exact Or.inr ⟨ts, t, e⟩

/-- Popping takes the topmost slot off the stack. -/
theorem pending_pop (f : Frame) : f.pop.2.pending = f.pending.tail := by
  rcases outStack_cases f with h | ⟨ts, t, h⟩
  · rw [pop_of_empty h]
    simp only [pending, h, untouched, List.reverse_nil, List.nil_append, List.tail_reverse]
    rw [List.dropLast_eq_take, List.take_take, List.length_take, Array.length_toList]
    exact congrArg (fun k => (f.stack.toList.take k).reverse) (by omega)
  · rw [pop_of_push h]
    simp [pending, h, untouched]

/-- Popping gives nothing back to the input. -/
theorem consumed_le_pop (f : Frame) : f.consumed ≤ f.pop.2.consumed := by
  rcases outStack_cases f with h | ⟨ts, t, h⟩
  · rw [pop_of_empty h]
    exact Nat.le_succ _
  · exact Nat.le_of_eq (by rw [pop_of_push h])

/-- As much as there is on the stack can be taken off it. -/
theorem consumed_drop_le {f : Frame} (h : f.consumed ≤ f.stack.size) {n : Nat} :
    (f.drop n).consumed ≤ f.stack.size ↔ n ≤ f.pending.length := by
  rw [length_pending, heightAfter, untouched]
  unfold drop
  by_cases hn : n ≤ f.outStack.size
  · rw [if_pos hn]
    dsimp only
    omega
  · rw [if_neg hn]
    dsimp only
    omega

/-- Popping is possible as long as there is something on the stack. -/
theorem consumed_pop_le {f : Frame} (h : f.consumed ≤ f.stack.size) :
    f.pop.2.consumed ≤ f.stack.size ↔ 0 < f.pending.length := by
  rw [length_pending, heightAfter, untouched]
  rcases outStack_cases f with ho | ⟨ts, t, ho⟩
  · rw [pop_of_empty ho, ho]
    simp only [List.size_toArray, List.length_nil]
    omega
  · rw [pop_of_push ho, ho, Array.size_push]
    dsimp only
    omega

/-! ## Well-formed frames -/

/-- A frame all types of which may stand in it, which has not taken more off the stack than there was. -/
structure WellFormed (types : TypeTable) (later : List TypeEntry) (f : Frame) : Prop where
  sound : types.Sound
  locals : ∀ t ∈ f.locals, t.Known types later 0 0
  stack : ∀ t ∈ f.stack, t.Known types later 0 0
  outLocals : ∀ t ∈ f.outLocals, t = .unset ∨ t.Known types later f.locals.size f.stack.size
  outStack : ∀ t ∈ f.outStack, t.Known types later f.locals.size f.stack.size
  constructed : ∀ t ∈ f.constructed, t.Known types later f.locals.size f.stack.size
  consumed : f.consumed ≤ f.stack.size
  height : f.outStack.size ≤ f.consumed + f.peak

section WellFormed

variable {types : TypeTable} {later : List TypeEntry} {f : Frame} {t : FrameType} {className : String}

/-- A type that names no slot of the input stands for itself. -/
theorem resolve_of_known {n : List TypeEntry} (f : Frame) (h : t.Known types n 0 0) : f.resolve t = t := by
  obtain ⟨d, s⟩ := t
  have hp := h.place
  cases s with
  | localSlot n b => exact absurd hp (Nat.not_lt_zero n)
  | stackSlot n b =>
    obtain ⟨h₁, h₂⟩ := hp
    omega
  | straySlot k n b => exact hp.elim
  | _ => rfl

/-- The slot of a local is what its number says, as long as that keeps to its place. -/
theorem localSlot_eq {i : Nat} (h : i < 2 ^ 23) : FrameType.localSlot i = ⟨0, .localSlot i false⟩ :=
  FrameType.ofSlot_of_lt _ h

/-- The slot of the stack is what its number says, as long as that keeps to its place. -/
theorem stackSlot_eq {i : Nat} (h : i < 2 ^ 23) : FrameType.stackSlot i = ⟨0, .stackSlot i false⟩ :=
  FrameType.ofSlot_of_lt _ h

/-- What a local held is the local of the input. -/
theorem resolve_localSlot {i : Nat} (h : i < 2 ^ 23) : f.resolve (.localSlot i) = f.locals.getD i .top := by
  rw [localSlot_eq h]
  simp [resolve, FrameType.withDimensionsOf, FrameType.wantsTop, Array.getD_eq_getD_getElem?]

/-- What a slot of the stack held is that slot of the input, counted from the top. -/
theorem resolve_stackSlot {i : Nat} (h : i < 2 ^ 23) (hi : i ≤ f.stack.size) :
    f.resolve (.stackSlot i) = f.stack.getD (f.stack.size - i) .top := by
  rw [stackSlot_eq h]
  simp [resolve, FrameType.withDimensionsOf, FrameType.wantsTop, Array.getD_eq_getD_getElem?, hi]

/-- What a local held may stand in a frame that has the local. -/
theorem known_localSlot {i locals stack : Nat} (h : i < 2 ^ 23) (hi : i < locals) :
    (FrameType.localSlot i).Known types later locals stack := by
  rw [localSlot_eq h]
  exact ⟨trivial, hi, fun j hj => nomatch hj⟩

/-- What a slot of the stack held may stand in a frame that has the slot. -/
theorem known_stackSlot {i locals stack : Nat} (h : i < 2 ^ 23) (h₁ : 1 ≤ i) (h₂ : i ≤ stack) :
    (FrameType.stackSlot i).Known types later locals stack := by
  rw [stackSlot_eq h]
  exact ⟨trivial, ⟨h₁, h₂⟩, fun j hj => nomatch hj⟩

theorem known_top {locals stack : Nat} : FrameType.top.Known types later locals stack :=
  FrameType.known_of_isValue rfl trivial

/-- What a type stands for names no slot of the input. -/
theorem WellFormed.known_resolve (h : f.WellFormed types later) (ht : t.Known types later f.locals.size f.stack.size) :
    (f.resolve t).Known types later 0 0 := by
  have hinput : ∀ input : Option FrameType, (∀ x ∈ input, x.Known types later 0 0) →
      (if t.wantsTop && ((input.getD .top).withDimensionsOf t).isWide then FrameType.top
        else (input.getD .top).withDimensionsOf t).Known types later 0 0 := by
    intro input hin
    split
    · exact known_top
    · cases input with
      | none => exact known_top.of_shape rfl
      | some x => exact (hin x rfl).of_shape rfl
  obtain ⟨d, s⟩ := t
  cases s with
  | localSlot n b =>
    refine hinput f.locals[n]? fun x hx => h.locals x ?_
    exact Array.mem_of_getElem? hx
  | stackSlot n b =>
    refine hinput _ fun x hx => h.stack x ?_
    have hn : n ≤ f.stack.size := ht.place.2
    rw [if_pos hn] at hx
    exact Array.mem_of_getElem? hx
  | straySlot k n b => exact ht.place.elim
  | unset => exact ht.place.elim
  | _ => exact ⟨ht.numbered, trivial, ht.early⟩

/-! ### Operations keep frames well-formed -/

/-- A well-formed frame is so for a table that has grown, with less to come. -/
theorem WellFormed.mono {types' : TypeTable} {later' : List TypeEntry} (h : f.WellFormed types later) (hs : types'.Sound)
    (ht : types.Extends types') (hl : ∀ e ∈ later', e ∈ later) : f.WellFormed types' later' where
  sound := hs
  locals t hm := (h.locals t hm).mono ht hl
  stack t hm := (h.stack t hm).mono ht hl
  outLocals t hm := (h.outLocals t hm).imp_right fun hk => hk.mono ht hl
  outStack t hm := (h.outStack t hm).mono ht hl
  constructed t hm := (h.constructed t hm).mono ht hl
  consumed := h.consumed
  height := h.height

theorem WellFormed.push (h : f.WellFormed types later) (ht : t.Known types later f.locals.size f.stack.size) :
    (f.push t).WellFormed types later where
  sound := h.sound
  locals := h.locals
  stack := h.stack
  outLocals := h.outLocals
  outStack := by
    intro u hu
    rcases Array.mem_push.1 hu with hu | rfl
    · exact h.outStack u hu
    · exact ht
  constructed := h.constructed
  consumed := h.consumed
  height := by
    change (f.outStack.push t).size ≤ f.consumed + max f.peak (f.outStack.size + 1 - f.consumed)
    rw [Array.size_push]
    omega

/-- A well-formed frame may have as many slots dropped as there are. -/
theorem WellFormed.drop (h : f.WellFormed types later) {n : Nat} (hn : n ≤ f.pending.length) :
    (f.drop n).WellFormed types later := by
  have hc := (consumed_drop_le h.consumed).2 hn
  have hh := h.height
  unfold Frame.drop at hc ⊢
  split
  · refine ⟨h.sound, h.locals, h.stack, h.outLocals, ?_, h.constructed, h.consumed, ?_⟩
    · intro u hu
      refine h.outStack u ?_
      rw [← Array.mem_toList_iff] at hu ⊢
      rw [Array.toList_shrink] at hu
      exact List.mem_of_mem_take hu
    · dsimp only
      rw [Array.size_shrink]
      omega
  · rename_i hlt
    rw [if_neg hlt] at hc
    exact ⟨h.sound, h.locals, h.stack, h.outLocals, fun u hu => absurd hu (Array.not_mem_empty u), h.constructed, hc,
      Nat.zero_le _⟩

theorem WellFormed.pop (h : f.WellFormed types later) (hsmall : f.stack.size < 2 ^ 23) (hp : 0 < f.pending.length) :
    f.pop.2.WellFormed types later ∧ f.pop.1.Known types later f.locals.size f.stack.size := by
  have hc := (consumed_pop_le h.consumed).2 hp
  have hh := h.height
  rcases outStack_cases f with ho | ⟨ts, t, ho⟩
  · rw [pop_of_empty ho] at hc ⊢
    refine ⟨⟨h.sound, h.locals, h.stack, h.outLocals, h.outStack, h.constructed, hc, ?_⟩, ?_⟩
    · dsimp only
      omega
    · dsimp only at hc
      exact known_stackSlot (by omega) (by omega) hc
  · rw [pop_of_push ho]
    rw [ho, Array.size_push] at hh
    have hout := h.outStack
    rw [ho] at hout
    refine ⟨⟨h.sound, h.locals, h.stack, h.outLocals, fun u hu => hout u (Array.mem_push_of_mem _ hu), h.constructed,
      h.consumed, ?_⟩, hout t Array.mem_push_self⟩
    dsimp only
    omega

/-- What is taken off the stack comes to what was the topmost slot. -/
theorem WellFormed.value_pop (h : f.WellFormed types later) (hsmall : f.stack.size < 2 ^ 23) {rest : List FrameType}
    (hp : f.pending = t :: rest) :
    f.value types className f.pop.1 = f.value types className t := by
  suffices hr : f.resolve f.pop.1 = f.resolve t by
    unfold value said
    rw [hr]
  rcases outStack_cases f with ho | ⟨ts, u, ho⟩
  · rw [pop_of_empty ho]
    have hlt : f.consumed + 1 ≤ f.stack.size := by
      have := (consumed_pop_le h.consumed).2 (by rw [hp]; exact Nat.succ_pos _)
      rwa [pop_of_empty ho] at this
    have htop : t = f.stack.getD (f.stack.size - (f.consumed + 1)) .top := by
      have hget : f.pending[0]? = some t := by rw [hp]; rfl
      rw [pending, ho, untouched] at hget
      rw [Array.getD_eq_getD_getElem?]
      simp only [List.reverse_nil, List.nil_append] at hget
      rw [List.getElem?_reverse (by simp; omega)] at hget
      rw [List.length_take, Array.length_toList, List.getElem?_take] at hget
      rw [if_pos (by omega), Array.getElem?_toList] at hget
      rw [show f.stack.size - (f.consumed + 1) = min (f.stack.size - f.consumed) f.stack.size - 1 - 0 by omega, hget]
      rfl
    have hmem : t ∈ f.stack := by
      rw [htop, Array.getD_eq_getD_getElem?, Array.getElem?_eq_getElem (by omega)]
      exact Array.getElem_mem _
    rw [resolve_stackSlot (by omega) hlt, resolve_of_known f (h.stack t hmem), htop]
  · rw [pop_of_push ho]
    have hget : f.pending[0]? = some t := by rw [hp]; rfl
    rw [pending, ho] at hget
    simp at hget
    rw [hget]

/-! ### Locals -/

/-- What is known of a local: what the block has set it to, or else what it holds when the block is entered. -/
def current (f : Frame) (i : Nat) : FrameType :=
  match f.outLocals[i]? with
  | some t => if t.isUnset then f.locals.getD i .top else t
  | none => f.locals.getD i .top

/-- What is known of a local after one has been set. -/
theorem current_setLocal (f : Frame) (i j : Nat) (ht : t.isUnset = false) :
    (f.setLocal i t).current j = if j = i then t else f.current j := by
  have hout : (f.setLocal i t).outLocals[j]? =
      if i = j then some t else (extendTo f.outLocals (i + 1))[j]? := by
    change ((extendTo f.outLocals (i + 1)).setIfInBounds i t)[j]? = _
    rw [Array.getElem?_setIfInBounds]
    have hi : i < (extendTo f.outLocals (i + 1)).size := by
      simp [extendTo]
      omega
    by_cases hij : i = j
    · rw [if_pos hij, if_pos hij, if_pos (hij ▸ hi)]
    · rw [if_neg hij, if_neg hij]
  unfold current
  rw [hout]
  by_cases hij : j = i
  · rw [if_pos hij.symm, if_pos hij]
    simp [ht]
  · rw [if_neg (Ne.symm hij), if_neg hij]
    unfold extendTo
    rw [Array.getElem?_append]
    by_cases hlt : j < f.outLocals.size
    · rw [if_pos hlt]
      rfl
    · rw [if_neg hlt, Array.getElem?_eq_none (Nat.le_of_not_lt hlt), Array.getElem?_replicate]
      by_cases hin : j - f.outLocals.size < i + 1 - f.outLocals.size
      · rw [if_pos hin]
        rfl
      · rw [if_neg hin]
        rfl

theorem WellFormed.known_input (h : f.WellFormed types later) (i : Nat) :
    (f.locals.getD i .top).Known types later 0 0 := by
  rw [Array.getD_eq_getD_getElem?]
  cases hi : f.locals[i]? with
  | none => exact known_top
  | some t => exact h.locals t (Array.mem_of_getElem? hi)

/-- An instruction that looks at a local sees what is known of it. -/
theorem WellFormed.value_getLocal (h : f.WellFormed types later) {i : Nat} (h23 : i < 2 ^ 23) :
    f.value types className (f.getLocal i) = f.value types className (f.current i) := by
  have hinput : f.resolve (.localSlot i) = f.resolve (f.locals.getD i .top) := by
    rw [resolve_localSlot h23, resolve_of_known f (h.known_input i)]
  suffices hr : f.resolve (f.getLocal i) = f.resolve (f.current i) by
    unfold value said
    rw [hr]
  unfold Frame.getLocal current
  cases f.outLocals[i]? with
  | none => exact hinput
  | some t =>
    by_cases hu : t.isUnset = true
    · simp only [hu, if_true]
      exact hinput
    · simp [hu]

theorem WellFormed.getLocal (h : f.WellFormed types later) {i : Nat} (hi : i < f.locals.size) (h23 : i < 2 ^ 23) :
    (f.getLocal i).Known types later f.locals.size f.stack.size := by
  unfold Frame.getLocal
  split
  · rename_i u hu
    split
    · exact known_localSlot h23 hi
    · rename_i hne
      rcases h.outLocals u (Array.mem_of_getElem? hu) with rfl | hk
      · exact absurd rfl hne
      · exact hk
  · exact known_localSlot h23 hi

theorem WellFormed.setLocal (h : f.WellFormed types later) (i : Nat)
    (ht : t.Known types later f.locals.size f.stack.size) : (f.setLocal i t).WellFormed types later where
  sound := h.sound
  locals := h.locals
  stack := h.stack
  outLocals := by
    intro u hu
    change u ∈ (extendTo f.outLocals (i + 1)).setIfInBounds i t at hu
    rcases Array.mem_or_eq_of_mem_setIfInBounds hu with hu | rfl
    · rcases Array.mem_append.1 hu with hu | hu
      · exact h.outLocals u hu
      · exact Or.inl (Array.eq_of_mem_replicate hu)
    · exact Or.inr ht
  outStack := h.outStack
  constructed := h.constructed
  consumed := h.consumed
  height := h.height

/-- A local becomes unusable if it is the first half of a value of two slots. -/
def spoil (f : Frame) (i : Nat) : Frame :=
  if (f.getLocal i).isWide then f.setLocal i .top
  else if (f.getLocal i).shape.isConcrete then f
  else f.setLocal i (f.getLocal i).topIfWide

/-- A value is stored, the local behind it becomes unusable if it takes two, and the one before is spoilt. -/
theorem store_eq (f : Frame) (i : Nat) (t : FrameType) (wide : Bool) :
    f.store i t wide =
      let g := if wide then (f.setLocal i t).setLocal (i + 1) .top else f.setLocal i t
      if i = 0 then g else g.spoil (i - 1) := by
  unfold store spoil
  cases wide <;> rfl

/-- Whether a settled type takes two slots is seen from its name. -/
theorem named_isWide (types : TypeTable) (u : FrameType) : (u.settled.named types).isWide = u.isWide := by
  obtain ⟨d, s⟩ := u
  rw [Bool.eq_iff_iff]
  cases s <;> simp [FrameType.settled, FrameType.named, Shape.named, NamedType.isWide, FrameType.isWide, FrameType.null,
    FrameType.long, FrameType.double]

/-- A type of no usable value if what the slot holds takes two slots comes to that. -/
theorem value_topIfWide (ht : t.Known types later f.locals.size f.stack.size) (hs : t.shape.isConcrete = false) :
    f.value types className t.topIfWide =
      if (f.value types className t).isWide then .top else f.value types className t := by
  have hinput : ∀ (x : FrameType) (b : Bool),
      NamedType.afterAll className (f.constructed.toList.map (f.said types))
        ((if true && x.isWide then FrameType.top else x).settled.named types) =
      if ((if b && x.isWide then FrameType.top else x).settled.named types).isWide then .top
      else NamedType.afterAll className (f.constructed.toList.map (f.said types))
        ((if b && x.isWide then FrameType.top else x).settled.named types) := by
    intro x b
    have htop : NamedType.afterAll className (f.constructed.toList.map (f.said types))
      (FrameType.top.settled.named types) = .top := NamedType.afterAll_top _ _
    have hnarrow : FrameType.top.isWide = false := rfl
    by_cases hx : x.isWide = true
    · cases b <;> simp [hx, named_isWide, htop, hnarrow]
    · simp [hx, named_isWide]
  obtain ⟨d, s⟩ := t
  have hw := NamedType.isWide_afterAll className (f.constructed.toList.map (f.said types)) (f.said types ⟨d, s⟩)
  unfold value
  rw [hw]
  cases s with
  | localSlot n b => exact hinput _ b
  | stackSlot n b => exact hinput _ b
  | straySlot k n b => exact ht.place.elim
  | unset => exact ht.place.elim
  | _ => cases hs

/-- A type that stands for itself takes as many slots as what it comes to. -/
theorem isWide_value_of_concrete (ht : t.shape.isConcrete = true) :
    (f.value types className t).isWide = t.isWide := by
  have hr : f.resolve t = t := by
    obtain ⟨d, s⟩ := t
    cases s <;> first | rfl | cases ht
  rw [value, NamedType.isWide_afterAll, said, hr, named_isWide]

theorem value_top : f.value types className .top = .top :=
  NamedType.afterAll_top _ _

theorem known_topIfWide {u : FrameType} {locals stack : Nat} (h : u.Known types later locals stack) :
    u.topIfWide.Known types later locals stack := by
  obtain ⟨d, s⟩ := u
  have hp := h.place
  cases s with
  | localSlot n b => exact ⟨trivial, hp, fun j hj => nomatch hj⟩
  | stackSlot n b => exact ⟨trivial, hp, fun j hj => nomatch hj⟩
  | straySlot k n b => exact hp.elim
  | _ => exact h

/-- A well-formed frame may have a local spoilt. -/
theorem WellFormed.spoil (h : f.WellFormed types later) {i : Nat} (hi : i < f.locals.size) (h23 : i < 2 ^ 23) :
    (f.spoil i).WellFormed types later := by
  unfold Frame.spoil
  split
  · exact h.setLocal i known_top
  · split
    · exact h
    · exact h.setLocal i (known_topIfWide (h.getLocal hi h23))

theorem sameInput_spoil (f : Frame) (i : Nat) : SameInput f (f.spoil i) := by
  unfold spoil
  split
  · exact sameInput_setLocal f i _
  · split
    · exact ⟨rfl, rfl, rfl⟩
    · exact sameInput_setLocal f i _

/-- What locals come to when one of them may have been spoiled. -/
theorem WellFormed.value_spoil (h : f.WellFormed types later) {i : Nat} (hi : i < f.locals.size) (h23 : i < 2 ^ 23)
    (j : Nat) :
    f.value types className ((f.spoil i).current j) =
      if j = i ∧ (f.value types className (f.current i)).isWide then .top else f.value types className (f.current j) := by
  have hk := h.getLocal hi h23
  rw [← h.value_getLocal h23]
  unfold Frame.spoil
  by_cases hw : (f.getLocal i).isWide = true
  · have hc : (f.getLocal i).shape.isConcrete = true := by
      rcases Bool.or_eq_true_iff.1 hw with he | he <;> rw [eq_of_beq he] <;> rfl
    rw [if_pos hw, current_setLocal f i j rfl, isWide_value_of_concrete hc]
    by_cases hij : j = i
    · simp [hij, hw, value_top]
    · simp [hij]
  · rw [if_neg hw]
    by_cases hc : (f.getLocal i).shape.isConcrete = true
    · rw [if_pos hc, isWide_value_of_concrete hc]
      simp [hw]
    · rw [if_neg hc, current_setLocal f i j (known_topIfWide hk).isUnset_eq_false]
      by_cases hij : j = i
      · rw [if_pos hij, value_topIfWide hk (by simpa using hc), hij, ← h.value_getLocal h23]
        simp
      · simp [hij]

/-! ### Elements of arrays -/

/-- What no constructor changes has not been changed by one. -/
theorem afterAll_eq_of_dims {cs : List NamedType} {m v : NamedType} (h : NamedType.afterAll className cs m = v)
    (hv : v.dims ≠ 0 ∨ v = ⟨0, .plain .null⟩) : m = v := by
  unfold NamedType.afterAll at h
  split at h
  · obtain ⟨d, s⟩ := m
    unfold NamedType.initialized at h
    split at h
    · rename_i hd
      dsimp only at hd
      subst hd
      rcases hv with hv | rfl
      · cases s with
        | plain s => cases s <;> (subst h; exact absurd rfl hv)
        | _ => subst h; exact absurd rfl hv
      · cases s with
        | plain s => cases s <;> first | exact h | cases h
        | _ => cases h
    · exact h
  · exact h

/-- A type that is unusable if it takes two slots, and the type of what arrays of it hold. -/
theorem named_elementOf {r : FrameType} {b : Bool} {v : NamedType}
    (hr : (if b && r.isWide then FrameType.top else r).settled.named types = v) (hv : v.Loadable) :
    (if b && r.elementOf.isWide then FrameType.top else r.elementOf).settled.named types = v.element := by
  have htop : FrameType.top.settled.named types ≠ v := by
    rintro rfl
    rcases hv with e | ⟨hd, -⟩
    · cases e
    · exact absurd (show (0 : Int) < (0#4).toInt from hd) (by decide)
  have hr' : r.settled.named types = v := by
    by_cases hb : (b && r.isWide) = true
    · rw [if_pos hb] at hr
      exact absurd hr htop
    · rwa [if_neg hb] at hr
  obtain ⟨d, s⟩ := r
  by_cases hs : s = .null
  · subst hs hr'
    have hw : (FrameType.elementOf ⟨d, .null⟩).isWide = false := by
      rw [← named_isWide types]
      rfl
    rw [hw, Bool.and_false]
    rfl
  · have hset : ∀ e, FrameType.settled ⟨e, s⟩ = ⟨e, s⟩ := fun e => FrameType.settled_of_ne hs
    rw [hset] at hr'
    subst hr'
    rcases hv with e | ⟨hd, hw, hw', hshape⟩
    · obtain ⟨rfl, e'⟩ := NamedType.mk.inj e
      cases s <;> cases e'
      exact absurd rfl hs
    · have hw'' : (FrameType.elementOf ⟨d, s⟩).isWide = false := by
        rw [← named_isWide types, FrameType.elementOf, hset]
        exact hw'
      rw [hw'', Bool.and_false, if_neg Bool.false_ne_true, FrameType.elementOf, hset]
      have hne : s.named types ≠ .plain .null := by
        intro e
        cases s <;> cases e
        exact hs rfl
      exact (if_neg hne).symm

/-- An element of an array comes to an element of what the array comes to. -/
theorem value_elementOf (ht : t.Known types later f.locals.size f.stack.size)
    (hv : (f.value types className t).Loadable) :
    f.value types className t.elementOf = (f.value types className t).element := by
  have hsaid : f.said types t = f.value types className t := by
    refine afterAll_eq_of_dims rfl ?_
    rcases hv with e | ⟨hd, -⟩
    · exact Or.inr e
    · refine Or.inl fun e => ?_
      rw [e] at hd
      exact absurd hd (by decide)
  have helement : f.said types t.elementOf = (f.value types className t).element := by
    have hplain : ∀ r : FrameType, f.resolve t = r → f.resolve t.elementOf = r.elementOf →
        f.said types t.elementOf = (f.value types className t).element := by
      intro r h₁ h₂
      rw [said, h₂]
      exact named_elementOf (r := r) (b := false) (by rw [← h₁]; exact hsaid) hv
    have hslot : ∀ (x : FrameType) (b : Bool), f.resolve t =
        (if b && (x.withDimensionsOf t).isWide then FrameType.top else x.withDimensionsOf t) →
        f.resolve t.elementOf = (if b && (x.withDimensionsOf t.elementOf).isWide then FrameType.top
          else x.withDimensionsOf t.elementOf) →
        f.said types t.elementOf = (f.value types className t).element := by
      intro x b h₁ h₂
      have hx : x.withDimensionsOf t.elementOf = (x.withDimensionsOf t).elementOf := by
        simp only [FrameType.withDimensionsOf, FrameType.elementOf, FrameType.mk.injEq, and_true]
        bv_omega
      rw [said, h₂, hx]
      exact named_elementOf (by rw [← h₁]; exact hsaid) hv
    obtain ⟨d, s⟩ := t
    cases s with
    | localSlot n b => exact hslot _ b rfl rfl
    | stackSlot n b => exact hslot _ b rfl rfl
    | straySlot k n b => exact ht.place.elim
    | _ => exact hplain _ rfl rfl
  rw [value, helement]
  exact NamedType.afterAll_element className _ hv

end WellFormed

end Frame

end ClassFile
