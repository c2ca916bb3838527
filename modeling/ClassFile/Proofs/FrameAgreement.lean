import ClassFile.Proofs.FrameMeaning
import Mathlib.Data.List.Forall2

/-!
# Frames that say the same

Two frames, each with its own type table, agree if their locals and stacks come to the same types by name, whatever their
inputs. Instructions keep frames in agreement: what they do is done to what the types come to. The heights that the stacks
have reached are compared up to what has been reached before.
-/

namespace ClassFile

namespace Frame

/-- A frame and another one with the same locals and stack, in which nothing more than `reached` was reached before. -/
structure Agree (className : String) (reached : Nat) (later : List TypeEntry) (f : Frame) (types : TypeTable) (g : Frame)
    (types' : TypeTable) : Prop where
  left : f.WellFormed types later
  right : g.WellFormed types' []
  smallLeft : f.stack.size < 2 ^ 23
  smallRight : g.stack.size < 2 ^ 23
  size : g.locals.size = f.locals.size
  locals : ∀ i < f.locals.size, f.value types className (f.current i) = g.value types' className (g.current i)
  stack : f.pending.map (f.value types className) = g.pending.map (g.value types' className)
  reach : f.reach = max reached g.reach

/-- Two types that may stand in two frames and come to the same. -/
structure SameValue (className : String) (later : List TypeEntry) (f : Frame) (types : TypeTable) (t : FrameType) (g : Frame)
    (types' : TypeTable) (u : FrameType) : Prop where
  left : t.Known types later f.locals.size f.stack.size
  right : u.Known types' [] g.locals.size g.stack.size
  value : f.value types className t = g.value types' className u

section Agree

variable {className : String} {reached : Nat} {later : List TypeEntry} {f g : Frame} {types types' : TypeTable}
  {t u : FrameType}

/-- Frames that agree have stacks of one height. -/
theorem Agree.length_pending (h : Agree className reached later f types g types') : f.pending.length = g.pending.length := by
  simpa using congrArg List.length h.stack

/-- Two types come to the same in all frames with these inputs. -/
theorem SameValue.congr {f' g' : Frame} (h : SameValue className later f types t g types' u) (hf : SameInput f f')
    (hg : SameInput g g') : SameValue className later f' types t g' types' u where
  left := by
    rw [hf.locals, hf.stack]
    exact h.left
  right := by
    rw [hg.locals, hg.stack]
    exact h.right
  value := by
    rw [hf.value, hg.value]
    exact h.value

/-- Frames that agree do so with two values pushed that come to the same. -/
theorem Agree.push (h : Agree className reached later f types g types')
    (ht : SameValue className later f types t g types' u) :
    Agree className reached later (f.push t) types (g.push u) types' where
  left := h.left.push ht.left
  right := h.right.push ht.right
  smallLeft := h.smallLeft
  smallRight := h.smallRight
  size := h.size
  locals := h.locals
  stack := by
    rw [pending_push, pending_push, (sameInput_push f t).value, (sameInput_push g u).value, List.map_cons, List.map_cons,
      h.stack, ht.value]
  reach := by
    have hl := h.length_pending
    rw [Frame.length_pending, Frame.length_pending, heightAfter, heightAfter, untouched, untouched] at hl
    have hp := h.reach
    unfold Frame.reach at hp ⊢
    have hc := h.left.consumed
    have hc' := h.right.consumed
    have hh := h.left.height
    have hh' := h.right.height
    change f.stack.size + max f.peak (f.outStack.size + 1 - f.consumed) =
      max reached (g.stack.size + max g.peak (g.outStack.size + 1 - g.consumed))
    omega

/-- Frames that agree do so with values pushed that come to the same one by one. -/
theorem Agree.pushAll {ts us : List FrameType} (h : Agree className reached later f types g types')
    (hts : List.Forall₂ (fun t u => SameValue className later f types t g types' u) ts us) :
    Agree className reached later (f.pushAll ts) types (g.pushAll us) types' := by
  induction ts generalizing us f g with
  | nil =>
    cases hts
    exact h
  | cons t ts ih =>
    cases hts with
    | @cons _ u _ us htu hrest =>
      have hpushed : Agree className reached later ((f.push t).pushAll ts) types ((g.push u).pushAll us) types' :=
        ih (h.push htu) (hrest.imp fun _ _ hs => hs.congr (sameInput_push f t) (sameInput_push g u))
      exact hpushed

theorem Agree.drop (h : Agree className reached later f types g types') {n : Nat}
    (hn : (g.drop n).consumed ≤ g.stack.size) : Agree className reached later (f.drop n) types (g.drop n) types' := by
  have hng := (consumed_drop_le h.right.consumed).1 hn
  have hnf : n ≤ f.pending.length := h.length_pending ▸ hng
  have hf := sameInput_drop f n
  have hg := sameInput_drop g n
  have peak_drop : ∀ f : Frame, (f.drop n).peak = f.peak ∧ (f.drop n).current = f.current := by
    intro f
    unfold Frame.drop
    split <;> exact ⟨rfl, rfl⟩
  refine ⟨h.left.drop hnf, h.right.drop hng, hf.stack ▸ h.smallLeft, hg.stack ▸ h.smallRight, ?_, ?_, ?_, ?_⟩
  · rw [hg.locals, hf.locals, h.size]
  · rw [hf.locals, hf.value, hg.value, (peak_drop f).2, (peak_drop g).2]
    exact h.locals
  · rw [pending_drop, pending_drop, hf.value, hg.value, List.map_drop, List.map_drop, h.stack]
  · unfold Frame.reach
    rw [hf.stack, hg.stack, (peak_drop f).1, (peak_drop g).1]
    exact h.reach

/-- Popping leaves the greatest height alone. -/
theorem peak_pop (f : Frame) : f.pop.2.peak = f.peak := by
  rcases outStack_cases f with h | ⟨ts, t, h⟩
  · rw [pop_of_empty h]
  · rw [pop_of_push h]

/-- Popping leaves the locals alone. -/
theorem current_pop (f : Frame) : f.pop.2.current = f.current := by
  rcases outStack_cases f with h | ⟨ts, t, h⟩
  · rw [pop_of_empty h]
    rfl
  · rw [pop_of_push h]
    rfl

theorem Agree.pop (h : Agree className reached later f types g types') (hn : g.pop.2.consumed ≤ g.stack.size) :
    Agree className reached later f.pop.2 types g.pop.2 types' ∧
      SameValue className later f types f.pop.1 g types' g.pop.1 := by
  have hlen := h.length_pending
  have hng := (consumed_pop_le h.right.consumed).1 hn
  have hnf : 0 < f.pending.length := by omega
  have hf := sameInput_pop f
  have hg := sameInput_pop g
  have hl := h.left.pop h.smallLeft hnf
  have hr := h.right.pop h.smallRight hng
  refine ⟨⟨hl.1, hr.1, hf.stack ▸ h.smallLeft, hg.stack ▸ h.smallRight, ?_, ?_, ?_, ?_⟩, hl.2, hr.2, ?_⟩
  · rw [hg.locals, hf.locals, h.size]
  · rw [hf.locals, hf.value, hg.value, current_pop, current_pop]
    exact h.locals
  · rw [pending_pop, pending_pop, hf.value, hg.value, List.map_tail, List.map_tail, h.stack]
  · unfold Frame.reach
    rw [hf.stack, hg.stack, peak_pop, peak_pop]
    exact h.reach
  · obtain ⟨a, as, ha⟩ := List.exists_cons_of_length_pos hnf
    obtain ⟨b, bs, hb⟩ := List.exists_cons_of_length_pos hng
    have hs := h.stack
    rw [ha, hb, List.map_cons, List.map_cons] at hs
    rw [h.left.value_pop h.smallLeft ha, h.right.value_pop h.smallRight hb]
    exact (List.cons.inj hs).1

theorem sameInput_refl (f : Frame) : SameInput f f :=
  ⟨rfl, rfl, rfl⟩

theorem SameInput.trans {f g k : Frame} (h : SameInput f g) (h' : SameInput g k) : SameInput f k :=
  ⟨h'.locals.trans h.locals, h'.stack.trans h.stack, h'.constructed.trans h.constructed⟩

/-- Popping several slots leaves the input alone. -/
theorem sameInput_popMany (f : Frame) (n : Nat) : SameInput f (popMany n f).2 := by
  induction n generalizing f with
  | zero => exact sameInput_refl f
  | succ n ih => exact (sameInput_pop f).trans (ih f.pop.2)

/-- Popping several slots gives nothing back to the input. -/
theorem consumed_le_popMany (f : Frame) (n : Nat) : f.consumed ≤ (popMany n f).2.consumed := by
  induction n generalizing f with
  | zero => exact Nat.le_refl _
  | succ n ih => exact Nat.le_trans (consumed_le_pop f) (ih f.pop.2)

theorem SameInput.symm {f g : Frame} (h : SameInput f g) : SameInput g f :=
  ⟨h.locals.symm, h.stack.symm, h.constructed.symm⟩

theorem Agree.popMany (h : Agree className reached later f types g types') {n : Nat}
    (hn : (popMany n g).2.consumed ≤ g.stack.size) :
    Agree className reached later (popMany n f).2 types (popMany n g).2 types' ∧
      List.Forall₂ (fun t u => SameValue className later f types t g types' u) (popMany n f).1 (popMany n g).1 := by
  induction n generalizing f g with
  | zero => exact ⟨h, List.Forall₂.nil⟩
  | succ n ih =>
    have hpop := h.pop (Nat.le_trans (consumed_le_popMany g.pop.2 n) hn)
    obtain ⟨hrest, hvalues⟩ := ih hpop.1 (by rwa [(sameInput_pop g).stack])
    refine ⟨hrest, List.Forall₂.cons hpop.2 (hvalues.imp fun _ _ hs => ?_)⟩
    exact hs.congr (sameInput_pop f).symm (sameInput_pop g).symm

theorem Agree.setLocal (h : Agree className reached later f types g types') (i : Nat)
    (ht : SameValue className later f types t g types' u) :
    Agree className reached later (f.setLocal i t) types (g.setLocal i u) types' where
  left := h.left.setLocal i ht.left
  right := h.right.setLocal i ht.right
  smallLeft := h.smallLeft
  smallRight := h.smallRight
  size := h.size
  locals := by
    intro j hj
    rw [current_setLocal f i j ht.left.isUnset_eq_false, current_setLocal g i j ht.right.isUnset_eq_false]
    split
    · exact ht.value
    · exact h.locals j hj
  stack := h.stack
  reach := h.reach

/-- What is unusable in one frame is so in the other. -/
theorem sameValue_top : SameValue className later f types .top g types' .top :=
  ⟨known_top, known_top, by rw [value_top, value_top]⟩

/-- A local comes to the same in two frames that agree. -/
theorem Agree.getLocal (h : Agree className reached later f types g types') {i : Nat} (hi : i < g.locals.size)
    (h23 : i < 2 ^ 23) : SameValue className later f types (f.getLocal i) g types' (g.getLocal i) where
  left := h.left.getLocal (h.size ▸ hi) h23
  right := h.right.getLocal hi h23
  value := by
    rw [h.left.value_getLocal h23, h.right.value_getLocal h23]
    exact h.locals i (h.size ▸ hi)

theorem Agree.spoil (h : Agree className reached later f types g types') {i : Nat} (hi : i < g.locals.size)
    (h23 : i < 2 ^ 23) : Agree className reached later (f.spoil i) types (g.spoil i) types' := by
  have hif : i < f.locals.size := h.size ▸ hi
  have hf := sameInput_spoil f i
  have hg := sameInput_spoil g i
  have unspoilt : ∀ f : Frame, (f.spoil i).pending = f.pending ∧ (f.spoil i).peak = f.peak := by
    intro f
    unfold Frame.spoil
    split
    · exact ⟨rfl, rfl⟩
    · split <;> exact ⟨rfl, rfl⟩
  refine ⟨h.left.spoil hif h23, h.right.spoil hi h23, hf.stack ▸ h.smallLeft, hg.stack ▸ h.smallRight, ?_, ?_, ?_, ?_⟩
  · rw [hg.locals, hf.locals, h.size]
  · intro j hj
    rw [hf.locals] at hj
    rw [hf.value, hg.value, h.left.value_spoil hif h23, h.right.value_spoil hi h23, h.locals i hif, h.locals j hj]
  · rw [(unspoilt f).1, (unspoilt g).1, hf.value, hg.value]
    exact h.stack
  · unfold Frame.reach
    rw [(unspoilt f).2, (unspoilt g).2, hf.stack, hg.stack]
    exact h.reach

theorem Agree.store (h : Agree className reached later f types g types') {i : Nat} {wide : Bool}
    (hi : i + 1 ≤ g.locals.size) (h23 : i < 2 ^ 23)
    (ht : SameValue className later f types t g types' u) :
    Agree className reached later (f.store i t wide) types (g.store i u wide) types' := by
  have hset : Agree className reached later (if wide then (f.setLocal i t).setLocal (i + 1) .top else f.setLocal i t) types
      (if wide then (g.setLocal i u).setLocal (i + 1) .top else g.setLocal i u) types' := by
    have h₁ := h.setLocal i ht
    cases wide with
    | false => exact h₁
    | true => exact h₁.setLocal (i + 1) sameValue_top
  rw [store_eq, store_eq]
  dsimp only
  by_cases h0 : i = 0
  · rw [if_pos h0, if_pos h0]
    exact hset
  · rw [if_neg h0, if_neg h0]
    have hlt : i - 1 < g.locals.size := by omega
    have hlt' : i - 1 < 2 ^ 23 := by omega
    have hlocals : (if wide then (g.setLocal i u).setLocal (i + 1) .top else g.setLocal i u).locals = g.locals := by
      split
      · exact ((sameInput_setLocal g i u).trans (sameInput_setLocal _ (i + 1) .top)).locals
      · exact (sameInput_setLocal g i u).locals
    refine hset.spoil ?_ hlt'
    rw [hlocals]
    exact hlt

/-! ## Growing tables -/

/-- A type that is settled has no other number. -/
theorem numbered_settled (h : t.Numbered types) : t.settled.Numbered types := by
  unfold FrameType.settled
  split
  · trivial
  · exact h

/-- What types come to stays while the table grows. -/
theorem WellFormed.value_mono (h : f.WellFormed types later) {grown : TypeTable} (hg : types.Extends grown)
    (ht : t.Known types later f.locals.size f.stack.size) : f.value grown className t = f.value types className t := by
  have hsaid : ∀ u : FrameType, u.Known types later f.locals.size f.stack.size → f.said grown u = f.said types u := by
    intro u hu
    exact FrameType.named_of_extends hg (numbered_settled (h.known_resolve hu).numbered)
  have hconstructed : f.constructed.toList.map (f.said grown) = f.constructed.toList.map (f.said types) :=
    List.map_congr_left fun u hu => hsaid u (h.constructed u (Array.mem_toList_iff.1 hu))
  rw [value, value, hsaid t ht, hconstructed]

/-- The types of locals may stand in the frame. -/
theorem WellFormed.known_current (h : f.WellFormed types later) (i : Nat) :
    (f.current i).Known types later f.locals.size f.stack.size := by
  have hinput : (f.locals.getD i .top).Known types later f.locals.size f.stack.size := (h.known_input i).weaken
  unfold current
  cases hi : f.outLocals[i]? with
  | none => exact hinput
  | some t =>
    by_cases hu : t.isUnset = true
    · simp only [hu, if_true]
      exact hinput
    · simp only [hu]
      rcases h.outLocals t (Array.mem_of_getElem? hi) with rfl | hk
      · exact absurd rfl hu
      · exact hk

/-- The types of the stack may stand in the frame. -/
theorem WellFormed.known_pending (h : f.WellFormed types later) (ht : t ∈ f.pending) :
    t.Known types later f.locals.size f.stack.size := by
  rcases List.mem_append.1 ht with ht | ht
  · exact h.outStack t (by simpa using ht)
  · exact (h.stack t (Array.mem_toList_iff.1 (List.mem_of_mem_take (List.mem_reverse.1 ht)))).weaken

theorem Agree.mono (h : Agree className reached later f types g types') {grown grown' : TypeTable}
    {later' : List TypeEntry} (hs : grown.Sound) (hs' : grown'.Sound) (hg : types.Extends grown)
    (hg' : types'.Extends grown') (hl : ∀ e ∈ later', e ∈ later) :
    Agree className reached later' f grown g grown' where
  left := h.left.mono hs hg hl
  right := h.right.mono hs' hg' fun e he => he
  smallLeft := h.smallLeft
  smallRight := h.smallRight
  size := h.size
  locals := by
    intro i hi
    rw [h.left.value_mono hg (h.left.known_current i), h.right.value_mono hg' (h.right.known_current i)]
    exact h.locals i hi
  stack := by
    have hf : f.pending.map (f.value grown className) = f.pending.map (f.value types className) :=
      List.map_congr_left fun t ht => h.left.value_mono hg (h.left.known_pending ht)
    have hf' : g.pending.map (g.value grown' className) = g.pending.map (g.value types' className) :=
      List.map_congr_left fun t ht => h.right.value_mono hg' (h.right.known_pending ht)
    rw [hf, hf']
    exact h.stack
  reach := h.reach

/-! ## Types of values -/

/-- No constructor changes the type of a value. -/
theorem value_of_isValue (hv : t.shape.isValue = true) : f.value types className t = t.settled.named types := by
  have hr : f.resolve t = t := by
    obtain ⟨d, s⟩ := t
    cases s <;> first | rfl | cases hv
  have hfix : (t.settled.named types).initialized className = t.settled.named types := by
    obtain ⟨d, s⟩ := t
    cases s <;> first | exact ite_self _ | cases hv
  unfold value said NamedType.afterAll
  rw [hr, hfix, ite_self]

/-- Types that are one by name are so when they are settled. -/
theorem named_settled (h : t.named types = u.named types') : t.settled.named types = u.settled.named types' := by
  obtain ⟨d, s⟩ := t
  obtain ⟨d', s'⟩ := u
  obtain ⟨rfl, hs⟩ := NamedType.mk.inj h
  by_cases hn : s = .null
  · subst hn
    cases s' <;> cases hs
    rfl
  · have hn' : s' ≠ .null := by
      rintro rfl
      cases s <;> cases hs
      exact hn rfl
    rw [FrameType.settled_of_ne hn, FrameType.settled_of_ne hn']
    exact h

/-- Two values that are one by name come to the same. -/
theorem sameValue_of_named (hv : t.shape.isValue = true) (hv' : u.shape.isValue = true) (hn : t.Numbered types)
    (hn' : u.Numbered types') (h : t.named types = u.named types') :
    SameValue className later f types t g types' u :=
  ⟨FrameType.known_of_isValue hv hn, FrameType.known_of_isValue hv' hn', by
    rw [value_of_isValue hv, value_of_isValue hv', named_settled h]⟩

/-- Whether a type is that of a value and has no number. -/
def plain (t : FrameType) : Bool :=
  t.shape.isValue && !t.shape.isObject

/-- A type without a number comes to the same in all frames. -/
theorem sameValue_plain (h : plain t = true) : SameValue className later f types t g types' t := by
  obtain ⟨d, s⟩ := t
  cases s <;> first | exact sameValue_of_named rfl rfl trivial trivial rfl | cases h

/-- Types of values without numbers come to the same in all frames. -/
theorem sameValue_plains {ts : List FrameType} (h : ∀ t ∈ ts, plain t = true) :
    List.Forall₂ (fun t u => SameValue className later f types t g types' u) ts ts :=
  List.forall₂_same.2 fun t ht => sameValue_plain (h t ht)

theorem Agree.pushPlains {ts : List FrameType} (h : Agree className reached later f types g types')
    (hts : ∀ t ∈ ts, plain t = true) : Agree className reached later (f.pushAll ts) types (g.pushAll ts) types' :=
  h.pushAll (sameValue_plains hts)

/-- Whether a type is unset is seen from its name. -/
theorem named_isUnset (types : TypeTable) (t : FrameType) : t.isUnset = (t.named types == ⟨0, .plain .unset⟩) := by
  obtain ⟨d, s⟩ := t
  rw [Bool.eq_iff_iff]
  cases s <;> simp [FrameType.isUnset, FrameType.unset, FrameType.named, Shape.named]

/-- Whether a type takes two slots is seen from its name. -/
theorem isWide_eq_named (types : TypeTable) (t : FrameType) : t.isWide = (t.named types).isWide := by
  obtain ⟨d, s⟩ := t
  rw [Bool.eq_iff_iff]
  cases s <;> simp [FrameType.isWide, FrameType.long, FrameType.double, NamedType.isWide, FrameType.named, Shape.named]

/-- What a descriptor describes is put on the stack alike. -/
theorem Agree.pushDescriptor (h : Agree className reached later f types g types') (descriptor : String) :
    Agree className reached later (f.pushDescriptor types descriptor).1 (f.pushDescriptor types descriptor).2.1
      (g.pushDescriptor types' descriptor).1 (g.pushDescriptor types' descriptor).2.1 := by
  obtain ⟨n, hn, hn'⟩ := FrameType.described_ofValue h.left.sound h.right.sound (Descriptor.returnChars descriptor.toList)
  unfold Frame.pushDescriptor FrameType.ofDescriptor
  rcases hr : FrameType.ofValue types (Descriptor.returnChars descriptor.toList) with ⟨r, grown⟩
  rcases hr' : FrameType.ofValue types' (Descriptor.returnChars descriptor.toList) with ⟨r', grown'⟩
  rw [hr] at hn
  rw [hr'] at hn'
  have hgrown := h.mono hn.sound hn'.sound hn.grown hn'.grown fun e he => he
  have hnamed := hn.named.trans hn'.named.symm
  cases r with
  | none =>
    cases r' with
    | none => exact hgrown
    | some u => cases hnamed
  | some t =>
    cases r' with
    | none => cases hnamed
    | some u =>
      have htu : t.named grown = u.named grown' := Option.some.inj hnamed
      refine hgrown.pushAll ?_
      unfold slotsOf
      rw [named_isUnset grown t, named_isUnset grown' u, isWide_eq_named grown t, isWide_eq_named grown' u, htu]
      by_cases hu : (u.named grown' == ⟨0, .plain .unset⟩) = true
      · rw [if_pos hu, if_pos hu]
        exact List.Forall₂.nil
      · have hu' : u.isUnset ≠ true := fun e => hu ((named_isUnset grown' u).symm.trans e)
        have ht' : t.isUnset ≠ true := fun e => hu (htu ▸ (named_isUnset grown t).symm.trans e)
        obtain ⟨hv, hnum⟩ := (hn.value t rfl).resolve_left ht'
        obtain ⟨hv', hnum'⟩ := (hn'.value u rfl).resolve_left hu'
        have hsame : SameValue className later f grown t g grown' u := sameValue_of_named hv hv' hnum hnum' htu
        rw [if_neg hu, if_neg hu]
        split
        · exact List.Forall₂.cons hsame (List.Forall₂.cons sameValue_top List.Forall₂.nil)
        · exact List.Forall₂.cons hsame List.Forall₂.nil

/-- A class by its name is put on the stack alike, or arrays of it. -/
theorem Agree.pushObject (h : Agree className reached later f types g types') (name : String) (dims : BitVec 4) :
    Agree className reached later (f.push ⟨dims, .object (types.addNormal name).1⟩) (types.addNormal name).2
      (g.push ⟨dims, .object (types'.addNormal name).1⟩) (types'.addNormal name).2 := by
  obtain ⟨hs, hg, hi⟩ := TypeTable.addNormal_spec h.left.sound name
  obtain ⟨hs', hg', hi'⟩ := TypeTable.addNormal_spec h.right.sound name
  refine (h.mono hs hs' hg hg' fun e he => he).push (sameValue_of_named rfl rfl ⟨_, hi⟩ ⟨_, hi'⟩ ?_)
  simp [FrameType.named, Shape.named, TypeTable.name, hi, hi']

/-! ## Effects of plain instructions -/

/-- The types that instructions without operands put on the stack have no numbers. -/
theorem plain_of_mem_pushes {op : UInt8} {pops : Nat} {pushes : List FrameType}
    (he : StackEffect.ofOpcode op = .replace pops pushes) (ht : t ∈ pushes) : plain t = true := by
  have htable : ∀ row ∈ StackEffect.table, ∀ pops pushes, row.2 = .replace pops pushes → ∀ t ∈ pushes, plain t = true := by
    have hall : StackEffect.table.all (fun row =>
      match row.2 with
      | .replace _ pushes => pushes.all plain
      | _ => true) = true := by decide
    intro row hrow pops pushes hp t ht
    have := List.all_eq_true.1 hall row hrow
    rw [hp] at this
    exact List.all_eq_true.1 this t ht
  have hfind : StackEffect.find op.toNat = .replace pops pushes := by
    rw [← he]
    unfold StackEffect.ofOpcode StackEffect.effects
    rw [Array.getD_eq_getD_getElem?, Array.getElem?_ofFn, dif_pos op.toNat_lt]
    rfl
  unfold StackEffect.find at hfind
  cases hrow : StackEffect.table.find? fun row => row.1.contains op.toNat with
  | none =>
    rw [hrow] at hfind
    cases hfind
    cases ht
  | some row =>
    rw [hrow] at hfind
    exact htable row (List.mem_of_find?_eq_some hrow) pops pushes hfind t ht

/-- Pushing takes nothing off the input. -/
theorem consumed_pushAll (f : Frame) (ts : List FrameType) : (f.pushAll ts).consumed = f.consumed := by
  induction ts generalizing f with
  | nil => rfl
  | cons t ts ih => exact ih (f.push t)

/-- What is known of one of the slots taken off, or of none. -/
theorem sameValue_getD {ts us : List FrameType}
    (h : List.Forall₂ (fun t u => SameValue className later f types t g types' u) ts us) (i : Nat) :
    SameValue className later f types (ts.getD i .top) g types' (us.getD i .top) := by
  induction h generalizing i with
  | nil => exact sameValue_top
  | cons hh _ ih =>
    cases i with
    | zero => exact hh
    | succ i => exact ih i

/-- The elements of two arrays that come to the same come to the same. -/
theorem SameValue.elementOf (h : SameValue className later f types t g types' u)
    (hl : (g.value types' className u).Loadable) :
    SameValue className later f types t.elementOf g types' u.elementOf where
  left := h.left.of_shape rfl
  right := h.right.of_shape rfl
  value := by
    rw [value_elementOf h.right hl, ← h.value]
    refine value_elementOf h.left ?_
    rw [h.value]
    exact hl

theorem Agree.apply (h : Agree className reached later f types g types') {op : UInt8}
    (hn : (g.apply (StackEffect.ofOpcode op)).consumed ≤ g.stack.size)
    (ha : StackEffect.ofOpcode op = .loadElement → (g.value types' className (g.drop 1).pop.1).Loadable) :
    Agree className reached later (f.apply (StackEffect.ofOpcode op)) types (g.apply (StackEffect.ofOpcode op)) types' := by
  cases he : StackEffect.ofOpcode op with
  | replace pops pushes =>
    rw [he] at hn
    refine (h.drop ?_).pushPlains fun t ht => plain_of_mem_pushes he ht
    have hc : ((g.drop pops).pushAll pushes).consumed ≤ g.stack.size := hn
    rwa [consumed_pushAll] at hc
  | shuffle depth order =>
    rw [he] at hn
    have hc : (Frame.popMany depth g).2.consumed ≤ g.stack.size := by
      rw [← consumed_pushAll (Frame.popMany depth g).2]
      exact hn
    obtain ⟨hrest, hvalues⟩ := h.popMany hc
    have horder : List.Forall₂ (fun t u => SameValue className later (Frame.popMany depth f).2 types t
        (Frame.popMany depth g).2 types' u) (order.map fun i => (Frame.popMany depth f).1.getD (i - 1) .top)
        (order.map fun i => (Frame.popMany depth g).1.getD (i - 1) .top) := by
      rw [List.forall₂_map_left_iff, List.forall₂_map_right_iff]
      exact List.forall₂_same.2 fun i _ =>
        (sameValue_getD hvalues (i - 1)).congr (sameInput_popMany f depth) (sameInput_popMany g depth)
    exact hrest.pushAll horder
  | loadElement =>
    rw [he] at hn
    have hc : (g.drop 1).pop.2.consumed ≤ (g.drop 1).stack.size := by
      rw [(sameInput_drop g 1).stack]
      exact hn
    have hd : (g.drop 1).consumed ≤ g.stack.size := Nat.le_trans (consumed_le_pop _) hn
    obtain ⟨hrest, harray⟩ := (h.drop hd).pop hc
    have hl := ha he
    rw [← (sameInput_drop g 1).value] at hl
    have hpushed : Agree className reached later ((f.drop 1).pop.2.push (f.drop 1).pop.1.elementOf) types
        ((g.drop 1).pop.2.push (g.drop 1).pop.1.elementOf) types' :=
      hrest.push ((harray.elementOf hl).congr (sameInput_pop (f.drop 1)) (sameInput_pop (g.drop 1)))
    exact hpushed

end Agree

end Frame

end ClassFile
