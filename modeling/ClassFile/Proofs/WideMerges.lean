import ClassFile.Proofs.SearchKeeping
import ClassFile.Proofs.WideTypes

/-!
# Longs and doubles handed over

What a merge does to the slots of a frame, whatever types they hold: a local holds a long or a double
afterwards only if that has been handed over last (`Frame.HandsOver`), and what stood there before goes on to
what stands there now (`Frame.Becomes`).
-/

namespace ClassFile

namespace Frame

/-- An input of a block and a later one, as far as they go for longs and doubles: a stack that was empty may be
that of a handler later on. -/
structure Becomes (f g : Frame) : Prop where
  locals : ∀ i, (f.locals.getD i .top).Becomes (g.locals.getD i .top)
  stack : f.stack.size = 0 ∨ f.stack.size = g.stack.size ∧ ∀ i, (f.stack.getD i .top).Becomes (g.stack.getD i .top)

/-- The input of a block behind an edge holds what it may hold after a frame has been handed over, to
a handler its input as well. -/
structure HandsOver (f g : Frame) (handled : Option FrameType) : Prop where
  left : ∀ i, (g.locals.getD i .top).Absorbs (f.leftLocal i)
  input : handled.isSome = true → ∀ i, (g.locals.getD i .top).Absorbs (f.locals.getD i .top)

/-- What is handed over last in a local. -/
def handedLast (f : Frame) (handled : Option FrameType) (i : Nat) : FrameType :=
  if handled.isSome then f.locals.getD i .top else f.leftLocal i

section Slots

variable {h : Hierarchy} {types grown : TypeTable} {incoming : Nat → TypeTable → FrameType × TypeTable}
variable {slots : Array FrameType} {f g g' : Frame} {className : String} {handled : Option FrameType} {changed : Bool}
variable {count i n : Nat} {t u : FrameType}

theorem Becomes.refl (f : Frame) : f.Becomes f :=
  ⟨fun _ => .refl _, Or.inr ⟨rfl, fun _ => .refl _⟩⟩

theorem Becomes.trans {k : Frame} (hfg : f.Becomes g) (hgk : g.Becomes k) : f.Becomes k := by
  refine ⟨fun i => (hfg.locals i).trans (hgk.locals i), ?_⟩
  rcases hfg.stack with hempty | ⟨hsize, hstack⟩
  · exact Or.inl hempty
  · rw [hsize]
    exact hgk.stack.imp_right fun ⟨hsize', hstack'⟩ => ⟨hsize', fun i => (hstack i).trans (hstack' i)⟩

/-! ## What slots of the input stand for -/

/-- A long or a double that a slot of the input has stood for stands there still, or nothing of two slots does. -/
theorem Becomes.resolve (hb : f.Becomes g) (hwide : (f.resolve t).isWide = true) :
    g.resolve t = f.resolve t ∨ (g.resolve t).Narrow := by
  -- the same for a slot of the input by itself
  have hinput : ∀ a b : FrameType, (a.MadeWide → b = a ∨ b.Narrow) →
      (if t.wantsTop && (a.withDimensionsOf t).isWide then .top else a.withDimensionsOf t : FrameType).isWide = true →
      (if t.wantsTop && (b.withDimensionsOf t).isWide then .top else b.withDimensionsOf t) =
        (if t.wantsTop && (a.withDimensionsOf t).isWide then .top else a.withDimensionsOf t : FrameType) ∨
      (if t.wantsTop && (b.withDimensionsOf t).isWide then .top else b.withDimensionsOf t : FrameType).Narrow := by
    intro a b hab hw
    split at hw
    · cases hw
    · have hmade : (a.withDimensionsOf t).MadeWide := FrameType.madeWide_of_isWide hw
      rcases hab hmade with rfl | hnarrow
      · exact Or.inl rfl
      · have hnarrow : (b.withDimensionsOf t).Narrow := hnarrow
        rw [hnarrow.isWide, Bool.and_false, if_neg Bool.false_ne_true]
        exact Or.inr hnarrow
  have hlocal : ∀ slot : Nat, (f.locals[slot]?.getD .top).MadeWide →
      g.locals[slot]?.getD .top = f.locals[slot]?.getD .top ∨ (g.locals[slot]?.getD .top).Narrow := by
    intro slot
    rw [← Array.getD_eq_getD_getElem?, ← Array.getD_eq_getD_getElem?]
    exact (hb.locals slot).wide
  have hstack : ∀ slot : Nat, ((if slot ≤ f.stack.size then f.stack[f.stack.size - slot]? else none).getD .top).MadeWide →
      (if slot ≤ g.stack.size then g.stack[g.stack.size - slot]? else none).getD .top =
        (if slot ≤ f.stack.size then f.stack[f.stack.size - slot]? else none).getD .top ∨
      ((if slot ≤ g.stack.size then g.stack[g.stack.size - slot]? else none).getD .top).Narrow := by
    intro slot hmade
    rcases hb.stack with hempty | ⟨hsize, hslots⟩
    · rw [hempty, Array.getElem?_eq_none (by omega), ite_self] at hmade
      exact absurd hmade FrameType.narrow_top.not_madeWide
    · rw [← hsize]
      split
      · rename_i hle
        rw [if_pos hle] at hmade
        rw [← Array.getD_eq_getD_getElem?] at hmade ⊢
        rw [← Array.getD_eq_getD_getElem?]
        exact (hslots _).wide hmade
      · exact Or.inr FrameType.narrow_top
  obtain ⟨d, s⟩ := t
  cases s with
  | localSlot slot b => exact hinput _ _ (hlocal slot) hwide
  | stackSlot slot b => exact hinput _ _ (hstack slot) hwide
  | straySlot kind slot b => exact hinput _ _ (hstack slot) hwide
  | _ => exact Or.inl rfl

/-- The same of what a block leaves in a local. -/
theorem Becomes.leftLocal (hb : f.Becomes g) (he : g.effect = f.effect) (hwide : (f.leftLocal i).isWide = true) :
    g.leftLocal i = f.leftLocal i ∨ (g.leftLocal i).Narrow := by
  have hout : g.effect.outLocals = f.effect.outLocals := congrArg Frame.outLocals he
  change g.outLocals = f.outLocals at hout
  have hinput := fun hwide => (hb.locals i).wide (FrameType.madeWide_of_isWide hwide)
  unfold Frame.leftLocal at hwide ⊢
  rw [hout]
  split at hwide
  · rename_i u hu
    by_cases hunset : u.isUnset = true
    · rw [if_pos hunset] at hwide
      simp only [hunset, if_true]
      exact hinput hwide
    · rw [if_neg hunset] at hwide
      simp only [hunset, Bool.false_eq_true, if_false]
      exact hb.resolve hwide
  · exact hinput hwide

/-! ## Slots joined one by one -/

/-- What stands in a slot stands there whatever would stand in its place. -/
theorem getD_of_getElem? (ht : slots[i]? = some t) : slots.getD i u = t := by
  rw [Array.getD_eq_getD_getElem?, ht, Option.getD_some]

/-- Setting a slot changes no other one. -/
theorem getD_setIfInBounds_of_ne (slots : Array FrameType) (t : FrameType) {i j : Nat} (hij : i ≠ j) :
    (slots.setIfInBounds i t).getD j u = slots.getD j u := by
  rw [Array.getD_eq_getD_getElem?, Array.getElem?_setIfInBounds, if_neg hij, ← Array.getD_eq_getD_getElem?]

/-- Types join the slots from `i` on, one each, and no others. -/
theorem joinSlots_slot (h : Hierarchy) (incoming : Nat → TypeTable → FrameType × TypeTable) (n i : Nat)
    (slots : Array FrameType) (changed : Bool) (types : TypeTable) :
    let joined := (joinSlots h incoming n i slots changed types).1
    joined.size = slots.size ∧ ∀ j < slots.size, (j < i ∨ i + n ≤ j → joined[j]? = slots[j]?) ∧
      (i ≤ j → j < i + n → ∃ t t', joined[j]? =
      some (FrameType.mergeInto h t' (slots.getD j .unset) (incoming j t).1).1) := by
  induction n generalizing i slots changed types with
  | zero => exact ⟨rfl, fun j _ => ⟨fun _ => rfl, fun h₁ h₂ => by omega⟩⟩
  | succ n ih =>
    unfold joinSlots
    obtain ⟨hsize, hslots⟩ := ih (i + 1) (slots.setIfInBounds i
      (FrameType.mergeInto h (incoming i types).2 (slots.getD i .unset) (incoming i types).1).1)
      (changed || (FrameType.mergeInto h (incoming i types).2 (slots.getD i .unset) (incoming i types).1).2.1)
      (FrameType.mergeInto h (incoming i types).2 (slots.getD i .unset) (incoming i types).1).2.2
    rw [Array.size_setIfInBounds] at hsize hslots
    refine ⟨hsize, fun j hj => ?_⟩
    obtain ⟨hsame, hjoined⟩ := hslots j hj
    rw [Array.getElem?_setIfInBounds] at hsame
    refine ⟨fun hout => ?_, fun h₁ h₂ => ?_⟩
    · refine (hsame (by omega)).trans (if_neg ?_)
      rintro rfl
      omega
    · by_cases hij : i = j
      · subst hij
        refine ⟨types, (incoming i types).2, ?_⟩
        rw [if_pos rfl, if_pos hj] at hsame
        exact hsame (Or.inl (Nat.lt_succ_self i))
      · obtain ⟨t, t', ht⟩ := hjoined (by omega) (by omega)
        refine ⟨t, t', ?_⟩
        rwa [getD_setIfInBounds_of_ne slots _ hij] at ht

/-- What becomes of slots that types have joined, and of what they had taken in. -/
structure Joined (slots joined : Array FrameType) (changed changed' : Bool) : Prop where
  size : joined.size = slots.size
  becomes : ∀ i, (slots.getD i .top).Becomes (joined.getD i .top)
  keeps : ∀ i t, (slots.getD i .top).Absorbs t → (joined.getD i .top).Absorbs t
  unchanged : changed' = false → changed = false ∧ joined = slots

/-- Where joining changes nothing, it has put back what was there. -/
theorem joinSlots_unchanged (h : Hierarchy) (incoming : Nat → TypeTable → FrameType × TypeTable) (n i : Nat)
    (slots : Array FrameType)
    (changed : Bool) (types : TypeTable) (hsame : (joinSlots h incoming n i slots changed types).2.1 = false) :
    changed = false ∧ (joinSlots h incoming n i slots changed types).1 = slots := by
  induction n generalizing i slots changed types with
  | zero => exact ⟨hsame, rfl⟩
  | succ n ih =>
    unfold joinSlots at hsame ⊢
    dsimp only at hsame ⊢
    obtain ⟨hbefore, hjoined⟩ := ih _ _ _ _ hsame
    obtain ⟨hchanged, hslot⟩ := Bool.or_eq_false_iff.1 hbefore
    rw [FrameType.mergeInto_unchanged h _ _ _ hslot, setIfInBounds_getD] at hjoined
    rw [FrameType.mergeInto_unchanged h _ _ _ hslot, setIfInBounds_getD]
    exact ⟨hchanged, hjoined⟩

/-- A slot is left alone, is joined, or is none at all. -/
theorem joinSlots_cases (h : Hierarchy) (incoming : Nat → TypeTable → FrameType × TypeTable) (n i : Nat)
    (slots : Array FrameType) (changed : Bool) (types : TypeTable) (j : Nat) :
    let joined := (joinSlots h incoming n i slots changed types).1
    joined.getD j .top = slots.getD j .top ∨
      ∃ t t', joined.getD j .top = (FrameType.mergeInto h t' (slots.getD j .top) (incoming j t).1).1 := by
  obtain ⟨hsize, hslots⟩ := joinSlots_slot h incoming n i slots changed types
  dsimp only
  by_cases hj : j < slots.size
  · obtain ⟨hsame, hjoined⟩ := hslots j hj
    rw [getD_of_getElem? (u := .top) (getElem?_eq_getD hj)]
    by_cases hin : i ≤ j ∧ j < i + n
    · obtain ⟨t, t', ht⟩ := hjoined hin.1 hin.2
      exact Or.inr ⟨t, t', getD_of_getElem? ht⟩
    · exact Or.inl (getD_of_getElem? ((hsame (by omega)).trans (getElem?_eq_getD hj)))
  · left
    rw [Array.getD_eq_getD_getElem?, Array.getD_eq_getD_getElem?, Array.getElem?_eq_none (by omega),
      Array.getElem?_eq_none (by omega)]

/-- Joining slots leaves each one as what it may hold afterwards. -/
theorem joined_joinSlots (h : Hierarchy) (incoming : Nat → TypeTable → FrameType × TypeTable) (n i : Nat)
    (slots : Array FrameType) (changed : Bool) (types : TypeTable) :
    Joined slots (joinSlots h incoming n i slots changed types).1 changed
      (joinSlots h incoming n i slots changed types).2.1 := by
  refine ⟨(joinSlots_slot h incoming n i slots changed types).1, fun j => ?_, fun j t ha => ?_,
    joinSlots_unchanged h incoming n i slots changed types⟩
  all_goals rcases joinSlots_cases h incoming n i slots changed types j with hsame | ⟨T, T', hjoined⟩
  · rw [hsame]
    exact .refl _
  · rw [hjoined]
    exact FrameType.becomes_mergeInto h T' _ _
  · rwa [hsame]
  · rw [hjoined]
    exact ha.mergeInto h T' _

/-! ## Merges -/

/-- What is handed over for a type that is left: the same, or the object that a constructor has made of it. -/
def Handed (t u : FrameType) : Prop :=
  u = t ∨ t ≠ .top ∧ ∃ i, u = .object i

/-- What is handed over is what was left, or the object that a constructor has made of it. -/
theorem handed_afterConstructor (f : Frame) (types : TypeTable) (className : String) (t : FrameType) :
    Handed t (f.afterConstructor types className t).1 := by
  unfold afterConstructor
  split
  · exact Or.inl rfl
  · dsimp only
    split
    · dsimp only
      split
      · exact Or.inr ⟨by decide, _, rfl⟩
      · exact Or.inl rfl
    · dsimp only
      split
      · exact Or.inr ⟨fun heq => (nomatch (congrArg FrameType.shape heq)), _, rfl⟩
      · exact Or.inl rfl
    · exact Or.inl rfl

/-- A long or a double is handed over as it was left. -/
theorem Handed.eq_of_isWide (ht : Handed t u) (hwide : u.isWide = true) : t = u := by
  rcases ht with hsame | ⟨-, i, rfl⟩
  · exact hsame.symm
  · cases hwide

/-- A slot that has taken in what is handed over has taken in what was left. -/
theorem Handed.absorbs (ht : Handed t u) {slot : FrameType} (ha : slot.Absorbs u) : slot.Absorbs t := by
  rcases ht with rfl | ⟨htop, i, rfl⟩
  · exact ha
  · have hne : FrameType.object i ≠ .unset := fun heq => nomatch congrArg FrameType.shape heq
    refine ⟨fun hwide => ?_, fun hunset => absurd (ha.unset hunset) hne, fun heq => absurd heq htop⟩
    rcases ha.wide hwide with heq | hunset
    · rw [← heq] at hwide
      cases hwide
    · exact absurd hunset hne

/-- What joins all locals stays in them, and a long or a double that is there afterwards has joined. -/
theorem absorbs_joinSlots (h : Hierarchy) (incoming : Nat → TypeTable → FrameType × TypeTable) (left : Nat → FrameType)
    (changed : Bool)
    (types : TypeTable) (hsize : slots.size = n) (hleft : ∀ i T, Handed (left i) (incoming i T).1) (i : Nat) :
    let joined := (joinSlots h incoming n 0 slots changed types).1
    (joined.getD i .top).Absorbs (left i) ∧ ((joined.getD i .top).isWide = true → left i = joined.getD i .top) := by
  obtain ⟨hjoined, hslots⟩ := joinSlots_slot h incoming n 0 slots changed types
  dsimp only
  by_cases hi : i < slots.size
  · obtain ⟨t, t', ht⟩ := (hslots i hi).2 (Nat.zero_le i) (by omega)
    rw [getD_of_getElem? ht]
    refine ⟨(hleft i t).absorbs (FrameType.absorbs_mergeInto h t' _ _), fun hwide => ?_⟩
    have hincoming := (FrameType.eq_of_mergeInto_isWide hwide).1
    rw [← hincoming] at hwide ⊢
    exact (hleft i t).eq_of_isWide hwide
  · rw [Array.getD_eq_getD_getElem?, Array.getElem?_eq_none (by omega)]
    exact ⟨FrameType.absorbs_of_top _, fun hwide => (nomatch hwide)⟩

/-- What a merge makes of the input behind an edge: it holds what is handed over, comes after the one before, and a long or a
double is in a local only if it has been handed over last. -/
structure Merges (f g g' : Frame) (handled : Option FrameType) (changed : Bool) : Prop where
  handsOver : f.HandsOver g' handled
  keeps : g.entered = true → ∀ i t, (g.locals.getD i .top).Absorbs t → (g'.locals.getD i .top).Absorbs t
  unchanged : changed = false → g' = g
  last : ∀ i, (g'.locals.getD i .top).isWide = true → f.handedLast handled i = g'.locals.getD i .top
  becomes : g.entered = true → g.Becomes g'

/-- What is handed over in a local is what was left there. -/
theorem handed_localAfter (f : Frame) (className : String) (i : Nat) (types : TypeTable) :
    Handed (f.leftLocal i) (f.localAfter types className i).1 :=
  f.handed_afterConstructor types className _

/-- Locals that a merge leaves alone belong to a block that has been entered. -/
theorem startLocals_of_unchanged (hentered : g.entered = true → g.InputListed types count)
    (hsame : (!g.entered || decide (g.locals.size < count)) = false) :
    g.entered = true ∧ g.startLocals count = g.locals := by
  have he : g.entered = true := by
    have := (Bool.or_eq_false_iff.1 hsame).1
    simpa using this
  exact ⟨he, startLocals_of_entered hentered he⟩

/-- A merge along plain flow. -/
theorem merges_none (hmerge : f.merge g none className h types = (some changed, g', grown)) (hf : f.InputListed types count)
    (hentered : g.entered = true → g.InputListed types count) : f.Merges g g' none changed := by
  rw [merge_none_eq, hf.size] at hmerge
  have hlocals := joined_joinSlots h (fun i types => f.localAfter types className i) count 0 (g.startLocals count)
    (!g.entered || decide (g.locals.size < count)) types
  have hleft := absorbs_joinSlots h (fun i types => f.localAfter types className i) f.leftLocal
    (!g.entered || decide (g.locals.size < count)) types (size_startLocals hentered) (f.handed_localAfter className)
  generalize joinSlots h (fun i types => f.localAfter types className i) count 0 (g.startLocals count)
    (!g.entered || decide (g.locals.size < count)) types = left at hmerge hlocals hleft
  obtain ⟨locals, different, later⟩ := left
  dsimp only at hmerge hlocals hleft
  split at hmerge
  · cases hmerge
  · have hstack := joined_joinSlots h (fun i types => f.stackAfter types className i) f.heightAfter 0
      (g.startStack f.heightAfter) different later
    generalize joinSlots h (fun i types => f.stackAfter types className i) f.heightAfter 0 (g.startStack f.heightAfter)
      different later = right at hmerge hstack
    obtain ⟨hchanged, hrest⟩ := Prod.mk.inj hmerge
    obtain ⟨rfl, -⟩ := Prod.mk.inj hrest
    obtain rfl := Option.some.inj hchanged
    have hentry : g.entered = true → g.startStack f.heightAfter = g.stack := fun he => if_pos he
    refine ⟨⟨fun i => (hleft i).1, fun hhandled => (nomatch hhandled)⟩, fun he => ?_, fun hnone => ?_, fun i => (hleft i).2,
      fun he => ⟨?_, Or.inr ?_⟩⟩
    · rw [startLocals_of_entered hentered he] at hlocals
      exact hlocals.keeps
    · obtain ⟨hdifferent, hsame⟩ := hstack.unchanged hnone
      obtain ⟨hfresh, hsame'⟩ := hlocals.unchanged hdifferent
      obtain ⟨he, hstart⟩ := startLocals_of_unchanged hentered hfresh
      rw [hsame, hsame', hstart, hentry he, ← he]
    · rw [startLocals_of_entered hentered he] at hlocals
      exact hlocals.becomes
    · rw [hentry he] at hstack
      exact ⟨hstack.size.symm, hstack.becomes⟩

/-- A merge on the way to a handler. -/
theorem merges_some {e : FrameType} (hmerge : f.merge g (some e) className h types = (some changed, g', grown))
    (hf : f.InputListed types count)
    (hentered : g.entered = true → g.InputListed types count) : f.Merges g g' (some e) changed := by
  rw [merge_some_eq, hf.size] at hmerge
  have hlocals := joined_joinSlots h (fun i types => f.localAfter types className i) count 0 (g.startLocals count)
    (!g.entered || decide (g.locals.size < count)) types
  have hleft := absorbs_joinSlots h (fun i types => f.localAfter types className i) f.leftLocal
    (!g.entered || decide (g.locals.size < count)) types (size_startLocals hentered) (f.handed_localAfter className)
  generalize joinSlots h (fun i types => f.localAfter types className i) count 0 (g.startLocals count)
    (!g.entered || decide (g.locals.size < count)) types = left at hmerge hlocals hleft
  obtain ⟨locals, different, later⟩ := left
  dsimp only at hmerge hlocals hleft
  -- the input joins what is there already
  have hlocals' := joined_joinSlots h (fun i types => (f.locals.getD i .top, types)) count 0 locals different later
  have hinput := absorbs_joinSlots h (fun i types => (f.locals.getD i .top, types))
    (fun i => f.locals.getD i .top) different later (hlocals.size.trans (size_startLocals hentered)) fun _ _ => Or.inl rfl
  generalize joinSlots h (fun i types => (f.locals.getD i .top, types)) count 0 locals different later =
    both at hmerge hlocals' hinput
  obtain ⟨locals', different', later'⟩ := both
  dsimp only at hmerge hlocals' hinput
  have hstack := joined_joinSlots h (fun _ types => (e, types)) 1 0 g.handlerStack (different' || !g.hasStack) later'
  generalize joinSlots h (fun _ types => (e, types)) 1 0 g.handlerStack (different' || !g.hasStack) later' =
    right at hmerge hstack
  obtain ⟨hchanged, hrest⟩ := Prod.mk.inj hmerge
  obtain ⟨rfl, -⟩ := Prod.mk.inj hrest
  obtain rfl := Option.some.inj hchanged
  refine ⟨⟨fun i => hlocals'.keeps i _ (hleft i).1, fun _ i => (hinput i).1⟩, fun he i t ha => ?_,
    fun hnone => ?_, fun i => (hinput i).2, fun he => ⟨fun i => ?_, ?_⟩⟩
  · rw [startLocals_of_entered hentered he] at hlocals
    exact hlocals'.keeps i t (hlocals.keeps i t ha)
  · obtain ⟨hfirst, hsame⟩ := hstack.unchanged hnone
    obtain ⟨hdifferent', hhas⟩ := Bool.or_eq_false_iff.1 hfirst
    obtain ⟨hdifferent, hsame'⟩ := hlocals'.unchanged hdifferent'
    obtain ⟨hfresh, hsame''⟩ := hlocals.unchanged hdifferent
    obtain ⟨he, hstart⟩ := startLocals_of_unchanged hentered hfresh
    rw [hsame, hsame', hsame'', hstart, handlerStack_of_hasStack (by simpa using hhas), ← he]
  · rw [startLocals_of_entered hentered he] at hlocals
    exact (hlocals.becomes i).trans (hlocals'.becomes i)
  · by_cases hempty : g.stack.size = 0
    · exact Or.inl hempty
    · have hhas : g.hasStack = true := by
        rw [hasStack, he, Bool.true_and, Bool.not_eq_true', Array.isEmpty_eq_false_iff]
        exact fun hnone => hempty (by rw [hnone]; rfl)
      rw [handlerStack_of_hasStack hhas] at hstack
      exact Or.inr ⟨hstack.size.symm, hstack.becomes⟩

/-- A merge that finds no other height is one that hands over inputs. -/
theorem merges_of_merge (hmerge : f.merge g handled className h types = (some changed, g', grown))
    (hf : f.InputListed types count)
    (hentered : g.entered = true → g.InputListed types count) : f.Merges g g' handled changed := by
  cases handled with
  | none => exact merges_none hmerge hf hentered
  | some e => exact merges_some hmerge hf hentered

end Slots

end Frame

end ClassFile
