import ClassFile.Proofs.FrameTracking
import ClassFile.Proofs.TypeWords

/-!
# Locals that handlers see

A handler has taken in the locals with which a block of its range is entered and those with which it is left.
Between its instructions a local that nothing is stored in holds what it held before, or an object that has been
constructed since (`Frame.Takes.sees`).
-/

namespace ClassFile

namespace NamedType

/-- What waits for a constructor, by name. -/
def Awaits (t : NamedType) : Prop :=
  t = ⟨0, .plain .uninitializedThis⟩ ∨ ∃ e, t = ⟨0, .uninitialized e⟩

section Awaits

variable {h : Hierarchy} {t u : NamedType}

/-- What waits for a constructor does not count as a reference. -/
theorem Awaits.isReference (ht : t.Awaits) : t.isReference = false := by
  rcases ht with rfl | ⟨e, rfl⟩ <;> rfl

/-- Only the type of no usable value is above what waits for a constructor. -/
theorem Awaits.above (ht : t.Awaits) (hbelow : Below h t u) : u = t ∨ u = .top := by
  cases hbelow with
  | refl => exact Or.inl rfl
  | top => exact Or.inr rfl
  | null => rcases ht with ht | ⟨e, ht⟩ <;> cases ht
  | widens => rcases ht with ht | ⟨e, ht⟩ <;> cases ht
  | objects hr =>
    rw [ht.isReference] at hr
    cases hr

/-- Nothing else is below what waits for a constructor. -/
theorem Awaits.below (ht : t.Awaits) (hbelow : Below h u t) : u = t := by
  cases hbelow with
  | refl => rfl
  | top => rcases ht with ht | ⟨e, ht⟩ <;> cases ht
  | null hr =>
    rw [ht.isReference] at hr
    cases hr
  | widens => rcases ht with ht | ⟨e, ht⟩ <;> cases ht
  | objects => rcases ht with ht | ⟨e, ht⟩ <;> cases ht

/-- An object waits no more once its constructor has run. -/
theorem Awaits.initialized_ne (ht : t.Awaits) (className : String) (u : NamedType) : u.initialized className ≠ t := by
  intro heq
  have hdims : (u.initialized className).dims = 0 := by
    rw [heq]
    rcases ht with rfl | ⟨e, rfl⟩ <;> rfl
  obtain ⟨d, s⟩ := u
  unfold initialized at heq hdims
  split at heq
  · rename_i hd
    dsimp only at hd
    subst hd
    cases s with
    | plain s => cases s <;> rcases ht with rfl | ⟨e, rfl⟩ <;> cases heq
    | object name => rcases ht with rfl | ⟨e, rfl⟩ <;> cases heq
    | uninitialized x => rcases ht with rfl | ⟨e, rfl⟩ <;> cases heq
  · rename_i hd
    rw [if_neg hd] at hdims
    exact hd hdims

end Awaits

end NamedType

namespace FrameType

/-- What waits for a constructor does so by name. -/
theorem Awaits.named {t : FrameType} (ht : t.Awaits) (types : TypeTable) : (t.named types).Awaits := by
  rcases ht with rfl | ⟨i, rfl⟩
  · exact Or.inl rfl
  · exact Or.inr ⟨_, rfl⟩

/-- A slot of no usable value stays so. -/
theorem mergeInto_top (h : Hierarchy) (types : TypeTable) (t : FrameType) :
    (mergeInto h types top t).1 = top ∧ (mergeInto h types top t).2.1 = false := by
  unfold mergeInto
  dsimp only
  have hunset : top.isUnset = false := rfl
  have href : top.isReference = false := rfl
  have hnull : (top == null) = false := rfl
  split
  · exact ⟨rfl, rfl⟩
  · generalize (if t.shape == .null then null else t) = u
    split
    · exact ⟨rfl, rfl⟩
    · simp [hunset, href, hnull]

end FrameType

namespace Frame

/-- The locals of a handler have taken in what others hold: joining these once more changes nothing. -/
def Sees (h : Hierarchy) (types : TypeTable) (seen locals : Array FrameType) : Prop :=
  ∀ (i : Nat) (t : FrameType), locals[i]? = some t → ∃ u later, seen[i]? = some u ∧
    FrameType.mergeInto h types u t = (u, false, later)

/-- The words of what the locals hold, and of what a handler takes these for, say which types they are. -/
def SeesTold (seen locals : Array FrameType) : Prop :=
  ∀ (i : Nat) (t u : FrameType), locals[i]? = some t → seen[i]? = some u → t.Told ∧ u.Told

section Sees

variable {h : Hierarchy} {types grown : TypeTable} {count : Nat} {f g : Frame} {className : String}

/-- What a block leaves in a local whose constructor it has called does not wait for that any more. -/
theorem constructedName_ne (className : String) (hs : types.Sound) {t u : FrameType} (ht : t.Meaningful types)
    (hu : u.Held types) (hawaits : u.Awaits) {c : FrameType} (hc : c ∈ f.constructed) (hresolved : f.resolve c = u) :
    f.constructedName types className t ≠ u.named types := by
  unfold constructedName
  split
  · exact (hawaits.named types).initialized_ne className _
  · rename_i hnot
    intro heq
    have hsame := ht.settled.toMeaningful.eq_of_named hs hu.toMeaningful heq
    have hwaits : t.settled.shape.waits = true := hsame ▸ hawaits.waits
    rw [FrameType.waits_of_settled hwaits] at hsame
    exact hnot (Array.any_eq_true'.2 ⟨c, hc, beq_iff_eq.2 (hresolved.trans hsame.symm)⟩)

/-- A local that is as it was when the block was entered, or whose constructor the block has called,
is one that a handler sees. -/
theorem Takes.sees (hg : h.Grounded) (hobject : h.superClass objectClass = none) (hs : types.Sound)
    (hf : f.Entered types count) (hsane : f.Sane types) {e : FrameType} (htakes : f.Takes h types className g (some e))
    (hext : types.Extends grown) (hc : TypeTable.Consistent h grown) {locals : Array FrameType}
    (hsize : locals.size = f.locals.size) (hkept : ∀ i, locals.getD i .top = f.locals.getD i .top ∨
      (f.locals.getD i .top).Awaits ∧ ∃ c ∈ f.constructed, f.resolve c = f.locals.getD i .top) :
    Sees h grown g.locals locals := by
  intro i t ht
  have hlt : i < f.locals.size := hsize ▸ (Array.getElem?_eq_some_iff.1 ht).1
  have hlocal : locals.getD i .top = t := by rw [Array.getD_eq_getD_getElem?, ht, Option.getD_some]
  obtain ⟨u, hu, hheld, hinput⟩ := (htakes.handler e rfl).1 i hlt
  obtain ⟨u', hu', -, hleft⟩ := htakes.locals i hlt
  obtain rfl : u = u' := Option.some.inj (hu.symm.trans hu')
  have hmeans := hf.meaningful_input i
  suffices hjoined : (FrameType.mergeInto h grown u t).1 = u ∧ (FrameType.mergeInto h grown u t).2.1 = false by
    exact ⟨u, (FrameType.mergeInto h grown u t).2.2, hu, Prod.ext hjoined.1 (Prod.ext hjoined.2 rfl)⟩
  rcases hkept i with hsame | ⟨hawaits, c, hmem, hresolved⟩
  · rw [hlocal] at hsame
    rw [← hsame] at hmeans hinput
    refine FrameType.mergeInto_of_below hg hobject hc (hheld.mono hext) (hmeans.mono hext).toMeaningful ?_
    rw [hmeans.settled, FrameType.named_of_extends hext hmeans.numbered, FrameType.named_of_extends hext hheld.numbered]
    exact hinput
  · have hwaits := hawaits.named types
    have hne := constructedName_ne className hs (hf.meaningful_leftLocal hsane i) hmeans hawaits hmem hresolved
    have htop : u.named types = .top := by
      refine (hwaits.above hinput).resolve_left fun heq => hne ?_
      rw [heq] at hleft
      exact hwaits.below hleft
    obtain rfl : u = .top := hheld.toMeaningful.eq_of_named hs FrameType.held_top.toMeaningful htop
    exact FrameType.mergeInto_top h grown t

/-- The locals with which a block of a handler's range is left, and those the handler has for them,
if the type table is roomy. -/
theorem Takes.seesTold {e : FrameType} (htakes : f.Takes h types className g (some e)) (hext : types.Extends grown)
    (hroomy : grown.Roomy) {left : Frame} (hleft : left.Entered grown f.locals.size) : SeesTold g.locals left.locals := by
  intro i t u ht hu
  have hlt : i < f.locals.size := hleft.size ▸ (Array.getElem?_eq_some_iff.1 ht).1
  obtain ⟨u', hu', hheld, -⟩ := (htakes.handler e rfl).1 i hlt
  obtain rfl : u' = u := Option.some.inj (hu'.symm.trans hu)
  exact ⟨(hleft.locals t (Array.mem_of_getElem? ht)).told hroomy, (hheld.mono hext).told hroomy⟩

end Sees

/-! ## Types between instructions -/

section Between

variable {h : Hierarchy} {types : TypeTable} {count : Nat} {f : Frame} {locals stack : Array FrameType}

/-- An instruction that stores nothing has the same effect, in types that a block may leave, on a
block that has been entered. -/
theorem exists_execute_entering (hc : TypeTable.Consistent h types) {i : Operation} (hkeeps : i.stores = false)
    (locals stack : Array FrameType) :
    ∃ (f : Frame) (grown : TypeTable) (e : Option Error), (entering locals stack).execute types i =
      (f.on locals stack, grown, e) ∧
      TypeTable.Consistent h grown ∧ types.Extends grown ∧ f.Sane grown := by
  have hdrafted := (unentered_empty types).execute hc i
  by_cases hcounter : ∃ slot, i = .increment slot
  · obtain ⟨slot, rfl⟩ := hcounter
    exact ⟨empty.increment slot.toNat, types, none, rfl, hc, hdrafted.grown, hdrafted.unentered.toSane⟩
  · obtain ⟨m, -, table, e, hnow, -⟩ := exists_move hc.sound hkeeps fun slot hi => hcounter ⟨slot, hi⟩
    have hempty : empty.execute types i = (empty.moved m, table, e) := hnow empty
    have hentering : (entering locals stack).execute types i = ((empty.on locals stack).moved m, table, e) := hnow _
    rw [moved_on] at hentering
    rw [hempty] at hdrafted
    exact ⟨empty.moved m, table, e, hentering, hdrafted.consistent, hdrafted.grown, hdrafted.unentered.toSane⟩

/-- Merging into a frame that has not been entered finds no other height of the stack. -/
theorem merge_empty_isSome (f : Frame) (className : String) (h : Hierarchy) (types : TypeTable) :
    (f.merge Frame.empty none className h types).1.isSome = true := by
  have hheight : (Frame.empty.startStack f.heightAfter).size = f.heightAfter := Array.size_replicate
  rw [merge_none_eq]
  dsimp only
  rw [if_neg (not_not_intro hheight)]
  rfl

/-- What a block leaves to one that nothing has entered. -/
theorem leave_entered (className : String) (hg : h.Grounded) (hobject : h.superClass objectClass = none)
    (hc : TypeTable.Consistent h types) (hf : f.Entered types count) (hs : f.Sane types) : ∃ locals stack grown,
      f.leave className h types = (entering locals stack, grown) ∧ TypeTable.Consistent h grown ∧
        (entering locals stack).Entered grown count := by
  obtain ⟨result, g, grown, hmerge, hc', -, hmerged⟩ :=
    merge_none_spec (g := Frame.empty) className hg hobject hc hf hs fun hentered => nomatch hentered
  have hsome := merge_empty_isSome f className h types
  rw [hmerge] at hsome
  obtain ⟨changed, hresult⟩ := Option.isSome_iff_exists.1 hsome
  obtain ⟨heffect, hentered, -⟩ := hmerged changed hresult
  have hentering : g = entering g.locals g.stack := heffect
  refine ⟨g.locals, g.stack, grown, ?_, hc', hentering ▸ hentered⟩
  rw [leave, hmerge, ← hentering]

/-- Instructions that store nothing, each in a frame of its own, leave types that slots of blocks hold. -/
theorem steps_entered (className : String) (hg : h.Grounded) (hobject : h.superClass objectClass = none)
    {is : List Operation} (hkeeps : ∀ i ∈ is, i.stores = false) (hc : TypeTable.Consistent h types)
    (hf : (entering locals stack).Entered types count)
    (reached : Nat) : let r := (entering locals stack).steps className h types reached is
      r.1.Entered r.2.1 count := by
  induction is generalizing locals stack types reached with
  | nil => exact hf
  | cons i rest ih =>
    obtain ⟨f, middle, e, hexecute, hc', hext, hsane⟩ :=
      exists_execute_entering hc (hkeeps i List.mem_cons_self) locals stack
    have hon : (f.on locals stack).Entered middle count := ⟨rfl, hf.size, (hf.mono hext).locals, (hf.mono hext).stack⟩
    obtain ⟨locals', stack', grown, hleave, hc'', hnext⟩ :=
      leave_entered className hg hobject hc' hon ⟨hsane.outLocals, hsane.outStack⟩
    have hstep : (entering locals stack).step className h types i = (entering locals' stack', grown) := by
      unfold step
      rw [hexecute]
      exact hleave
    dsimp only
    rw [steps, hstep]
    exact ih (fun i hi => hkeeps i (List.mem_cons_of_mem _ hi)) hc'' hnext _

end Between

end Frame

end ClassFile
