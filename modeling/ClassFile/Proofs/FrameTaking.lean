import ClassFile.Proofs.FrameMerge

/-!
# Taking in what a block hands over

The frame behind an edge takes in what the block before it hands over: after a merge, each of its slots is above what comes
into it. A merge says that nothing has changed exactly if the frame had taken everything in before.
-/

namespace ClassFile

namespace Frame

/-- A frame has taken in what another one hands over along an edge. -/
structure Takes (h : Hierarchy) (types : TypeTable) (className : String) (f g : Frame)
    (handled : Option FrameType) : Prop where
  locals : ∀ i < f.locals.size, HoldsAbove h types g.locals i (f.constructedName types className (f.leftLocal i))
  stack : handled = none → g.stack.size = f.heightAfter ∧
    ∀ i < f.heightAfter, HoldsAbove h types g.stack i (f.constructedName types className (f.leftStack i))
  handler : ∀ e ∈ handled, (∀ i < f.locals.size, HoldsAbove h types g.locals i ((f.locals.getD i .top).named types)) ∧
    HoldsAbove h types g.stack 0 (e.named types)

/-- A frame that has been entered has gone up. On the way to a handler, the exception may be the first thing on its stack. -/
structure Rises (h : Hierarchy) (types : TypeTable) (g : Frame) (grown : TypeTable) (g' : Frame)
    (handled : Option FrameType) : Prop where
  locals : Risen h types g.locals grown g'.locals
  stack : Risen h types g.stack grown g'.stack ∨ handled.isSome = true ∧ g.stack = #[] ∧ g'.stack.size = 1

section Taking

variable {h : Hierarchy} {types grown later : TypeTable} {count : Nat} {f g : Frame} {className : String}
variable {handled : Option FrameType} {slots slots' : Array FrameType}

/-! ## What is handed over -/

/-- What becomes of types when constructors run is what joins the slots, by name. -/
theorem delivers_afterConstructor {left : Nat → FrameType} (hleft : ∀ i, (left i).Meaningful types) (n i : Nat) :
    Delivers h types (fun i grown => f.afterConstructor grown className (left i))
      (fun i => f.constructedName types className (left i)) n i := by
  intro j _ _ grown hext hc
  obtain ⟨u, later, hu, hc', hext', hmeans, hnamed⟩ := afterConstructor_spec f className hc ((hleft j).mono hext)
  exact ⟨u, later, hu, hc', hext', hmeans, hnamed.trans (constructedName_of_extends hext (hleft j))⟩

/-- The locals behind a block join those of another one. -/
theorem delivers_localAfter (className : String) (hf : f.Entered types count) (hs : f.Sane types) (n i : Nat) :
    Delivers h types (fun i grown => f.localAfter grown className i)
      (fun i => f.constructedName types className (f.leftLocal i)) n i :=
  delivers_afterConstructor (hf.meaningful_leftLocal hs) n i

/-- The stack behind a block joins that of another one. -/
theorem delivers_stackAfter (className : String) (hf : f.Entered types count) (hs : f.Sane types) (n i : Nat) :
    Delivers h types (fun i grown => f.stackAfter grown className i)
      (fun i => f.constructedName types className (f.leftStack i)) n i :=
  delivers_afterConstructor (hf.meaningful_leftStack hs) n i

/-- Types that have settled are joined as they are. -/
theorem delivers_held {t : Nat → FrameType} (ht : ∀ i, (t i).Held types) (n i : Nat) :
    Delivers h types (fun i grown => (t i, grown)) (fun i => (t i).named types) n i := by
  intro j _ _ grown hext hc
  refine ⟨_, grown, rfl, hc, TypeTable.Extends.refl grown, ((ht j).mono hext).toMeaningful, ?_⟩
  rw [(ht j).settled, FrameType.named_of_extends hext (ht j).numbered]

/-! ## Slots -/

/-- Slots that are all above something hold types of values. -/
theorem held_of_above {S : Nat → NamedType} {n : Nat} (hsize : slots.size = n)
    (habove : ∀ i < n, HoldsAbove h types slots i (S i)) :
    ∀ s ∈ slots, s.Held types := by
  intro s hs
  obtain ⟨i, hi, rfl⟩ := Array.mem_iff_getElem.1 hs
  obtain ⟨u, hu, hheld, -⟩ := habove i (hsize ▸ hi)
  rw [Array.getElem?_eq_getElem hi] at hu
  exact Option.some.inj hu ▸ hheld

/-- Slots that go up and come back have not gone up. -/
theorem Risen.eq_of_risen (hg : h.Grounded) (hobject : h.superClass objectClass = none) (hs : grown.Sound)
    (hext : types.Extends grown) (hext' : grown.Extends later) (hheld : ∀ s ∈ slots, s.Held types)
    (hr : Risen h types slots grown slots') (hr' : Risen h grown slots' later slots) : slots' = slots := by
  apply Array.ext_getElem?
  intro i
  cases hi : slots[i]? with
  | none =>
    rw [Array.getElem?_eq_none_iff] at hi ⊢
    rwa [hr.1]
  | some s =>
    have hs' := hheld s (Array.mem_of_getElem? hi)
    obtain ⟨u, hu, huheld, hbelow⟩ := hr.2 i s hi (Held.ne_unset hs')
    obtain ⟨v, hv, -, hbelow'⟩ := hr'.2 i u hu (Held.ne_unset huheld)
    rw [hi] at hv
    obtain rfl := Option.some.inj hv
    rw [FrameType.named_of_extends (hext.trans hext') hs'.numbered] at hbelow'
    have hnamed := hbelow.antisymm hg hobject hbelow'
    rw [← FrameType.named_of_extends hext hs'.numbered] at hnamed
    rw [hu, (hs'.mono hext).eq_of_named hs huheld.toMeaningful hnamed]

/-! ## Merges -/

/-- The locals that a merge starts from. -/
def startLocals (g : Frame) (count : Nat) : Array FrameType :=
  if g.entered then extendTo g.locals count else Array.replicate count .unset

/-- Once something has changed, it stays noted as changed. -/
theorem eq_true_of_changed {changed changed' : Bool} {p : Prop} (hc : changed' = false ↔ changed = false ∧ p)
    (ht : changed = true) : changed' = true := by
  rw [← Bool.not_eq_false, hc, ht]
  exact fun ⟨e, _⟩ => nomatch e

/-- Joining what is left in the locals. -/
theorem joinLocals_spec (className : String) (hg : h.Grounded) (hobject : h.superClass objectClass = none)
    (hc : TypeTable.Consistent h types)
    (hf : f.Entered types count) (hs : f.Sane types) (hentered : g.entered = true → g.Entered types count) (changed : Bool) :
    ∃ locals changed' grown,
      joinSlots h (fun i types => f.localAfter types className i) count 0 (g.startLocals count) changed types =
        (locals, changed', grown) ∧
      TypeTable.Consistent h grown ∧ types.Extends grown ∧ locals.size = count ∧
      (∀ i < count, HoldsAbove h grown locals i (f.constructedName types className (f.leftLocal i))) ∧
      (changed = true → changed' = true) ∧
      (g.entered = true → Risen h types g.locals grown locals ∧
        (changed' = false ↔ changed = false ∧ locals = g.locals)) := by
  have hstart : g.entered = true → g.startLocals count = g.locals := by
    intro he
    simp [startLocals, he, extendTo, (hentered he).size]
  have hslots : ∀ s ∈ g.startLocals count, s = .unset ∨ s.Held types := by
    intro s hs
    by_cases he : g.entered = true
    · rw [hstart he] at hs
      exact Or.inr ((hentered he).locals s hs)
    · rw [startLocals, if_neg he] at hs
      exact Or.inl (Array.eq_of_mem_replicate hs)
  have hsize : (g.startLocals count).size = count := by
    by_cases he : g.entered = true
    · rw [hstart he, (hentered he).size]
    · rw [startLocals, if_neg he, Array.size_replicate]
  obtain ⟨locals, changed', grown, hjoined, hchanged, hc', hext, -, hrise, -, habove⟩ :=
    joinSlots_spec hg hobject hc (delivers_localAfter className hf hs count 0) (g.startLocals count) changed
      (by omega) hslots
  refine ⟨locals, changed', grown, hjoined, hc',
    hext, by rw [hrise.1, hsize], fun i hi => habove i (Nat.zero_le _) (by omega),
    eq_true_of_changed hchanged, ?_⟩
  intro he
  rw [hstart he] at hrise hchanged
  exact ⟨hrise, hchanged⟩

/-- What a merge comes to, if it does not find another height of the stack. -/
structure Merged (h : Hierarchy) (types : TypeTable) (className : String) (count : Nat) (f g : Frame)
    (handled : Option FrameType) (changed : Bool) (g' : Frame) (grown : TypeTable) : Prop where
  effect : g' = { g with locals := g'.locals, stack := g'.stack, entered := true }
  entered : g'.Entered grown count
  takes : f.Takes h grown className g' handled
  unchanged : changed = false ↔ g.entered = true ∧ g' = g
  rises : g.entered = true → g.Rises h types grown g' handled
  height : g.entered = false → g'.stack.size = if handled.isSome then 1 else f.heightAfter

/-- The stack that a merge along plain flow starts from. -/
def startStack (g : Frame) (height : Nat) : Array FrameType :=
  if g.entered then g.stack else Array.replicate height .unset

/-- Along plain flow the locals join, and then the stacks if they are of one height. -/
theorem merge_none_eq (f g : Frame) (className : String) (h : Hierarchy) (types : TypeTable) :
    f.merge g none className h types =
      let (locals, changed, types) := joinSlots h (fun i types => f.localAfter types className i) f.locals.size 0
        (g.startLocals f.locals.size) (!g.entered || decide (g.locals.size < f.locals.size)) types
      if (g.startStack f.heightAfter).size ≠ f.heightAfter then
        (none, { g with locals, stack := g.startStack f.heightAfter, entered := true }, types)
      else
        let (stack, changed, types) := joinSlots h (fun i types => f.stackAfter types className i) f.heightAfter 0
          (g.startStack f.heightAfter) changed types
        (some changed, { g with locals, stack, entered := true }, types) := by
  obtain ⟨locals, stack, entered, outLocals, outStack, consumed, peak, constructed⟩ := g
  cases entered <;> rfl

/-- Joining what is left on the stack, if its height is right. -/
theorem joinStack_spec (className : String) (hg : h.Grounded) (hobject : h.superClass objectClass = none)
    (hc : TypeTable.Consistent h types)
    (hf : f.Entered types count) (hs : f.Sane types) (hentered : g.entered = true → g.Entered types count)
    (hheight : (g.startStack f.heightAfter).size = f.heightAfter) (changed : Bool) :
    ∃ stack changed' grown,
      joinSlots h (fun i types => f.stackAfter types className i) f.heightAfter 0
        (g.startStack f.heightAfter) changed types =
        (stack, changed', grown) ∧
      TypeTable.Consistent h grown ∧ types.Extends grown ∧ stack.size = f.heightAfter ∧
      (∀ i < f.heightAfter, HoldsAbove h grown stack i (f.constructedName types className (f.leftStack i))) ∧
      (changed = true → changed' = true) ∧
      (g.entered = true → Risen h types g.stack grown stack ∧ (changed' = false ↔ changed = false ∧ stack = g.stack)) := by
  have hslots : ∀ s ∈ g.startStack f.heightAfter, s = .unset ∨ s.Held types := by
    intro s hs
    unfold startStack at hs
    split at hs
    · rename_i he
      exact Or.inr ((hentered he).stack s hs)
    · exact Or.inl (Array.eq_of_mem_replicate hs)
  obtain ⟨stack, changed', grown, hjoined, hchanged, hc', hext, -, hrise, -, habove⟩ :=
    joinSlots_spec hg hobject hc (delivers_stackAfter className hf hs f.heightAfter 0) (g.startStack f.heightAfter)
      changed (by omega) hslots
  refine ⟨stack, changed', grown, hjoined, hc',
    hext, by rw [hrise.1, hheight], fun i hi => habove i (Nat.zero_le _) (by omega),
    eq_true_of_changed hchanged, ?_⟩
  intro he
  rw [startStack, if_pos he] at hrise hchanged
  exact ⟨hrise, hchanged⟩

/-- A slot above what becomes of an object is so for a table that has grown. -/
theorem HoldsAbove.constructedName_mono {i : Nat} {t : FrameType} (hext : types.Extends grown) (ht : t.Meaningful types)
    (hn : HoldsAbove h grown slots i (f.constructedName types className t)) :
    HoldsAbove h grown slots i (f.constructedName grown className t) := by
  rwa [constructedName_of_extends hext ht]

/-- A merge along plain flow. -/
theorem merge_none_spec (className : String) (hg : h.Grounded) (hobject : h.superClass objectClass = none)
    (hc : TypeTable.Consistent h types)
    (hf : f.Entered types count) (hs : f.Sane types) (hentered : g.entered = true → g.Entered types count) :
    ∃ result g' grown, f.merge g none className h types = (result, g', grown) ∧ TypeTable.Consistent h grown ∧
      types.Extends grown ∧ ∀ changed, result = some changed → Merged h types className count f g none changed g' grown := by
  have hcount := hf.size
  obtain ⟨locals, changed, grown, hlocals, hc', hext, hsize, habove, hstays, hrise⟩ :=
    joinLocals_spec className hg hobject hc hf hs hentered (!g.entered || decide (g.locals.size < count))
  rw [merge_none_eq, hcount, hlocals]
  dsimp only
  by_cases hheight : (g.startStack f.heightAfter).size = f.heightAfter
  · rw [if_neg (not_not_intro hheight)]
    obtain ⟨stack, changed', grown', hstack, hc'', hext', hsize', habove', hstays', hrise'⟩ :=
      joinStack_spec className hg hobject hc' (hf.mono hext) (hs.mono hext) (fun he => (hentered he).mono hext)
        hheight changed
    rw [hstack]
    have hlocals' : ∀ i < count, HoldsAbove h grown' locals i (f.constructedName types className (f.leftLocal i)) :=
      fun i hi => (habove i hi).mono hext'
    refine ⟨_, _, grown', rfl, hc'', hext.trans hext', ?_⟩
    intro result hresult
    obtain rfl := Option.some.inj hresult
    refine ⟨rfl, ⟨rfl, hsize, held_of_above hsize hlocals', held_of_above hsize' habove'⟩,
      ⟨?_, ?_, fun e he => nomatch he⟩, ?_, ?_, ?_⟩
    · intro i hi
      exact (hlocals' i (hcount ▸ hi)).constructedName_mono (hext.trans hext') (hf.meaningful_leftLocal hs i)
    · intro _
      refine ⟨hsize', fun i hi => ?_⟩
      exact (habove' i hi).constructedName_mono hext' ((hf.mono hext).meaningful_leftStack (hs.mono hext) i)
    · by_cases he : g.entered = true
      · rw [(hrise' he).2, (hrise he).2, (hentered he).size, he]
        simp only [Bool.not_true, Nat.lt_irrefl, decide_false, Bool.or_false, true_and]
        constructor
        · rintro ⟨rfl, rfl⟩
          rw [← he]
        · intro e
          exact ⟨congrArg Frame.locals e, congrArg Frame.stack e⟩
      · have hfresh : g.entered = false := by simpa using he
        rw [hstays' (hstays (by rw [hfresh]; rfl)), hfresh]
        simp
    · intro he
      refine ⟨(hrise he).1.trans hg hobject (risen_of_extends hext' ?_), Or.inl ?_⟩
      · exact fun s hs => Or.inr (held_of_above hsize habove s hs)
      · exact (risen_of_extends hext fun s hs => Or.inr ((hentered he).stack s hs)).trans hg hobject (hrise' he).1
    · exact fun _ => hsize'
  · rw [if_pos hheight]
    exact ⟨_, _, grown, rfl, hc', hext, fun _ e => (nomatch e)⟩

/-- Whether there is a stack for the exception to join. -/
def hasStack (g : Frame) : Bool :=
  g.entered && !g.stack.isEmpty

/-- The stack that a merge on the way to a handler starts from. -/
def handlerStack (g : Frame) : Array FrameType :=
  if g.hasStack then g.stack else #[.unset]

/-- On the way to a handler the locals join, and then the exception joins the lowest slot of the stack. -/
theorem merge_some_eq (f g : Frame) (e : FrameType) (className : String) (h : Hierarchy) (types : TypeTable) :
    f.merge g (some e) className h types =
      let (locals, changed, types) := joinSlots h (fun i types => f.localAfter types className i) f.locals.size 0
        (g.startLocals f.locals.size) (!g.entered || decide (g.locals.size < f.locals.size)) types
      let (locals, changed, types) := joinSlots h (fun i types => (f.locals.getD i .top, types))
        f.locals.size 0 locals changed types
      let (stack, changed, types) := joinSlots h (fun _ types => (e, types)) 1 0 g.handlerStack
        (changed || !g.hasStack) types
      (some changed, { g with locals, stack, entered := true }, types) := by
  obtain ⟨locals, stack, entered, outLocals, outStack, consumed, peak, constructed⟩ := g
  cases entered with
  | false => rfl
  | true =>
    unfold handlerStack hasStack
    cases hempty : stack.isEmpty <;> simp [merge, startLocals, hempty]

/-- Where there is a stack, the exception joins its lowest slot. -/
theorem handlerStack_of_hasStack (hg : g.hasStack = true) : g.handlerStack = g.stack :=
  if_pos hg

/-- Where there is no stack, the exception joins one slot of its own. -/
theorem handlerStack_of_not_hasStack (hg : ¬g.hasStack = true) : g.handlerStack = #[.unset] :=
  if_neg hg

/-- There is always a slot for the exception. -/
theorem handlerStack_pos (g : Frame) : 0 < g.handlerStack.size := by
  by_cases hg : g.hasStack = true
  · rw [handlerStack_of_hasStack hg]
    rw [hasStack, Bool.and_eq_true, Bool.not_eq_true', Array.isEmpty_eq_false_iff] at hg
    exact Array.size_pos_iff.2 hg.2
  · rw [handlerStack_of_not_hasStack hg]
    exact Nat.one_pos

/-- Joining the exception into the bottom of the stack. -/
theorem joinException_spec (hg : h.Grounded) (hobject : h.superClass objectClass = none) (hc : TypeTable.Consistent h types)
    (hentered : g.entered = true → g.Entered types count) {e : FrameType} (he : e.Held types) (changed : Bool) :
    ∃ stack changed' grown,
      joinSlots h (fun _ types => (e, types)) 1 0 g.handlerStack (changed || !g.hasStack) types = (stack, changed', grown) ∧
      TypeTable.Consistent h grown ∧ types.Extends grown ∧ (∀ s ∈ stack, s.Held grown) ∧
      HoldsAbove h grown stack 0 (e.named types) ∧
      (changed' = false ↔ changed = false ∧ g.entered = true ∧ stack = g.stack) ∧
      (g.hasStack = true → Risen h types g.stack grown stack) ∧ (¬g.hasStack = true → stack.size = 1) := by
  have hslots : ∀ s ∈ g.handlerStack, s = .unset ∨ s.Held types := by
    intro s hs
    by_cases hhas : g.hasStack = true
    · rw [handlerStack_of_hasStack hhas] at hs
      exact Or.inr ((hentered (Bool.and_eq_true_iff.1 hhas).1).stack s hs)
    · rw [handlerStack_of_not_hasStack hhas] at hs
      exact Or.inl (by simpa using hs)
  obtain ⟨stack, changed', grown, hstack, hchanged, hc', hext, -, hrise, -, habove⟩ :=
    joinSlots_spec hg hobject hc (delivers_held (t := fun _ => e) (fun _ => he) 1 0) g.handlerStack (changed || !g.hasStack)
      (by have := g.handlerStack_pos; omega) hslots
  have hbottom := habove 0 (Nat.le_refl _) Nat.one_pos
  refine ⟨stack, changed', grown, hstack, hc', hext, ?_, hbottom, ?_, ?_, ?_⟩
  · refine held_of_above (h := h) (S := fun i => if i = 0 then e.named types else (g.handlerStack.getD i .top).named types)
      hrise.1 ?_
    intro i hi
    by_cases hzero : i = 0
    · subst hzero
      exact hbottom
    · rw [if_neg hzero]
      have hhas : g.hasStack = true := by
        by_contra hnot
        rw [handlerStack_of_not_hasStack hnot] at hi
        exact hzero (Nat.lt_one_iff.1 hi)
      have hget : g.handlerStack[i]? = some (g.handlerStack.getD i .top) := by
        rw [Array.getD_eq_getD_getElem?, Array.getElem?_eq_getElem hi]
        rfl
      refine hrise.2 i _ hget (@Held.ne_unset types _ ?_)
      rw [handlerStack_of_hasStack hhas] at hget ⊢
      exact (hentered (Bool.and_eq_true_iff.1 hhas).1).stack _ (Array.mem_of_getElem? hget)
  · rw [hchanged, Bool.or_eq_false_iff, and_assoc, Bool.not_eq_false']
    refine and_congr_right fun _ => ⟨?_, ?_⟩
    · rintro ⟨hhas, rfl⟩
      exact ⟨(Bool.and_eq_true_iff.1 hhas).1, handlerStack_of_hasStack hhas⟩
    · rintro ⟨hent, rfl⟩
      have hhas : g.hasStack = true := by
        rw [hasStack, hent, Bool.true_and, Bool.not_eq_true', Array.isEmpty_eq_false_iff, ← Array.size_pos_iff, hrise.1]
        exact g.handlerStack_pos
      exact ⟨hhas, (handlerStack_of_hasStack hhas).symm⟩
  · intro hhas
    rwa [handlerStack_of_hasStack hhas] at hrise
  · intro hnot
    rw [hrise.1, handlerStack_of_not_hasStack hnot]
    rfl

/-- A merge on the way to a handler. -/
theorem merge_some_spec (className : String) (hg : h.Grounded) (hobject : h.superClass objectClass = none)
    (hc : TypeTable.Consistent h types)
    (hf : f.Entered types count) (hs : f.Sane types) (hentered : g.entered = true → g.Entered types count) {e : FrameType}
    (he : e.Held types) :
    ∃ changed g' grown, f.merge g (some e) className h types = (some changed, g', grown) ∧ TypeTable.Consistent h grown ∧
      types.Extends grown ∧ Merged h types className count f g (some e) changed g' grown := by
  have hcount := hf.size
  obtain ⟨locals, changed, grown, hlocals, hc', hext, hsize, habove, hstays, hrise⟩ :=
    joinLocals_spec className hg hobject hc hf hs hentered (!g.entered || decide (g.locals.size < count))
  have hheld := held_of_above hsize habove
  obtain ⟨locals', changed', grown', hlocals', hchanged', hc'', hext', -, hrise', -, habove'⟩ :=
    joinSlots_spec hg hobject hc' (delivers_held (t := fun i => f.locals.getD i .top)
      (fun i => (hf.meaningful_input i).mono hext) count 0) locals changed (by omega)
      (fun s hs => Or.inr (hheld s hs))
  obtain ⟨stack, changed'', grown'', hstack, hc3, hext'', hheld'', hbottom, hchanged'', hrise'', hsize''⟩ :=
    joinException_spec hg hobject hc'' (fun h => (hentered h).mono (hext.trans hext')) (he.mono (hext.trans hext')) changed'
  have hwhole := hext.trans (hext'.trans hext'')
  rw [merge_some_eq, hcount, hlocals]
  dsimp only
  rw [hlocals']
  dsimp only
  rw [hstack]
  dsimp only
  refine ⟨_, _, grown'', rfl, hc3, hwhole, ?_⟩
  have hleft : ∀ i < count, HoldsAbove h grown'' locals' i (f.constructedName types className (f.leftLocal i)) :=
    fun i hi => ((habove i hi).rise hg hobject hrise').mono hext''
  have hsize' : locals'.size = count := hrise'.1.trans hsize
  refine ⟨rfl, ⟨rfl, hsize', held_of_above hsize' hleft, hheld''⟩, ⟨?_, fun e => (nomatch e), ?_⟩, ?_, ?_, ?_⟩
  · intro i hi
    exact (hleft i (hcount ▸ hi)).constructedName_mono hwhole (hf.meaningful_leftLocal hs i)
  · intro x hx
    obtain rfl := Option.some.inj hx
    refine ⟨fun i hi => ?_, ?_⟩
    · rw [FrameType.named_of_extends hwhole (hf.meaningful_input i).numbered,
        ← FrameType.named_of_extends hext (hf.meaningful_input i).numbered]
      exact (habove' i (Nat.zero_le _) (by omega)).mono hext''
    · rw [FrameType.named_of_extends hwhole he.numbered, ← FrameType.named_of_extends (hext.trans hext') he.numbered]
      exact hbottom
  · rw [hchanged'', hchanged']
    constructor
    · rintro ⟨⟨hsame, rfl⟩, hent, rfl⟩
      rw [((hrise hent).2.1 hsame).2, ← hent]
      exact ⟨rfl, rfl⟩
    · rintro ⟨hent, heq⟩
      obtain rfl : locals' = g.locals := congrArg Frame.locals heq
      obtain rfl : stack = g.stack := congrArg Frame.stack heq
      have hlocals := (hrise hent).1.eq_of_risen hg hobject hc'.sound hext hext' (hentered hent).locals hrise'
      refine ⟨⟨(hrise hent).2.2 ⟨?_, hlocals⟩, hlocals.symm⟩, hent, rfl⟩
      rw [hent, (hentered hent).size]
      simp
  · intro hent
    refine ⟨((hrise hent).1.trans hg hobject hrise').trans hg hobject (risen_of_extends hext'' ?_), ?_⟩
    · exact fun s hs => Or.inr (held_of_above hsize' (fun i hi => (habove i hi).rise hg hobject hrise') s hs)
    · by_cases hhas : g.hasStack = true
      · exact Or.inl ((risen_of_extends (hext.trans hext') fun s hs => Or.inr ((hentered hent).stack s hs)).trans hg hobject
          (hrise'' hhas))
      · refine Or.inr ⟨rfl, ?_, hsize'' hhas⟩
        rw [hasStack, hent, Bool.true_and] at hhas
        simpa using hhas
  · intro hfresh
    refine hsize'' ?_
    rw [hasStack, hfresh]
    exact Bool.false_ne_true

/-- Merging takes in what is handed over, unless the stack has another height already. -/
theorem merge_spec (className : String) (hg : h.Grounded) (hobject : h.superClass objectClass = none)
    (hc : TypeTable.Consistent h types)
    (hf : f.Entered types count) (hs : f.Sane types) (hentered : g.entered = true → g.Entered types count)
    (hhandled : ∀ e ∈ handled, e.Held types) :
    ∃ result g' grown, f.merge g handled className h types = (result, g', grown) ∧ TypeTable.Consistent h grown ∧
      types.Extends grown ∧ ∀ changed, result = some changed →
      Merged h types className count f g handled changed g' grown := by
  cases handled with
  | none => exact merge_none_spec className hg hobject hc hf hs hentered
  | some e =>
    obtain ⟨changed, g', grown, hmerged, hc', hext, hspec⟩ :=
      merge_some_spec className hg hobject hc hf hs hentered (hhandled e rfl)
    refine ⟨some changed, g', grown, hmerged, hc', hext, fun result hresult => ?_⟩
    obtain rfl := Option.some.inj hresult
    exact hspec

/-- Locals that are above what is left in them stay as they are. -/
theorem joinLocals_of_above (className : String) (hg : h.Grounded) (hobject : h.superClass objectClass = none)
    (hc : TypeTable.Consistent h types) (hf : f.Entered types count) (hs : f.Sane types) (hentered : g.Entered types count)
    (habove : ∀ i < f.locals.size, HoldsAbove h types g.locals i (f.constructedName types className (f.leftLocal i))) :
    ∃ grown, joinSlots h (fun i types => f.localAfter types className i) f.locals.size 0 (g.startLocals f.locals.size)
        (!g.entered || decide (g.locals.size < f.locals.size)) types = (g.locals, false, grown) ∧
      TypeTable.Consistent h grown ∧ types.Extends grown := by
  have hstart : g.startLocals count = g.locals := by simp [startLocals, hentered.entered, extendTo, hentered.size]
  have hsame : (!g.entered || decide (g.locals.size < count)) = false := by simp [hentered.entered, hentered.size]
  rw [hf.size, hstart, hsame]
  exact joinSlots_of_above hg hobject hc (delivers_localAfter className hf hs count 0) g.locals false
    fun j _ hj => habove j (by rw [hf.size]; omega)

/-- A frame that has taken in what is handed over does not change. -/
theorem merge_of_takes (hg : h.Grounded) (hobject : h.superClass objectClass = none) (hc : TypeTable.Consistent h types)
    (hf : f.Entered types count) (hs : f.Sane types) (hentered : g.Entered types count)
    (hhandled : ∀ e ∈ handled, e.Held types) (htakes : f.Takes h types className g handled) :
    ∃ grown, f.merge g handled className h types = (some false, g, grown) := by
  have hself : { g with entered := true } = g := by rw [← hentered.entered]
  obtain ⟨grown, hlocals, hc', hext⟩ := joinLocals_of_above className hg hobject hc hf hs hentered htakes.locals
  cases handled with
  | none =>
    obtain ⟨hheight, habove⟩ := htakes.stack rfl
    have hstack : g.startStack f.heightAfter = g.stack := if_pos hentered.entered
    obtain ⟨grown', hstacked, -⟩ := joinSlots_of_above hg hobject hc'
      (delivers_stackAfter className (hf.mono hext) (hs.mono hext) f.heightAfter 0) g.stack false
      fun j _ hj => ((habove j (by omega)).mono hext).constructedName_mono hext (hf.meaningful_leftStack hs j)
    refine ⟨grown', ?_⟩
    rw [merge_none_eq, hlocals, hstack]
    dsimp only
    rw [if_neg (not_not_intro hheight), hstacked, hself]
  | some e =>
    obtain ⟨hinput, hbottom⟩ := htakes.handler e rfl
    have hhas : g.hasStack = true := by
      obtain ⟨u, hu, -⟩ := hbottom
      have hpos : 0 < g.stack.size := (Array.getElem?_eq_some_iff.1 hu).1
      rw [hasStack, hentered.entered, Bool.true_and, Bool.not_eq_true', Array.isEmpty_eq_false_iff]
      exact Array.size_pos_iff.1 hpos
    obtain ⟨grown', hlocals', hc'', hext'⟩ := joinSlots_of_above hg hobject hc'
      (delivers_held (t := fun i => f.locals.getD i .top) (fun i => (hf.meaningful_input i).mono hext) f.locals.size 0)
      g.locals false fun j _ hj => by
        rw [FrameType.named_of_extends hext (hf.meaningful_input j).numbered]
        exact (hinput j (by omega)).mono hext
    have hwhole := hext.trans hext'
    obtain ⟨grown'', hstacked, -⟩ := joinSlots_of_above hg hobject hc''
      (delivers_held (t := fun _ => e) (fun _ => (hhandled e rfl).mono hwhole) 1 0) g.stack false fun j _ hj => by
        obtain rfl : j = 0 := by omega
        rw [FrameType.named_of_extends hwhole (hhandled e rfl).numbered]
        exact hbottom.mono hwhole
    refine ⟨grown'', ?_⟩
    rw [merge_some_eq, hlocals]
    dsimp only
    rw [hlocals', handlerStack_of_hasStack hhas, hhas]
    dsimp only
    rw [Bool.not_true, Bool.or_false, hstacked, hself]

/-- A frame that has taken in the locals does not change along plain flow, whatever the heights of the stacks. -/
theorem merge_of_locals (hg : h.Grounded) (hobject : h.superClass objectClass = none) (hc : TypeTable.Consistent h types)
    (hf : f.Entered types count) (hs : f.Sane types) (hentered : g.Entered types count) (hheight : f.heightAfter = 0)
    (habove : ∀ i < f.locals.size, HoldsAbove h types g.locals i (f.constructedName types className (f.leftLocal i))) :
    ∃ result grown, f.merge g none className h types = (result, g, grown) := by
  have hself : { g with entered := true } = g := by rw [← hentered.entered]
  obtain ⟨grown, hlocals, hc', hext⟩ := joinLocals_of_above className hg hobject hc hf hs hentered habove
  have hstack : g.startStack f.heightAfter = g.stack := if_pos hentered.entered
  rw [merge_none_eq, hlocals, hstack, hheight]
  dsimp only
  split
  · exact ⟨none, grown, by rw [hself]⟩
  · exact ⟨some false, grown, by rw [joinSlots, hself]⟩

/-- What has been taken in stays so when the table grows. -/
theorem Takes.mono (ht : f.Takes h types className g handled) (hext : types.Extends grown) (hf : f.Entered types count)
    (hs : f.Sane types) (hhandled : ∀ e ∈ handled, e.Held types) : f.Takes h grown className g handled := by
  refine ⟨fun i hi => ?_, fun hn => ?_, fun e he => ?_⟩
  · exact ((ht.locals i hi).mono hext).constructedName_mono hext (hf.meaningful_leftLocal hs i)
  · obtain ⟨hheight, habove⟩ := ht.stack hn
    exact ⟨hheight, fun i hi => ((habove i hi).mono hext).constructedName_mono hext (hf.meaningful_leftStack hs i)⟩
  · obtain ⟨hinput, hbottom⟩ := ht.handler e he
    refine ⟨fun i hi => ?_, ?_⟩
    · rw [FrameType.named_of_extends hext (hf.meaningful_input i).numbered]
      exact (hinput i hi).mono hext
    · rw [FrameType.named_of_extends hext (hhandled e he).numbered]
      exact hbottom.mono hext

/-- What has been taken in stays so while the frame goes up, unless an exception comes onto its empty stack. -/
theorem Takes.rise (hg : h.Grounded) (hobject : h.superClass objectClass = none) (ht : f.Takes h types className g handled)
    {g' : Frame} {handled' : Option FrameType} (hr : g.Rises h types grown g' handled') (hext : types.Extends grown)
    (hf : f.Entered types count) (hs : f.Sane types) (hhandled : ∀ e ∈ handled, e.Held types) :
    f.Takes h grown className g' handled ∨ handled = none ∧ f.heightAfter = 0 ∧ handled'.isSome = true := by
  have hlocals : ∀ i < f.locals.size, HoldsAbove h grown g'.locals i (f.constructedName grown className (f.leftLocal i)) :=
    fun i hi => ((ht.locals i hi).rise hg hobject hr.locals).constructedName_mono hext (hf.meaningful_leftLocal hs i)
  cases handled with
  | none =>
    obtain ⟨hheight, habove⟩ := ht.stack rfl
    rcases hr.stack with hstack | ⟨hsome, hempty, -⟩
    · refine Or.inl ⟨hlocals, fun _ => ⟨hstack.1.trans hheight, fun i hi => ?_⟩, fun e he => nomatch he⟩
      exact ((habove i hi).rise hg hobject hstack).constructedName_mono hext (hf.meaningful_leftStack hs i)
    · refine Or.inr ⟨rfl, ?_, hsome⟩
      rw [← hheight, hempty]
      rfl
  | some x =>
    refine Or.inl ⟨hlocals, fun e => (nomatch e), fun e he => ?_⟩
    obtain ⟨hinput, hbottom⟩ := ht.handler e he
    refine ⟨fun i hi => ?_, ?_⟩
    · rw [FrameType.named_of_extends hext (hf.meaningful_input i).numbered]
      exact (hinput i hi).rise hg hobject hr.locals
    · rw [FrameType.named_of_extends hext (hhandled e he).numbered]
      rcases hr.stack with hstack | ⟨-, hempty, -⟩
      · exact hbottom.rise hg hobject hstack
      · obtain ⟨u, hu, -⟩ := hbottom
        rw [hempty] at hu
        cases hu

end Taking

/-! ## Heights of stacks -/

/-- Joining leaves the number of slots alone. -/
theorem size_joinSlots (h : Hierarchy) (incoming : Nat → TypeTable → FrameType × TypeTable) (count i : Nat)
    (slots : Array FrameType)
    (changed : Bool) (types : TypeTable) : (joinSlots h incoming count i slots changed types).1.size = slots.size := by
  induction count generalizing i slots changed types with
  | zero => rfl
  | succ count ih =>
    rw [joinSlots]
    dsimp only
    rw [ih, Array.size_setIfInBounds]

/-- Plain flow finds another height of the stack just if the successor has been entered with one, and
leaves the height as it is. -/
theorem merge_none_height (f g : Frame) (className : String) (h : Hierarchy) (types : TypeTable) :
    ((f.merge g none className h types).1 = none ↔ g.entered = true ∧ g.stack.size ≠ f.heightAfter) ∧
      (f.merge g none className h types).2.1.stack.size = if g.entered then g.stack.size else f.heightAfter := by
  have hstart : (g.startStack f.heightAfter).size = if g.entered then g.stack.size else f.heightAfter := by
    unfold startStack
    split
    · rfl
    · exact Array.size_replicate
  rw [merge_none_eq]
  dsimp only
  split
  · rename_i hne
    refine ⟨iff_of_true rfl ?_, hstart⟩
    rw [hstart] at hne
    split at hne
    · rename_i he
      exact ⟨he, hne⟩
    · exact absurd rfl hne
  · rename_i heq
    refine ⟨iff_of_false (fun e => nomatch e) ?_, (size_joinSlots ..).trans hstart⟩
    rintro ⟨he, hne⟩
    rw [hstart, if_pos he] at heq
    exact heq hne

/-- The way to a handler never finds another height: the exception joins the bottom of whatever stack is there,
and is pushed on an empty one. -/
theorem merge_some_height (f g : Frame) (e : FrameType) (className : String) (h : Hierarchy) (types : TypeTable) :
    (f.merge g (some e) className h types).1 ≠ none ∧
      (f.merge g (some e) className h types).2.1.stack.size = if g.hasStack then g.stack.size else 1 := by
  rw [merge_some_eq]
  dsimp only
  refine ⟨(fun hnone => nomatch hnone), (size_joinSlots ..).trans ?_⟩
  unfold handlerStack
  split <;> rfl

/-- A merge is refused just for another height that plain flow hands over, and it changes no height that the successor has
been entered with, except that the exception is pushed on an empty stack on the way to a handler. -/
theorem merge_heights (f g : Frame) (className : String) (h : Hierarchy) (types : TypeTable) :
    (((f.merge g none className h types).1 = none ↔ g.entered = true ∧ g.stack.size ≠ f.heightAfter) ∧
      (f.merge g none className h types).2.1.stack.size = if g.entered then g.stack.size else f.heightAfter) ∧
    ∀ e, (f.merge g (some e) className h types).1 ≠ none ∧
      (f.merge g (some e) className h types).2.1.stack.size = if g.hasStack then g.stack.size else 1 :=
  ⟨merge_none_height f g className h types, fun e => merge_some_height f g e className h types⟩

end Frame

end ClassFile
