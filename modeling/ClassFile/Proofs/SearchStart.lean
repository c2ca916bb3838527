import ClassFile.Proofs.FlowDrafting
import ClassFile.Proofs.SearchEnd
import ClassFile.Proofs.SearchRun

/-!
# The start of the search

Handlers add edges that hand over a class, and the method enters its first block with the receiver and the parameters. From
there the invariant of the search holds, and the rounds that the search is given are enough for all that frames can change.
-/

namespace ClassFile

/-- Whether every parameter of a method has a value. A descriptor is read for no more than its letters, and may
name parameters that have none. -/
def Frame.Method.TakesValues (m : Frame.Method) : Prop :=
  ∀ p ∈ Descriptor.parameterTypes m.descriptor, (Descriptor.returnChars p.toList).head? ≠ some 'V'

namespace ControlFlow

section Handlers

variable {h : Hierarchy} {types : TypeTable} {flow : ControlFlow}

/-- A flow that is still to be searched is so for a table that has grown. -/
theorem Unsolved.mono (hu : flow.Unsolved h types) {grown : TypeTable} (hc : TypeTable.Consistent h grown)
    (hext : types.Extends grown) : flow.Unsolved h grown :=
  ⟨hc, hu.framed, hu.first, hu.blocks.mono hext⟩

/-- Edges to a handler leave a flow to be searched. -/
theorem Unsolved.addEdges (hu : flow.Unsolved h types) {e : Edge} (he : ∀ x ∈ e.kind.handled, x.Held types)
    (blocks : List Nat) :
    (flow.addEdges e blocks).Unsolved h types := by
  unfold ControlFlow.addEdges
  induction blocks generalizing flow with
  | nil => exact hu
  | cons i rest ih => exact ih (hu.modify i fun hb => hb.withEdge he)

/-- A handler is found by edges that hand over a class of the type table. -/
theorem Unsolved.addFramedHandler (hu : flow.Unsolved h types) (handler : Handler) :
    (ControlFlow.addFramedHandler (flow, types) handler).1.Unsolved h
      (ControlFlow.addFramedHandler (flow, types) handler).2 := by
  obtain ⟨-, hext, hi⟩ := TypeTable.addNormal_spec hu.consistent.sound (handler.catchType.getD throwableClass)
  have hgrown := hu.mono (hu.consistent.add _) hext
  have htarget := (hgrown.index handler.handler).markTarget (flow.index handler.handler).1
  have hcovered := (htarget.index handler.start).index handler.stop
  unfold ControlFlow.addFramedHandler coveredBlocks
  dsimp only
  refine hcovered.addEdges (fun x hx => ?_) _
  obtain rfl := Option.some.inj hx
  exact FrameType.held_object hi 0

/-- All handlers leave a flow to be searched. -/
theorem Unsolved.addFramedHandlers (hu : flow.Unsolved h types) (handlers : List Handler) :
    (handlers.foldl ControlFlow.addFramedHandler (flow, types)).1.Unsolved h
      (handlers.foldl ControlFlow.addFramedHandler (flow, types)).2 := by
  induction handlers generalizing flow types with
  | nil => exact hu
  | cons handler rest ih =>
    have hadded := hu.addFramedHandler handler
    rw [List.foldl_cons]
    generalize ControlFlow.addFramedHandler (flow, types) handler = r at hadded ⊢
    exact ih hadded

end Handlers

end ControlFlow

namespace Frame

section Entry

variable {h : Hierarchy} {types : TypeTable} {locals : Array FrameType}

/-- Parameters put types of the table into locals, and types that a slot can hold if they have values. -/
theorem parameterLocals_spec (hc : TypeTable.Consistent h types) (hlocals : ∀ t ∈ locals, t.Listed types)
    (ps : List String) :
    ∃ locals' grown e, parameterLocals locals types ps = (locals', grown, e) ∧ TypeTable.Consistent h grown ∧
      types.Extends grown ∧ (∀ t ∈ locals', t.Listed grown) ∧
      ((∀ p ∈ ps, (Descriptor.returnChars p.toList).head? ≠ some 'V') → (∀ t ∈ locals, t.Held types) → ∀ t ∈ locals',
        t.Held grown) := by
  induction ps generalizing locals types with
  | nil => exact ⟨locals, types, none, rfl, hc, TypeTable.Extends.refl types, hlocals, fun _ hheld => hheld⟩
  | cons p rest ih =>
    obtain ⟨hc', hext, hmeans⟩ := FrameType.found_ofValue hc (Descriptor.returnChars p.toList)
    have hset : (Descriptor.returnChars p.toList).head? ≠ some 'V' →
        ∀ t ∈ (FrameType.ofValue types (Descriptor.returnChars p.toList)).1, t.isUnset = false :=
      fun hp t ht => FrameType.ofValue_isUnset hp ht
    unfold parameterLocals FrameType.ofDescriptor
    generalize FrameType.ofValue types (Descriptor.returnChars p.toList) = r at hc' hext hmeans hset
    obtain ⟨found, later⟩ := r
    cases found with
    | none =>
      exact ⟨locals, later, _, rfl, hc', hext, fun t ht => (hlocals t ht).mono hext,
        fun _ hheld t ht => (hheld t ht).mono hext⟩
    | some t =>
      have hpushed : ∀ P : FrameType → Prop, (∀ u ∈ locals, P u) → P t → P .top →
          ∀ u ∈ (if t.isWide then (locals.push t).push .top else locals.push t), P u := by
        intro P hbefore ht htop u hu
        split at hu
        · rcases Array.mem_push.1 hu with hu | rfl
          · rcases Array.mem_push.1 hu with hu | rfl
            · exact hbefore u hu
            · exact ht
          · exact htop
        · rcases Array.mem_push.1 hu with hu | rfl
          · exact hbefore u hu
          · exact ht
      have ht : t.Listed later := by
        by_cases hunset : t.isUnset = true
        · exact eq_of_beq hunset ▸ FrameType.listed_unset
        · exact (hmeans t rfl (by simpa using hunset)).2.listed
      obtain ⟨locals', grown, e, hrest, hc'', hext', hlisted, hheld⟩ :=
        ih hc' (hpushed (FrameType.Listed later) (fun u hu => (hlocals u hu).mono hext) ht listed_top)
      refine ⟨locals', grown, e, hrest, hc'', hext.trans hext', hlisted, fun hps hbefore => ?_⟩
      obtain ⟨hnull, hmeaning⟩ := hmeans t rfl (hset (hps p List.mem_cons_self) t rfl)
      exact hheld (fun q hq => hps q (List.mem_cons_of_mem _ hq)) (hpushed (FrameType.Held later)
        (fun u hu => (hbefore u hu).mono hext) ⟨hmeaning, FrameType.settled_of_ne hnull⟩ FrameType.held_top)

/-- The effect of a block is in types of the table. -/
theorem Sane.effectListed {f : Frame} (hf : f.Sane types) : f.EffectListed types := by
  have hleft : ∀ t : FrameType, t.Left types → t.Listed types := by
    intro t ht
    by_cases hconcrete : t.shape.isConcrete = true
    · exact (ht.meaningful hconcrete).listed
    · exact ⟨fun i hi => absurd (by rw [hi]; rfl) hconcrete, fun i hi => absurd (by rw [hi]; rfl) hconcrete⟩
  refine ⟨fun t ht => ?_, fun t ht => hleft t (hf.outStack t ht)⟩
  by_cases hunset : t.isUnset = true
  · exact eq_of_beq hunset ▸ FrameType.listed_unset
  · exact hleft t (hf.outLocals t ht (by simpa using hunset))

/-- The receiver and the parameters enter a method. -/
theorem Unentered.enter {f : Frame} (hf : f.Unentered types) (hc : TypeTable.Consistent h types) (m : Method) :
    ∃ g grown e, f.enter types m = (g, grown, e) ∧ TypeTable.Consistent h grown ∧ types.Extends grown ∧ g.Sane grown ∧
      g.stack = #[] ∧ g.InputListed grown g.locals.size ∧ (m.TakesValues → g.Entered grown g.locals.size) := by
  have hreceiver : ∃ locals grown, (if m.isStatic then ((#[], types) : Array FrameType × TypeTable)
      else if m.isConstructor then (#[FrameType.uninitializedThis], types)
      else (#[FrameType.object (types.addNormal m.className).1], (types.addNormal m.className).2)) = (locals, grown) ∧
      TypeTable.Consistent h grown ∧ types.Extends grown ∧ ∀ t ∈ locals, t.Held grown := by
    split
    · exact ⟨_, _, rfl, hc, TypeTable.Extends.refl types, fun t ht => (nomatch Array.not_mem_empty t ht)⟩
    · split
      · refine ⟨_, _, rfl, hc, TypeTable.Extends.refl types, fun t ht => ?_⟩
        obtain rfl := Array.mem_singleton.1 ht
        exact ⟨⟨rfl, fun _ e => (nomatch e), fun _ e => (nomatch e)⟩, rfl⟩
      · obtain ⟨-, hext, hi⟩ := TypeTable.addNormal_spec hc.sound m.className
        refine ⟨_, _, rfl, hc.add _, hext, fun t ht => ?_⟩
        obtain rfl := Array.mem_singleton.1 ht
        exact FrameType.held_object hi 0
  obtain ⟨locals, grown, hreceiver, hc', hext, hheld⟩ := hreceiver
  obtain ⟨locals', grown', e, hparameters, hc'', hext', hlisted, hheld'⟩ :=
    parameterLocals_spec hc' (fun t ht => (hheld t ht).toMeaningful.listed) (Descriptor.parameterTypes m.descriptor)
  have hsane := hf.toSane.mono (hext.trans hext')
  have hempty : ∀ P : FrameType → Prop, ∀ t ∈ (#[] : Array FrameType), P t := fun _ t ht => nomatch Array.not_mem_empty t ht
  unfold Frame.enter
  dsimp only
  rw [hreceiver]
  dsimp only
  rw [hparameters]
  cases e with
  | some e =>
    exact ⟨_, grown', some e, rfl, hc'', hext.trans hext', ⟨hsane.outLocals, hsane.outStack⟩, rfl,
      ⟨rfl, rfl, hlisted, hempty _⟩, fun hm => ⟨rfl, rfl, hheld' hm hheld, hempty _⟩⟩
  | none =>
    have hfilled : ∀ P : FrameType → Prop, (∀ t ∈ locals', P t) → P .top →
        ∀ t ∈ locals' ++ Array.replicate (m.maxLocals - locals'.size) FrameType.top, P t := by
      intro P hbefore htop t ht
      rcases Array.mem_append.1 ht with ht | ht
      · exact hbefore t ht
      · rw [(Array.mem_replicate.1 ht).2]
        exact htop
    exact ⟨_, grown', none, rfl, hc'', hext.trans hext', ⟨hsane.outLocals, hsane.outStack⟩, rfl,
      ⟨rfl, rfl, hfilled _ hlisted listed_top, hempty _⟩,
      fun hm => ⟨rfl, rfl, hfilled _ (hheld' hm hheld) FrameType.held_top, hempty _⟩⟩

end Entry

end Frame

namespace ControlFlow

/-- The sum of a number of each block, added up one after another. -/
theorem foldl_add_eq (F : Block → Nat) (bs : List Block) (n : Nat) :
    bs.foldl (fun n b => n + F b) n = n + ∑ j ∈ Finset.range bs.length, F (bs.getD j {}) := by
  induction bs generalizing n with
  | nil => rfl
  | cons b rest ih =>
    rw [List.foldl_cons, ih, List.length_cons, Finset.sum_range_succ', Nat.add_assoc, Nat.add_comm (F b)]
    rfl

/-- No stack gets higher than what all blocks put on one, with the exception. -/
theorem heightBound_eq (blocks : Blocks) :
    heightBound blocks = 1 + Search.total (fun f => f.outStack.size) blocks.size fun j => (blocks.get j).frame := by
  unfold heightBound
  rw [← Array.foldl_toList, foldl_add_eq fun b => (b.frame.map fun f => f.outStack.size).getD 0]
  refine congrArg (1 + ·) (Finset.sum_congr rfl fun j _ => ?_)
  have hget : blocks.arena.toList.getD j {} = blocks.get j := by
    rw [Blocks.get, Array.getD_eq_getD_getElem?, List.getD_eq_getElem?_getD, Array.getElem?_toList]
  rw [hget]

section Start

variable {h : Hierarchy} {types grown : TypeTable} {flow : ControlFlow} {g : Frame} {className : String}

/-- The flow in which the first block has been entered. -/
def enteredWith (flow : ControlFlow) (g : Frame) : ControlFlow :=
  flow.modify flow.first fun b => { b with frame := some g }

/-- The first block is entered with what the method's parameters are. -/
theorem enterFirst_eq (flow : ControlFlow) (types : TypeTable) (m : Frame.Method) :
    flow.enterFirst types m =
      let r := ((flow.blocks.get flow.first).frame.getD Frame.empty).enter types m
      (flow.enteredWith r.1, r.1, r.2.1, r.2.2) := rfl

/-- Once the first block is entered, every other frame is as it was. -/
theorem frame_enteredWith (hu : flow.Unsolved h types) (g : Frame) {j : Nat} {f : Frame}
    (hf : ((flow.enteredWith g).blocks.get j).frame = some f) : j = flow.first ∧ f = g ∨ f.Unentered types := by
  unfold enteredWith at hf
  rw [modify_eq, Blocks.get_modify] at hf
  split at hf
  · rename_i hj
    exact Or.inl ⟨hj.1, (Option.some.inj hf).symm⟩
  · exact Or.inr ((hu.blocks j).frame f hf)

/-- Entering the first block leaves the graph alone. -/
theorem graph_enteredWith (flow : ControlFlow) (g : Frame) : Blocks.SameGraph flow.blocks (flow.enteredWith g).blocks :=
  Blocks.sameGraph_modify flow.blocks flow.first (fun _ => rfl) fun _ => rfl

/-- The first block has the frame with which it was entered. -/
theorem first_enteredWith (hu : flow.Unsolved h types) (g : Frame) :
    ((flow.enteredWith g).blocks.get flow.first).frame = some g := by
  unfold enteredWith
  rw [modify_eq, Blocks.get_modify_self hu.first]

/-- Only the first block has been entered. -/
theorem entered_enteredWith (hu : flow.Unsolved h types) (g : Frame) {j : Nat} {f : Frame}
    (hf : ((flow.enteredWith g).blocks.get j).frame = some f) (hfe : f.entered = true) : j = flow.first ∧ f = g := by
  rcases frame_enteredWith hu g hf with hfirst | hf
  · exact hfirst
  · exact absurd (hf.entered.symm.trans hfe) Bool.false_ne_true

/-- Nothing has been reached when the first block is entered. -/
theorem reachable_enteredWith (hu : flow.Unsolved h types) (g : Frame) (j : Nat) :
    ((flow.enteredWith g).blocks.get j).reachable = false := by
  rw [← (hu.blocks j).reachable]
  exact Blocks.get_modify_field Block.reachable flow.blocks flow.first rfl j

/-- The handlers' types are in the table when the first block is entered. -/
theorem handled_enteredWith (hu : flow.Unsolved h types) (g : Frame) (hext : types.Extends grown) {j : Nat} {e : Edge}
    (he : e ∈ ((flow.enteredWith g).blocks.get j).edges) : ∀ x ∈ e.kind.handled, x.Held grown := by
  rw [(graph_enteredWith flow g).edges] at he
  exact fun x hx => ((hu.blocks j).handled e he x hx).mono hext

/-- The block to be looked at has been entered. -/
theorem reached_beginSearch (hu : flow.Unsolved h types) (hentered : g.entered = true) (grown : TypeTable) {j : Nat}
    (hj : j ∈ ((flow.enteredWith g).beginSearch grown).queue ∨
      ((flow.enteredWith g).blocks.get j).reachable = true) :
    ∃ f, ((flow.enteredWith g).blocks.get j).frame = some f ∧ f.entered = true := by
  rcases hj with hmem | hj
  · obtain rfl := List.mem_singleton.1 hmem
    exact ⟨g, first_enteredWith hu g, hentered⟩
  · exact absurd ((reachable_enteredWith hu g j).symm.trans hj) Bool.false_ne_true

/-- The search starts with only the first block entered. -/
theorem Unsolved.beginSearch (className : String) (hu : flow.Unsolved h types) (hc : TypeTable.Consistent h grown)
    (hext : types.Extends grown) (hsane : g.Sane grown) (hentered : g.Entered grown g.locals.size) (hstack : g.stack = #[]) :
    Search.Invariant h className g.locals.size flow.first g.locals ((flow.enteredWith g).beginSearch grown)
      ((flow.enteredWith g).beginSearch grown).allFrames flow.first [] := by
  refine ⟨hc, fun j f hf => Blocks.lt_size_of_frame hf, ?_, ?_, ?_, ?_, ?_, ?_, ?_, ?_⟩
  · intro j f hf
    rcases frame_enteredWith hu g hf with ⟨-, rfl⟩ | hf
    · exact hsane
    · exact hf.toSane.mono hext
  · intro j f hf hfe
    obtain ⟨-, rfl⟩ := entered_enteredWith hu g hf hfe
    exact hentered
  · exact fun j e he => handled_enteredWith hu g hext he
  · change ((Array.replicate (flow.enteredWith g).blocks.size false).setIfInBounds _ true).size = _
    rw [Array.size_setIfInBounds, Array.size_replicate]
    rfl
  · intro j hj hq
    change j < (flow.enteredWith g).blocks.size at hj
    change ((Array.replicate (flow.enteredWith g).blocks.size false).setIfInBounds flow.first true).getD j true = true at hq
    rw [Array.getD_eq_getD_getElem?, Array.getElem?_setIfInBounds] at hq
    split at hq
    · rename_i hfirst
      exact hfirst ▸ List.mem_cons_self
    · rw [Array.getElem?_replicate, if_pos hj] at hq
      cases hq
  · exact fun j hj => reached_beginSearch hu hentered.entered grown hj
  · intro j f _ hj
    exact absurd ((reachable_enteredWith hu g j).symm.trans hj) Bool.false_ne_true
  · refine ⟨g, first_enteredWith hu g, hentered.entered, fun j t ht => ?_, Or.inl hstack⟩
    have hheld := hentered.locals t (Array.mem_of_getElem? ht)
    exact ⟨hheld, t, ht, hheld, .refl _⟩

/-- The search starts within its bounds, whatever the method is entered with. -/
theorem Unsolved.bounded (hu : flow.Unsolved h types) (hc : TypeTable.Consistent h grown) (hext : types.Extends grown)
    (hsane : g.Sane grown) (hinput : g.InputListed grown g.locals.size) (hstack : g.stack = #[]) :
    Search.Bounded h g.locals.size (heightBound (flow.enteredWith g).blocks) ((flow.enteredWith g).beginSearch grown)
      ((flow.enteredWith g).beginSearch grown).allFrames := by
  refine ⟨hc, fun j f hf => Blocks.lt_size_of_frame hf, ?_, ?_, ?_, ?_, ?_, ?_⟩
  · intro j f hf
    rcases frame_enteredWith hu g hf with ⟨-, rfl⟩ | hf
    · exact hsane.effectListed
    · exact (hf.toSane.mono hext).effectListed
  · intro j f hf hfe
    obtain ⟨-, rfl⟩ := entered_enteredWith hu g hf hfe
    exact hinput
  · exact fun j e he x hx => (handled_enteredWith hu g hext he x hx).toMeaningful.listed
  · exact fun j hj => reached_beginSearch hu hinput.entered grown hj
  · intro j f hf hfe
    obtain ⟨rfl, rfl⟩ := entered_enteredWith hu g hf hfe
    have hle := Search.le_total Search.enteredHeight ((graph_enteredWith flow f).size.symm ▸ hu.first) hf
    rw [Search.enteredHeight, if_pos hfe] at hle
    rw [hstack]
    change 0 + f.outStack.size ≤ 1 + Search.total Search.enteredHeight (flow.enteredWith f).blocks.size _
    omega
  · rw [heightBound_eq]
    exact Nat.le_refl _

/-- The search is given rounds enough. -/
theorem Unsolved.weight_le (hg : h.Grounded) (hu : flow.Unsolved h types) (hentered : g.InputListed grown g.locals.size)
    (hstack : g.stack = #[]) :
    Search.weight h ((g.locals.size + heightBound (flow.enteredWith g).blocks) * (h.size + 40))
      ((flow.enteredWith g).beginSearch grown)
      ((flow.enteredWith g).beginSearch grown).allFrames ≤ roundBound h g.locals.size (flow.enteredWith g).blocks := by
  have hpos : 1 ≤ heightBound (flow.enteredWith g).blocks := by
    rw [heightBound_eq]
    exact Nat.le_add_right 1 _
  have hpotential := hentered.potential_le hg (by rw [hstack]; exact Nat.zero_le _) hpos rfl
  generalize hlimit : (g.locals.size + heightBound (flow.enteredWith g).blocks) * (h.size + 40) = limit at hpotential ⊢
  have heach : ∀ j ∈ Finset.range (flow.enteredWith g).blocks.size,
      ((((flow.enteredWith g).beginSearch grown).allFrames j).map (Frame.potential h grown limit)).getD 0 ≤ limit + 2 := by
    intro j _
    cases hf : ((flow.enteredWith g).beginSearch grown).allFrames j with
    | none => exact Nat.zero_le _
    | some f =>
      rcases frame_enteredWith hu g hf with ⟨-, rfl⟩ | hf
      · exact Nat.le_succ_of_le hpotential
      · rw [Option.map_some, Option.getD_some, Frame.potential, if_neg (by simp [hf.entered])]
  have hsum := Finset.sum_le_card_nsmul _ _ _ heach
  rw [Finset.card_range, smul_eq_mul] at hsum
  have hrounds : (flow.enteredWith g).blocks.size * (limit + 2) ≤ (flow.enteredWith g).blocks.size * (3 + limit) :=
    Nat.mul_le_mul_left _ (by omega)
  have hqueue : ((flow.enteredWith g).beginSearch grown).queue.length = 1 := rfl
  unfold Search.weight Search.total roundBound slotChanges
  rw [hlimit, hqueue]
  exact Nat.le_trans (Nat.add_le_add_right (Nat.le_trans hsum hrounds) 1) (by omega)

end Start

end ControlFlow

end ClassFile
