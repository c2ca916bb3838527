import ClassFile.Proofs.DraftDriving
import ClassFile.Proofs.FlowStretches

/-!
# What each block follows

Where frames are computed, an instruction is followed by the frame of the current block (`FlowEvent.operation?`). Whatever a
control flow is told, also where a label is placed twice, the frame of each block has followed what `ControlFlow.followsAll`
says of it (`ControlFlow.Following.driveAll`).
-/

namespace ClassFile

/-- What an instruction does that a control flow is told of. -/
def FlowEvent.operation? : FlowEvent → Option Frame.Operation
  | .bare op _ => some (.bare op)
  | .immediate op operand => some (.immediate op operand)
  | .moveLocal op slot _ => some (.moveLocal op slot)
  | .increment slot => some (.increment slot)
  | .typed op name offset => some (.typed op name offset)
  | .field op descriptor => some (.field op descriptor)
  | .invoke op name descriptor => some (.invoke op name descriptor)
  | .invokeDynamic descriptor => some (.invokeDynamic descriptor)
  | .constant value => some (.constant value)
  | .multiArray descriptor dimensions => some (.multiArray descriptor dimensions)
  | .jump op _ => some (.jump op)
  | .switch _ _ _ => some .switch
  | _ => none

namespace ControlFlow

/-- What each block has followed after one more event: the current one follows an instruction, and one that has
lost its frame starts anew. -/
def follows (flow : ControlFlow) (types : TypeTable) (followed : Nat → List Frame.Operation) (e : FlowEvent) (j : Nat) :
    List Frame.Operation :=
  if (flow.blocks.get j).frame.isSome && ((flow.drive types e).1.blocks.get j).frame.isSome then
    if flow.current = some j then followed j ++ e.operation?.toList else followed j
  else []

/-- What each block has followed after events, one by one. -/
def followsAll (flow : ControlFlow) (types : TypeTable) (followed : Nat → List Frame.Operation) :
    List FlowEvent → Nat → List Frame.Operation
  | [] => followed
  | e :: rest => followsAll (flow.drive types e).1 (flow.drive types e).2 (flow.follows types followed e) rest

/-- The frame of each block, if it has one, has followed instructions one by one. -/
def Following (h : Hierarchy) (types : TypeTable) (flow : ControlFlow) (followed : Nat → List Frame.Operation) : Prop :=
  ∀ j, ((flow.blocks.get j).frame.getD Frame.empty).Traced h types (followed j)

section Frames

variable {flow flow' flow'' : ControlFlow} {types : TypeTable} {i j : Nat} {f : Frame}

/-! ## Frames that stay -/

/-- A flow with a change that leaves all frames alone. -/
structure SameFrames (flow flow' : ControlFlow) : Prop where
  framed : flow'.analysis = flow.analysis
  current : flow'.current = flow.current
  frame : ∀ j, (flow'.blocks.get j).frame = (flow.blocks.get j).frame

theorem SameFrames.refl (flow : ControlFlow) : SameFrames flow flow :=
  ⟨rfl, rfl, fun _ => rfl⟩

theorem SameFrames.trans (hs : SameFrames flow flow') (hs' : SameFrames flow' flow'') : SameFrames flow flow'' :=
  ⟨hs'.framed.trans hs.framed, hs'.current.trans hs.current, fun j => (hs'.frame j).trans (hs.frame j)⟩

/-- A change of a block that leaves its frame alone leaves all frames alone. -/
theorem sameFrames_modify (flow : ControlFlow) (i : Nat) {g : Block → Block} (hg : ∀ b, (g b).frame = b.frame) :
    SameFrames flow (flow.modify i g) :=
  ⟨rfl, rfl, Blocks.get_modify_field Block.frame flow.blocks i (hg _)⟩

/-- A new block without a frame leaves all frames alone. -/
theorem sameFrames_push (flow : ControlFlow) (b : Block) (hb : b.frame = none) (labels : Std.HashMap Label Nat) :
    SameFrames flow { flow with blocks := ⟨flow.blocks.arena.push b, labels⟩ } := by
  refine ⟨rfl, rfl, fun j => ?_⟩
  dsimp only
  rw [Blocks.get_push]
  split
  · rename_i hj
    rw [hb, Blocks.get_of_size_le (Nat.le_of_eq hj.symm)]
  · rfl

/-- Naming a label may add a block, but no frame. -/
theorem sameFrames_index (flow : ControlFlow) (label : Label) : SameFrames flow (flow.index label).2 := by
  cases hlabel : flow.blocks.labels[label]? with
  | none =>
    rw [index_new hlabel]
    exact sameFrames_push flow _ rfl _
  | some i =>
    rw [index_known hlabel]
    exact .refl flow

/-- A new block for the code behind a jump has no frame yet. -/
theorem sameFrames_fresh (flow : ControlFlow) : SameFrames flow flow.fresh.2 :=
  sameFrames_push flow { owner := flow.blocks.size } rfl flow.blocks.labels

/-- A new block has no frame. -/
theorem frame_fresh (flow : ControlFlow) : (flow.fresh.2.blocks.get flow.fresh.1).frame = none := by
  rw [(sameFrames_fresh flow).frame, show flow.fresh.1 = flow.blocks.size from rfl, Blocks.get_of_size_le (Nat.le_refl _)]

theorem sameFrames_markTarget (flow : ControlFlow) (i : Nat) : SameFrames flow (flow.markTarget i) :=
  sameFrames_modify flow _ fun _ => rfl

/-- A block that takes over the mark of another one keeps its frame. -/
theorem sameFrames_inheritTarget (flow : ControlFlow) (i source : Nat) : SameFrames flow (flow.inheritTarget i source) :=
  sameFrames_modify flow _ fun _ => rfl

theorem sameFrames_addEdge (flow : ControlFlow) (kind : EdgeKind) (target : Nat) :
    SameFrames flow (flow.addEdge kind target) := by
  unfold ControlFlow.addEdge
  split
  · exact sameFrames_modify flow _ fun _ => rfl
  · exact .refl flow

theorem sameFrames_putReference (flow : ControlFlow) (label : Label) (origin : Nat) (code : Bytes) (wide : Bool) :
    SameFrames flow (flow.putReference label origin code wide).1 := by
  have hindexed := sameFrames_index flow label
  have hblocks : flow.index label = ((flow.blocks.index label).1, { flow with blocks := (flow.blocks.index label).2 }) := rfl
  rw [hblocks] at hindexed
  unfold ControlFlow.putReference Blocks.putReference
  dsimp only
  split
  · exact hindexed
  · exact hindexed.trans (sameFrames_modify _ (flow.blocks.index label).1
      (g := fun b => { b with references := b.references.push ⟨origin, code.size, wide⟩ }) fun _ => rfl)

theorem sameFrames_switchEdges (kind : EdgeKind) (flow : ControlFlow) (labels : List Label) :
    SameFrames flow (labels.foldl (switchEdge kind) flow) := by
  induction labels generalizing flow with
  | nil => exact .refl flow
  | cons label rest ih =>
    refine .trans ?_ (ih (switchEdge kind flow label))
    have hedge := (sameFrames_index flow label).trans (sameFrames_addEdge (flow.index label).2 kind (flow.index label).1)
    unfold switchEdge
    dsimp only
    split
    · exact hedge.trans (sameFrames_markTarget _ _)
    · exact hedge

theorem sameFrames_addEdges (e : Edge) (flow : ControlFlow) (blocks : List Nat) :
    SameFrames flow (flow.addEdges e blocks) := by
  unfold ControlFlow.addEdges
  induction blocks generalizing flow with
  | nil => exact .refl flow
  | cons i rest ih =>
    rw [List.foldl_cons]
    exact (sameFrames_modify flow i (g := fun b => { b with edges := b.edges.push e }) fun _ => rfl).trans (ih _)

theorem sameFrames_addFramedHandler (flow : ControlFlow) (types : TypeTable) (handler : Handler) :
    SameFrames flow (addFramedHandler (flow, types) handler).1 := by
  have hmarked := (sameFrames_index flow handler.handler).trans (sameFrames_markTarget _ (flow.index handler.handler).1)
  unfold addFramedHandler coveredBlocks
  dsimp only
  generalize (flow.index handler.handler).2.markTarget (flow.index handler.handler).1 = marked at *
  have hindexed := (sameFrames_index marked handler.start).trans (sameFrames_index _ handler.stop)
  exact (hmarked.trans hindexed).trans (sameFrames_addEdges _ _ _)

theorem sameFrames_addFramedHandlers (flow : ControlFlow) (types : TypeTable) (handlers : List Handler) :
    SameFrames flow (handlers.foldl addFramedHandler (flow, types)).1 := by
  induction handlers generalizing flow types with
  | nil => exact .refl flow
  | cons handler rest ih =>
    have hfirst := sameFrames_addFramedHandler flow types handler
    rw [List.foldl_cons]
    generalize addFramedHandler (flow, types) handler = next at *
    exact hfirst.trans (ih next.1 next.2)

/-! ## Frames that are new -/

/-- A flow in which blocks without a frame may have got one. -/
def Gains (flow flow' : ControlFlow) : Prop :=
  ∀ j, (flow'.blocks.get j).frame = (flow.blocks.get j).frame ∨
    (flow.blocks.get j).frame = none ∧ (flow'.blocks.get j).frame = some Frame.empty

/-- Where no frame changes, no block loses one. -/
theorem SameFrames.gains (hs : SameFrames flow flow') : Gains flow flow' :=
  fun j => Or.inl (hs.frame j)

theorem Gains.trans (hg : Gains flow flow') (hg' : Gains flow' flow'') : Gains flow flow'' := by
  intro j
  rcases hg j with hsame | ⟨hnone, hsome⟩
  · rw [← hsame]
    exact hg' j
  · rcases hg' j with hsame | ⟨hnone', -⟩
    · exact Or.inr ⟨hnone, hsame.trans hsome⟩
    · rw [hsome] at hnone'
      cases hnone'

theorem frame_append (flow : ControlFlow) (i j : Nat) :
    ((flow.append i).blocks.get j).frame = (flow.blocks.get j).frame := by
  unfold ControlFlow.append
  cases flow.previous with
  | none => rfl
  | some p => exact (sameFrames_modify flow p (g := fun b => { b with successor := some i }) fun _ => rfl).frame j

/-- Ending a block without a successor gives at most the next block a frame. -/
theorem gains_noSuccessor (hframed : flow.analysis = .frames) (position : Nat) : Gains flow (flow.noSuccessor position) := by
  intro j
  unfold ControlFlow.noSuccessor
  rw [hframed]
  dsimp only
  rw [frame_append, ← (sameFrames_fresh flow).frame j, modify_eq, Blocks.get_modify]
  split
  · rename_i hj
    rw [hj.1]
    exact Or.inr ⟨frame_fresh flow, rfl⟩
  · exact Or.inl rfl

/-- The block that is placed keeps its frame, gets one, or gives it up for that of another block; no other frame changes. -/
theorem frame_placeFramed (flow : ControlFlow) (i position j : Nat) :
    let frame := ((flow.placeFramed i position).blocks.get j).frame
    frame = (flow.blocks.get j).frame ∨ j = i ∧
    (frame = none ∨ frame = some ((flow.blocks.get i).frame.getD Frame.empty)) := by
  have hedge := sameFrames_addEdge flow (.normal 0) i
  unfold ControlFlow.placeFramed
  dsimp only
  split
  · rename_i k _
    left
    rw [modify_eq]
    dsimp only
    rw [Blocks.get_modify_field Block.frame _ i rfl, (sameFrames_inheritTarget flow k i).frame]
  · split
    · rename_i k _
      have hinherited := hedge.trans (sameFrames_inheritTarget _ k i)
      rw [← hinherited.frame j, modify_eq]
      dsimp only
      rw [Blocks.get_modify]
      split
      · rename_i hj
        exact Or.inr ⟨hj.1, Or.inl rfl⟩
      · exact Or.inl rfl
    · dsimp only
      rw [frame_append, ← hedge.frame j, ← hedge.frame i, modify_eq]
      dsimp only
      rw [Blocks.get_modify]
      split
      · rename_i hj
        exact Or.inr ⟨hj.1, Or.inr rfl⟩
      · exact Or.inl rfl

/-- A block that is placed gets an empty frame if it has none, and every other block keeps its own. -/
theorem frame_place (hframed : flow.analysis = .frames) (i : Nat) (code : Bytes) (j : Nat) :
    let frame := ((flow.place i code).1.blocks.get j).frame
    frame = (flow.blocks.get j).frame ∨ j = i ∧
    (frame = none ∨ frame = some ((flow.blocks.get i).frame.getD Frame.empty)) := by
  have hresolved : SameFrames flow (flow.resolve i code.size code).1 :=
    sameFrames_modify flow i (g := fun b => { b with resolved := true, position := code.size, references := #[] }) fun _ =>
      rfl
  unfold ControlFlow.place
  dsimp only
  split
  · exact Or.inl (hresolved.frame j)
  · rw [hresolved.framed, hframed]
    dsimp only
    rw [← hresolved.frame j, ← hresolved.frame i]
    exact frame_placeFramed _ i code.size j

/-- A new block that is placed. -/
theorem gains_place_fresh (hframed : flow.analysis = .frames) (hnone : (flow.blocks.get i).frame = none) (code : Bytes) :
    Gains flow (flow.place i code).1 := by
  intro j
  rcases frame_place hframed i code j with hsame | ⟨rfl, hnew | hnew⟩
  · exact Or.inl hsame
  · exact Or.inl (hnew.trans hnone.symm)
  · rw [hnone] at hnew
    exact Or.inr ⟨hnone, hnew⟩

/-! ## Instructions -/

/-- What an instruction makes of the frames and of the type table: the frame of the current block follows it, and then blocks
without a frame may get one. -/
def Steps (o : Frame.Operation) (flow : ControlFlow) (types : TypeTable) (flow' : ControlFlow) (types' : TypeTable) : Prop :=
  (∃ i f, flow.current = some i ∧ (flow.blocks.get i).frame = some f ∧ types' = (f.execute types o).2.1 ∧
    ∃ middle : ControlFlow, Gains middle flow' ∧
      ∀ j, (middle.blocks.get j).frame = if i = j then some (f.execute types o).1 else (flow.blocks.get j).frame) ∨
  (∀ i, flow.current = some i → (flow.blocks.get i).frame = none) ∧ types' = types ∧ Gains flow flow'

/-- A change of the current frame is seen in the current block and nowhere else. -/
theorem frame_mapFrame (hcurrent : flow.current = some i) (g : Frame → Frame) (j : Nat) :
    ((flow.mapFrame g).blocks.get j).frame = if i = j then (flow.blocks.get i).frame.map g
    else (flow.blocks.get j).frame := by
  unfold ControlFlow.mapFrame
  rw [hcurrent]
  dsimp only
  rw [modify_eq, modify_eq]
  dsimp only
  rw [Blocks.get_modify, Blocks.size_modify]
  by_cases hj : i = j
  · subst hj
    by_cases hlt : i < flow.blocks.size
    · rw [if_pos ⟨rfl, hlt⟩, if_pos rfl]
    · have hnone : (flow.blocks.get i).frame = none := by rw [Blocks.get_of_size_le (Nat.le_of_not_lt hlt)]
      rw [if_neg fun h => hlt h.2, if_pos rfl, Blocks.get_modify, if_neg fun h => hlt h.2, hnone]
      rfl
  · rw [if_neg fun h => hj h.1.symm, if_neg hj, Blocks.get_modify_of_ne _ (Ne.symm hj)]

/-- What an instruction makes of the current frame is a step, if it needs no types and what comes around it moves no frame.
-/
theorem steps_mapFrame {o : Frame.Operation} {g : Frame → Frame} (hg : ∀ f : Frame, f.execute types o = (g f, types, none))
    {before : ControlFlow} (hbefore : SameFrames flow before) (hafter : Gains (before.mapFrame g) flow') :
    Steps o flow types flow' types := by
  cases hcurrent : flow.current with
  | none =>
    have hsame : before.mapFrame g = before := by
      unfold ControlFlow.mapFrame
      rw [hbefore.current, hcurrent]
    rw [hsame] at hafter
    exact Or.inr ⟨fun i hi => (nomatch hcurrent.symm.trans hi), rfl, hbefore.gains.trans hafter⟩
  | some i =>
    have hmapped := frame_mapFrame (hbefore.current.trans hcurrent) g
    cases hframe : (flow.blocks.get i).frame with
    | none =>
      refine Or.inr ⟨fun k hk => ?_, rfl, Gains.trans (fun j => Or.inl ?_) hafter⟩
      · obtain rfl := Option.some.inj (hcurrent.symm.trans hk)
        exact hframe
      · rw [hmapped, hbefore.frame, hbefore.frame, hframe]
        split
        · rename_i hij
          rw [← hij, hframe]
          rfl
        · rfl
    | some f =>
      refine Or.inl ⟨i, f, hcurrent, hframe, by rw [hg], before.mapFrame g, hafter, fun j => ?_⟩
      rw [hmapped, hbefore.frame, hbefore.frame, hframe, hg]
      rfl

/-- Running an instruction on the current frame is a step. -/
theorem steps_stepFrame (o : Frame.Operation) :
    Steps o flow types (flow.stepFrame types fun f types => f.execute types o).1
      (flow.stepFrame types fun f types => f.execute types o).2.1 := by
  unfold ControlFlow.stepFrame
  cases hcurrent : flow.current with
  | none => exact Or.inr ⟨fun i hi => (nomatch hcurrent.symm.trans hi), rfl, (SameFrames.refl flow).gains⟩
  | some i =>
    dsimp only
    cases hframe : (flow.blocks.get i).frame with
    | none =>
      refine Or.inr ⟨fun k hk => ?_, rfl, fun j => Or.inl ?_⟩
      · obtain rfl := Option.some.inj (hcurrent.symm.trans hk)
        exact hframe
      · exact Blocks.get_modify_field Block.frame flow.blocks i hframe.symm j
    | some f =>
      refine Or.inl ⟨i, f, hcurrent, hframe, rfl, _, (SameFrames.refl _).gains, fun j => ?_⟩
      dsimp only
      rw [modify_eq, modify_eq]
      dsimp only
      rw [Blocks.get_modify, Blocks.size_modify]
      by_cases hj : i = j
      · subst hj
        rw [if_pos ⟨rfl, Blocks.lt_size_of_frame hframe⟩, if_pos rfl]
      · rw [if_neg fun h => hj h.1.symm, if_neg hj, Blocks.get_modify_of_ne _ (Ne.symm hj)]

/-- Nothing is followed outside a block. -/
theorem steps_of_not_inBlock (o : Frame.Operation) (hnot : ¬flow.inBlock = true) : Steps o flow types flow types := by
  refine Or.inr ⟨fun i hi => absurd ?_ hnot, rfl, (SameFrames.refl flow).gains⟩
  rw [inBlock, hi]
  rfl

/-- Following an instruction is a step when frames are kept, and the change of height plays no part. -/
theorem steps_follow (hframed : flow.analysis = .frames) (o : Frame.Operation) (delta : Int) :
    Steps o flow types (flow.follow types (fun f types => f.execute types o) delta).1
      (flow.follow types (fun f types => f.execute types o) delta).2.1 := by
  unfold ControlFlow.follow
  rw [hframed]
  split
  · exact steps_stepFrame o
  · rename_i hnot
    exact steps_of_not_inBlock o hnot

/-- Behind a change of the current frame a block may end, and then at most the next one gets a frame. -/
theorem gains_mapFrame_noSuccessor (hframed : flow.analysis = .frames) (g : Frame → Frame) (position : Nat) (ends : Bool) :
    Gains (flow.mapFrame g) (if ends then (flow.mapFrame g).noSuccessor position else flow.mapFrame g) := by
  split
  · exact gains_noSuccessor ((analysis_mapFrame flow g).trans hframed) position
  · exact (SameFrames.refl _).gains

theorem steps_bare (hframed : flow.analysis = .frames) (op : UInt8) (position : Nat) :
    Steps (.bare op) flow types (flow.bare op position) types := by
  unfold ControlFlow.bare
  rw [hframed]
  split
  · exact steps_mapFrame (fun _ => rfl) (.refl flow) (gains_mapFrame_noSuccessor hframed _ position _)
  · rename_i hnot
    exact steps_of_not_inBlock _ hnot

theorem steps_moveLocal (hframed : flow.analysis = .frames) (op : UInt8) (slot : UInt16) (position : Nat) :
    Steps (.moveLocal op slot) flow types (flow.moveLocal op slot.toNat position) types := by
  unfold ControlFlow.moveLocal
  rw [hframed]
  split
  · exact steps_mapFrame (fun _ => rfl) (.refl flow) (gains_mapFrame_noSuccessor hframed _ position _)
  · rename_i hnot
    exact steps_of_not_inBlock _ hnot

theorem steps_immediate (hframed : flow.analysis = .frames) (op : UInt8) (operand : Int32) :
    Steps (.immediate op operand) flow types (flow.immediate op operand) types := by
  unfold ControlFlow.immediate
  rw [hframed]
  split
  · exact steps_mapFrame (fun _ => rfl) (.refl flow) (SameFrames.refl _).gains
  · rename_i hnot
    exact steps_of_not_inBlock _ hnot

theorem steps_jump (hframed : flow.analysis = .frames) (op : UInt8) (label : Label) :
    Steps (.jump op) flow types (flow.jump op label).2 types := by
  unfold ControlFlow.jump
  split
  · have hindexed := sameFrames_index flow label
    dsimp only
    rw [hindexed.framed, hframed]
    exact steps_mapFrame (fun _ => rfl) hindexed ((sameFrames_markTarget _ _).trans (sameFrames_addEdge _ _ _)).gains
  · rename_i hnot
    exact steps_of_not_inBlock _ hnot

theorem steps_switch (hframed : flow.analysis = .frames) (defaultLabel : Label) (labels : List Label) (position : Nat) :
    Steps .switch flow types (flow.switch defaultLabel labels position) types := by
  unfold ControlFlow.switch
  rw [hframed]
  split
  · have hedges := sameFrames_switchEdges (.normal 0) (flow.mapFrame (·.switch)) (defaultLabel :: labels)
    have hends := gains_noSuccessor (hedges.framed.trans ((analysis_mapFrame flow _).trans hframed)) position
    exact steps_mapFrame (fun _ => rfl) (.refl flow) (hedges.gains.trans hends)
  · rename_i hnot
    exact steps_of_not_inBlock _ hnot

theorem steps_drive (types : TypeTable) (hframed : flow.analysis = .frames) {e : FlowEvent} {o : Frame.Operation}
    (ho : e.operation? = some o) :
    Steps o flow types (flow.drive types e).1 (flow.drive types e).2 := by
  cases e with
  | bare op position => exact Option.some.inj ho ▸ steps_bare hframed op position
  | immediate op operand => exact Option.some.inj ho ▸ steps_immediate hframed op operand
  | moveLocal op slot position => exact Option.some.inj ho ▸ steps_moveLocal hframed op slot position
  | increment slot => exact Option.some.inj ho ▸ steps_mapFrame (fun _ => rfl) (.refl flow) (SameFrames.refl _).gains
  | typed op name offset => exact Option.some.inj ho ▸ steps_follow hframed (.typed op name offset) _
  | field op descriptor => exact Option.some.inj ho ▸ steps_follow hframed (.field op descriptor) _
  | invoke op name descriptor => exact Option.some.inj ho ▸ steps_follow hframed (.invoke op name descriptor) _
  | invokeDynamic descriptor => exact Option.some.inj ho ▸ steps_follow hframed (.invokeDynamic descriptor) _
  | constant value => exact Option.some.inj ho ▸ steps_follow hframed (.constant value) _
  | multiArray descriptor dimensions => exact Option.some.inj ho ▸ steps_follow hframed (.multiArray descriptor dimensions) _
  | jump op label => exact Option.some.inj ho ▸ steps_jump hframed op label
  | switch defaultLabel labels position => exact Option.some.inj ho ▸ steps_switch hframed defaultLabel labels position
  | _ => cases ho

/-! ## Other events -/

/-- Ending a jump gives at most the next block a frame. -/
theorem gains_endJump (hframed : flow.analysis = .frames) (op : UInt8) (next : Option Bool) (code : Bytes) :
    Gains flow (flow.endJump op next code).1 := by
  have hfresh := sameFrames_fresh flow
  have hmarked : ∀ isTarget : Bool, SameFrames flow.fresh.2 (if isTarget then flow.fresh.2.markTarget flow.fresh.1
    else flow.fresh.2) := by
    intro isTarget
    split
    · exact sameFrames_markTarget _ _
    · exact .refl _
  have hend : ∀ later : ControlFlow, later.analysis = .frames → Gains flow later →
      Gains flow (if op == Opcode.goto then later.noSuccessor code.size else later) := by
    intro later hlater hgains
    split
    · exact hgains.trans (gains_noSuccessor hlater _)
    · exact hgains
  unfold ControlFlow.endJump
  split
  · cases next with
    | none => exact hend flow hframed (SameFrames.refl flow).gains
    | some isTarget =>
      dsimp only
      have hbefore := (hfresh.trans (hmarked isTarget)).framed.trans hframed
      have hplaced := gains_place_fresh hbefore (((hmarked isTarget).frame _).trans (frame_fresh flow)) code
      have hgains := (hfresh.trans (hmarked isTarget)).gains.trans hplaced
      generalize hplace : (if isTarget then flow.fresh.2.markTarget flow.fresh.1 else flow.fresh.2).place flow.fresh.1 code =
        placed at hgains
      have hlater : placed.1.analysis = .frames := by
        rw [← hplace]
        exact (analysis_place _ _ _).trans hbefore
      split
      · exact hgains.trans (gains_noSuccessor hlater _)
      · exact hgains
  · exact (SameFrames.refl flow).gains

/-- A frame that is there after something else than an instruction was there before, or has followed nothing. -/
theorem Gains.frame (hg : Gains flow flow') (hf : (flow'.blocks.get j).frame = some f) :
    f = (flow.blocks.get j).frame.getD Frame.empty := by
  rcases hg j with hsame | ⟨hnone, hsome⟩
  · rw [← hsame, hf]
    rfl
  · rw [hnone]
    exact Option.some.inj (hf.symm.trans hsome)

/-- An event that is no instruction knows no new types and leaves every frame as it was, or empty if it is new. -/
theorem frame_drive_other (hframed : flow.analysis = .frames) {e : FlowEvent} (ho : e.operation? = none)
    (hf : ((flow.drive types e).1.blocks.get j).frame = some f) :
    (flow.drive types e).2 = types ∧ f = (flow.blocks.get j).frame.getD Frame.empty := by
  cases e with
  | endJump op next code => exact ⟨rfl, (gains_endJump hframed op next code).frame hf⟩
  | label label code =>
    refine ⟨rfl, ?_⟩
    have hindexed := sameFrames_index flow label
    rw [← hindexed.frame j]
    rcases frame_place (hindexed.framed.trans hframed) (flow.index label).1 code j with hsame | ⟨rfl, hnew | hnew⟩
    · rw [← hsame]
      exact (congrArg (·.getD Frame.empty) hf).symm
    · exact nomatch hf.symm.trans hnew
    · exact Option.some.inj (hf.symm.trans hnew)
  | split code =>
    have hfresh := sameFrames_fresh flow
    exact ⟨rfl, (hfresh.gains.trans (gains_place_fresh (hfresh.framed.trans hframed) (frame_fresh flow) code)).frame hf⟩
  | mark label =>
    exact ⟨rfl, ((sameFrames_index flow label).trans (sameFrames_markTarget _ _)).gains.frame hf⟩
  | reference label origin code wide => exact ⟨rfl, (sameFrames_putReference flow label origin code wide).gains.frame hf⟩
  | _ => cases ho

/-! ## What is followed -/

variable {h : Hierarchy} {followed : Nat → List Frame.Operation}

/-- What each block has followed is kept up with an event. -/
theorem Following.drive (hu : flow.Unsolved h types) (hfollowing : flow.Following h types followed) (e : FlowEvent) :
    (flow.drive types e).1.Following h (flow.drive types e).2 (flow.follows types followed e) := by
  have hc := (hu.drive e).consistent
  intro j
  unfold ControlFlow.follows
  cases hlater : ((flow.drive types e).1.blocks.get j).frame with
  | none =>
    rw [Option.isSome_none, Bool.and_false, if_neg Bool.false_ne_true]
    exact .nil hc
  | some f' =>
    rw [Option.isSome_some, Bool.and_true, Option.getD_some]
    cases ho : e.operation? with
    | none =>
      obtain ⟨htypes, rfl⟩ := frame_drive_other hu.framed ho hlater
      rw [htypes] at hc ⊢
      cases hframe : (flow.blocks.get j).frame with
      | none => exact .nil hc
      | some f =>
        have hsame := hfollowing j
        rw [hframe] at hsame
        simpa using hsame
    | some o =>
      rcases steps_drive types hu.framed ho with ⟨i, f, hcurrent, hframe, htypes, middle, hgains,
        hmiddle⟩ | ⟨hnone, htypes, hgains⟩
      · have htraced := hfollowing i
        rw [hframe, Option.getD_some] at htraced
        by_cases hij : i = j
        · subst hij
          have hf' := hgains.frame hlater
          rw [hmiddle, if_pos rfl, Option.getD_some] at hf'
          rw [hframe, Option.isSome_some, if_pos rfl, if_pos hcurrent, hf', htypes]
          exact htraced.step o
        · have hf' := hgains.frame hlater
          rw [hmiddle, if_neg hij] at hf'
          have hother : flow.current ≠ some j := fun hj => hij (Option.some.inj (hcurrent.symm.trans hj))
          cases hj : (flow.blocks.get j).frame with
          | none =>
            rw [hf', hj]
            exact .nil hc
          | some g =>
            rw [Option.isSome_some, if_pos rfl, if_neg hother, hf', htypes]
            rw [htypes] at hc
            exact (hfollowing j).grow (htraced.unentered.2.execute hu.consistent o).grown hc
      · have hf' := hgains.frame hlater
        rw [htypes] at hc ⊢
        cases hj : (flow.blocks.get j).frame with
        | none =>
          rw [hf', hj]
          exact .nil hc
        | some g =>
          have hother : flow.current ≠ some j := fun hcurrent => nomatch (hnone j hcurrent).symm.trans hj
          rw [Option.isSome_some, if_pos rfl, if_neg hother, hf']
          exact hfollowing j

/-- Whatever a control flow is told, the frames of its blocks have followed what is said of them. -/
theorem Following.driveAll (hu : flow.Unsolved h types) (hfollowing : flow.Following h types followed)
    (events : List FlowEvent) :
    (flow.driveAll types events).1.Following h (flow.driveAll types events).2 (flow.followsAll types followed events) := by
  induction events generalizing flow types followed with
  | nil => exact hfollowing
  | cons e rest ih => exact ih (hu.drive e) (hfollowing.drive hu e)

/-- Before the first event no block has followed an instruction. -/
theorem following_start (hc : TypeTable.Consistent h types) : (start .frames).Following h types fun _ => [] := by
  intro j
  have hempty : ((start .frames).blocks.get j).frame.getD Frame.empty = Frame.empty := by
    cases j with
    | zero => rfl
    | succ j => rfl
  rw [hempty]
  exact .nil hc

end Frames

end ControlFlow

end ClassFile
