import ClassFile.Proofs.FrameDrafting
import ClassFile.Proofs.FrameSearch

/-!
# Control flows under construction

The control flow of a method is driven by events, in whatever order they come. No block is entered before frames are
computed, and whatever its frame leaves is in types that it may have left, or in types of the table that grows meanwhile.
-/

namespace ClassFile

/-- What a control flow is told while code is written. -/
inductive FlowEvent where
  | bare (op : UInt8) (position : Nat)
  | immediate (op : UInt8) (operand : Int32)
  | moveLocal (op : UInt8) (slot : UInt16) (position : Nat)
  | increment (slot : UInt16)
  | typed (op : UInt8) (name : String) (offset : Nat)
  | field (op : UInt8) (descriptor : String)
  | invoke (op : UInt8) (name descriptor : String)
  | invokeDynamic (descriptor : String)
  | constant (value : ConstantValue)
  | multiArray (descriptor : String) (dimensions : UInt8)
  | jump (op : UInt8) (label : Label)
  | endJump (op : UInt8) (next : Option Bool) (code : Bytes)
  | switch (defaultLabel : Label) (labels : List Label) (position : Nat)
  | label (label : Label) (code : Bytes)
  | split (code : Bytes)
  | mark (label : Label)
  | reference (label : Label) (origin : Nat) (code : Bytes) (wide : Bool)
  deriving Repr, Inhabited

namespace ControlFlow

/-- The control flow and the type table after an event, whether it fails or not. -/
def drive (flow : ControlFlow) (types : TypeTable) : FlowEvent → ControlFlow × TypeTable
  | .bare op position => (flow.bare op position, types)
  | .immediate op operand => (flow.immediate op operand, types)
  | .moveLocal op slot position => (flow.moveLocal op slot.toNat position, types)
  | .increment slot => (flow.increment slot.toNat, types)
  | .typed op name offset => let r := flow.typed types op name offset; (r.1, r.2.1)
  | .field op descriptor => let r := flow.field types op descriptor; (r.1, r.2.1)
  | .invoke op name descriptor => let r := flow.invoke types op name descriptor; (r.1, r.2.1)
  | .invokeDynamic descriptor => let r := flow.invokeDynamic types descriptor; (r.1, r.2.1)
  | .constant value => let r := flow.constant types value; (r.1, r.2.1)
  | .multiArray descriptor dimensions => let r := flow.multiArray types descriptor dimensions; (r.1, r.2.1)
  | .jump op label => ((flow.jump op label).2, types)
  | .endJump op next code => ((flow.endJump op next code).1, types)
  | .switch defaultLabel labels position => (flow.switch defaultLabel labels position, types)
  | .label label code => ((flow.label label code).1, types)
  | .split code => ((flow.split code).1, types)
  | .mark label => (flow.markLabel label, types)
  | .reference label origin code wide => ((flow.putReference label origin code wide).1, types)

/-- The control flow and the type table after events, one by one. -/
def driveAll (flow : ControlFlow) (types : TypeTable) : List FlowEvent → ControlFlow × TypeTable
  | [] => (flow, types)
  | e :: rest =>
    let (flow, types) := flow.drive types e
    driveAll flow types rest

end ControlFlow

/-- A block before frames are computed. -/
structure Block.Unsolved (types : TypeTable) (b : Block) : Prop where
  frame : ∀ f ∈ b.frame, f.Unentered types
  handled : ∀ e ∈ b.edges, ∀ x ∈ e.kind.handled, x.Held types
  reachable : b.reachable = false
  store : b.store = false

/-- The blocks of a method before frames are computed. -/
def Blocks.Unsolved (types : TypeTable) (blocks : Blocks) : Prop :=
  ∀ j, (blocks.get j).Unsolved types

section Blocks

variable {types grown : TypeTable} {b : Block} {blocks : Blocks}

/-- A new block has no frame and no edges. -/
theorem Block.unsolved_new (types : TypeTable) (debug : Bool) (owner : Nat) : Block.Unsolved types { debug, owner } :=
  ⟨fun _ hf => (nomatch hf), fun _ he => (nomatch Array.not_mem_empty _ he), rfl, rfl⟩

/-- A block stays as it is for a table that has grown. -/
theorem Block.Unsolved.mono (hb : b.Unsolved types) (hext : types.Extends grown) : b.Unsolved grown :=
  ⟨fun f hf => (hb.frame f hf).mono hext, fun e he x hx => (hb.handled e he x hx).mono hext, hb.reachable, hb.store⟩

/-- Only frame, edges and the marks of the search count. -/
theorem Block.Unsolved.congr (hb : b.Unsolved types) {b' : Block} (hframe : b'.frame = b.frame) (hedges : b'.edges = b.edges)
    (hreachable : b'.reachable = b.reachable) (hstore : b'.store = b.store) : b'.Unsolved types :=
  ⟨hframe ▸ hb.frame, hedges ▸ hb.handled, hreachable ▸ hb.reachable, hstore ▸ hb.store⟩

/-- A block may get a frame that was not entered yet. -/
theorem Block.Unsolved.withFrame (hb : b.Unsolved types) {frame : Option Frame} (hf : ∀ f ∈ frame, f.Unentered types) :
    Block.Unsolved types { b with frame } :=
  ⟨hf, hb.handled, hb.reachable, hb.store⟩

theorem Block.Unsolved.withoutFrame (hb : b.Unsolved types) : Block.Unsolved types { b with frame := none } :=
  hb.withFrame fun _ hf => nomatch hf

/-- A block may get an edge to a handler whose type is in the table. -/
theorem Block.Unsolved.withEdge (hb : b.Unsolved types) {e : Edge} (he : ∀ x ∈ e.kind.handled, x.Held types) :
    Block.Unsolved types { b with edges := b.edges.push e } := by
  refine ⟨hb.frame, fun e' he' => ?_, hb.reachable, hb.store⟩
  rcases Array.mem_push.1 he' with he' | rfl
  · exact hb.handled e' he'
  · exact he

namespace Blocks

/-- Blocks stay as they are for a table that has grown. -/
theorem Unsolved.mono (hu : blocks.Unsolved types) (hext : types.Extends grown) : blocks.Unsolved grown :=
  fun j => (hu j).mono hext

/-- A change that a block bears the arena bears. -/
theorem Unsolved.modify (hu : blocks.Unsolved types) (i : Nat) {g : Block → Block}
    (hg : (blocks.get i).Unsolved types → (g (blocks.get i)).Unsolved types) : (blocks.modify i g).Unsolved types := by
  intro j
  rw [get_modify]
  split
  · exact hg (hu i)
  · exact hu j

/-- A new block may come behind the others. -/
theorem Unsolved.push (hu : blocks.Unsolved types) (hb : b.Unsolved types) (labels : Std.HashMap Label Nat) :
    Unsolved types ⟨blocks.arena.push b, labels⟩ := by
  intro j
  rw [get_push]
  split
  · exact hb
  · exact hu j

/-- Naming a label adds at most an empty block. -/
theorem Unsolved.index (hu : blocks.Unsolved types) (label : Label) :
    (blocks.index label).2.Unsolved types ∧ blocks.size ≤ (blocks.index label).2.size := by
  unfold Blocks.index
  split
  · exact ⟨hu, Nat.le_refl _⟩
  · refine ⟨hu.push (Block.unsolved_new types _ _) _, ?_⟩
    simp [size]

end Blocks

end Blocks

namespace ControlFlow

/-- A control flow of which frames are to be computed, and the type table that goes with it. -/
structure Unsolved (h : Hierarchy) (types : TypeTable) (flow : ControlFlow) : Prop where
  consistent : TypeTable.Consistent h types
  framed : flow.analysis = .frames
  first : flow.first < flow.blocks.size
  blocks : flow.blocks.Unsolved types

section Unsolved

variable {h : Hierarchy} {types grown : TypeTable} {flow : ControlFlow}

/-- Only analysis, first block and blocks count. -/
theorem Unsolved.congr (hu : flow.Unsolved h types) {flow' : ControlFlow} (hframed : flow'.analysis = flow.analysis)
    (hfirst : flow'.first = flow.first) (hblocks : flow'.blocks = flow.blocks) : flow'.Unsolved h types :=
  ⟨hu.consistent, hframed.trans hu.framed, by rw [hfirst, hblocks]; exact hu.first, hblocks ▸ hu.blocks⟩

/-- A flow may get an arena that has lost no block. -/
theorem Unsolved.withBlocks (hu : flow.Unsolved h types) {blocks : Blocks} (hblocks : blocks.Unsolved types)
    (hsize : flow.blocks.size ≤ blocks.size) : Unsolved h types { flow with blocks } :=
  ⟨hu.consistent, hu.framed, Nat.lt_of_lt_of_le hu.first hsize, hblocks⟩

/-- A label that is known has its block, and nothing changes. -/
theorem index_known {flow : ControlFlow} {label : Label} {i : Nat} (h : flow.blocks.labels[label]? = some i) :
    flow.index label = (i, flow) := by
  rw [ControlFlow.index, Blocks.index, h]

/-- A label that is new gets a block behind all others. -/
theorem index_new {flow : ControlFlow} {label : Label} (h : flow.blocks.labels[label]? = none) :
    flow.index label = (flow.blocks.size, { flow with
      blocks := ⟨flow.blocks.arena.push { debug := label.debug, owner := flow.blocks.size },
        flow.blocks.labels.insert label flow.blocks.size⟩ }) := by
  rw [ControlFlow.index, Blocks.index, h]
  rfl

theorem modify_eq (flow : ControlFlow) (i : Nat) (g : Block → Block) :
    flow.modify i g = { flow with blocks := flow.blocks.modify i g } := rfl

/-- A change that a block bears the flow bears. -/
theorem Unsolved.modify (hu : flow.Unsolved h types) (i : Nat) {g : Block → Block}
    (hg : (flow.blocks.get i).Unsolved types → (g (flow.blocks.get i)).Unsolved types) :
    (flow.modify i g).Unsolved h types := by
  rw [modify_eq]
  exact hu.withBlocks (hu.blocks.modify i hg) (Nat.le_of_eq (Blocks.size_modify _ i g).symm)

/-- A change of a block that leaves frame, edges and the marks of the search alone. -/
theorem Unsolved.touch (hu : flow.Unsolved h types) (i : Nat) {g : Block → Block}
    (hg : ∀ b, (g b).frame = b.frame ∧ (g b).edges = b.edges ∧ (g b).reachable = b.reachable ∧ (g b).store = b.store) :
    (flow.modify i g).Unsolved h types :=
  hu.modify i fun hb => hb.congr (hg _).1 (hg _).2.1 (hg _).2.2.1 (hg _).2.2.2

/-- Before frames are computed, a label may be named. -/
theorem Unsolved.index (hu : flow.Unsolved h types) (label : Label) : (flow.index label).2.Unsolved h types := by
  obtain ⟨hblocks, hsize⟩ := hu.blocks.index label
  exact hu.withBlocks hblocks hsize

/-- Before frames are computed, a block without a label may be made. -/
theorem Unsolved.fresh (hu : flow.Unsolved h types) : flow.fresh.2.Unsolved h types :=
  hu.withBlocks (hu.blocks.push (Block.unsolved_new types _ _) _) (by simp [Blocks.size])

theorem Unsolved.addEdge (hu : flow.Unsolved h types) {kind : EdgeKind} (hkind : kind.handled = none) (target : Nat) :
    (flow.addEdge kind target).Unsolved h types := by
  unfold ControlFlow.addEdge
  split
  · refine hu.modify _ fun hb => hb.withEdge fun x hx => ?_
    rw [hkind] at hx
    cases hx
  · exact hu

theorem Unsolved.markTarget (hu : flow.Unsolved h types) (i : Nat) : (flow.markTarget i).Unsolved h types :=
  hu.touch _ fun _ => ⟨rfl, rfl, rfl, rfl⟩

theorem Unsolved.append (hu : flow.Unsolved h types) (i : Nat) : (flow.append i).Unsolved h types := by
  unfold ControlFlow.append
  cases flow.previous with
  | some p =>
    have hlinked : (flow.modify p fun b => { b with successor := some i }).Unsolved h types :=
      hu.touch _ fun _ => ⟨rfl, rfl, rfl, rfl⟩
    exact hlinked.congr rfl rfl rfl
  | none => exact hu.congr rfl rfl rfl

theorem Unsolved.noSuccessor (hu : flow.Unsolved h types) (position : Nat) :
    (flow.noSuccessor position).Unsolved h types := by
  unfold ControlFlow.noSuccessor
  rw [hu.framed]
  have hnew := hu.fresh.modify flow.fresh.1
    (g := fun b => { b with frame := some Frame.empty, resolved := true, position }) fun hb =>
      ⟨fun f hf => Option.some.inj hf ▸ Frame.unentered_empty types, hb.handled, hb.reachable, hb.store⟩
  exact (hnew.append flow.fresh.1).congr rfl rfl rfl

theorem Unsolved.inheritTarget (hu : flow.Unsolved h types) (i source : Nat) :
    (flow.inheritTarget i source).Unsolved h types :=
  hu.touch _ fun _ => ⟨rfl, rfl, rfl, rfl⟩

theorem Unsolved.placeFramed (hu : flow.Unsolved h types) (i position : Nat) :
    (flow.placeFramed i position).Unsolved h types := by
  have hedge : (flow.addEdge (.normal 0) i).Unsolved h types := hu.addEdge rfl i
  unfold ControlFlow.placeFramed
  dsimp only
  split
  · exact (hu.inheritTarget _ i).touch _ fun _ => ⟨rfl, rfl, rfl, rfl⟩
  · split
    · exact ((hedge.inheritTarget _ i).modify i
        fun hb => hb.withoutFrame.congr rfl rfl rfl rfl).congr rfl rfl rfl
    · refine ((hedge.modify i fun hb => hb.withFrame fun f hf => ?_).append i).congr rfl rfl rfl
      obtain rfl := Option.some.inj hf
      cases hframe : ((flow.addEdge (.normal 0) i).blocks.get i).frame with
      | none => exact Frame.unentered_empty types
      | some f => exact hb.frame f hframe

theorem Unsolved.place (hu : flow.Unsolved h types) (i : Nat) (code : Bytes) : (flow.place i code).1.Unsolved h types := by
  have hresolved : (flow.resolve i code.size code).1.Unsolved h types :=
    hu.touch i (g := fun b => { b with resolved := true, position := code.size, references := #[] }) fun _ =>
      ⟨rfl, rfl, rfl, rfl⟩
  unfold ControlFlow.place
  dsimp only
  split
  · exact hresolved
  · split
    · exact hresolved.placeFramed i code.size
    · rename_i hmeasured
      exact absurd (hmeasured.symm.trans hresolved.framed) (fun e => nomatch e)

theorem Unsolved.mapFrame (hu : flow.Unsolved h types) {g : Frame → Frame}
    (hg : ∀ f : Frame, f.Unentered types → (g f).Unentered types) : (flow.mapFrame g).Unsolved h types := by
  unfold ControlFlow.mapFrame
  split
  · rename_i i _
    have hframe := (hu.blocks i).frame
    refine (hu.modify i fun hb => hb.withoutFrame).modify i fun hb => hb.withFrame fun f hf => ?_
    obtain ⟨f', hf', rfl⟩ := Option.map_eq_some_iff.1 hf
    exact hg f' (hframe f' hf')
  · exact hu

/-- A step that looks at the type table keeps to types that the block may have left. -/
theorem Unsolved.stepFrame (hu : flow.Unsolved h types) {g : Frame → TypeTable → Frame × TypeTable × Option Error}
    (hg : ∀ f : Frame, f.Unentered types → Frame.Drafted h types (g f types)) :
    (flow.stepFrame types g).1.Unsolved h (flow.stepFrame types g).2.1 := by
  unfold ControlFlow.stepFrame
  split
  · rename_i i _
    have hframe := (hu.blocks i).frame
    have hheld : (flow.modify i fun b => { b with frame := none }).Unsolved h types := hu.modify i fun hb => hb.withoutFrame
    dsimp only
    split
    · rename_i f hf
      have hstep := hg f (hframe f hf)
      have hlater : (flow.modify i fun b => { b with frame := none }).Unsolved h (g f types).2.1 :=
        ⟨hstep.consistent, hheld.framed, hheld.first, hheld.blocks.mono hstep.grown⟩
      refine hlater.modify i fun hb => hb.withFrame fun f' hf' => ?_
      obtain rfl := Option.some.inj hf'
      exact hstep.unentered
    · exact hheld
  · exact hu

theorem Unsolved.follow (hu : flow.Unsolved h types) (i : Frame.Operation) (delta : Int) :
    (flow.follow types (fun f types => f.execute types i) delta).1.Unsolved h
      (flow.follow types (fun f types => f.execute types i) delta).2.1 := by
  unfold ControlFlow.follow
  rw [hu.framed]
  split
  · exact hu.stepFrame fun f hf => hf.execute hu.consistent i
  · exact hu

theorem Unsolved.bare (hu : flow.Unsolved h types) (op : UInt8) (position : Nat) :
    (flow.bare op position).Unsolved h types := by
  have hmapped : (flow.mapFrame (·.bare op)).Unsolved h types := hu.mapFrame fun f hf => hf.bare op
  unfold ControlFlow.bare
  rw [hu.framed]
  split
  · dsimp only
    split
    · exact hmapped.noSuccessor position
    · exact hmapped
  · exact hu

theorem Unsolved.moveLocal (hu : flow.Unsolved h types) (op : UInt8) (i position : Nat) :
    (flow.moveLocal op i position).Unsolved h types := by
  have hmapped : (flow.mapFrame (·.moveLocal op i)).Unsolved h types := hu.mapFrame fun f hf => hf.moveLocal op i
  unfold ControlFlow.moveLocal
  rw [hu.framed]
  split
  · dsimp only
    split
    · exact hmapped.noSuccessor position
    · exact hmapped
  · exact hu

theorem Unsolved.immediate (hu : flow.Unsolved h types) (op : UInt8) (operand : Int32) :
    (flow.immediate op operand).Unsolved h types := by
  unfold ControlFlow.immediate
  rw [hu.framed]
  split
  · exact hu.mapFrame fun f hf => hf.immediate op operand
  · exact hu

theorem Unsolved.jump (hu : flow.Unsolved h types) (op : UInt8) (label : Label) :
    (flow.jump op label).2.Unsolved h types := by
  have hindexed := hu.index label
  unfold ControlFlow.jump
  split
  · dsimp only
    rw [hindexed.framed]
    exact ((hindexed.mapFrame fun f hf => hf.jump op).markTarget _).addEdge rfl _
  · exact hu

theorem Unsolved.endJump (hu : flow.Unsolved h types) (op : UInt8) (next : Option Bool) (code : Bytes) :
    (flow.endJump op next code).1.Unsolved h types := by
  have hplaced : ∀ isTarget : Bool,
      ((if isTarget then flow.fresh.2.markTarget flow.fresh.1 else flow.fresh.2).place flow.fresh.1 code).1.Unsolved
        h types := by
    intro isTarget
    cases isTarget with
    | true => exact (hu.fresh.markTarget _).place _ code
    | false => exact hu.fresh.place _ code
  unfold ControlFlow.endJump
  split
  · cases next with
    | none =>
      dsimp only
      split
      · exact hu.noSuccessor _
      · exact hu
    | some isTarget =>
      dsimp only
      split
      · exact (hplaced isTarget).noSuccessor _
      · exact hplaced isTarget
  · exact hu

theorem Unsolved.switchEdge (hu : flow.Unsolved h types) (label : Label) :
    (ControlFlow.switchEdge (.normal 0) flow label).Unsolved h types := by
  have hedge : ((flow.index label).2.addEdge (.normal 0) (flow.index label).1).Unsolved h types :=
    (hu.index label).addEdge rfl _
  unfold ControlFlow.switchEdge
  dsimp only
  split
  · exact hedge.markTarget _
  · exact hedge

theorem Unsolved.switchEdges (hu : flow.Unsolved h types) (labels : List Label) :
    (labels.foldl (ControlFlow.switchEdge (.normal 0)) flow).Unsolved h types := by
  induction labels generalizing flow with
  | nil => exact hu
  | cons label rest ih => exact ih (hu.switchEdge label)

theorem Unsolved.switch (hu : flow.Unsolved h types) (defaultLabel : Label) (labels : List Label) (position : Nat) :
    (flow.switch defaultLabel labels position).Unsolved h types := by
  unfold ControlFlow.switch
  rw [hu.framed]
  split
  · exact ((hu.mapFrame fun f hf => hf.drop 1).switchEdges (defaultLabel :: labels)).noSuccessor position
  · exact hu

theorem Unsolved.putReference (hu : flow.Unsolved h types) (label : Label) (origin : Nat) (code : Bytes) (wide : Bool) :
    (flow.putReference label origin code wide).1.Unsolved h types := by
  have hindexed := hu.index label
  have hblocks : flow.index label = ((flow.blocks.index label).1, { flow with blocks := (flow.blocks.index label).2 }) := rfl
  rw [hblocks] at hindexed
  unfold ControlFlow.putReference Blocks.putReference
  dsimp only
  split
  · exact hindexed
  · exact hindexed.touch (flow.blocks.index label).1
      (g := fun b => { b with references := b.references.push ⟨origin, code.size, wide⟩ }) fun _ => ⟨rfl, rfl, rfl, rfl⟩

/-- An event leaves the control flow one of which frames are to be computed. -/
theorem Unsolved.drive (hu : flow.Unsolved h types) (e : FlowEvent) :
    (flow.drive types e).1.Unsolved h (flow.drive types e).2 := by
  cases e with
  | bare op position => exact hu.bare op position
  | immediate op operand => exact hu.immediate op operand
  | moveLocal op slot position => exact hu.moveLocal op slot.toNat position
  | increment slot => exact hu.mapFrame fun f hf => hf.setLocal slot.toNat (FrameType.left_of_plain rfl)
  | typed op name offset => exact hu.follow (.typed op name offset) _
  | field op descriptor => exact hu.follow (.field op descriptor) _
  | invoke op name descriptor => exact hu.follow (.invoke op name descriptor) _
  | invokeDynamic descriptor => exact hu.follow (.invokeDynamic descriptor) _
  | constant value => exact hu.follow (.constant value) _
  | multiArray descriptor dimensions => exact hu.follow (.multiArray descriptor dimensions) _
  | jump op label => exact hu.jump op label
  | endJump op next code => exact hu.endJump op next code
  | switch defaultLabel labels position => exact hu.switch defaultLabel labels position
  | label label code => exact (hu.index label).place _ code
  | split code => exact hu.fresh.place _ code
  | mark label => exact (hu.index label).markTarget _
  | reference label origin code wide => exact hu.putReference label origin code wide

/-- At the start there is one block, with an empty frame. -/
theorem unsolved_start (hc : TypeTable.Consistent h types) : (start .frames).Unsolved h types := by
  have hfresh : (Blocks.empty.fresh.2.modify Blocks.empty.fresh.1 fun b => { b with pushed := true }).Unsolved types := by
    have hempty : Blocks.empty.Unsolved types := fun j => Block.unsolved_new types _ _
    have hpushed : Blocks.empty.fresh.2.Unsolved types := hempty.push (Block.unsolved_new types _ _) _
    exact hpushed.modify _ fun hb => hb.congr rfl rfl rfl rfl
  unfold ControlFlow.start
  exact Unsolved.place ⟨hc, rfl, Nat.zero_lt_one, hfresh⟩ _ _

/-- Frames can be computed of a flow that has been driven by whatever events. -/
theorem Unsolved.driveAll (hu : flow.Unsolved h types) (events : List FlowEvent) :
    (flow.driveAll types events).1.Unsolved h (flow.driveAll types events).2 := by
  induction events generalizing flow types with
  | nil => exact hu
  | cons e rest ih => exact ih (hu.drive e)

end Unsolved

end ControlFlow

end ClassFile
