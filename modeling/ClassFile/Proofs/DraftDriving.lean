import ClassFile.Proofs.CodeEvents
import ClassFile.Proofs.FlowDrafting

/-!
# Recording drives the control flow

Whatever a method is told of its code, its control flow is driven by events (`Driven`), the kind of the analysis stays, and
of all else that the method and its class know only the code itself and its tables change (`MethodDraft.Recorded`).
-/

namespace ClassFile

namespace ControlFlow

/-- A flow and its type table have been driven by events. -/
def Driven (flow : ControlFlow) (types : TypeTable) (flow' : ControlFlow) (types' : TypeTable) : Prop :=
  ∃ events : List FlowEvent, flow.driveAll types events = (flow', types')

variable {flow flow' flow'' : ControlFlow} {types types' types'' : TypeTable}

/-- Events drive a flow one behind the other. -/
theorem driveAll_append (flow : ControlFlow) (types : TypeTable) (es fs : List FlowEvent) :
    flow.driveAll types (es ++ fs) = (flow.driveAll types es).1.driveAll (flow.driveAll types es).2 fs := by
  induction es generalizing flow types with
  | nil => rfl
  | cons e rest ih => exact ih _ _

theorem Driven.refl (flow : ControlFlow) (types : TypeTable) : flow.Driven types flow types :=
  ⟨[], rfl⟩

theorem Driven.trans (h : flow.Driven types flow' types') (h' : flow'.Driven types' flow'' types'') :
    flow.Driven types flow'' types'' := by
  obtain ⟨es, hes⟩ := h
  obtain ⟨fs, hfs⟩ := h'
  refine ⟨es ++ fs, ?_⟩
  rw [driveAll_append, hes]
  exact hfs

/-- One event drives a flow. -/
theorem Driven.event (flow : ControlFlow) (types : TypeTable) (e : FlowEvent) :
    flow.Driven types (flow.drive types e).1 (flow.drive types e).2 :=
  ⟨[e], rfl⟩

/-! ## The kind of the analysis -/

section Analysis

/-- No change of the current frame changes what is computed. -/
theorem analysis_mapFrame (flow : ControlFlow) (f : Frame → Frame) : (flow.mapFrame f).analysis = flow.analysis := by
  unfold mapFrame
  split <;> rfl

theorem analysis_stepFrame (flow : ControlFlow) (types : TypeTable)
    (f : Frame → TypeTable → Frame × TypeTable × Option Error) :
    (flow.stepFrame types f).1.analysis = flow.analysis := by
  unfold stepFrame
  split
  · dsimp only
    split <;> rfl
  · rfl

theorem analysis_addEdge (flow : ControlFlow) (kind : EdgeKind) (target : Nat) :
    (flow.addEdge kind target).analysis = flow.analysis := by
  unfold addEdge
  split <;> rfl

theorem analysis_append (flow : ControlFlow) (i : Nat) : (flow.append i).analysis = flow.analysis := by
  unfold ControlFlow.append
  dsimp only
  split <;> rfl

/-- Ending a block without a successor does not change what is computed. -/
theorem analysis_noSuccessor (flow : ControlFlow) (position : Nat) :
    (flow.noSuccessor position).analysis = flow.analysis := by
  unfold noSuccessor
  split
  · exact analysis_append _ _
  · dsimp only
    split <;> rfl

theorem analysis_placeFramed (flow : ControlFlow) (i position : Nat) :
    (flow.placeFramed i position).analysis = flow.analysis := by
  unfold placeFramed
  dsimp only
  split
  · rfl
  · split
    · exact analysis_addEdge _ _ _
    · exact (analysis_append _ _).trans (analysis_addEdge flow _ _)

theorem analysis_placeMeasured (flow : ControlFlow) (i : Nat) : (flow.placeMeasured i).analysis = flow.analysis := by
  unfold placeMeasured
  dsimp only
  split
  · exact (analysis_append _ _).trans (analysis_addEdge _ _ _)
  · exact analysis_append _ _

/-- Placing a block does not change what is computed. -/
theorem analysis_place (flow : ControlFlow) (i : Nat) (code : Bytes) : (flow.place i code).1.analysis = flow.analysis := by
  unfold place
  dsimp only
  split
  · rfl
  · split
    · exact analysis_placeFramed _ _ _
    · exact analysis_placeMeasured _ _

/-- Following an instruction does not change what is computed. -/
theorem analysis_follow (flow : ControlFlow) (types : TypeTable) (f : Frame → TypeTable → Frame × TypeTable × Option Error)
    (delta : Int) : (flow.follow types f delta).1.analysis = flow.analysis := by
  unfold follow
  split
  · split
    · exact analysis_stepFrame _ _ _
    · rfl
  · rfl

theorem analysis_switchEdge (kind : EdgeKind) (flow : ControlFlow) (label : Label) :
    (switchEdge kind flow label).analysis = flow.analysis := by
  have hedge := analysis_addEdge (flow.index label).2 kind (flow.index label).1
  unfold switchEdge
  dsimp only
  split <;> exact hedge

/-- The edges of a switch do not change what is computed. -/
theorem analysis_switchEdges (kind : EdgeKind) (labels : List Label) (flow : ControlFlow) :
    (labels.foldl (switchEdge kind) flow).analysis = flow.analysis := by
  induction labels generalizing flow with
  | nil => rfl
  | cons label rest ih => exact (ih _).trans (analysis_switchEdge kind flow label)

theorem analysis_start (analysis : Analysis) : (start analysis).analysis = analysis :=
  analysis_place _ _ _

/-- No event changes the kind of the analysis. -/
theorem analysis_drive (flow : ControlFlow) (types : TypeTable) (e : FlowEvent) :
    (flow.drive types e).1.analysis = flow.analysis := by
  cases e with
  | bare op position =>
    unfold drive bare
    dsimp only
    split
    · have hframe := flow.analysis_mapFrame (·.bare op)
      split <;> split
      · exact (analysis_noSuccessor _ _).trans hframe
      · exact analysis_noSuccessor _ _
      · exact hframe
      · rfl
    · rfl
  | immediate op operand =>
    unfold drive immediate
    dsimp only
    split
    · split
      · exact analysis_mapFrame _ _
      · split <;> rfl
    · rfl
  | moveLocal op slot position =>
    unfold drive moveLocal
    dsimp only
    split
    · have hframe := flow.analysis_mapFrame (·.moveLocal op slot.toNat)
      split <;> split
      · exact (analysis_noSuccessor _ _).trans hframe
      · exact analysis_noSuccessor _ _
      · exact hframe
      · rfl
    · rfl
  | increment slot => exact analysis_mapFrame _ _
  | typed op name offset => exact analysis_follow _ _ _ _
  | field op descriptor => exact analysis_follow _ _ _ _
  | invoke op name descriptor => exact analysis_follow _ _ _ _
  | invokeDynamic descriptor => exact analysis_follow _ _ _ _
  | constant value => exact analysis_follow _ _ _ _
  | multiArray descriptor dimensions => exact analysis_follow _ _ _ _
  | jump op label =>
    unfold drive jump
    dsimp only
    split
    · have hframe := (flow.index label).2.analysis_mapFrame (·.jump op)
      split
      · exact (analysis_addEdge _ _ _).trans hframe
      · exact analysis_addEdge _ _ _
    · rfl
  | endJump op next code =>
    have hend : ∀ (flow' : ControlFlow) (position : Nat),
        (if op == Opcode.goto then flow'.noSuccessor position else flow').analysis = flow'.analysis := by
      intro flow' position
      split
      · exact analysis_noSuccessor _ _
      · rfl
    unfold drive endJump
    dsimp only
    split
    · refine (hend _ _).trans ?_
      cases next with
      | none => rfl
      | some isTarget => cases isTarget <;> exact analysis_place _ _ _
    · rfl
  | switch defaultLabel labels position =>
    unfold drive switch
    dsimp only
    split
    · refine (analysis_noSuccessor _ _).trans ((analysis_switchEdges _ (defaultLabel :: labels) _).trans ?_)
      split
      · exact analysis_mapFrame _ _
      · rfl
    · rfl
  | label label code => exact analysis_place _ _ _
  | split code => exact analysis_place _ _ _
  | mark label => rfl
  | reference label origin code wide => rfl

/-- What is computed of a flow never changes. -/
theorem Driven.analysis (h : flow.Driven types flow' types') : flow'.analysis = flow.analysis := by
  obtain ⟨es, hes⟩ := h
  induction es generalizing flow types with
  | nil =>
    obtain ⟨rfl, -⟩ := Prod.mk.inj hes
    rfl
  | cons e rest ih => exact (ih hes).trans (analysis_drive flow types e)

end Analysis

end ControlFlow

namespace MethodDraft

/-- A method that has been told something of its code, and its class. -/
structure Recorded (ctx : Context) (m : MethodDraft) (ctx' : Context) (m' : MethodDraft) : Prop where
  driven : m.flow.Driven ctx.types m'.flow ctx'.types
  method : ∃ code flow handlers declaredMaxStack maxLocals localVariables lineNumbers,
    m' = { m with code, flow, handlers, declaredMaxStack, maxLocals, localVariables, lineNumbers }
  context : ∃ pool types failure, ctx' = { ctx with pool, types, failure }

variable {ctx ctx' ctx'' : Context} {m m' m'' : MethodDraft}

theorem Recorded.refl (ctx : Context) (m : MethodDraft) : Recorded ctx m ctx m :=
  ⟨.refl _ _, ⟨_, _, _, _, _, _, _, rfl⟩, ⟨_, _, _, rfl⟩⟩

theorem Recorded.trans (h : Recorded ctx m ctx' m') (h' : Recorded ctx' m' ctx'' m'') : Recorded ctx m ctx'' m'' := by
  refine ⟨h.driven.trans h'.driven, ?_, ?_⟩
  · obtain ⟨_, _, _, _, _, _, _, rfl⟩ := h.method
    obtain ⟨_, _, _, _, _, _, _, hm⟩ := h'.method
    exact ⟨_, _, _, _, _, _, _, hm⟩
  · obtain ⟨_, _, _, rfl⟩ := h.context
    obtain ⟨_, _, _, hctx⟩ := h'.context
    exact ⟨_, _, _, hctx⟩

/-- The flow is told of one event, and code is written or not. -/
theorem recorded_event (ctx : Context) (m : MethodDraft) (e : FlowEvent)
    (hm : ∃ code handlers declaredMaxStack maxLocals localVariables lineNumbers,
      m' = { m with
        code, flow := (m.flow.drive ctx.types e).1, handlers, declaredMaxStack, maxLocals, localVariables, lineNumbers })
    (hctx : ∃ pool failure, ctx' = { ctx with pool, types := (m.flow.drive ctx.types e).2, failure }) :
    Recorded ctx m ctx' m' := by
  obtain ⟨_, _, _, _, _, _, rfl⟩ := hm
  obtain ⟨_, _, rfl⟩ := hctx
  exact ⟨.event _ _ e, ⟨_, _, _, _, _, _, _, rfl⟩, ⟨_, _, _, rfl⟩⟩

/-- A step of the flow that an event stands for is that event told. -/
theorem recorded_advance (ctx : Context) (m : MethodDraft) (e : FlowEvent) {f : ControlFlow → Nat → ControlFlow}
    (hf : f m.flow m.code.size = (m.flow.drive ctx.types e).1) (ht : (m.flow.drive ctx.types e).2 = ctx.types) :
    Recorded ctx m ctx (m.advance f) := by
  refine recorded_event ctx m e ⟨m.code, m.handlers, m.declaredMaxStack, m.maxLocals, m.localVariables, m.lineNumbers, ?_⟩
    ⟨ctx.pool, ctx.failure, ?_⟩
  · rw [← hf]
    rfl
  · rw [ht]

/-- Bytes that are written tell the flow of nothing. -/
theorem recorded_emit (ctx : Context) (m : MethodDraft) (b : Bytes) : Recorded ctx m ctx (m.emit b) :=
  ⟨.refl _ _, ⟨_, _, _, _, _, _, _, rfl⟩, ⟨_, _, _, rfl⟩⟩

/-- Making room for locals tells the flow of nothing. -/
theorem recorded_useLocals (ctx : Context) (m : MethodDraft) (n : Nat) : Recorded ctx m ctx (m.useLocals n) :=
  ⟨.refl _ _, ⟨_, _, _, _, _, _, _, rfl⟩, ⟨_, _, _, rfl⟩⟩

theorem recorded_intern {α : Type} (ctx : Context) (m : MethodDraft) (step : Interning α) :
    Recorded ctx m (ctx.intern step).2 m :=
  ⟨.refl _ _, ⟨_, _, _, _, _, _, _, rfl⟩, ⟨_, _, _, rfl⟩⟩

/-- A jump that is too long is noted, and the flow is told of nothing. -/
theorem recorded_overflow (ctx : Context) (m m' : MethodDraft) (overflow : Option Int) :
    Recorded ctx m (m'.reportOverflow ctx overflow) m := by
  refine ⟨?_, ⟨_, _, _, _, _, _, _, rfl⟩, ?_⟩
  · cases overflow <;> exact .refl _ _
  · cases overflow <;> exact ⟨_, _, _, rfl⟩

theorem recorded_reference (ctx : Context) (m : MethodDraft) (label : Label) (origin : Nat) (wide : Bool) :
    Recorded ctx m ctx (m.reference label origin wide) :=
  ⟨.event m.flow ctx.types (.reference label origin m.code wide), ⟨_, _, _, _, _, _, _, rfl⟩, ⟨_, _, _, rfl⟩⟩

/-- Distances that are written are references that the flow is told of. -/
theorem recorded_references (ctx : Context) (m : MethodDraft) (origin : Nat) (labels : List Label) :
    Recorded ctx m ctx (m.references origin labels) := by
  unfold references
  induction labels generalizing m with
  | nil => exact .refl ctx m
  | cons label rest ih => exact (recorded_reference ctx m label origin true).trans (ih _)

/-- The cases of a switch are references that the flow is told of. -/
theorem recorded_cases (ctx : Context) (m : MethodDraft) (origin : Nat) (cases : List (Int32 × Label)) :
    Recorded ctx m ctx
      (cases.foldl (fun (m : MethodDraft) (key, label) => (m.emit (Bytes.ofInt32 key)).reference label origin true) m) := by
  induction cases generalizing m with
  | nil => exact .refl ctx m
  | cons item rest ih => exact ((recorded_emit ctx m _).trans (recorded_reference ctx _ item.2 origin true)).trans (ih _)

/-- An instruction whose effect hangs on types is followed. -/
theorem recorded_follow (ctx : Context) (m : MethodDraft) (e : FlowEvent)
    {f : ControlFlow → TypeTable → ControlFlow × TypeTable × Option Error}
    (hflow : (f m.flow ctx.types).1 = (m.flow.drive ctx.types e).1)
    (htypes : (f m.flow ctx.types).2.1 = (m.flow.drive ctx.types e).2) :
    Recorded ctx m (MethodDraft.follow ctx m f).1 (MethodDraft.follow ctx m f).2 := by
  rw [follow_eq]
  refine recorded_event ctx m e ⟨m.code, m.handlers, m.declaredMaxStack, m.maxLocals, m.localVariables,
    m.lineNumbers, by rw [← hflow]⟩ ?_
  rw [← htypes]
  cases (f m.flow ctx.types).2.2 with
  | none => exact ⟨_, _, rfl⟩
  | some e => exact ⟨_, _, rfl⟩

/-- An instruction is followed, takes its operand from the pool and is written with its index. -/
theorem recorded_named (ctx : Context) (m : MethodDraft) (e : FlowEvent)
    {f : ControlFlow → TypeTable → ControlFlow × TypeTable × Option Error}
    (hflow : (f m.flow ctx.types).1 = (m.flow.drive ctx.types e).1)
    (htypes : (f m.flow ctx.types).2.1 = (m.flow.drive ctx.types e).2) (step : Interning PoolIndex)
    (write : MethodDraft → PoolIndex → MethodDraft) (hwrite : ∀ ctx m index, Recorded ctx m ctx (write m index)) :
    let r : Context × MethodDraft :=
      let (ctx, m) := MethodDraft.follow ctx m f
      let (index, ctx) := ctx.intern step
      (ctx, write m index)
    Recorded ctx m r.1 r.2 := by
  have hfollowed := recorded_follow ctx m e hflow htypes
  generalize MethodDraft.follow ctx m f = r at *
  obtain ⟨ctx', m'⟩ := r
  have hinterned := recorded_intern ctx' m' step
  dsimp only at hfollowed ⊢
  generalize ctx'.intern step = r at *
  obtain ⟨index, ctx''⟩ := r
  exact (hfollowed.trans hinterned).trans (hwrite _ _ index)

/-- The bytes of a jump come with its reference. -/
theorem recorded_writeJump (ctx : Context) (m : MethodDraft) (op : UInt8) (label : Label) (far : Bool) :
    Recorded ctx m ctx (m.writeJump op label far) := by
  unfold MethodDraft.writeJump
  split
  · dsimp only
    split
    · exact ((recorded_emit ctx m _).trans (recorded_emit ctx _ _)).trans (recorded_reference ctx _ label _ true)
    · exact (recorded_emit ctx m _).trans (recorded_reference ctx _ label _ true)
  · exact (recorded_emit ctx m _).trans (recorded_reference ctx _ label _ false)

theorem recorded_closeJump (ctx : Context) (m : MethodDraft) (op : UInt8) (next : Option Bool) :
    Recorded ctx m (closeJump ctx m op next).1 (closeJump ctx m op next).2 := by
  have hended : Recorded ctx m ctx (closeJump ctx m op next).2 :=
    recorded_event ctx m (.endJump op next m.code) ⟨_, _, _, _, _, _, rfl⟩ ⟨_, _, rfl⟩
  exact hended.trans (recorded_overflow ctx _ _ _)

theorem recorded_splitBlock (ctx : Context) (m : MethodDraft) :
    Recorded ctx m (splitBlock ctx m).1 (splitBlock ctx m).2 := by
  have hsplit : Recorded ctx m ctx (splitBlock ctx m).2 :=
    recorded_event ctx m (.split m.code) ⟨_, _, _, _, _, _, rfl⟩ ⟨_, _, rfl⟩
  exact hsplit.trans (recorded_overflow ctx _ _ _)

theorem recorded_emitAligned (ctx : Context) (m : MethodDraft) (op : UInt8) : Recorded ctx m ctx (m.emitAligned op) :=
  (recorded_emit ctx m _).trans (recorded_emit ctx _ _)

theorem recorded_switch (ctx : Context) (m : MethodDraft) (defaultLabel : Label) (labels : List Label) :
    Recorded ctx m ctx (m.advance fun flow position => flow.switch defaultLabel labels position) :=
  recorded_advance ctx m (.switch defaultLabel labels m.code.size) rfl rfl

/-! ### One lemma for each kind of instruction -/

theorem recorded_bare (ctx : Context) (m : MethodDraft) (op : UInt8) : Recorded ctx m ctx (m.bare op) :=
  (recorded_emit ctx m #[op]).trans (recorded_advance ctx (m.emit #[op]) (.bare op (m.emit #[op]).code.size)
    (f := fun flow position => flow.bare op position) rfl rfl)

theorem recorded_immediate (ctx : Context) (m : MethodDraft) (op : UInt8) (operand : Int32) :
    Recorded ctx m ctx (m.immediate op operand) := by
  have hfollowed := recorded_advance ctx m (.immediate op operand) (f := fun flow _ => flow.immediate op operand) rfl rfl
  unfold MethodDraft.immediate
  dsimp only
  split <;> exact hfollowed.trans (recorded_emit ctx _ _)

/-- A store under handlers is told of as an event, and the end of its block as another. -/
theorem recorded_moveLocal (ctx : Context) (m : MethodDraft) (op : UInt8) (slot : UInt16) :
    Recorded ctx m (moveLocal ctx m op slot).1 (moveLocal ctx m op slot).2 := by
  have hmoved := ((recorded_useLocals ctx m (slot.toNat + if Opcode.movesWide op then 2 else 1)).trans
    (recorded_emit ctx _ (moveLocalBytes op slot))).trans (recorded_advance ctx _ (.moveLocal op slot
      ((m.useLocals (slot.toNat + if Opcode.movesWide op then 2 else 1)).emit (moveLocalBytes op slot)).code.size)
      (f := fun flow position => flow.moveLocal op slot.toNat position) rfl rfl)
  rw [moveLocal_eq]
  generalize ((m.useLocals (slot.toNat + if Opcode.movesWide op then 2 else 1)).emit (moveLocalBytes op slot)).advance
    (fun flow position => flow.moveLocal op slot.toNat position) = moved at *
  dsimp only
  split
  · exact hmoved.trans (recorded_splitBlock ctx moved)
  · exact hmoved

theorem recorded_typed (ctx : Context) (m : MethodDraft) (op : UInt8) (name : String) :
    Recorded ctx m (typed ctx m op name).1 (typed ctx m op name).2 := by
  unfold MethodDraft.typed
  exact recorded_named ctx m (.typed op name m.code.size) (f := fun flow types => flow.typed types op name m.code.size) rfl rfl
    (ConstantPool.type name) (fun m index => m.emitIndexed op index) fun ctx m _ => recorded_emit ctx m _

theorem recorded_field (ctx : Context) (m : MethodDraft) (op : UInt8) (owner name descriptor : String) :
    Recorded ctx m (field ctx m op owner name descriptor).1 (field ctx m op owner name descriptor).2 := by
  unfold MethodDraft.field
  exact recorded_named ctx m (.field op descriptor) (f := fun flow types => flow.field types op descriptor) rfl rfl
    (ConstantPool.fieldRef owner name descriptor) (fun m index => m.emitIndexed op index) fun ctx m _ => recorded_emit ctx m _

/-- A call through an interface is written with the slots of its arguments behind the index. -/
theorem recorded_invoke (ctx : Context) (m : MethodDraft) (op : UInt8) (r : MemberRef) :
    Recorded ctx m (invoke ctx m op r).1 (invoke ctx m op r).2 := by
  unfold MethodDraft.invoke
  refine recorded_named ctx m (.invoke op r.name r.descriptor)
    (f := fun flow types => flow.invoke types op r.name r.descriptor) rfl rfl
    (ConstantPool.methodRef r.owner r.name r.descriptor r.interface)
    (fun m index =>
      let m := m.emitIndexed op index
      if op == Opcode.invokeinterface then m.emit #[(Descriptor.argumentSlots r.descriptor).toUInt8, 0] else m)
    fun ctx m index => ?_
  dsimp only
  split
  · exact (recorded_emit ctx m _).trans (recorded_emit _ _ _)
  · exact recorded_emit ctx m _

theorem recorded_invokeDynamic (ctx : Context) (m : MethodDraft) (name descriptor : String) (bootstrap : MethodHandle)
    (arguments : List ConstantValue) :
    let r := invokeDynamic ctx m name descriptor bootstrap arguments
    Recorded ctx m r.1 r.2 := by
  unfold MethodDraft.invokeDynamic
  exact recorded_named ctx m (.invokeDynamic descriptor) (f := fun flow types => flow.invokeDynamic types descriptor) rfl rfl
    (ConstantPool.callSite name descriptor bootstrap arguments)
    (fun m index => (m.emitIndexed Opcode.invokedynamic index).emit #[0, 0])
    fun ctx m _ => (recorded_emit ctx m _).trans (recorded_emit _ _ _)

/-- A jump is told of when it is met, with its reference, and when it has been written. -/
theorem recorded_jump (ctx : Context) (m : MethodDraft) (op : UInt8) (label : Label) :
    Recorded ctx m (jump ctx m op label).1 (jump ctx m op label).2 := by
  have hjumped : Recorded ctx m ctx { m with flow := (m.flow.jump op label).2 } :=
    recorded_event ctx m (.jump op label) ⟨_, _, _, _, _, _, rfl⟩ ⟨_, _, rfl⟩
  rw [jump_eq]
  exact (hjumped.trans (recorded_writeJump ctx _ op label _)).trans (recorded_closeJump ctx _ op _)

/-- A constant is loaded by one of three opcodes, as it is wide or its index fits in a byte. -/
theorem recorded_constant (ctx : Context) (m : MethodDraft) (value : ConstantValue) :
    Recorded ctx m (constant ctx m value).1 (constant ctx m value).2 := by
  unfold MethodDraft.constant
  refine recorded_named ctx m (.constant value) (f := fun flow types => flow.constant types value) rfl rfl
    (ConstantPool.constant value)
    (fun m index =>
      if value.isWide then m.emitIndexed Opcode.ldc2W index
      else if index ≥ 256 then m.emitIndexed Opcode.ldcW index
      else m.emit #[Opcode.ldc, index.toUInt8])
    fun ctx m index => ?_
  split
  · exact recorded_emit ctx m _
  · split <;> exact recorded_emit ctx m _

theorem recorded_increment (ctx : Context) (m : MethodDraft) (slot : UInt16) (amount : Int16) :
    Recorded ctx m ctx (m.increment slot amount) := by
  have hfollowed := (recorded_advance ctx m (.increment slot) (f := fun flow _ => flow.increment slot.toNat) rfl rfl).trans
    (recorded_useLocals ctx _ (slot.toNat + 1))
  dsimp only [MethodDraft.increment]
  split <;> exact hfollowed.trans (recorded_emit ctx _ _)

/-- A switch tells the flow of its distances one by one, then of all its labels. -/
theorem recorded_tableSwitch (ctx : Context) (m : MethodDraft) (low high : Int32) (defaultLabel : Label)
    (labels : List Label) :
    Recorded ctx m ctx (m.tableSwitch low high defaultLabel labels) := by
  have hopened := (recorded_emitAligned ctx m Opcode.tableswitch).trans
    (recorded_reference ctx _ defaultLabel m.code.size true)
  have hlisted := (hopened.trans (recorded_emit ctx _ (Bytes.ofInt32 low ++ Bytes.ofInt32 high))).trans
    (recorded_references ctx _ m.code.size labels)
  exact hlisted.trans (recorded_switch ctx _ defaultLabel labels)

theorem recorded_lookupSwitch (ctx : Context) (m : MethodDraft) (defaultLabel : Label) (keys : List Int32)
    (labels : List Label) :
    Recorded ctx m ctx (m.lookupSwitch defaultLabel keys labels) := by
  have hopened := (recorded_emitAligned ctx m Opcode.lookupswitch).trans
    (recorded_reference ctx _ defaultLabel m.code.size true)
  have hlisted := (hopened.trans (recorded_emit ctx _ (Bytes.ofUInt32 labels.length.toUInt32))).trans
    (recorded_cases ctx _ m.code.size (keys.zip labels))
  exact hlisted.trans (recorded_switch ctx _ defaultLabel labels)

theorem recorded_multiArray (ctx : Context) (m : MethodDraft) (descriptor : String) (dimensions : UInt8) :
    Recorded ctx m (multiArray ctx m descriptor dimensions).1 (multiArray ctx m descriptor dimensions).2 := by
  unfold MethodDraft.multiArray
  exact recorded_named ctx m (.multiArray descriptor dimensions)
    (f := fun flow types => flow.multiArray types descriptor dimensions) rfl rfl (ConstantPool.type descriptor)
    (fun m index => (m.emitIndexed Opcode.multianewarray index).emit #[dimensions])
    fun ctx m _ => (recorded_emit ctx m _).trans (recorded_emit _ _ _)

/-- Whatever an instruction does to the flow is what some events do to it. -/
theorem recorded_instruction (ctx : Context) (m : MethodDraft) (i : Instruction) :
    Recorded ctx m (m.instruction ctx i).1 (m.instruction ctx i).2 := by
  cases i with
  | bare op => exact recorded_bare ctx m op
  | immediate op operand => exact recorded_immediate ctx m op operand
  | moveLocal op slot => exact recorded_moveLocal ctx m op slot
  | typed op name => exact recorded_typed ctx m op name
  | field op owner name descriptor => exact recorded_field ctx m op owner name descriptor
  | invoke op r => exact recorded_invoke ctx m op r
  | invokeDynamic name descriptor bootstrap arguments =>
    exact recorded_invokeDynamic ctx m name descriptor bootstrap arguments
  | jump op label => exact recorded_jump ctx m op label
  | constant value => exact recorded_constant ctx m value
  | increment slot amount => exact recorded_increment ctx m slot amount
  | tableSwitch low high defaultLabel labels => exact recorded_tableSwitch ctx m low high defaultLabel labels
  | lookupSwitch defaultLabel keys labels => exact recorded_lookupSwitch ctx m defaultLabel keys labels
  | multiArray descriptor dimensions => exact recorded_multiArray ctx m descriptor dimensions

/-- Recording an event drives the control flow. -/
theorem recorded_record (ctx : Context) (m : MethodDraft) (e : CodeEvent) :
    Recorded ctx m (m.record ctx e).1 (m.record ctx e).2 := by
  cases e with
  | instruction i => exact recorded_instruction ctx m i
  | label l =>
    have hplaced : Recorded ctx m ctx (m.label ctx l).2 :=
      recorded_event ctx m (.label l m.code) ⟨_, _, _, _, _, _, rfl⟩ ⟨_, _, rfl⟩
    exact hplaced.trans (recorded_overflow ctx _ _ _)
  | localVariable name descriptor signature start stop slot =>
    exact ⟨.refl _ _, ⟨_, _, _, _, _, _, _, rfl⟩, ⟨_, _, _, rfl⟩⟩
  | tryCatch start stop handler type => exact ⟨.refl _ _, ⟨_, _, _, _, _, _, _, rfl⟩, ⟨_, _, _, rfl⟩⟩
  | lineNumber line start => exact ⟨.refl _ _, ⟨_, _, _, _, _, _, _, rfl⟩, ⟨_, _, _, rfl⟩⟩
  | maxStack height => exact ⟨.refl _ _, ⟨_, _, _, _, _, _, _, rfl⟩, ⟨_, _, _, rfl⟩⟩

/-- Whatever code does to the flow is what some events do to it. -/
theorem recorded_recordAll (ctx : Context) (m : MethodDraft) (es : List CodeEvent) :
    Recorded ctx m (m.recordAll ctx es).1 (m.recordAll ctx es).2 := by
  induction es generalizing ctx m with
  | nil => exact .refl ctx m
  | cons e rest ih => exact (recorded_record ctx m e).trans (ih _ _)

end MethodDraft

end ClassFile
