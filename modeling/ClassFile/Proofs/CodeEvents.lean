import ClassFile.Draft.Class
import ClassFile.Proofs.FlowPlaces
import ClassFile.Proofs.PoolConstants

/-!
# The pieces that instructions are written in

A method is told of its code by events (`CodeEvent`), which it records one by one. An instruction is written as
pieces that hang on the offset at which it stands, on the index of its operand in the constant pool and, for a jump,
on whether its label lies too far back for two bytes (`Instruction.pieces`). No event but the placing of a label
looks at what has been written already.
-/

namespace ClassFile

/-- What a method is told of its code. -/
inductive CodeEvent where
  | instruction (i : Instruction)
  | label (l : Label)
  | tryCatch (start stop handler : Label) (type : Option String)
  | localVariable (name descriptor : String) (signature : Option String) (start stop : Label) (slot : UInt16)
  | lineNumber (line : UInt16) (start : Label)
  | maxStack (height : UInt16)

/-- An event of a method's code as one of its class. -/
def CodeEvent.toEvent : CodeEvent → Event
  | instruction i => .instruction i
  | label l => .label l
  | tryCatch start stop handler type => .tryCatch start stop handler type
  | localVariable name descriptor signature start stop slot => .localVariable name descriptor signature start stop slot
  | lineNumber line start => .lineNumber line start
  | maxStack height => .maxStack height

namespace MethodDraft

/-- The method with another event of its code. -/
def record (ctx : Context) (m : MethodDraft) : CodeEvent → Context × MethodDraft
  | .instruction i => m.instruction ctx i
  | .label l => m.label ctx l
  | .tryCatch start stop handler type => (ctx, m.tryCatch ⟨start, stop, handler, type⟩)
  | .localVariable name descriptor signature start stop slot => m.localVariable ctx name descriptor signature start stop slot
  | .lineNumber line start => (ctx, m.lineNumber line start)
  | .maxStack height => (ctx, { m with declaredMaxStack := height })

/-- The method with all events of a list. -/
def recordAll (ctx : Context) (m : MethodDraft) : List CodeEvent → Context × MethodDraft
  | [] => (ctx, m)
  | e :: rest => recordAll (m.record ctx e).1 (m.record ctx e).2 rest

/-- Events are recorded one behind the other. -/
theorem recordAll_append (ctx : Context) (m : MethodDraft) (es fs : List CodeEvent) :
    m.recordAll ctx (es ++ fs) = (m.recordAll ctx es).2.recordAll (m.recordAll ctx es).1 fs := by
  induction es generalizing ctx m with
  | nil => rfl
  | cons e es ih => exact ih _ _

end MethodDraft

/-- A class records an event of code in the method that is open. -/
theorem Writer.step_toEvent (w : Writer) (e : CodeEvent) : w.step e.toEvent = w.mapMethod fun ctx m => m.record ctx e := by
  cases e <;> rfl

namespace Instruction

/-- The step that puts the operand of an instruction into the constant pool. -/
def operand : Instruction → Interning PoolIndex
  | typed _ name => ConstantPool.type name
  | field _ owner name descriptor => ConstantPool.fieldRef owner name descriptor
  | invoke _ r => ConstantPool.methodRef r.owner r.name r.descriptor r.interface
  | invokeDynamic name descriptor bootstrap arguments => ConstantPool.callSite name descriptor bootstrap arguments
  | constant value => ConstantPool.constant value
  | multiArray descriptor _ => ConstantPool.type descriptor
  | _ => pure 0

/-- An index names the operand of an instruction, if it has one in the constant pool. -/
def Named (pool : ConstantPool) (index : PoolIndex) : Instruction → Prop
  | typed _ name => pool.HoldsType index name
  | field _ owner name descriptor => pool.HoldsField index owner name descriptor
  | invoke _ r => pool.HoldsMethod index r
  | invokeDynamic name descriptor bootstrap arguments => pool.HoldsCallSite index name descriptor bootstrap arguments
  | constant value => pool.HoldsConstant index value
  | multiArray descriptor _ => pool.HoldsType index descriptor
  | _ => True

/-- The operand of an instruction is named once its constant was taken. -/
theorem ensures_operand (i : Instruction) : ConstantPool.Ensures i.operand fun index later => i.Named later index := by
  cases i with
  | typed op name => exact ConstantPool.ensures_type name
  | field op owner name descriptor => exact ConstantPool.ensures_fieldRef owner name descriptor
  | invoke op r => exact ConstantPool.ensures_methodRef r
  | invokeDynamic name descriptor bootstrap arguments =>
    exact ConstantPool.ensures_callSite name descriptor bootstrap arguments
  | constant value => exact ConstantPool.ensures_constant value
  | multiArray descriptor dimensions => exact ConstantPool.ensures_type descriptor
  | _ => exact (ConstantPool.Ensures.pure 0).mono fun _ _ _ => trivial

/-- A jump that stands at an offset, in pieces: one that is too far back for two bytes takes four, and a conditional one then
passes over an unconditional one. -/
def jumpPieces (op : UInt8) (label : Label) (far : Bool) (offset : Nat) : List CodePiece :=
  if far then
    if op != Opcode.goto && op != Opcode.jsr then
      [.bytes (#[Opcode.invertJump op] ++ Bytes.ofUInt16 8), .bytes #[MethodDraft.wideJump op],
      .distance label (offset + 3) true]
    else [.bytes #[MethodDraft.wideJump op], .distance label offset true]
  else [.bytes #[op], .distance label offset false]

/-- The opcode of a switch that stands at an offset, up to its operands. -/
def switchHead (op : UInt8) (offset : Nat) : List CodePiece :=
  [.bytes #[op], .bytes (Array.replicate (Bytes.padding (offset + 1)) 0)]

/-- An instruction that stands at an offset, in pieces. -/
def pieces (index : PoolIndex) (far : Bool) (offset : Nat) : Instruction → List CodePiece
  | bare op => [.bytes #[op]]
  | immediate op operand =>
    if op == Opcode.sipush then [.bytes (#[op] ++ Bytes.ofUInt16 operand.toUInt32.toUInt16)]
    else [.bytes #[op, operand.toUInt32.toUInt8]]
  | moveLocal op slot => [.bytes (MethodDraft.moveLocalBytes op slot)]
  | typed op _ => [.bytes (#[op] ++ Bytes.ofUInt16 index)]
  | field op _ _ _ => [.bytes (#[op] ++ Bytes.ofUInt16 index)]
  | invoke op r =>
    .bytes (#[op] ++ Bytes.ofUInt16 index) ::
      if op == Opcode.invokeinterface then [.bytes #[(Descriptor.argumentSlots r.descriptor).toUInt8, 0]] else []
  | invokeDynamic _ _ _ _ => [.bytes (#[Opcode.invokedynamic] ++ Bytes.ofUInt16 index), .bytes #[0, 0]]
  | jump op label => jumpPieces op label far offset
  | constant value =>
    if value.isWide then [.bytes (#[Opcode.ldc2W] ++ Bytes.ofUInt16 index)]
    else if index ≥ 256 then [.bytes (#[Opcode.ldcW] ++ Bytes.ofUInt16 index)]
    else [.bytes #[Opcode.ldc, index.toUInt8]]
  | increment slot amount =>
    if slot > 255 || amount > 127 || amount < -128 then
      [.bytes (#[Opcode.wide, Opcode.iinc] ++ Bytes.ofUInt16 slot ++ Bytes.ofUInt16 amount.toUInt16)]
    else [.bytes #[Opcode.iinc, slot.toUInt8, amount.toUInt16.toUInt8]]
  | tableSwitch low high defaultLabel labels =>
    switchHead Opcode.tableswitch offset ++
      [.distance defaultLabel offset true, .bytes (Bytes.ofInt32 low ++ Bytes.ofInt32 high)] ++
      labels.map fun label => .distance label offset true
  | lookupSwitch defaultLabel keys labels =>
    switchHead Opcode.lookupswitch offset ++
      [.distance defaultLabel offset true, .bytes (Bytes.ofUInt32 labels.length.toUInt32)] ++
      (keys.zip labels).flatMap fun (key, label) => [.bytes (Bytes.ofInt32 key), .distance label offset true]
  | multiArray _ dimensions => [.bytes (#[Opcode.multianewarray] ++ Bytes.ofUInt16 index), .bytes #[dimensions]]

end Instruction

namespace MethodDraft

/-- The code of a method holds pieces, and labels have their places in it. -/
def Laid (m : MethodDraft) (places : Label → Option Nat) (ps : List CodePiece) : Prop :=
  ClassFile.Laid m.flow.blocks m.code places ps

/-- Whether a jump written now does not reach its label with two bytes, since that lies too far back. -/
def jumpsFar (m : MethodDraft) (label : Label) : Bool :=
  match m.flow.blocks.position label with
  | some target => (target : Int) - m.code.size < minDistance
  | none => false

/-- Whether an instruction written now is a jump that lies too far behind its label. -/
def isFar (m : MethodDraft) : Instruction → Bool
  | .jump _ label => m.jumpsFar label
  | _ => false

variable {ctx : Context} {m : MethodDraft} {places : Label → Option Nat} {ps : List CodePiece}

/-- Bytes at the end of the code are a piece more. -/
theorem Laid.emit (h : m.Laid places ps) (b : Bytes) : (m.emit b).Laid places (ps ++ [.bytes b]) :=
  ClassFile.Laid.emit h b

/-- A step of the flow that leaves the labels their places changes nothing of the pieces. -/
theorem Laid.advance (h : m.Laid places ps) {f : ControlFlow → Nat → ControlFlow}
    (hf : m.flow.blocks.Neutral (f m.flow m.code.size).blocks) : (m.advance f).Laid places ps :=
  ClassFile.Laid.neutral h hf

/-- A distance at the end of the code is a piece more, if a label behind it is in reach. -/
theorem Laid.reference (h : m.Laid places ps) (label : Label) (origin : Nat) (wide : Bool) (horigin : origin ≤ m.code.size)
    (hreach : wide = false → ∀ position, places label = some position → InReach (position - origin)) :
    (m.reference label origin wide).Laid places (ps ++ [.distance label origin wide]) :=
  ClassFile.Laid.putReference h label horigin hreach

/-- A distance of four bytes is a piece more wherever its label is. -/
theorem Laid.wideReference (h : m.Laid places ps) (label : Label) (origin : Nat) (horigin : origin ≤ m.code.size) :
    (m.reference label origin true).Laid places (ps ++ [.distance label origin true]) :=
  h.reference label origin true horigin fun e => nomatch e

/-- Bytes that are written make the code that much longer. -/
theorem size_emit (m : MethodDraft) (b : Bytes) : (m.emit b).code.size = m.code.size + b.size :=
  Array.size_append

/-- A distance that is written makes the code no shorter. -/
theorem size_le_reference (m : MethodDraft) (label : Label) (origin : Nat) (wide : Bool) :
    m.code.size ≤ (m.reference label origin wide).code.size := by
  have hcode : (m.reference label origin wide).code = (m.flow.blocks.putReference label origin m.code wide).2 := rfl
  rw [hcode]
  unfold Blocks.putReference
  dsimp only
  split
  · simp
  · simp

/-- Distances one behind the other are pieces one behind the other. -/
theorem Laid.references (h : m.Laid places ps) (origin : Nat) (horigin : origin ≤ m.code.size) (labels : List Label) :
    (m.references origin labels).Laid places (ps ++ labels.map fun label => .distance label origin true) := by
  unfold MethodDraft.references
  induction labels generalizing m ps with
  | nil => simpa using h
  | cons label rest ih =>
    have := m.size_le_reference label origin true
    simpa using ih (h.wideReference label origin horigin) (by omega)

/-- Following an instruction changes the types, the errors and the flow, and no code. -/
theorem follow_eq (ctx : Context) (m : MethodDraft) (f : ControlFlow → TypeTable → ControlFlow × TypeTable × Option Error) :
    MethodDraft.follow ctx m f = (({ ctx with types := (f m.flow ctx.types).2.1 } : Context).check (f m.flow ctx.types).2.2,
      { m with flow := (f m.flow ctx.types).1 }) := rfl

/-- Following an instruction changes nothing of the pieces. -/
theorem Laid.follow (ctx : Context) (h : m.Laid places ps)
    {f : ControlFlow → TypeTable → ControlFlow × TypeTable × Option Error}
    (hf : m.flow.blocks.Neutral (f m.flow ctx.types).1.blocks) : (MethodDraft.follow ctx m f).2.Laid places ps :=
  ClassFile.Laid.neutral h hf

/-- An error that is noted leaves the pool alone. -/
theorem pool_check (ctx : Context) (e : Option Error) : (ctx.check e).pool = ctx.pool := by
  cases e <;> rfl

/-- Following an instruction leaves the pool alone. -/
theorem pool_follow (ctx : Context) (m : MethodDraft)
    (f : ControlFlow → TypeTable → ControlFlow × TypeTable × Option Error) :
    (MethodDraft.follow ctx m f).1.pool = ctx.pool :=
  pool_check _ _

/-- The method with a jump, which its flow has not been told the end of. -/
def writeJump (m : MethodDraft) (op : UInt8) (label : Label) (far : Bool) : MethodDraft :=
  if far then
    let m := if op != Opcode.goto && op != Opcode.jsr then m.emit (#[Opcode.invertJump op] ++ Bytes.ofUInt16 8) else m
    (m.emit #[wideJump op]).reference label m.code.size true
  else (m.emit #[op]).reference label m.code.size false

/-- The method with its flow told that a jump has been written. -/
def closeJump (ctx : Context) (m : MethodDraft) (op : UInt8) (next : Option Bool) : Context × MethodDraft :=
  let r := m.flow.endJump op next m.code
  (m.reportOverflow ctx r.2.2, { m with code := r.2.1, flow := r.1 })

/-- A jump writes its bytes, tells the flow of its end, and starts a new block if it is a conditional one written in two. -/
theorem jump_eq (ctx : Context) (m : MethodDraft) (op : UInt8) (label : Label) :
    MethodDraft.jump ctx m op label =
      let jumped : MethodDraft := { m with flow := (m.flow.jump op label).2 }
      let far := jumped.jumpsFar label
      closeJump ctx (jumped.writeJump op label far) op
        (if (m.flow.jump op label).1 then some (far && (op != Opcode.goto && op != Opcode.jsr)) else none) := rfl

/-- A jump is the pieces of its near or its far form. -/
theorem Laid.writeJump (h : m.Laid places ps) (op : UInt8) (label : Label) :
    (m.writeJump op label (m.jumpsFar label)).Laid places
      (ps ++ Instruction.jumpPieces op label (m.jumpsFar label) m.code.size) := by
  have hplaced := ClassFile.Laid.placed h label
  unfold MethodDraft.writeJump Instruction.jumpPieces
  split
  · dsimp only
    split
    · have := ((h.emit (#[Opcode.invertJump op] ++ Bytes.ofUInt16 8)).emit #[wideJump op]).wideReference label
        (m.code.size + 3) (by simp [size_emit])
      simpa [MethodDraft.emit] using this
    · simpa using (h.emit #[wideJump op]).wideReference label m.code.size (by simp [size_emit])
  · rename_i hnear
    have hreach : ∀ position, places label = some position → InReach (position - m.code.size) := by
      intro position hp
      have hbound := ClassFile.Laid.bounded h label position hp
      unfold MethodDraft.jumpsFar at hnear
      rw [hplaced, hp] at hnear
      have hdistance : ¬((position : Int) - m.code.size < minDistance) := by simpa using hnear
      unfold minDistance at hdistance
      constructor <;> omega
    simpa using (h.emit #[op]).reference label m.code.size false (by simp [size_emit]) fun _ => hreach

/-- Telling the flow of the end of a jump writes no code. -/
theorem closeJump_eq (h : m.Laid places ps) (ctx : Context) (op : UInt8) (next : Option Bool) :
    (closeJump ctx m op next).1 = ctx ∧ (closeJump ctx m op next).2.Laid places ps ∧
    (closeJump ctx m op next).2.code = m.code := by
  obtain ⟨hlaid, hcode⟩ := ControlFlow.laid_endJump h op next
  unfold closeJump
  dsimp only
  rw [hcode]
  exact ⟨rfl, hlaid, rfl⟩

/-- A jump is written behind what comes before it. -/
theorem Laid.jump (h : m.Laid places ps) (op : UInt8) (label : Label) :
    (MethodDraft.jump ctx m op label).2.Laid places (ps ++ Instruction.jumpPieces op label (m.jumpsFar label) m.code.size) ∧
      (MethodDraft.jump ctx m op label).1 = ctx := by
  have hneutral := m.flow.neutral_jump op label
  have hjumped : ({ m with flow := (m.flow.jump op label).2 } : MethodDraft).Laid places ps :=
    ClassFile.Laid.neutral h hneutral
  have hfar : ({ m with flow := (m.flow.jump op label).2 } : MethodDraft).jumpsFar label = m.jumpsFar label := by
    unfold MethodDraft.jumpsFar
    rw [hneutral.position label]
  rw [jump_eq]
  dsimp only
  rw [hfar]
  obtain ⟨hctx, hlaid, -⟩ := closeJump_eq (hfar ▸ hjumped.writeJump op label) ctx op
    (if (m.flow.jump op label).1 then some (m.jumpsFar label && (op != Opcode.goto && op != Opcode.jsr)) else none)
  exact ⟨hlaid, hctx⟩

/-- The method with a new block at the end of its code. -/
def splitBlock (ctx : Context) (m : MethodDraft) : Context × MethodDraft :=
  let r := m.flow.split m.code
  (m.reportOverflow ctx r.2.2, { m with code := r.2.1, flow := r.1 })

/-- Splitting a block writes no code. -/
theorem splitBlock_eq (h : m.Laid places ps) (ctx : Context) :
    (splitBlock ctx m).1 = ctx ∧ (splitBlock ctx m).2.Laid places ps ∧ (splitBlock ctx m).2.code = m.code := by
  obtain ⟨hlaid, hcode⟩ := ControlFlow.laid_split h
  unfold splitBlock
  dsimp only
  rw [hcode]
  exact ⟨rfl, hlaid, rfl⟩

/-- Moving a local writes its bytes and makes room for the local. -/
theorem moveLocal_eq (ctx : Context) (m : MethodDraft) (op : UInt8) (slot : UInt16) :
    MethodDraft.moveLocal ctx m op slot =
      let moved := ((m.useLocals (slot.toNat + if Opcode.movesWide op then 2 else 1)).emit (moveLocalBytes op slot)).advance
        fun flow position => flow.moveLocal op slot.toNat position
      if op ≥ Opcode.istore && moved.flow.analysis == .frames && !moved.handlers.isEmpty then splitBlock ctx moved
      else (ctx, moved) := rfl

/-- A load or store is written, and its block may end. -/
theorem Laid.moveLocal (h : m.Laid places ps) (op : UInt8) (slot : UInt16) :
    (MethodDraft.moveLocal ctx m op slot).2.Laid places (ps ++ [.bytes (moveLocalBytes op slot)]) ∧
      (MethodDraft.moveLocal ctx m op slot).1 = ctx := by
  have hused : (m.useLocals (slot.toNat + if Opcode.movesWide op then 2 else 1)).Laid places ps := h
  have hmoved := (hused.emit (moveLocalBytes op slot)).advance
    (f := fun flow position => flow.moveLocal op slot.toNat position)
    (ControlFlow.neutral_moveLocal _ h.labelled op slot.toNat _)
  rw [moveLocal_eq]
  generalize ((m.useLocals (slot.toNat + if Opcode.movesWide op then 2 else 1)).emit (moveLocalBytes op slot)).advance
    (fun flow position => flow.moveLocal op slot.toNat position) = moved at hmoved
  dsimp only
  split
  · obtain ⟨hctx, hlaid, -⟩ := splitBlock_eq hmoved ctx
    exact ⟨hlaid, hctx⟩
  · exact ⟨hmoved, rfl⟩

/-- The padding of a switch makes the code no shorter. -/
theorem size_le_emitAligned (m : MethodDraft) (op : UInt8) : m.code.size ≤ (m.emitAligned op).code.size := by
  unfold MethodDraft.emitAligned
  dsimp only
  rw [size_emit, size_emit]
  omega

/-- The opcode of a switch comes with as much padding as its offset asks for. -/
theorem Laid.emitAligned (h : m.Laid places ps) (op : UInt8) :
    (m.emitAligned op).Laid places (ps ++ Instruction.switchHead op m.code.size) := by
  have := (h.emit #[op]).emit (Array.replicate (Bytes.padding (m.code.size + 1)) 0)
  simpa [MethodDraft.emitAligned, Instruction.switchHead, MethodDraft.emit] using this

/-- The cases of a switch are a key and a distance each. -/
theorem Laid.cases (h : m.Laid places ps) (origin : Nat) (horigin : origin ≤ m.code.size) (cases : List (Int32 × Label)) :
    (cases.foldl (fun (m : MethodDraft) (key, label) => (m.emit (Bytes.ofInt32 key)).reference label origin true) m).Laid
      places
      (ps ++ cases.flatMap fun (key, label) => [.bytes (Bytes.ofInt32 key), .distance label origin true]) := by
  induction cases generalizing m ps with
  | nil => simpa using h
  | cons item rest ih =>
    have hgrown := (m.emit (Bytes.ofInt32 item.1)).size_le_reference item.2 origin true
    have hemitted := m.size_emit (Bytes.ofInt32 item.1)
    simpa using ih ((h.emit (Bytes.ofInt32 item.1)).wideReference item.2 origin (by omega)) (by omega)

/-- An instruction is followed and then written with the index of its operand. -/
theorem Laid.named (ctx : Context) (h : m.Laid places ps)
    {f : ControlFlow → TypeTable → ControlFlow × TypeTable × Option Error}
    (hf : m.flow.blocks.Neutral (f m.flow ctx.types).1.blocks) (step : Interning PoolIndex) (op : UInt8) :
    ((MethodDraft.follow ctx m f).2.emitIndexed op ((MethodDraft.follow ctx m f).1.intern step).1).Laid places
      (ps ++ [.bytes (#[op] ++ Bytes.ofUInt16 (step ctx.pool).1)]) := by
  have hindex : ((MethodDraft.follow ctx m f).1.intern step).1 = (step ctx.pool).1 := by
    rw [← pool_follow ctx m f]
    rfl
  rw [hindex]
  exact (h.follow ctx hf).emit _

/-- A call is written with its index, and one through an interface with the slots of its arguments too. -/
theorem Laid.invoke (ctx : Context) (h : m.Laid places ps) (op : UInt8) (r : MemberRef) (far : Bool) :
    (MethodDraft.invoke ctx m op r).2.Laid places
      (ps ++ (Instruction.invoke op r).pieces ((Instruction.invoke op r).operand ctx.pool).1 far m.code.size) := by
  have hnamed := h.named ctx (f := fun flow types => flow.invoke types op r.name r.descriptor)
    (ControlFlow.neutral_follow _ _ _ _) (ConstantPool.methodRef r.owner r.name r.descriptor r.interface) op
  unfold MethodDraft.invoke Instruction.pieces Instruction.operand
  dsimp only
  split
  · have hcounted := hnamed.emit #[(Descriptor.argumentSlots r.descriptor).toUInt8, 0]
    rw [List.append_assoc] at hcounted
    exact hcounted
  · exact hnamed

/-- A constant is loaded in the form that its width and its index call for. -/
theorem Laid.constant (ctx : Context) (h : m.Laid places ps) (value : ConstantValue) (far : Bool) :
    (MethodDraft.constant ctx m value).2.Laid places
      (ps ++ (Instruction.constant value).pieces ((Instruction.constant value).operand ctx.pool).1 far m.code.size) := by
  have hfollowed := h.follow ctx (f := fun flow types => flow.constant types value) (ControlFlow.neutral_follow _ _ _ _)
  have hindex : ((MethodDraft.follow ctx m fun flow types => flow.constant types value).1.intern
      (ConstantPool.constant value)).1 = (ConstantPool.constant value ctx.pool).1 := by
    rw [← pool_follow ctx m fun flow types => flow.constant types value]
    rfl
  unfold MethodDraft.constant Instruction.pieces Instruction.operand
  dsimp only
  rw [hindex]
  split
  · exact hfollowed.emit _
  · split
    · exact hfollowed.emit _
    · exact hfollowed.emit _

/-- A switch over a range of keys is its head, its keys and one distance behind the other. -/
theorem Laid.tableSwitch (h : m.Laid places ps) (low high : Int32) (defaultLabel : Label) (labels : List Label)
    (index : PoolIndex) (far : Bool) :
    (m.tableSwitch low high defaultLabel labels).Laid places
      (ps ++ (Instruction.tableSwitch low high defaultLabel labels).pieces index far m.code.size) := by
  have haligned := m.size_le_emitAligned Opcode.tableswitch
  have hhead := (h.emitAligned Opcode.tableswitch).wideReference defaultLabel m.code.size haligned
  have hdefault := (m.emitAligned Opcode.tableswitch).size_le_reference defaultLabel m.code.size true
  have hlabels := (hhead.emit (Bytes.ofInt32 low ++ Bytes.ofInt32 high)).references m.code.size
    (by rw [size_emit]; omega) labels
  have hfollowed := hlabels.advance (f := fun flow position => flow.switch defaultLabel labels position)
    (ControlFlow.neutral_switch _ hlabels.labelled defaultLabel labels _)
  simpa [MethodDraft.tableSwitch, Instruction.pieces] using hfollowed

/-- A switch over single keys is its head and each key with its distance. -/
theorem Laid.lookupSwitch (h : m.Laid places ps) (defaultLabel : Label) (keys : List Int32) (labels : List Label)
    (index : PoolIndex) (far : Bool) :
    (m.lookupSwitch defaultLabel keys labels).Laid places
      (ps ++ (Instruction.lookupSwitch defaultLabel keys labels).pieces index far m.code.size) := by
  have haligned := m.size_le_emitAligned Opcode.lookupswitch
  have hhead := (h.emitAligned Opcode.lookupswitch).wideReference defaultLabel m.code.size haligned
  have hdefault := (m.emitAligned Opcode.lookupswitch).size_le_reference defaultLabel m.code.size true
  have hcases := (hhead.emit (Bytes.ofUInt32 labels.length.toUInt32)).cases m.code.size
    (by rw [size_emit]; omega) (keys.zip labels)
  have hfollowed := hcases.advance (f := fun flow position => flow.switch defaultLabel labels position)
    (ControlFlow.neutral_switch _ hcases.labelled defaultLabel labels _)
  simpa [MethodDraft.lookupSwitch, Instruction.pieces] using hfollowed

/-- An instruction is written behind what comes before it. -/
theorem Laid.instruction (ctx : Context) (h : m.Laid places ps) (i : Instruction) :
    (m.instruction ctx i).2.Laid places (ps ++ i.pieces (i.operand ctx.pool).1 (m.isFar i) m.code.size) := by
  cases i with
  | bare op =>
    exact (h.emit #[op]).advance (ControlFlow.neutral_bare _ h.labelled op _)
  | immediate op operand =>
    have hfollowed : (m.advance fun flow _ => flow.immediate op operand).Laid places ps :=
      h.advance (ControlFlow.neutral_immediate _ op operand)
    unfold MethodDraft.instruction MethodDraft.immediate Instruction.pieces
    dsimp only
    split
    · exact hfollowed.emit _
    · exact hfollowed.emit _
  | moveLocal op slot => exact (h.moveLocal op slot).1
  | typed op name =>
    have hnamed := h.named ctx (f := fun flow types => flow.typed types op name m.code.size)
      (ControlFlow.neutral_follow _ _ _ _) (ConstantPool.type name) op
    unfold MethodDraft.instruction MethodDraft.typed Instruction.pieces Instruction.operand
    exact hnamed
  | field op owner name descriptor =>
    have hnamed := h.named ctx (f := fun flow types => flow.field types op descriptor)
      (ControlFlow.neutral_follow _ _ _ _) (ConstantPool.fieldRef owner name descriptor) op
    unfold MethodDraft.instruction MethodDraft.field Instruction.pieces Instruction.operand
    exact hnamed
  | invoke op r => exact h.invoke ctx op r _
  | invokeDynamic name descriptor bootstrap arguments =>
    have hnamed := h.named ctx (f := fun flow types => flow.invokeDynamic types descriptor)
      (ControlFlow.neutral_follow _ _ _ _) (ConstantPool.callSite name descriptor bootstrap arguments) Opcode.invokedynamic
    have hclosed := hnamed.emit #[0, 0]
    rw [List.append_assoc] at hclosed
    unfold MethodDraft.instruction MethodDraft.invokeDynamic Instruction.pieces Instruction.operand
    exact hclosed
  | jump op label => exact (h.jump op label).1
  | constant value => exact h.constant ctx value _
  | increment slot amount =>
    have hfollowed : ((m.advance fun flow _ => flow.increment slot.toNat).useLocals (slot.toNat + 1)).Laid places ps :=
      h.advance (f := fun flow _ => flow.increment slot.toNat) (ControlFlow.neutral_mapFrame _ _)
    unfold MethodDraft.instruction MethodDraft.increment Instruction.pieces
    dsimp only
    split
    · exact hfollowed.emit _
    · exact hfollowed.emit _
  | tableSwitch low high defaultLabel labels => exact h.tableSwitch low high defaultLabel labels _ _
  | lookupSwitch defaultLabel keys labels => exact h.lookupSwitch defaultLabel keys labels _ _
  | multiArray descriptor dimensions =>
    have hnamed := h.named ctx (f := fun flow types => flow.multiArray types descriptor dimensions)
      (ControlFlow.neutral_follow _ _ _ _) (ConstantPool.type descriptor) Opcode.multianewarray
    have hcounted := hnamed.emit #[dimensions]
    rw [List.append_assoc] at hcounted
    unfold MethodDraft.instruction MethodDraft.multiArray Instruction.pieces Instruction.operand
    exact hcounted

end MethodDraft

end ClassFile
