import ClassFile.Proofs.FlowPlacing
import ClassFile.Proofs.LateLabels
import ClassFile.Proofs.MethodReading

/-!
# Stretches of recorded code

A method of which frames are computed records its events in stretches of code (`MethodDraft.stretched_record`).
An instruction is followed and written; then its stretch ends if code does not go on behind it, and another one
starts if code may go on elsewhere too or, once there are handlers, if a local is stored. A label starts a
stretch, unless one starts there already.
-/

namespace ClassFile

namespace Course

/-- An instruction at an offset is followed and written. -/
def written (c : Course) (offset : Nat) (i : Instruction) : Course :=
  (i.labels.foldl lead (c.execute (i.operation offset))).write offset i

/-- An instruction is followed and written between two offsets, and a stretch may start behind it: nothing leads to a block
if the code does not go on, and to another one if there is more than one way on or the stretch is split. -/
def follow (c : Course) (offset stop block next : Nat) (splits jumped : Bool) (i : Instruction) : Course :=
  let ended := if c.last.followed && i.ends then (c.written offset i).stop block stop else c.written offset i
  if c.last.followed && i.branches || splits then ended.place next stop jumped else ended

section Written

variable (c : Course) (offset : Nat) (i : Instruction) (labels : List Label)

/-- What jumps lead to is noted of the last stretch, and all others are done. -/
theorem last_foldl_lead : (labels.foldl lead c).done = c.done ∧ (labels.foldl lead c).last =
    { c.last with leads := if c.last.followed then c.last.leads ++ labels else c.last.leads } := by
  induction labels generalizing c with
  | nil => simp
  | cons l rest ih =>
    obtain ⟨hdone, hlast⟩ := ih (c.lead l)
    rw [List.foldl_cons, hdone, hlast]
    refine ⟨rfl, ?_⟩
    unfold lead
    cases c.last.followed <;> simp

/-- An instruction joins the last stretch. -/
theorem written_eq : c.written offset i = ⟨c.done, { c.last with
    operations := if c.last.followed then c.last.operations ++ [i.operation offset] else c.last.operations
    leads := if c.last.followed then c.last.leads ++ i.labels else c.last.leads
    body := c.last.body ++ [(offset, i)] }⟩ := by
  obtain ⟨hdone, hlast⟩ := last_foldl_lead (c.execute (i.operation offset)) i.labels
  unfold written write
  rw [hdone, hlast]
  rfl

end Written

end Course

namespace ControlFlow

/-! ## Instructions in a flow -/

section Follow

variable {h : Hierarchy} {types : TypeTable} {flow : ControlFlow} {size size' : Nat} {c : Course}

/-- There is a current block as long as the last stretch is followed. -/
theorem Stretched.inBlock (hs : flow.Stretched h types size c) : flow.inBlock = c.last.followed := by
  unfold ControlFlow.inBlock
  rw [hs.current]
  cases c.last.followed <;> rfl

/-- What is not followed leaves the flow alone. -/
theorem Stretched.follow (hs : flow.Stretched h types size c) (o : Frame.Operation) (delta : Int) :
    (flow.follow types (fun f types => f.execute types o) delta).1.Stretched h
      (flow.follow types (fun f types => f.execute types o) delta).2.1 size (c.execute o) := by
  have hsame : flow.follow types (fun f types => f.execute types o) delta = flow.stepFrame types fun f types =>
    f.execute types o := by
    unfold ControlFlow.follow ControlFlow.inBlock ControlFlow.stepFrame
    rw [hs.framed]
    cases flow.current <;> rfl
  rw [hsame]
  exact hs.stepFrame o

/-- Without a current block there is no frame to change. -/
theorem mapFrame_of_not_inBlock (hin : flow.inBlock = false) (g : Frame → Frame) : flow.mapFrame g = flow := by
  unfold ControlFlow.inBlock at hin
  rw [Option.isSome_eq_false_iff, Option.isNone_iff_eq_none] at hin
  unfold ControlFlow.mapFrame
  rw [hin]

/-- A stretch ends behind an instruction that has been followed and written, if code does not go on there. -/
theorem Stretched.closed {i : Instruction} (hs : flow.Stretched h types size' (c.written size i))
    (hlt : c.last.start < size') (hbranches : i.branches = false) (jumped : Bool) : ∃ block next,
    (if c.last.followed && i.ends then flow.noSuccessor size' else flow).Stretched h types size'
      (c.follow size size' block next false jumped i) := by
  refine ⟨flow.blocks.size, 0, ?_⟩
  unfold Course.follow
  rw [hbranches, Bool.and_false, Bool.or_false, if_neg Bool.false_ne_true]
  split
  · refine hs.noSuccessor ?_
    rw [Course.written_eq]
    exact hlt
  · exact hs

/-- An instruction without labels that looks at no types is followed and written. -/
theorem Stretched.plain (hs : flow.Stretched h types size c) {i : Instruction} {g : Frame → Frame} (hlabels : i.labels = [])
    (ho : ∀ (f : Frame) (types : TypeTable), f.execute types (i.operation size) = (g f, types, none))
    (hsize : size < size') :
    (flow.mapFrame g).Stretched h types size' (c.written size i) := by
  unfold Course.written
  rw [hlabels]
  exact (hs.mapFrame ho).write i hsize

/-- An instruction without operands joins the last stretch. -/
theorem Stretched.bare (hs : flow.Stretched h types size c) (op : UInt8) (hsize : size < size')
    (jumped : Bool) : ∃ block next,
    (flow.bare op size').Stretched h types size' (c.follow size size' block next false jumped (.bare op)) := by
  have hwritten := hs.plain (i := .bare op) rfl (fun _ _ => rfl) hsize
  have hclosed := hwritten.closed (Nat.lt_of_le_of_lt hs.within.extent hsize) rfl jumped
  have hbare : flow.bare op size' = if c.last.followed && (Instruction.bare op).ends then
    (flow.mapFrame (·.bare op)).noSuccessor size'
      else flow.mapFrame (·.bare op) := by
    unfold ControlFlow.bare
    rw [hs.inBlock, hs.framed]
    cases hfollowed : c.last.followed with
    | true => rfl
    | false => exact (mapFrame_of_not_inBlock (hs.inBlock.trans hfollowed) _).symm
  rw [hbare]
  exact hclosed

/-- Moving a local joins the last stretch. -/
theorem Stretched.moveLocal (hs : flow.Stretched h types size c) (op : UInt8) (slot : UInt16) (hsize : size < size')
    (jumped : Bool) : ∃ block next,
    (flow.moveLocal op slot.toNat size').Stretched h types size'
      (c.follow size size' block next false jumped (.moveLocal op slot)) := by
  have hwritten := hs.plain (i := .moveLocal op slot) rfl (fun _ _ => rfl) hsize
  have hclosed := hwritten.closed (Nat.lt_of_le_of_lt hs.within.extent hsize) rfl jumped
  have hmove : flow.moveLocal op slot.toNat size' = if c.last.followed && (Instruction.moveLocal op slot).ends then
      (flow.mapFrame (·.moveLocal op slot.toNat)).noSuccessor size' else flow.mapFrame (·.moveLocal op slot.toNat) := by
    unfold ControlFlow.moveLocal
    rw [hs.inBlock, hs.framed]
    cases hfollowed : c.last.followed with
    | true => rfl
    | false => exact (mapFrame_of_not_inBlock (hs.inBlock.trans hfollowed) _).symm
  rw [hmove]
  exact hclosed

/-- An instruction with a number joins the last stretch. -/
theorem Stretched.immediate (hs : flow.Stretched h types size c) (op : UInt8) (operand : Int32) (hsize : size < size')
    (jumped : Bool) :
    ∃ block next, (flow.immediate op operand).Stretched h types size'
    (c.follow size size' block next false jumped (.immediate op operand)) := by
  have hwritten := hs.plain (i := .immediate op operand) rfl (fun _ _ => rfl) hsize
  have himmediate : flow.immediate op operand = flow.mapFrame (·.immediate op operand) := by
    unfold ControlFlow.immediate
    rw [hs.inBlock, hs.framed]
    cases hfollowed : c.last.followed with
    | true => rfl
    | false => exact (mapFrame_of_not_inBlock (hs.inBlock.trans hfollowed) _).symm
  obtain ⟨block, next, hclosed⟩ := hwritten.closed (Nat.lt_of_le_of_lt hs.within.extent hsize) rfl jumped
  rw [himmediate]
  exact ⟨block, next, by simpa [Instruction.ends] using hclosed⟩

/-- An instruction that neither leads elsewhere nor ends the code. -/
theorem Stretched.straight (hs : flow.Stretched h types size c) {i : Instruction} (hlabels : i.labels = [])
    (hends : i.ends = false) (hbranches : i.branches = false) {flow' : ControlFlow} {later : TypeTable}
    (hfollowed : flow'.Stretched h later size (c.execute (i.operation size))) (hsize : size < size') (jumped : Bool) :
    ∃ block next, flow'.Stretched h later size' (c.follow size size' block next false jumped i) := by
  have hwritten : flow'.Stretched h later size' (c.written size i) := by
    unfold Course.written
    rw [hlabels]
    exact hfollowed.write i hsize
  obtain ⟨block, next, hclosed⟩ := hwritten.closed (Nat.lt_of_le_of_lt hs.within.extent hsize) hbranches jumped
  refine ⟨block, next, ?_⟩
  rw [hends, Bool.and_false] at hclosed
  exact hclosed

/-- Two changes of blocks that do not see each other come to the same in either order. -/
theorem modify_comm (blocks : Blocks) (i j : Nat) {f g : Block → Block} (hfg : ∀ b, f (g b) = g (f b)) :
    (blocks.modify i f).modify j g = (blocks.modify j g).modify i f := by
  obtain ⟨arena, labels⟩ := blocks
  refine congrArg (Blocks.mk · labels) (Array.ext (by simp) fun k h₁ h₂ => ?_)
  simp only [Array.getElem_modify]
  split <;> split <;> first | rfl | exact (hfg _).symm

/-- Whether an edge is added first or its target is marked first makes no difference. -/
theorem markTarget_addEdge (flow : ControlFlow) (kind : EdgeKind) (i : Nat) :
    (flow.addEdge kind i).markTarget i = (flow.markTarget i).addEdge kind i := by
  obtain ⟨analysis, blocks, first, current, previous, height, peak⟩ := flow
  cases current with
  | none => rfl
  | some j =>
    have howner : (blocks.modify j fun b => { b with edges := b.edges.push ⟨kind, i⟩ }).owner i = blocks.owner i :=
      Blocks.get_modify_field Block.owner blocks j rfl i
    unfold ControlFlow.markTarget ControlFlow.addEdge
    dsimp only [ControlFlow.modify]
    rw [howner]
    exact congrArg (ControlFlow.mk analysis · first (some j) previous height peak) (modify_comm blocks j _ fun _ => rfl)

/-- The last stretch leads to a label that is marked. -/
theorem Stretched.leadTo (hs : flow.Stretched h types size c) (l : Label) :
    (((flow.index l).2.markTarget (flow.index l).1).addEdge (.normal 0) (flow.index l).1).Stretched h
      types size (c.lead l) := by
  have hname := flow.labels_index l
  have hindexed := hs.index l
  refine (hindexed.markTarget (flow.index l).1).addEdge hname ?_
  have howner : ((flow.index l).2.markTarget (flow.index l).1).blocks.owner (flow.index l).1 =
      (flow.index l).2.blocks.owner (flow.index l).1 := Blocks.get_modify_field Block.owner _ _ rfl _
  rw [howner]
  refine congrArg Block.target (Blocks.get_modify_self (Nat.lt_of_not_le fun hle => ?_) _)
  have hknown := hindexed.names.known l _ hname
  have hbound := hindexed.names.labelled.bound l _ hname
  by_cases hr : ((flow.index l).2.blocks.get (flow.index l).1).resolved = true ∧ l.debug = false
  · obtain ⟨s, hmem, hown, -⟩ := hknown.placed hr.1 hr.2
    exact absurd (hindexed.lt_size hmem) (by rw [← hown]; exact Nat.not_lt.2 hle)
  · rw [not_and, Bool.not_eq_false] at hr
    have hown := (hknown.idle ((Bool.eq_false_or_eq_true _).symm.imp_right hr)).1.owner
    exact absurd hbound (by rw [← hown]; exact Nat.not_lt.2 hle)

/-- The edges of a switch are noted of the last stretch. -/
theorem Stretched.switchEdges (hs : flow.Stretched h types size c) (labels : List Label) :
    (labels.foldl (switchEdge (.normal 0)) flow).Stretched h types size (labels.foldl Course.lead c) := by
  induction labels generalizing flow c with
  | nil => exact hs
  | cons l rest ih =>
    refine ih ?_
    have hled := hs.leadTo l
    rw [← markTarget_addEdge] at hled
    have hframed : ((flow.index l).2.addEdge (.normal 0) (flow.index l).1).analysis = .frames := by
      have := hled.framed
      exact this
    unfold switchEdge
    dsimp only
    rw [hframed]
    exact hled

/-- A switch joins the last stretch and ends it. -/
theorem Stretched.switch (hs : flow.Stretched h types size c) {i : Instruction} {defaultLabel : Label} {labels : List Label}
    (hoperation : i.operation size = .switch) (hlabels : i.labels = defaultLabel :: labels) (hends : i.ends = true)
    (hbranches : i.branches = false) (hsize : size < size') (jumped : Bool) : ∃ block next,
    (flow.switch defaultLabel labels size').Stretched h types size' (c.follow size size' block next false jumped i) := by
  have hfollowed := hs.mapFrame (o := i.operation size) (g := (·.switch)) fun f types => by rw [hoperation]; rfl
  cases hin : c.last.followed with
  | true =>
    have hswitch : flow.switch defaultLabel labels size' =
        ((defaultLabel :: labels).foldl (switchEdge (.normal 0)) (flow.mapFrame (·.switch))).noSuccessor size' := by
      unfold ControlFlow.switch
      rw [hs.inBlock, hs.framed, hin]
      rfl
    have hwritten := (hfollowed.switchEdges i.labels).write i hsize
    have hclosed := Stretched.closed (c := c) hwritten (Nat.lt_of_le_of_lt hs.within.extent hsize) hbranches jumped
    rw [hends, hin, Bool.and_self, if_pos rfl, hlabels] at hclosed
    rw [hswitch]
    exact hclosed
  | false =>
    have hswitch : flow.switch defaultLabel labels size' = flow := by
      unfold ControlFlow.switch
      rw [hs.inBlock, hin, if_neg Bool.false_ne_true]
    have hcourse : c.written size i = c.write size i := by
      rw [Course.written_eq, hin]
      rfl
    have hwritten := hs.write i hsize
    rw [← hcourse] at hwritten
    have hclosed := hwritten.closed (Nat.lt_of_le_of_lt hs.within.extent hsize) hbranches jumped
    rw [hin, Bool.false_and, if_neg Bool.false_ne_true] at hclosed
    rw [hswitch]
    exact hclosed

/-- A jump is followed before it is written. -/
theorem Stretched.jump (hs : flow.Stretched h types size c) (op : UInt8) (l : Label) :
    (flow.jump op l).2.Stretched h types size ((c.execute (.jump op)).lead l) ∧
      (flow.jump op l).1 = (c.last.followed && op != Opcode.goto) := by
  cases hin : c.last.followed with
  | true =>
    have hindexed := (hs.index l).mapFrame (o := .jump op) (g := (·.jump op)) fun f types => rfl
    have hjump : flow.jump op l = (op != Opcode.goto,
      (((flow.index l).2.mapFrame (·.jump op)).markTarget (flow.index l).1).addEdge
        (.normal 0) (flow.index l).1) := by
      unfold ControlFlow.jump
      rw [hs.inBlock, hin, if_pos rfl]
      dsimp only
      rw [(hs.index l).framed]
    have hname : ((flow.index l).2.mapFrame (·.jump op)).blocks.labels[l]? = some (flow.index l).1 :=
      ((flow.index l).2.neutral_mapFrame (·.jump op)).labels l _ (flow.labels_index l)
    have hknown : ((flow.index l).2.mapFrame (·.jump op)).index l =
      ((flow.index l).1, (flow.index l).2.mapFrame (·.jump op)) :=
      index_known hname
    have hled := hindexed.leadTo l
    rw [hknown] at hled
    rw [hjump]
    exact ⟨hled, (Bool.true_and _).symm⟩
  | false =>
    have hjump : flow.jump op l = (false, flow) := by
      unfold ControlFlow.jump
      rw [hs.inBlock, hin, if_neg Bool.false_ne_true]
    have hcourse : (c.execute (.jump op)).lead l = c := by
      unfold Course.execute Course.lead
      rw [hin]
      rfl
    rw [hjump, hcourse]
    exact ⟨hs, (Bool.false_and _).symm⟩

/-- A jump ends its stretch once it has been written. -/
theorem Stretched.endJump {code : Bytes} {op : UInt8} {l : Label} (far : Bool)
    (hs : flow.Stretched h types code.size (c.written size (.jump op l))) (hlt : c.last.start < code.size) : ∃ block next,
    (flow.endJump op (if c.last.followed && op != Opcode.goto then some far else none) code).1.Stretched h types code.size
      (c.follow size code.size block next false far (.jump op l)) := by
  have hwritten := Course.written_eq c size (.jump op l)
  have hin : flow.inBlock = c.last.followed := by
    rw [hs.inBlock, hwritten]
  have hstart : (c.written size (.jump op l)).last.start < code.size := by
    rw [hwritten]
    exact hlt
  unfold ControlFlow.endJump
  rw [hin]
  cases hfollowed : c.last.followed with
  | false =>
    refine ⟨0, 0, ?_⟩
    rw [if_neg Bool.false_ne_true]
    unfold Course.follow
    rw [hfollowed]
    exact hs
  | true =>
    rw [if_pos rfl, Bool.true_and]
    by_cases hop : op = Opcode.goto
    · subst hop
      refine ⟨flow.blocks.size, 0, ?_⟩
      have hstop := hs.noSuccessor hstart
      unfold Course.follow
      rw [hfollowed]
      exact hstop
    · have hgoto : (op != Opcode.goto) = true := bne_iff_ne.2 hop
      have hnot : (op == Opcode.goto) = false := beq_eq_false_iff_ne.2 hop
      obtain ⟨hfresh, hspare⟩ := hs.fresh
      have hmarked : (if far then flow.fresh.2.markTarget flow.fresh.1 else flow.fresh.2).Stretched h types code.size
            (c.written size (.jump op l)) ∧
          (if far then flow.fresh.2.markTarget flow.fresh.1 else flow.fresh.2).Spare
            (c.written size (.jump op l)) flow.fresh.1 ∧
          (far = true → ((if far then flow.fresh.2.markTarget flow.fresh.1 else flow.fresh.2).blocks.get
            flow.fresh.1).target = true) := by
        cases far with
        | true =>
          refine ⟨hfresh.markTarget _, hspare.markTarget _, fun _ => ?_⟩
          have howner : flow.fresh.2.blocks.owner flow.fresh.1 = flow.fresh.1 := hspare.idle.owner
          rw [if_pos rfl, ControlFlow.markTarget, howner]
          exact congrArg Block.target (Blocks.get_modify_self hspare.lt _)
        | false => exact ⟨hfresh, hspare, fun hf => absurd hf Bool.false_ne_true⟩
      have hplaced := hmarked.1.place hmarked.2.1 hmarked.2.2
      refine ⟨0, flow.fresh.1, ?_⟩
      unfold Course.follow
      simp only [hgoto, hnot, if_true, Bool.false_eq_true, if_false, hfollowed, Instruction.ends,
        Instruction.branches, Bool.and_false, Bool.and_self, Bool.or_false]
      exact hplaced

end Follow

end ControlFlow

namespace MethodDraft

/-! ## Recorded instructions -/

/-- Whether the block ends behind an instruction since a local has been stored that handlers see. -/
def splits (m : MethodDraft) : Instruction → Bool
  | .moveLocal op _ => op ≥ Opcode.istore && !m.handlers.isEmpty
  | _ => false

section Record

variable {h : Hierarchy} {types : TypeTable} {ctx : Context} {m : MethodDraft} {size : Nat} {c : Course}
variable {places : Label → Option Nat} {ps : List CodePiece}

/-- An error that is noted leaves the types alone. -/
theorem types_check (ctx : Context) (e : Option Error) : (ctx.check e).types = ctx.types := by
  cases e <;> rfl

/-- Bytes that are written change nothing of the stretches. -/
theorem stretched_emit (hs : m.flow.Stretched h types size c) (b : Bytes) : (m.emit b).flow.Stretched h types size c :=
  hs

/-- The padding of a switch changes nothing of the stretches. -/
theorem stretched_emitAligned (hs : m.flow.Stretched h types size c) (op : UInt8) :
    (m.emitAligned op).flow.Stretched h types size c :=
  hs

theorem stretched_reference (hs : m.flow.Stretched h types size c) (l : Label) (origin : Nat) (wide : Bool) :
    (m.reference l origin wide).flow.Stretched h types size c :=
  hs.putReference l origin m.code wide

theorem stretched_references (hs : m.flow.Stretched h types size c) (origin : Nat) (labels : List Label) :
    (m.references origin labels).flow.Stretched h types size c := by
  unfold MethodDraft.references
  induction labels generalizing m with
  | nil => exact hs
  | cons l rest ih => exact ih (stretched_reference hs l origin true)

theorem stretched_cases (hs : m.flow.Stretched h types size c) (origin : Nat) (cases : List (Int32 × Label)) :
    (cases.foldl (fun (m : MethodDraft) (key, label) => (m.emit (Bytes.ofInt32 key)).reference label origin true)
      m).flow.Stretched h types size c := by
  induction cases generalizing m with
  | nil => exact hs
  | cons item rest ih => exact ih (stretched_reference (stretched_emit hs (Bytes.ofInt32 item.1)) item.2 origin true)

theorem stretched_writeJump (hs : m.flow.Stretched h types size c) (op : UInt8) (l : Label) (far : Bool) :
    (m.writeJump op l far).flow.Stretched h types size c := by
  unfold MethodDraft.writeJump
  split
  · dsimp only
    split
    · exact stretched_reference (m := (m.emit _).emit _) hs l _ true
    · exact stretched_reference (m := m.emit _) hs l _ true
  · exact stretched_reference (m := m.emit _) hs l _ false

/-- Every instruction makes the code longer. -/
theorem size_lt_instruction (ctx : Context) (hlaid : m.Laid places ps) (i : Instruction) :
    m.code.size < (m.instruction ctx i).2.code.size := by
  have hwritten := (hlaid.instruction ctx i).size_eq
  have hpos := i.totalSize_pieces_pos (i.operand ctx.pool).1 (m.isFar i) m.code.size
  rw [CodePiece.totalSize_append, ← hlaid.size_eq] at hwritten
  omega

/-- A method that moves a local has one more instruction in its last stretch. -/
theorem stretched_moveLocal (hs : m.flow.Stretched h ctx.types m.code.size c) (hlaid : m.Laid places ps) (op : UInt8)
    (slot : UInt16) :
    ∃ block next, (MethodDraft.moveLocal ctx m op slot).2.flow.Stretched h (MethodDraft.moveLocal ctx m op slot).1.types
      (MethodDraft.moveLocal ctx m op slot).2.code.size
      (c.follow m.code.size (MethodDraft.moveLocal ctx m op slot).2.code.size block next
        (m.splits (.moveLocal op slot)) false
        (.moveLocal op slot)) := by
  have hused : (m.useLocals (slot.toNat + if Opcode.movesWide op then 2 else 1)).Laid places ps := hlaid
  have hmoved := (hused.emit (moveLocalBytes op slot)).advance
    (f := fun flow position => flow.moveLocal op slot.toNat position)
    (ControlFlow.neutral_moveLocal _ hlaid.labelled op slot.toNat _)
  have hsize : m.code.size < (m.code ++ moveLocalBytes op slot).size := by
    have hpos := (Instruction.moveLocal op slot).totalSize_pieces_pos 0 false 0
    simp only [Instruction.pieces, CodePiece.totalSize, List.map_cons, List.map_nil, List.sum_cons,
      List.sum_nil, CodePiece.size] at hpos
    rw [Array.size_append]
    omega
  obtain ⟨block, next, hfollowed⟩ := hs.moveLocal op slot hsize false
  rw [moveLocal_eq]
  have hflow : (((m.useLocals (slot.toNat + if Opcode.movesWide op then 2 else 1)).emit (moveLocalBytes op slot)).advance
      fun flow position => flow.moveLocal op slot.toNat position).flow =
        m.flow.moveLocal op slot.toNat (m.code ++ moveLocalBytes op slot).size := rfl
  have hcode : (((m.useLocals (slot.toNat + if Opcode.movesWide op then 2 else 1)).emit (moveLocalBytes op slot)).advance
      fun flow position => flow.moveLocal op slot.toNat position).code = m.code ++ moveLocalBytes op slot := rfl
  have hhandlers : (((m.useLocals (slot.toNat + if Opcode.movesWide op then 2 else 1)).emit (moveLocalBytes op slot)).advance
      fun flow position => flow.moveLocal op slot.toNat position).handlers = m.handlers := rfl
  generalize ((m.useLocals (slot.toNat + if Opcode.movesWide op then 2 else 1)).emit (moveLocalBytes op slot)).advance
    (fun flow position => flow.moveLocal op slot.toNat position) = moved at hmoved hflow hcode hhandlers
  have hframed : (moved.flow.analysis == .frames) = true := by
    rw [hflow, hfollowed.framed]
    rfl
  have hsplits : m.splits (.moveLocal op slot) = (decide (op ≥ Opcode.istore) && !m.handlers.isEmpty) := rfl
  dsimp only
  rw [hframed, Bool.and_true, hhandlers, ← hsplits]
  rw [← hflow, ← hcode] at hfollowed
  cases m.splits (.moveLocal op slot) with
  | false =>
    rw [if_neg Bool.false_ne_true]
    exact ⟨block, next, hfollowed⟩
  | true =>
    obtain ⟨hctx, -, hkept⟩ := splitBlock_eq hmoved ctx
    rw [if_pos rfl, hctx, hkept]
    refine ⟨block, moved.flow.blocks.size, ?_⟩
    have hplaced : (moved.flow.split moved.code).1.Stretched h _ moved.code.size _ := hfollowed.split
    unfold Course.follow at hplaced ⊢
    simp only [Instruction.branches, Bool.and_false, Bool.or_false, Bool.false_eq_true, if_false,
      Bool.or_true, if_true] at hplaced ⊢
    exact hplaced

/-- A method that jumps has one more instruction in its last stretch, which may end there. -/
theorem stretched_jump (hs : m.flow.Stretched h ctx.types m.code.size c) (hlaid : m.Laid places ps) (op : UInt8)
    (l : Label) :
    ∃ block next, (MethodDraft.jump ctx m op l).2.flow.Stretched h (MethodDraft.jump ctx m op l).1.types
      (MethodDraft.jump ctx m op l).2.code.size
      (c.follow m.code.size (MethodDraft.jump ctx m op l).2.code.size block next false
        (m.jumpsFar l && (op != Opcode.goto && op != Opcode.jsr)) (.jump op l)) := by
  have hlt : m.code.size < (MethodDraft.jump ctx m op l).2.code.size := size_lt_instruction ctx hlaid (.jump op l)
  have hneutral := m.flow.neutral_jump op l
  have hjumped : ({ m with flow := (m.flow.jump op l).2 } : MethodDraft).Laid places ps :=
    ClassFile.Laid.neutral hlaid hneutral
  obtain ⟨hfollowed, hgoes⟩ := hs.jump op l
  have hfar : ({ m with flow := (m.flow.jump op l).2 } : MethodDraft).jumpsFar l = m.jumpsFar l := by
    unfold MethodDraft.jumpsFar
    rw [hneutral.position l]
  rw [jump_eq] at hlt ⊢
  dsimp only at hlt ⊢
  have hwritten := hjumped.writeJump op l
  rw [hfar] at hlt hwritten ⊢
  generalize m.jumpsFar l = far at hlt hwritten ⊢
  have hstretched := stretched_writeJump (m := { m with flow := (m.flow.jump op l).2 }) hfollowed op l far
  obtain ⟨hctx, -, hcode⟩ := closeJump_eq hwritten ctx op
    (if (m.flow.jump op l).1 then some (far && (op != Opcode.goto && op != Opcode.jsr)) else none)
  rw [hcode] at hlt ⊢
  rw [hctx]
  have hended := (hstretched.write (.jump op l) hlt).endJump (c := c) (far && (op != Opcode.goto && op != Opcode.jsr))
    (Nat.lt_of_le_of_lt hs.within.extent hlt)
  rw [← hgoes] at hended
  exact hended

/-- Taking constants leaves the types alone. -/
theorem types_intern {α : Type} (ctx : Context) (step : Interning α) : (ctx.intern step).2.types = ctx.types := rfl

/-- An instruction whose effect hangs on types is followed by the last stretch. -/
theorem stretched_followed (hs : m.flow.Stretched h ctx.types m.code.size c) (hlaid : m.Laid places ps) {i : Instruction}
    (delta : Int) (hflow : (m.instruction ctx i).2.flow =
      (m.flow.follow ctx.types (fun f types => f.execute types (i.operation m.code.size)) delta).1)
    (htypes : (m.instruction ctx i).1.types =
      (m.flow.follow ctx.types (fun f types => f.execute types (i.operation m.code.size)) delta).2.1)
    (hlabels : i.labels = []) (hends : i.ends = false) (hbranches : i.branches = false) (hsplits : m.splits i = false) :
    ∃ block next, (m.instruction ctx i).2.flow.Stretched h (m.instruction ctx i).1.types (m.instruction ctx i).2.code.size
      (c.follow m.code.size (m.instruction ctx i).2.code.size block next (m.splits i) (m.isFar i && i.conditional) i) := by
  have hexecuted := hs.follow (i.operation m.code.size) delta
  rw [hsplits, hflow, htypes]
  exact hs.straight hlabels hends hbranches hexecuted (size_lt_instruction ctx hlaid i) _

/-- An instruction is recorded in the last stretch. -/
theorem stretched_instruction (hs : m.flow.Stretched h ctx.types m.code.size c) (hlaid : m.Laid places ps)
    (i : Instruction) :
    ∃ block next, (m.instruction ctx i).2.flow.Stretched h (m.instruction ctx i).1.types (m.instruction ctx i).2.code.size
      (c.follow m.code.size (m.instruction ctx i).2.code.size block next (m.splits i) (m.isFar i && i.conditional) i) := by
  have hsize := size_lt_instruction ctx hlaid i
  cases i with
  | bare op => exact hs.bare op hsize false
  | immediate op operand =>
    have hflow : (m.instruction ctx (.immediate op operand)).2.flow = m.flow.immediate op operand := by
      unfold MethodDraft.instruction MethodDraft.immediate
      dsimp only
      split <;> rfl
    rw [hflow]
    exact hs.immediate op operand hsize false
  | moveLocal op slot => exact stretched_moveLocal hs hlaid op slot
  | typed op name =>
    refine stretched_followed hs hlaid (if op == Opcode.newObject then 1 else 0) ?_ ?_ rfl rfl rfl rfl
    · dsimp only [MethodDraft.instruction, MethodDraft.typed, follow_eq]
      rfl
    · dsimp only [MethodDraft.instruction, MethodDraft.typed, follow_eq]
      rw [types_intern, types_check]
      rfl
  | field op owner name descriptor =>
    refine stretched_followed hs hlaid (ControlFlow.fieldDelta op descriptor) ?_ ?_ rfl rfl rfl rfl
    · dsimp only [MethodDraft.instruction, MethodDraft.field, follow_eq]
      rfl
    · dsimp only [MethodDraft.instruction, MethodDraft.field, follow_eq]
      rw [types_intern, types_check]
      rfl
  | invoke op r =>
    refine stretched_followed hs hlaid (ControlFlow.invokeDelta r.descriptor (op == Opcode.invokestatic))
      ?_ ?_ rfl rfl rfl rfl
    · dsimp only [MethodDraft.instruction, MethodDraft.invoke, follow_eq]
      split <;> rfl
    · dsimp only [MethodDraft.instruction, MethodDraft.invoke, follow_eq]
      rw [types_intern, types_check]
      rfl
  | invokeDynamic name descriptor bootstrap arguments =>
    refine stretched_followed hs hlaid (ControlFlow.invokeDelta descriptor true) ?_ ?_ rfl rfl rfl rfl
    · dsimp only [MethodDraft.instruction, MethodDraft.invokeDynamic, follow_eq]
      rfl
    · dsimp only [MethodDraft.instruction, MethodDraft.invokeDynamic, follow_eq]
      rw [types_intern, types_check]
      rfl
  | jump op l => exact stretched_jump hs hlaid op l
  | constant value =>
    have hflow : (m.instruction ctx (.constant value)).2.flow = (m.flow.constant ctx.types value).1 := by
      unfold MethodDraft.instruction MethodDraft.constant
      dsimp only
      split
      · rfl
      · split <;> rfl
    refine stretched_followed hs hlaid (if value.isWide then 2 else 1) hflow ?_ rfl rfl rfl rfl
    dsimp only [MethodDraft.instruction, MethodDraft.constant, follow_eq]
    rw [types_intern, types_check]
    rfl
  | increment slot amount =>
    have hflow : (m.instruction ctx (.increment slot amount)).2.flow = m.flow.mapFrame (·.increment slot.toNat) := by
      unfold MethodDraft.instruction MethodDraft.increment
      dsimp only
      split <;> rfl
    rw [hflow]
    exact hs.straight rfl rfl rfl (hs.mapFrame (o := .increment slot) fun _ _ => rfl) hsize false
  | tableSwitch low high defaultLabel labels =>
    have hdefault := stretched_reference (stretched_emitAligned hs Opcode.tableswitch) defaultLabel m.code.size true
    have hreferred := stretched_references (stretched_emit hdefault (Bytes.ofInt32 low ++ Bytes.ofInt32 high))
      m.code.size labels
    exact hreferred.switch (i := .tableSwitch low high defaultLabel labels) rfl rfl rfl rfl hsize false
  | lookupSwitch defaultLabel keys labels =>
    have hdefault := stretched_reference (stretched_emitAligned hs Opcode.lookupswitch) defaultLabel m.code.size true
    have hreferred := stretched_cases (stretched_emit hdefault (Bytes.ofUInt32 labels.length.toUInt32))
      m.code.size (keys.zip labels)
    exact hreferred.switch (i := .lookupSwitch defaultLabel keys labels) rfl rfl rfl rfl hsize false
  | multiArray descriptor dimensions =>
    refine stretched_followed hs hlaid (1 - dimensions.toNat) ?_ ?_ rfl rfl rfl rfl
    · dsimp only [MethodDraft.instruction, MethodDraft.multiArray, follow_eq]
      rfl
    · dsimp only [MethodDraft.instruction, MethodDraft.multiArray, follow_eq]
      rw [types_intern, types_check]
      rfl

/-- A label is placed: unless it serves debug information only, what stands there is followed. -/
theorem stretched_label (hs : m.flow.Stretched h ctx.types m.code.size c) (hlaid : m.Laid places ps) {l : Label}
    (hnew : places l = none) :
    ∃ block, (m.label ctx l).2.flow.Stretched h (m.label ctx l).1.types
      (m.label ctx l).2.code.size (if l.debug then c else c.place block m.code.size false) := by
  have hsize : (m.label ctx l).2.code.size = m.code.size := by
    obtain ⟨qs, htotal, hplaced⟩ := hlaid.label_late ctx hnew
    rw [hplaced.size_eq, htotal, ← hlaid.size_eq]
  have htypes : (m.label ctx l).1.types = ctx.types := by
    change (MethodDraft.reportOverflow _ ctx _).types = ctx.types
    rw [reportOverflow_eq, types_check]
  have hplaced : (m.flow.label l m.code).1.Stretched h ctx.types m.code.size _ :=
    hs.label ((ClassFile.Laid.placed hlaid l).trans hnew)
  rw [hsize, htypes]
  exact ⟨_, hplaced⟩

end Record

end MethodDraft

/-! ## Runs -/

/-- The stretches after an event, if blocks have these numbers. -/
def Course.record (c : Course) (ctx : Context) (m : MethodDraft) (block next : Nat) : CodeEvent → Course
  | .instruction i =>
    c.follow m.code.size (m.instruction ctx i).2.code.size block next (m.splits i) (m.isFar i && i.conditional) i
  | .label l => if l.debug then c else c.place block m.code.size false
  | _ => c

/-- A method records events in stretches of code, one by one. -/
inductive Course.Run (h : Hierarchy) : Context → MethodDraft → Course → List CodeEvent → Course → Prop where
  | nil {ctx : Context} {m : MethodDraft} {c : Course} (hs : m.flow.Stretched h ctx.types m.code.size c) : Run h ctx m c [] c
  | cons {ctx : Context} {m : MethodDraft} {c c' : Course} {e : CodeEvent} {rest : List CodeEvent}
    (hs : m.flow.Stretched h ctx.types m.code.size c) (block next : Nat)
    (hrest : Run h (m.record ctx e).1 (m.record ctx e).2 (c.record ctx m block next e) rest c') :
    Run h ctx m c (e :: rest) c'

/-- The blocks of a method stand for the stretches of what it has recorded. -/
theorem Course.Run.stretched {h : Hierarchy} {ctx : Context} {m : MethodDraft} {c c' : Course} {es : List CodeEvent}
    (hrun : Course.Run h ctx m c es c') : (m.recordAll ctx es).2.flow.Stretched h (m.recordAll ctx es).1.types
      (m.recordAll ctx es).2.code.size c' := by
  induction hrun with
  | nil hs => exact hs
  | cons _ _ _ _ ih => exact ih

/-- Before the events the flow is cut into the stretches that there were. -/
theorem Course.Run.first {h : Hierarchy} {ctx : Context} {m : MethodDraft} {c c' : Course} {es : List CodeEvent}
    (hrun : Course.Run h ctx m c es c') : m.flow.Stretched h ctx.types m.code.size c := by
  cases hrun with
  | nil hs => exact hs
  | cons hs _ _ _ => exact hs

namespace MethodDraft

section Run

variable {h : Hierarchy} {ctx : Context} {m : MethodDraft} {c : Course} {places : Label → Option Nat} {ps : List CodePiece}

/-- An event is recorded in stretches. -/
theorem stretched_record (hs : m.flow.Stretched h ctx.types m.code.size c) (hlaid : m.Laid places ps) (e : CodeEvent)
    (hnew : ∀ l, e.placed? = some l → places l = none) :
    ∃ block next, (m.record ctx e).2.flow.Stretched h (m.record ctx e).1.types (m.record ctx e).2.code.size
      (c.record ctx m block next e) := by
  cases e with
  | instruction i => exact stretched_instruction hs hlaid i
  | label l =>
    obtain ⟨block, hplaced⟩ := stretched_label hs hlaid (hnew l rfl)
    exact ⟨block, 0, hplaced⟩
  | _ => exact ⟨0, 0, hs⟩

/-- Events that place no label twice are recorded in stretches. -/
theorem run_recordAll {es : List CodeEvent} (hs : m.flow.Stretched h ctx.types m.code.size c) (hlaid : m.Laid places ps)
    (hnodup : (es.filterMap CodeEvent.placed?).Nodup) (hnew : ∀ l ∈ es.filterMap CodeEvent.placed?, places l = none) :
    ∃ c', Course.Run h ctx m c es c' := by
  induction es generalizing ctx m c places ps with
  | nil => exact ⟨c, .nil hs⟩
  | cons e rest ih =>
    obtain ⟨hnodup', hfirst, hnew'⟩ := placed_rest hnodup hnew
    obtain ⟨qs, hrecorded⟩ := hlaid.record_late ctx e hfirst
    obtain ⟨block, next, hnext⟩ := stretched_record hs hlaid e hfirst
    obtain ⟨c', hrun⟩ := ih hnext hrecorded hnodup' hnew'
    exact ⟨c', .cons hs block next hrun⟩

/-- The events of a fresh method are recorded in stretches, the first of which starts at the first block. -/
theorem Fresh.run {es : List CodeEvent} (hfresh : m.Fresh .frames) (hc : TypeTable.Consistent h ctx.types)
    (hnodup : (es.filterMap CodeEvent.placed?).Nodup) : ∃ c', Course.Run h ctx m .start es c' := by
  have hstart := ControlFlow.stretched_start hc
  rw [← hfresh.flow] at hstart
  have hsize : m.code.size = 0 := by
    rw [hfresh.code]
    rfl
  rw [← hsize] at hstart
  exact run_recordAll hstart hfresh.laid hnodup fun _ _ => rfl

end Run

end MethodDraft

end ClassFile
