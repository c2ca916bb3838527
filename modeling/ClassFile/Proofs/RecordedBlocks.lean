import ClassFile.Proofs.BlockOrder
import ClassFile.Proofs.StoredLocals
import Mathlib.Data.List.TakeWhile

/-!
# The blocks of recorded code

What a method records keeps its blocks in the order of the code (`MethodDraft.grown_recordAll`), so that a walk along them
comes to an end and finds every block once (`Blocks.chainFrom_eq`). Where frames are computed the walk finds all blocks that
have been placed and own themselves, and those between two labels are the ones whose code lies between them. Where only the
stack height is computed it finds the first block and those of the labels, as they were placed
(`MethodDraft.blocks_recordAll`). Labels that serve debug information only have blocks that own themselves too, and no walk
finds them (`MethodDraft.not_visits_noted`).
-/

namespace ClassFile

/-! ## Walks -/

namespace Blocks

/-- Each block of the list is followed by the next one, and the last by none. -/
structure Linked (blocks : Blocks) (line : List Nat) : Prop where
  next : line.IsChain fun i j => (blocks.get i).successor = some j
  last : ∀ i ∈ line.getLast?, (blocks.get i).successor = none

variable {blocks : Blocks} {i : Nat} {rest : List Nat}

/-- The end of a chain of blocks is one. -/
theorem Linked.of_append (before : List Nat) (h : blocks.Linked (before ++ i :: rest)) : blocks.Linked (i :: rest) :=
  ⟨(List.isChain_append.1 h.next).2.1, fun j hj =>
    h.last j (by rw [List.getLast?_append_of_ne_nil _ (List.cons_ne_nil i rest)]; exact hj)⟩

/-- A walk along linked blocks finds those before the one at which it stops. -/
theorem chainFrom_eq (h : blocks.Linked (i :: rest)) (stop : Option Nat) {fuel : Nat} (hfuel : rest.length < fuel) :
    blocks.chainFrom stop fuel i = (i :: rest).takeWhile fun k => stop ≠ some k := by
  induction rest generalizing i fuel with
  | nil =>
    obtain ⟨n, rfl⟩ : ∃ n, fuel = n + 1 := ⟨fuel - 1, by omega⟩
    rw [chainFrom, List.takeWhile_cons, h.last i rfl]
    by_cases hstop : stop = some i
    · simp [hstop]
    · simp [hstop]
  | cons j rest ih =>
    obtain ⟨n, rfl⟩ : ∃ n, fuel = n + 1 := ⟨fuel - 1, by omega⟩
    have hnext : (blocks.get i).successor = some j := (List.isChain_cons_cons.1 h.next).1
    have hfuel' : rest.length < n := by simpa using hfuel
    have hrest := ih (Linked.of_append [i] h) hfuel'
    rw [chainFrom, List.takeWhile_cons, hnext]
    by_cases hstop : stop = some i
    · simp [hstop]
    · simp only [hstop, if_false, ne_eq, not_false_eq_true, decide_true, if_true]
      exact congrArg (i :: ·) hrest

end Blocks

namespace ControlFlow

variable {flow : ControlFlow} {size : Nat} {line before rest : List Nat} {i : Nat}

/-- The blocks that start code are linked in its order. -/
theorem Lined.blocks_linked (h : flow.Lined size line) : flow.blocks.Linked line :=
  ⟨h.linked.imp fun _ _ hleads => hleads.successor, h.last⟩

/-- There are no more blocks on the line than there are. -/
theorem Lined.length_le (h : flow.Lined size line) : line.length ≤ flow.blocks.size := by
  have hle := (List.Nodup.subperm h.nodup fun i hi => List.mem_range.2 (h.heads i hi).lt).length_le
  rwa [List.length_range] at hle

/-- A walk that starts on the line finds what follows there up to its end. -/
theorem Lined.chainFrom_eq (h : flow.Lined size (before ++ i :: rest)) (stop : Option Nat) {fuel : Nat}
    (hfuel : flow.blocks.size ≤ fuel) :
    flow.blocks.chainFrom stop fuel i = (i :: rest).takeWhile fun k => stop ≠ some k := by
  refine Blocks.chainFrom_eq (h.blocks_linked.of_append before) stop ?_
  have := h.length_le
  rw [List.length_append, List.length_cons] at this
  omega

/-- A walk along the blocks finds the line, if it goes far enough. -/
theorem Lined.chain_eq (h : flow.Lined size line) {fuel : Nat} (hfuel : flow.blocks.size ≤ fuel) :
    flow.blocks.chainFrom none fuel flow.first = line := by
  obtain ⟨rest, rfl⟩ := List.head?_eq_some_iff.1 h.head
  have hline : flow.Lined size ([] ++ flow.first :: rest) := h
  rw [hline.chainFrom_eq none hfuel]
  exact List.takeWhile_eq_self_iff.2 fun _ _ => rfl

/-- The line starts with the first block. -/
theorem lined_start (analysis : Analysis) : (start analysis).Lined 0 [0] := by
  have hblocks : (start analysis).blocks.size = 1 ∧ ((start analysis).blocks.get 0).debug = false ∧
      ((start analysis).blocks.get 0).resolved = true ∧ (start analysis).blocks.owner 0 = 0 ∧
      ((start analysis).blocks.get 0).position = 0 ∧ ((start analysis).blocks.get 0).successor = none ∧
      (start analysis).blocks.labels = ∅ := by
    cases analysis <;> exact ⟨rfl, rfl, rfl, rfl, rfl, rfl, rfl⟩
  have hflow : (start analysis).first = 0 ∧ (start analysis).previous = some 0 ∧ (start analysis).current = some 0 := by
    cases analysis <;> exact ⟨rfl, rfl, rfl⟩
  obtain ⟨hsize, hdebug, hresolved, howner, hposition, hsuccessor, hlabels⟩ := hblocks
  obtain ⟨hfirst, hprevious, hcurrent⟩ := hflow
  have hnone : ∀ (l : Label) (i : Nat), (start analysis).blocks.labels[l]? ≠ some i := fun l i hl => by
    rw [hlabels, Std.HashMap.getElem?_empty] at hl
    cases hl
  refine ⟨by rw [hfirst]; rfl, List.nodup_singleton 0, hprevious,
    fun i hi => by rw [hprevious, ← hi, hcurrent], List.isChain_singleton 0, fun i hi => ?_, fun i hi => ?_, fun i hi hnot => ?_,
    ⟨fun l i hl => absurd hl (hnone l i), fun l _ i hl => absurd hl (hnone l i)⟩,
    fun l i hl => absurd hl (hnone l i)⟩
  · obtain rfl := Option.some.inj hi
    exact hsuccessor
  · rw [List.mem_singleton.1 hi]
    exact ⟨hsize.symm ▸ Nat.one_pos, hdebug, hresolved, howner, Nat.le_of_eq hposition⟩
  · rw [hsize, Nat.lt_one_iff] at hi
    exact absurd (List.mem_singleton.2 hi) hnot

end ControlFlow

/-! ## Recording -/

namespace MethodDraft

section Record

variable {ctx : Context} {m : MethodDraft} {line : List Nat} {places : Label → Option Nat} {ps : List CodePiece}

/-- A distance that is written moves no block. -/
theorem steady_reference (m : MethodDraft) (l : Label) (origin : Nat) (wide : Bool) :
    m.flow.Steady (m.reference l origin wide).flow :=
  m.flow.steady_putReference l origin m.code wide

/-- Distances that are written move no block. -/
theorem steady_references (m : MethodDraft) (origin : Nat) (labels : List Label) :
    m.flow.Steady (m.references origin labels).flow := by
  unfold MethodDraft.references
  induction labels generalizing m with
  | nil => exact .refl m.flow
  | cons l rest ih => exact (m.steady_reference l origin true).trans (ih _)

theorem steady_cases (m : MethodDraft) (origin : Nat) (cases : List (Int32 × Label)) :
    m.flow.Steady (cases.foldl (fun (m : MethodDraft) (key, label) =>
      (m.emit (Bytes.ofInt32 key)).reference label origin true) m).flow := by
  induction cases generalizing m with
  | nil => exact .refl m.flow
  | cons item rest ih => exact (steady_reference (m.emit (Bytes.ofInt32 item.1)) item.2 origin true).trans (ih _)

theorem steady_writeJump (m : MethodDraft) (op : UInt8) (l : Label) (far : Bool) :
    m.flow.Steady (m.writeJump op l far).flow := by
  unfold MethodDraft.writeJump
  split
  · dsimp only
    split
    · exact steady_reference ((m.emit _).emit _) l _ true
    · exact steady_reference (m.emit _) l _ true
  · exact steady_reference (m.emit _) l _ false

/-- A method that moves a local keeps the order of its blocks. -/
theorem grown_moveLocal (h : m.flow.Lined m.code.size line) (hlaid : m.Laid places ps) (op : UInt8) (slot : UInt16) :
    m.flow.Grown (MethodDraft.moveLocal ctx m op slot).2.flow (MethodDraft.moveLocal ctx m op slot).2.code.size line [] := by
  have hused : (m.useLocals (slot.toNat + if Opcode.movesWide op then 2 else 1)).Laid places ps := hlaid
  have hmoved := (hused.emit (moveLocalBytes op slot)).advance
    (f := fun flow position => flow.moveLocal op slot.toNat position)
    (ControlFlow.neutral_moveLocal _ hlaid.labelled op slot.toNat _)
  have hsize : m.code.size < (m.code ++ moveLocalBytes op slot).size := by
    have hpos := (Instruction.moveLocal op slot).totalSize_pieces_pos 0 false 0
    simp only [Instruction.pieces, CodePiece.totalSize, List.map_cons, List.map_nil, List.sum_cons,
      List.sum_nil, CodePiece.size] at hpos
    rw [Array.size_append]
    omega
  have hgrown := h.moveLocal op slot.toNat hsize
  rw [moveLocal_eq]
  have hflow : (((m.useLocals (slot.toNat + if Opcode.movesWide op then 2 else 1)).emit (moveLocalBytes op slot)).advance
      fun flow position => flow.moveLocal op slot.toNat position).flow =
        m.flow.moveLocal op slot.toNat (m.code ++ moveLocalBytes op slot).size := rfl
  have hcode : (((m.useLocals (slot.toNat + if Opcode.movesWide op then 2 else 1)).emit (moveLocalBytes op slot)).advance
      fun flow position => flow.moveLocal op slot.toNat position).code = m.code ++ moveLocalBytes op slot := rfl
  generalize ((m.useLocals (slot.toNat + if Opcode.movesWide op then 2 else 1)).emit (moveLocalBytes op slot)).advance
    (fun flow position => flow.moveLocal op slot.toNat position) = moved at hmoved hflow hcode
  rw [← hflow, ← hcode] at hgrown
  dsimp only
  split
  · rename_i hsplits
    have hframed : moved.flow.analysis = .frames := by
      simp only [Bool.and_eq_true, beq_iff_eq] at hsplits
      exact hsplits.1.2
    rw [(splitBlock_eq hmoved ctx).2.2]
    exact hgrown.trans fun line' hline' => hline'.split hframed
  · exact hgrown

/-- A method that jumps keeps the order of its blocks. -/
theorem grown_jump (h : m.flow.Lined m.code.size line) (hlaid : m.Laid places ps) (op : UInt8) (l : Label) :
    m.flow.Grown (MethodDraft.jump ctx m op l).2.flow (MethodDraft.jump ctx m op l).2.code.size line [] := by
  have hlt : m.code.size < (MethodDraft.jump ctx m op l).2.code.size := size_lt_instruction ctx hlaid (.jump op l)
  have hneutral := m.flow.neutral_jump op l
  have hjumped : ({ m with flow := (m.flow.jump op l).2 } : MethodDraft).Laid places ps :=
    ClassFile.Laid.neutral hlaid hneutral
  have hgoes : (m.flow.jump op l).1 = true → op ≠ Opcode.goto ∧ m.flow.analysis = .frames := by
    unfold ControlFlow.jump
    split
    · dsimp only
      split
      · rename_i hframed
        exact fun hop => ⟨bne_iff_ne.1 hop, (m.flow.steady_index l).analysis ▸ hframed⟩
      · exact fun hf => nomatch hf
    · exact fun hf => nomatch hf
  have hfar : ({ m with flow := (m.flow.jump op l).2 } : MethodDraft).jumpsFar l = m.jumpsFar l := by
    unfold MethodDraft.jumpsFar
    rw [hneutral.position l]
  rw [jump_eq] at hlt ⊢
  dsimp only at hlt ⊢
  have hwritten := hjumped.writeJump op l
  rw [hfar] at hlt hwritten ⊢
  have hs := (m.flow.steady_jump op l).trans (steady_writeJump { m with flow := (m.flow.jump op l).2 } op l (m.jumpsFar l))
  obtain ⟨-, -, hcode⟩ := closeJump_eq hwritten ctx op
    (if (m.flow.jump op l).1 then some (m.jumpsFar l && (op != Opcode.goto && op != Opcode.jsr)) else none)
  rw [hcode] at hlt ⊢
  refine hs.grown ((h.steady hs (Nat.le_refl _)).endJump op _ (fun hnext => ?_) hlt)
  have hfalls : (m.flow.jump op l).1 = true := by
    by_contra hf
    exact hnext (if_neg hf)
  exact ⟨(hgoes hfalls).1, hs.analysis.trans (hgoes hfalls).2⟩

/-- An instruction is recorded in the order of the code. -/
theorem grown_instruction (h : m.flow.Lined m.code.size line) (hlaid : m.Laid places ps) (i : Instruction) :
    m.flow.Grown (m.instruction ctx i).2.flow (m.instruction ctx i).2.code.size line [] := by
  have hsize := size_lt_instruction ctx hlaid i
  have hstays : ∀ {later : ControlFlow}, m.flow.Steady later → (m.instruction ctx i).2.flow = later →
      m.flow.Grown (m.instruction ctx i).2.flow (m.instruction ctx i).2.code.size line [] := by
    rintro later hs rfl
    exact h.stays hs (Nat.le_of_lt hsize)
  cases i with
  | bare op => exact h.bare op hsize
  | immediate op operand =>
    refine hstays (m.flow.steady_immediate op operand) ?_
    unfold MethodDraft.instruction MethodDraft.immediate
    dsimp only
    split <;> rfl
  | moveLocal op slot => exact grown_moveLocal h hlaid op slot
  | typed op name =>
    refine hstays (m.flow.steady_follow ctx.types (fun f types => f.typed types op name m.code.size)
      (if op == Opcode.newObject then 1 else 0)) ?_
    dsimp only [MethodDraft.instruction, MethodDraft.typed, follow_eq]
    rfl
  | field op owner name descriptor =>
    refine hstays (m.flow.steady_follow ctx.types (fun f types => f.field types op descriptor)
      (ControlFlow.fieldDelta op descriptor)) ?_
    dsimp only [MethodDraft.instruction, MethodDraft.field, follow_eq]
    rfl
  | invoke op r =>
    refine hstays (m.flow.steady_follow ctx.types (fun f types => f.invoke types op r.name r.descriptor)
      (ControlFlow.invokeDelta r.descriptor (op == Opcode.invokestatic))) ?_
    dsimp only [MethodDraft.instruction, MethodDraft.invoke, follow_eq]
    split <;> rfl
  | invokeDynamic name descriptor bootstrap arguments =>
    refine hstays (m.flow.steady_follow ctx.types (fun f types => f.invokeDynamic types descriptor)
      (ControlFlow.invokeDelta descriptor true)) ?_
    dsimp only [MethodDraft.instruction, MethodDraft.invokeDynamic, follow_eq]
    rfl
  | jump op l => exact grown_jump h hlaid op l
  | constant value =>
    have hflow : (m.instruction ctx (.constant value)).2.flow = (m.flow.constant ctx.types value).1 := by
      unfold MethodDraft.instruction MethodDraft.constant
      dsimp only
      split
      · rfl
      · split <;> rfl
    exact hstays (m.flow.steady_follow ctx.types (fun f types => f.constant types value) (if value.isWide then 2 else 1))
      hflow
  | increment slot amount =>
    refine hstays (m.flow.steady_mapFrame (·.increment slot.toNat)) ?_
    unfold MethodDraft.instruction MethodDraft.increment
    dsimp only
    split <;> rfl
  | tableSwitch low high defaultLabel labels =>
    let named := (m.emitAligned Opcode.tableswitch).reference defaultLabel m.code.size true
    have hs : m.flow.Steady _ := (steady_reference (m.emitAligned Opcode.tableswitch) defaultLabel m.code.size true).trans
      (steady_references (named.emit (Bytes.ofInt32 low ++ Bytes.ofInt32 high)) m.code.size labels)
    exact hs.grown ((h.steady hs (Nat.le_refl _)).switch defaultLabel labels hsize)
  | lookupSwitch defaultLabel keys labels =>
    let named := (m.emitAligned Opcode.lookupswitch).reference defaultLabel m.code.size true
    have hs : m.flow.Steady _ := (steady_reference (m.emitAligned Opcode.lookupswitch) defaultLabel m.code.size true).trans
      (steady_cases (named.emit (Bytes.ofUInt32 labels.length.toUInt32)) m.code.size (keys.zip labels))
    exact hs.grown ((h.steady hs (Nat.le_refl _)).switch defaultLabel labels hsize)
  | multiArray descriptor dimensions =>
    refine hstays (m.flow.steady_follow ctx.types (fun f types => f.multiArray types descriptor dimensions.toNat)
      (1 - dimensions.toNat)) ?_
    dsimp only [MethodDraft.instruction, MethodDraft.multiArray, follow_eq]
    rfl

/-- An event is recorded in the order of the code. Where only the stack height is computed, its label comes onto the line. -/
theorem grown_record (ctx : Context) (h : m.flow.Lined m.code.size line) (hlaid : m.Laid places ps) (e : CodeEvent)
    (hnew : ∀ l, e.placed? = some l → places l = none) :
    ∃ added, m.flow.Grown (m.record ctx e).2.flow (m.record ctx e).2.code.size line added ∧
      added.map some = (e.placed?.toList.filter fun l => !l.debug).map fun l =>
        (m.record ctx e).2.flow.blocks.labels[l]? := by
  cases e with
  | instruction i => exact ⟨[], grown_instruction h hlaid i, rfl⟩
  | label l =>
    obtain ⟨hplaced, hname⟩ := h.label ((ClassFile.Laid.placed hlaid l).trans (hnew l rfl))
    have hsize : (m.record ctx (.label l)).2.code.size = m.code.size := by
      obtain ⟨qs, htotal, hlabel⟩ := hlaid.label_late ctx (hnew l rfl)
      exact hlabel.size_eq.trans (htotal.trans hlaid.size_eq.symm)
    refine ⟨_, hsize.symm ▸ hplaced, ?_⟩
    have hnamed : (m.record ctx (.label l)).2.flow.blocks.labels[l]? = some (m.flow.index l).1 := hname
    have hlabel : (CodeEvent.label l).placed?.toList = [l] := rfl
    rw [hlabel]
    cases hdebug : l.debug <;> simp [hdebug, hnamed]
  | _ => exact ⟨[], h.stays (.refl m.flow) (Nat.le_refl _), rfl⟩

/-- Events that place no label twice are recorded in the order of the code. Where only the stack height is computed, the
labels that they place come onto the line as they are placed, unless they serve debug information only. -/
theorem lined_recordAll (ctx : Context) {es : List CodeEvent} (h : m.flow.Lined m.code.size line) (hlaid : m.Laid places ps)
    (hnodup : (es.filterMap CodeEvent.placed?).Nodup) (hnew : ∀ l ∈ es.filterMap CodeEvent.placed?, places l = none) :
    ∃ line', (m.recordAll ctx es).2.flow.Lined (m.recordAll ctx es).2.code.size line' ∧
      (m.recordAll ctx es).2.flow.analysis = m.flow.analysis ∧
      (∀ (l : Label) (i : Nat), m.flow.blocks.labels[l]? = some i → (m.recordAll ctx es).2.flow.blocks.labels[l]? = some i) ∧
      (m.flow.analysis = .maxStack → ∃ added, line' = line ++ added ∧
        added.map some = ((es.filterMap CodeEvent.placed?).filter fun l => !l.debug).map fun l =>
          (m.recordAll ctx es).2.flow.blocks.labels[l]?) := by
  induction es generalizing ctx m line places ps with
  | nil => exact ⟨line, h, rfl, fun _ _ hl => hl, fun _ => ⟨[], (List.append_nil line).symm, rfl⟩⟩
  | cons e rest ih =>
    obtain ⟨hnodup', hfirst, hnew'⟩ := placed_rest hnodup hnew
    obtain ⟨qs, hrecorded⟩ := hlaid.record_late ctx e hfirst
    obtain ⟨added, hgrown, hadded⟩ := grown_record ctx h hlaid e hfirst
    obtain ⟨line', hlined, hline⟩ := hgrown.lined
    obtain ⟨line'', hlined', hanalysis, hlabels, hline'⟩ := ih (m.record ctx e).1 hlined hrecorded hnodup' hnew'
    refine ⟨line'', hlined', hanalysis.trans hgrown.analysis, fun l i hl => hlabels l i (hgrown.labels l i hl),
      fun hmeasured => ?_⟩
    obtain ⟨added', rfl, hadded'⟩ := hline' (hgrown.analysis.trans hmeasured)
    refine ⟨added ++ added', by rw [hline hmeasured, List.append_assoc], ?_⟩
    have hplaced : (e :: rest).filterMap CodeEvent.placed? = e.placed?.toList ++ rest.filterMap CodeEvent.placed? := by
      rw [List.filterMap_cons]
      cases e.placed? <;> rfl
    -- the block of the first event's label keeps its number
    have hkept : added.map some = (e.placed?.toList.filter fun l => !l.debug).map fun l =>
        (m.recordAll ctx (e :: rest)).2.flow.blocks.labels[l]? := by
      rw [hadded]
      refine List.map_congr_left fun l hl => ?_
      obtain ⟨i, -, hi⟩ := List.mem_map.1 (hadded ▸ List.mem_map_of_mem hl)
      exact hi.symm.trans (hlabels l i hi.symm).symm
    rw [hplaced, List.map_append, List.filter_append, List.map_append, hkept]
    exact congrArg _ hadded'

/-- Of two labels that are placed one behind the other, the second one stands no earlier. -/
theorem positions_recordAll (ctx : Context) {before between after : List CodeEvent} {start stop : Label}
    (hlaid : m.Laid (fun _ => none) ps)
    (hnodup : ((before ++ .label start :: (between ++ .label stop :: after)).filterMap CodeEvent.placed?).Nodup) :
    ∃ p q, (m.recordAll ctx (before ++ .label start :: (between ++ .label stop :: after))).2.flow.blocks.position start =
      some p ∧
      (m.recordAll ctx (before ++ .label start :: (between ++ .label stop :: after))).2.flow.blocks.position
        stop = some q ∧ p ≤ q := by
  obtain ⟨qs, hall⟩ := hlaid.recordAll_places ctx hnodup fun _ _ => rfl
  have hsplit : before ++ .label start :: (between ++ .label stop :: after) =
      (before ++ .label start :: between) ++ .label stop :: after := by
    rw [List.append_assoc, List.cons_append]
  rw [ClassFile.Laid.placed hall start, ClassFile.Laid.placed hall stop]
  rw [hsplit] at hnodup ⊢
  generalize hfront : before ++ .label start :: between = front at hnodup ⊢
  have hmem : start ∈ front.filterMap CodeEvent.placed? :=
    List.mem_filterMap.2 ⟨.label start, hfront ▸ List.mem_append_right _ List.mem_cons_self, rfl⟩
  rw [List.filterMap_append] at hnodup
  obtain ⟨hbefore, hbehind, hapart⟩ := List.nodup_append.1 hnodup
  obtain ⟨qs', hlaid'⟩ := hlaid.recordAll_places ctx hbefore fun _ _ => rfl
  have hplaced : (m.placesAfter ctx (fun _ => none) front start).isSome = true := placesAfter_of_mem hmem
  obtain ⟨p, hp⟩ := Option.isSome_iff_exists.1 hplaced
  have hstart : start ∉ (CodeEvent.label stop :: after).filterMap CodeEvent.placed? := fun h => hapart start hmem start h rfl
  have hstop : stop ∉ after.filterMap CodeEvent.placed? := (List.nodup_cons.1 hbehind).1
  refine ⟨p, (m.recordAll ctx front).2.code.size, ?_, ?_, ClassFile.Laid.bounded hlaid' start p hp⟩
  · rw [placesAfter_append, placesAfter_of_notMem hstart, hp]
  · rw [placesAfter_append, placesAfter, placesAfter_of_notMem hstop]
    exact if_pos rfl

end Record

end MethodDraft

/-! ## The order of the blocks -/

namespace ControlFlow

/-- The current block is the last one, labels share only blocks that share no other, and a walk along
the blocks comes to an end. -/
structure Ordered (flow : ControlFlow) : Prop where
  current : ∀ i, flow.current = some i → flow.previous = some i
  owners : ∀ (l : Label) (i : Nat), flow.blocks.labels[l]? = some i →
    flow.blocks.owner (flow.blocks.owner i) = flow.blocks.owner i
  ends : ∀ fuel, flow.blocks.size ≤ fuel → flow.blocks.chainFrom none fuel flow.first = flow.blocks.chain flow.first

/-- Where frames are computed, a walk finds the blocks that have been placed and own themselves, in the order of the code and
none twice. Labels that start code share the block that starts where they were placed. Between two of them are the blocks
whose code lies between them. -/
structure FramedOrder (flow : ControlFlow) (es : List CodeEvent) : Prop where
  visits : ∀ i, i ∈ flow.blocks.chain flow.first ↔
    i < flow.blocks.size ∧ (flow.blocks.get i).resolved = true ∧ flow.blocks.owner i = i ∧ (flow.blocks.get i).debug = false
  once : (flow.blocks.chain flow.first).Nodup
  ascends : (flow.blocks.chain flow.first).Pairwise fun i j => (flow.blocks.get i).position < (flow.blocks.get j).position
  shares : ∀ (l : Label) (i : Nat), flow.blocks.labels[l]? = some i → l.debug = false → (flow.blocks.get i).resolved = true →
    (flow.blocks.get (flow.blocks.owner i)).position = (flow.blocks.get i).position
  covers : ∀ before between after start stop, es = before ++ .label start :: (between ++ .label stop :: after) →
    start.debug = false → stop.debug = false →
      ∃ p q, flow.blocks.position start = some p ∧ flow.blocks.position stop = some q ∧
        (flow.coveredBlocks start stop).1 = (flow.blocks.chain flow.first).filter fun i =>
          p ≤ (flow.blocks.get i).position ∧ (flow.blocks.get i).position < q

/-- Where only the stack height is computed, a walk finds the first block and then those of the labels that start
code, as they were placed. Between two of them are the blocks of the labels that were placed from the first one
on and before the second one. -/
structure MeasuredOrder (flow : ControlFlow) (es : List CodeEvent) : Prop where
  visits : (flow.blocks.chain flow.first).map some = some flow.first ::
    ((es.filterMap CodeEvent.placed?).filter fun l => !l.debug).map fun l => flow.blocks.labels[l]?
  once : (flow.blocks.chain flow.first).Nodup
  ascends : (flow.blocks.chain flow.first).Pairwise fun i j => (flow.blocks.get i).position ≤ (flow.blocks.get j).position
  covers : ∀ before between after start stop, es = before ++ .label start :: (between ++ .label stop :: after) →
    start.debug = false → stop.debug = false →
      (flow.coveredBlocks start stop).1.map some =
      ((start :: between.filterMap CodeEvent.placed?).filter fun l => !l.debug).map fun l =>
        flow.blocks.labels[l]?

variable {flow : ControlFlow} {size : Nat} {line : List Nat} {i j : Nat} {l : Label}

/-- A walk along all blocks finds the line. -/
theorem Lined.chain (h : flow.Lined size line) : flow.blocks.chain flow.first = line :=
  h.chain_eq (Nat.le_refl _)

/-- What a label that starts code shares. -/
theorem Lined.placed (h : flow.Lined size line) (hl : flow.blocks.labels[l]? = some i) (hdebug : l.debug = false)
    (hresolved : (flow.blocks.get i).resolved = true) :
    flow.blocks.owner i ∈ line ∧ (flow.blocks.get (flow.blocks.owner i)).position = (flow.blocks.get i).position := by
  by_cases hmem : i ∈ line
  · rw [(h.heads i hmem).owner]
    exact ⟨hmem, rfl⟩
  · exact (h.aside i (h.labelled.bound l i hl) hmem).shared hresolved ((h.debug l i hl).trans hdebug)

/-- Where blocks stand in the order of the code, the flow is in order. -/
theorem Lined.ordered (h : flow.Lined size line) : flow.Ordered := by
  refine ⟨h.current, fun l i hl => ?_, fun fuel hfuel => (h.chain_eq hfuel).trans h.chain.symm⟩
  by_cases hstarts : (flow.blocks.get i).resolved = true ∧ l.debug = false
  · exact (h.heads _ (h.placed hl hstarts.2 hstarts.1).1).owner
  · have hapart : i ∉ line := fun hmem =>
      hstarts ⟨(h.heads i hmem).resolved, (h.debug l i hl).symm.trans (h.heads i hmem).debug⟩
    have hown : flow.blocks.owner i = i := by
      refine (h.aside i (h.labelled.bound l i hl) hapart).own ?_
      rw [h.debug l i hl]
      rw [not_and, Bool.not_eq_false] at hstarts
      exact (Bool.eq_false_or_eq_true _).symm.imp_right hstarts
    rw [hown, hown]

/-- Positions never fall along the line. -/
theorem Lined.pairwise (h : flow.Lined size line) :
    line.Pairwise fun i j => flow.analysis.Orders (flow.blocks.get i).position (flow.blocks.get j).position := by
  have : Trans (fun i j => flow.analysis.Orders (flow.blocks.get i).position (flow.blocks.get j).position)
      (fun i j => flow.analysis.Orders (flow.blocks.get i).position (flow.blocks.get j).position)
      (fun i j => flow.analysis.Orders (flow.blocks.get i).position (flow.blocks.get j).position) := ⟨Analysis.Orders.trans⟩
  exact List.isChain_iff_pairwise.1 (h.linked.imp fun _ _ hleads => hleads.orders)

/-- In an ascending list an item is reached when those below it have been passed. -/
theorem takeWhile_ne_eq_filter {f : Nat → Nat} {xs : List Nat} (h : xs.Pairwise fun a b => f a < f b) (hj : j ∈ xs) :
    (xs.takeWhile fun k => some j ≠ some k) = xs.filter fun k => f k < f j := by
  induction xs with
  | nil => exact absurd hj List.not_mem_nil
  | cons x xs ih =>
    obtain ⟨hx, hxs⟩ := List.pairwise_cons.1 h
    by_cases hjx : j = x
    · subst hjx
      have hnone : xs.filter (fun k => f k < f j) = [] :=
        List.filter_eq_nil_iff.2 fun k hk => by simpa using Nat.le_of_lt (hx k hk)
      simp [hnone]
    · have hmem : j ∈ xs := (List.mem_cons.1 hj).resolve_left hjx
      rw [List.takeWhile_cons_of_pos (by simp [hjx]), List.filter_cons_of_pos (by simpa using hx j hmem), ih hxs hmem]

/-- Where frames are computed, a walk from one block of the line to another one finds those that start in between. -/
theorem Lined.chainFrom_filter (h : flow.Lined size line) (hframed : flow.analysis = .frames) (hi : i ∈ line) (hj : j ∈ line)
    (hle : (flow.blocks.get i).position ≤ (flow.blocks.get j).position) :
    flow.blocks.chainFrom (some j) flow.blocks.size i = line.filter fun k =>
      (flow.blocks.get i).position ≤ (flow.blocks.get k).position ∧
      (flow.blocks.get k).position < (flow.blocks.get j).position := by
  obtain ⟨before, rest, rfl⟩ := List.append_of_mem hi
  have hpairwise := h.pairwise
  rw [hframed] at hpairwise
  obtain ⟨-, hrest, hacross⟩ := List.pairwise_append.1 hpairwise
  have hmem : j ∈ i :: rest := by
    refine (List.mem_append.1 hj).resolve_left fun hmem => ?_
    exact absurd (hacross j hmem i List.mem_cons_self) (Nat.not_lt.2 hle)
  have hbefore : (before.filter fun k => decide ((flow.blocks.get i).position ≤ (flow.blocks.get k).position ∧
      (flow.blocks.get k).position < (flow.blocks.get j).position)) = [] := by
    refine List.filter_eq_nil_iff.2 fun k hk => ?_
    have hlt : (flow.blocks.get k).position < (flow.blocks.get i).position := hacross k hk i List.mem_cons_self
    rw [decide_eq_true_eq]
    omega
  rw [h.chainFrom_eq (some j) (Nat.le_refl _), List.filter_append, hbefore, List.nil_append,
    takeWhile_ne_eq_filter (f := fun k => (flow.blocks.get k).position) hrest hmem]
  refine List.filter_congr fun k hk => ?_
  have hfrom : (flow.blocks.get i).position ≤ (flow.blocks.get k).position := by
    rcases List.mem_cons.1 hk with rfl | hk
    · exact Nat.le_refl _
    · exact Nat.le_of_lt ((List.pairwise_cons.1 hrest).1 k hk)
  simp only [hfrom, true_and]

/-- The blocks of a range lie between those of its labels. -/
theorem coveredBlocks_known {start stop : Label} (hi : flow.blocks.labels[start]? = some i)
    (hj : flow.blocks.labels[stop]? = some j) :
    (flow.coveredBlocks start stop).1 = flow.blocks.chainFrom (some (flow.blocks.owner j)) flow.blocks.size
      (flow.blocks.owner i) := by
  unfold coveredBlocks
  rw [index_known hi]
  dsimp only
  rw [index_known hj]

end ControlFlow

namespace MethodDraft

variable {ctx : Context} {m : MethodDraft} {es : List CodeEvent} {line : List Nat}

/-- Where frames are computed, the blocks come in the order of the code after any events. -/
theorem framedOrder_recordAll (h : (m.recordAll ctx es).2.flow.Lined (m.recordAll ctx es).2.code.size line)
    (hframed : (m.recordAll ctx es).2.flow.analysis = .frames) {ps : List CodePiece} (hlaid : m.Laid (fun _ => none) ps)
    (hnodup : (es.filterMap CodeEvent.placed?).Nodup) : (m.recordAll ctx es).2.flow.FramedOrder es := by
  refine ⟨fun i => ?_, h.chain.symm ▸ h.nodup, ?_, fun l i hl hdebug hresolved => (h.placed hl hdebug hresolved).2, ?_⟩
  · rw [h.chain]
    refine ⟨fun hmem => ?_, fun ⟨hlt, hresolved, howner, hdebug⟩ => ?_⟩
    · have hheads := h.heads i hmem
      exact ⟨hheads.lt, hheads.resolved, hheads.owner, hheads.debug⟩
    · by_contra hapart
      exact hapart (howner ▸ ((h.aside i hlt hapart).shared hresolved hdebug).1)
  · have hpairwise := h.pairwise
    rw [hframed] at hpairwise
    exact h.chain.symm ▸ hpairwise
  · rintro before between after start stop rfl hdebug hdebug'
    obtain ⟨p, q, hp, hq, hle⟩ := positions_recordAll ctx hlaid hnodup
    obtain ⟨i, hi, hresolved, rfl⟩ := Blocks.position_eq_some hp
    obtain ⟨j, hj, hresolved', rfl⟩ := Blocks.position_eq_some hq
    obtain ⟨hmem, hposition⟩ := h.placed hi hdebug hresolved
    obtain ⟨hmem', hposition'⟩ := h.placed hj hdebug' hresolved'
    refine ⟨_, _, hp, hq, ?_⟩
    rw [ControlFlow.coveredBlocks_known hi hj, h.chain,
      h.chainFrom_filter hframed hmem hmem' (by rw [hposition, hposition']; exact hle),
      hposition, hposition']

/-- Where only the stack height is computed, the blocks of the labels come in the order of the code after any events. -/
theorem measuredOrder_recordAll {first : Nat} {added : List Nat}
    (h : (m.recordAll ctx es).2.flow.Lined (m.recordAll ctx es).2.code.size (first :: added))
    (hmeasured : (m.recordAll ctx es).2.flow.analysis = .maxStack)
    (hadded : added.map some = ((es.filterMap CodeEvent.placed?).filter fun l => !l.debug).map fun l =>
      (m.recordAll ctx es).2.flow.blocks.labels[l]?) : (m.recordAll ctx es).2.flow.MeasuredOrder es := by
  refine ⟨?_, h.chain.symm ▸ h.nodup, ?_, ?_⟩
  · rw [h.chain, List.map_cons, hadded]
    exact congrArg (· :: _) h.head
  · have hpairwise := h.pairwise
    rw [hmeasured] at hpairwise
    exact h.chain.symm ▸ hpairwise
  · rintro before between after start stop rfl hdebug hdebug'
    generalize (m.recordAll ctx (before ++ .label start :: (between ++ .label stop :: after))).2 = m' at h hadded ⊢
    have hplaced : (before ++ .label start :: (between ++ .label stop :: after)).filterMap CodeEvent.placed? =
        before.filterMap CodeEvent.placed? ++
          start :: (between.filterMap CodeEvent.placed? ++ stop :: after.filterMap CodeEvent.placed?) := by
      simp [CodeEvent.placed?]
    rw [hplaced] at hadded
    simp only [List.filter_append, List.filter_cons, hdebug, hdebug', Bool.not_false, if_true, List.map_append,
      List.map_cons] at hadded ⊢
    obtain ⟨old, rest, rfl, -, hrest⟩ := List.map_eq_append_iff.1 hadded
    obtain ⟨i, rest, rfl, hi, hrest⟩ := List.map_eq_cons_iff.1 hrest
    obtain ⟨mid, rest, rfl, hmid, hrest⟩ := List.map_eq_append_iff.1 hrest
    obtain ⟨j, new, rfl, hj, -⟩ := List.map_eq_cons_iff.1 hrest
    have hline : first :: (old ++ i :: (mid ++ j :: new)) = (first :: old) ++ i :: (mid ++ j :: new) := rfl
    have hown := (h.heads i (by simp)).owner
    have hown' := (h.heads j (by simp)).owner
    have hapart : ∀ k ∈ i :: mid, j ≠ k := by
      rintro k hk rfl
      have hnodup := (List.nodup_append.1 (hline ▸ h.nodup)).2.1
      rw [← List.cons_append] at hnodup
      exact (List.nodup_append.1 hnodup).2.2 j hk j List.mem_cons_self rfl
    have hwalk := (hline ▸ h).chainFrom_eq (some j) (Nat.le_refl m'.flow.blocks.size)
    rw [← List.cons_append, List.takeWhile_append_of_pos fun k hk => by simpa using hapart k hk,
      List.takeWhile_cons_of_neg (by simp), List.append_nil] at hwalk
    rw [ControlFlow.coveredBlocks_known hi.symm hj.symm, hown, hown', hwalk, List.map_cons, hi, hmid]

/-- What a method records keeps its blocks in the order of the code, whatever jumps and labels there are,
if no label is placed twice. -/
theorem blocks_recordAll {analysis : Analysis} (hfresh : m.Fresh analysis)
    (hnodup : (es.filterMap CodeEvent.placed?).Nodup) :
    (m.recordAll ctx es).2.flow.Ordered ∧
      match analysis with
      | .frames => (m.recordAll ctx es).2.flow.FramedOrder es
      | .maxStack => (m.recordAll ctx es).2.flow.MeasuredOrder es := by
  have hstart := ControlFlow.lined_start analysis
  have hsize : m.code.size = 0 := by
    rw [hfresh.code]
    rfl
  rw [← hfresh.flow, ← hsize] at hstart
  have hmode : m.flow.analysis = analysis := by
    rw [hfresh.flow]
    cases analysis <;> rfl
  obtain ⟨line, hlined, hanalysis, -, hline⟩ := lined_recordAll ctx hstart hfresh.laid hnodup fun _ _ => rfl
  refine ⟨hlined.ordered, ?_⟩
  cases analysis with
  | frames => exact framedOrder_recordAll hlined (hanalysis.trans hmode) hfresh.laid hnodup
  | maxStack =>
    obtain ⟨added, rfl, hadded⟩ := hline hmode
    exact measuredOrder_recordAll hlined (hanalysis.trans hmode) hadded

/-! ### Marked places -/

/-- A method without locals. -/
def plainMethod (analysis : Analysis) : MethodDraft :=
  { spinMethod with flow := .start analysis }

/-- A range that starts with the method and stops at a place that has been marked for debug information. -/
def markedBody : List CodeEvent :=
  [.label ⟨1, false⟩, .instruction (.bare 0), .label (spinLabel true), .label ⟨2, false⟩, .instruction (.bare 177)]

/-- The blocks of the range are in order in both analyses. -/
theorem blocks_recordAll_marked :
    ((plainMethod .frames).Fresh .frames ∧ (plainMethod .maxStack).Fresh .maxStack ∧
      (markedBody.filterMap CodeEvent.placed?).Nodup) ∧
      (((plainMethod .frames).recordAll spinContext markedBody).2.flow.Ordered ∧
        ((plainMethod .frames).recordAll spinContext markedBody).2.flow.FramedOrder markedBody) ∧
      ((plainMethod .maxStack).recordAll spinContext markedBody).2.flow.Ordered ∧
        ((plainMethod .maxStack).recordAll spinContext markedBody).2.flow.MeasuredOrder markedBody := by
  have hframed : (plainMethod .frames).Fresh .frames := ⟨rfl, rfl, rfl⟩
  have hmeasured : (plainMethod .maxStack).Fresh .maxStack := ⟨rfl, rfl, rfl⟩
  have hnodup : (markedBody.filterMap CodeEvent.placed?).Nodup := by decide
  exact ⟨⟨hframed, hmeasured, hnodup⟩, blocks_recordAll hframed hnodup, blocks_recordAll hmeasured hnodup⟩

/-- An instruction in front of a place that has been marked for debug information, and one behind it. -/
def notedBody : List CodeEvent :=
  [.instruction (.bare 0), .label (spinLabel true), .instruction (.bare 177)]

/-- A place marked for debug information starts no block. -/
theorem record_noted (ctx : Context) : (spinMethod.recordAll ctx notedBody).2.flow = (spinFlow true .empty).bare 177 2 := by
  unfold notedBody MethodDraft.recordAll
  rw [record_spinFirst]
  unfold MethodDraft.recordAll
  rw [record_spinLabel]
  rfl

/-- The block of the mark has been placed and owns itself, and no walk finds it. -/
theorem not_visits_noted : spinMethod.Fresh .frames ∧ (notedBody.filterMap CodeEvent.placed?).Nodup ∧
    ¬ ∀ i < (spinMethod.recordAll spinContext notedBody).2.flow.blocks.size,
      ((spinMethod.recordAll spinContext notedBody).2.flow.blocks.get i).resolved = true →
        (spinMethod.recordAll spinContext notedBody).2.flow.blocks.owner i = i →
          i ∈ (spinMethod.recordAll spinContext notedBody).2.flow.blocks.chain
            (spinMethod.recordAll spinContext notedBody).2.flow.first := by
  refine ⟨⟨rfl, rfl, rfl⟩, by decide, ?_⟩
  rw [record_noted]
  have hends : (Opcode.isReturn 177 || (177 : UInt8) == Opcode.athrow) = true := by decide +kernel
  have hflow : (spinFlow true .empty).bare 177 2 = (spinFlow true (Frame.empty.bare 177)).noSuccessor 2 := by
    unfold ControlFlow.bare
    rw [hends, if_pos rfl, if_pos (show (spinFlow true .empty).inBlock = true from rfl)]
    rfl
  rw [hflow]
  intro hall
  have hmem := hall 1 (by decide) rfl rfl
  have hchain : ((spinFlow true (Frame.empty.bare 177)).noSuccessor 2).blocks.chain
      ((spinFlow true (Frame.empty.bare 177)).noSuccessor 2).first = [0, 2] := rfl
  rw [hchain] at hmem
  exact absurd hmem (by decide)

end MethodDraft

end ClassFile
