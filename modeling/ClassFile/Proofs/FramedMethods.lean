import ClassFile.Proofs.ExceptionRanges
import ClassFile.Proofs.MethodReading
import ClassFile.Proofs.SearchedStretches

/-!
# Stack maps of methods

In a method of which frames are computed, jumps, switches and handlers lead to labels of instructions, and code does not go
on behind the last one (`FramedBody`). If its code can be written, then the code that a reader finds has frames wherever a
verifier looks for one (`MethodDraft.codeAttribute_framed`).
-/

namespace ClassFile

/-! ## Bodies -/

namespace CodeEvent

/-- The instruction of an event. -/
def instruction? : CodeEvent → Option Instruction
  | .instruction i => some i
  | _ => none

/-- The handler of an event. -/
def handler? : CodeEvent → Option Handler
  | .tryCatch start stop handler type => some ⟨start, stop, handler, type⟩
  | _ => none

/-- The labels that the instruction of an event or its handler lead to. -/
def targets : CodeEvent → List Label
  | .instruction i => i.labels
  | .tryCatch _ _ handler _ => [handler]
  | _ => []

end CodeEvent

/-- Events of a body whose code does not run off its end: instructions and handlers lead to labels of instructions, and code
does not go on behind the last instruction. -/
structure ClosedBody (es : List CodeEvent) : Prop extends WellFormedBody es where
  inside : ∀ e ∈ es, ∀ l ∈ e.targets, ∃ before after i, es = before ++ .label l :: after ∧ .instruction i ∈ after
  closed : ∃ i, (es.filterMap CodeEvent.instruction?).getLast? = some i ∧ i.ends = true

/-- The instructions of a body whose code does not run off its end do not go on behind the last one. -/
theorem ClosedBody.items_end {es : List CodeEvent} (hbody : ClosedBody es) {items : List (Nat × Instruction)}
    (hitems : items.map (·.2) = es.filterMap CodeEvent.instruction?) :
    items ≠ [] ∧ ∀ x ∈ items.getLast?, x.2.ends = true := by
  obtain ⟨i, hlast, hends⟩ := hbody.closed
  rw [← hitems, List.getLast?_map] at hlast
  obtain ⟨x, hx, rfl⟩ := Option.map_eq_some_iff.1 hlast
  refine ⟨fun hnil => ?_, fun y hy => ?_⟩
  · rw [hnil] at hx
    cases hx
  · rwa [Option.some.inj (hy.symm.trans hx)]

/-- Events of a body of which frames can be computed: nothing leads to a label that serves debug information only. -/
structure FramedBody (es : List CodeEvent) : Prop extends ClosedBody es where
  regular : ∀ e ∈ es, ∀ l ∈ e.targets, l.debug = false

namespace MethodDraft

section Recorded

variable {ctx : Context} {m : MethodDraft} {es : List CodeEvent}

/-! ### Handlers -/

theorem handlers_emit (m : MethodDraft) (b : Bytes) : (m.emit b).handlers = m.handlers :=
  rfl

theorem handlers_emitAligned (m : MethodDraft) (op : UInt8) : (m.emitAligned op).handlers = m.handlers :=
  rfl

theorem handlers_advance (m : MethodDraft) (f : ControlFlow → Nat → ControlFlow) : (m.advance f).handlers = m.handlers :=
  rfl

theorem handlers_reference (m : MethodDraft) (l : Label) (origin : Nat) (wide : Bool) :
    (m.reference l origin wide).handlers = m.handlers :=
  rfl

theorem handlers_references (origin : Nat) (labels : List Label) : (m.references origin labels).handlers = m.handlers := by
  induction labels generalizing m with
  | nil => rfl
  | cons l rest ih => exact ih

theorem handlers_cases (origin : Nat) (cases : List (Int32 × Label)) :
    (cases.foldl (fun (m : MethodDraft) x => (m.emit (Bytes.ofInt32 x.1)).reference x.2 origin true) m).handlers =
    m.handlers := by
  induction cases generalizing m with
  | nil => rfl
  | cons c rest ih => exact ih

theorem handlers_writeJump (m : MethodDraft) (op : UInt8) (l : Label) (far : Bool) :
    (m.writeJump op l far).handlers = m.handlers := by
  unfold writeJump
  dsimp only
  split
  · split <;> rfl
  · rfl

/-- Writing an instruction adds no handlers. -/
theorem handlers_instruction (ctx : Context) (m : MethodDraft) (i : Instruction) :
    (m.instruction ctx i).2.handlers = m.handlers := by
  cases i with
  | bare op => rfl
  | typed op name | field op owner name descriptor | invokeDynamic name descriptor bootstrap arguments
  | multiArray descriptor dimensions =>
    unfold instruction
    dsimp only [typed, field, invokeDynamic, multiArray, follow_eq]
    rfl
  | immediate op operand =>
    unfold instruction immediate
    dsimp only
    split <;> rfl
  | moveLocal op slot =>
    unfold instruction moveLocal
    dsimp only
    split <;> split <;> rfl
  | invoke op r =>
    unfold instruction invoke
    dsimp only
    split <;> rfl
  | jump op l =>
    unfold instruction
    dsimp only
    rw [jump_eq]
    exact handlers_writeJump _ op l _
  | constant value =>
    unfold instruction constant
    dsimp only
    split
    · rfl
    · split <;> rfl
  | increment slot amount =>
    unfold instruction increment
    dsimp only
    split <;> rfl
  | tableSwitch low high defaultLabel labels =>
    simp only [instruction, tableSwitch, handlers_advance, handlers_references, handlers_emit,
      handlers_reference, handlers_emitAligned]
  | lookupSwitch defaultLabel keys labels =>
    simp only [instruction, lookupSwitch, handlers_advance, handlers_cases, handlers_emit,
      handlers_reference, handlers_emitAligned]

/-- A method remembers the handlers of its events. -/
theorem handlers_recordAll (ctx : Context) (m : MethodDraft) (es : List CodeEvent) :
    (m.recordAll ctx es).2.handlers.toList = m.handlers.toList ++ es.filterMap CodeEvent.handler? := by
  induction es generalizing ctx m with
  | nil => exact (List.append_nil _).symm
  | cons e rest ih =>
    change ((m.record ctx e).2.recordAll (m.record ctx e).1 rest).2.handlers.toList = _
    rw [ih]
    cases e with
    | instruction i =>
      rw [show (m.record ctx (.instruction i)).2.handlers = m.handlers from handlers_instruction ctx m i]
      rfl
    | tryCatch start stop handler type =>
      rw [show (m.record ctx (.tryCatch start stop handler type)).2.handlers =
        m.handlers.push ⟨start, stop, handler, type⟩ from rfl, Array.toList_push, List.append_assoc]
      rfl
    | _ => rfl

/-! ### Instructions and labels -/

/-- The instructions that are laid out are those of the events. -/
theorem map_items (ctx : Context) (m : MethodDraft) (es : List CodeEvent) :
    (m.items ctx es).map (·.2) = es.filterMap CodeEvent.instruction? := by
  induction es generalizing ctx m with
  | nil => rfl
  | cons e rest ih =>
    unfold MethodDraft.items
    rw [List.map_append, ih]
    cases e <;> rfl

/-- A label that stands before an instruction is placed inside the code. -/
theorem Fresh.place_lt {analysis : Analysis} (h : m.Fresh analysis) (hnodup : (es.filterMap CodeEvent.placed?).Nodup)
    (hok : (m.recordAll ctx es).1.failure = none) {l : Label} {before after : List CodeEvent} {i : Instruction}
    (hes : es = before ++ .label l :: after) (hi : .instruction i ∈ after) :
    m.place ctx es l < (m.recordAll ctx es).2.code.size := by
  subst hes
  have hsplit := hnodup
  rw [List.filterMap_append] at hsplit
  obtain ⟨hbefore, hrest, hapart⟩ := List.nodup_append.1 hsplit
  rw [place_eq before hnodup]
  rw [recordAll_append] at hok ⊢
  have hlaid := h.laid.recordAll hbefore (fun _ _ => rfl) ((later_recordAll _ _ _).failure hok)
  have hfinal := hlaid.recordAll hrest (fun l' hl' => placesAfter_of_notMem fun hl => hapart l' hl l' hl' rfl) hok
  have hpos := totalSize_emissions_pos (m.recordAll ctx before).1 (m.recordAll ctx before).2
    (List.mem_cons_of_mem (.label l) hi) (m.recordAll ctx before).2.code.size
  have hsize := hfinal.size_eq
  rw [CodePiece.totalSize_append, ← hlaid.size_eq] at hsize
  omega

end Recorded

end MethodDraft

/-! ## Exception tables -/

/-- Every range of an exception table has a handler whose label has been placed. -/
theorem MethodDraft.handler_exceptionTable {blocks : Blocks} {handlers : List Handler} {pool : ConstantPool}
    {r : ExceptionRange} (h : r ∈ (exceptionTable blocks handlers pool).1) :
    ∃ handler ∈ handlers, ∃ p, blocks.position handler.handler = some p ∧ r.handler = p.toUInt16 := by
  induction handlers generalizing pool with
  | nil => exact absurd h List.not_mem_nil
  | cons first rest ih =>
    have hrest : ∀ pool, r ∈ (exceptionTable blocks rest pool).1 →
        ∃ handler ∈ first :: rest, ∃ p, blocks.position handler.handler = some p ∧ r.handler = p.toUInt16 := fun pool h => by
      obtain ⟨handler, hmem, hp⟩ := ih h
      exact ⟨handler, List.mem_cons_of_mem first hmem, hp⟩
    have hcases : exceptionTable blocks (first :: rest) = exceptionTable blocks rest ∨
        ∃ start stop p, blocks.position first.handler = some p ∧ exceptionTable blocks (first :: rest) = do
          let catchType ← first.catchType.mapM ConstantPool.type
          let ranges ← exceptionTable blocks rest
          return ⟨start, stop, p.toUInt16, catchType⟩ :: ranges := by
      conv => enter [1, 1]; unfold exceptionTable
      conv => enter [2, 1, start, 1, stop, 1, p, 2, 1]; unfold exceptionTable
      split
      · rename_i start stop p _ _ hp
        exact Or.inr ⟨_, _, p, hp, rfl⟩
      · exact Or.inl rfl
    rcases hcases with heq | ⟨start, stop, p, hp, heq⟩
    · rw [heq] at h
      exact hrest _ h
    · rw [heq] at h
      rcases List.mem_cons.1 h with rfl | h
      · exact ⟨first, List.mem_cons_self, p, hp, rfl⟩
      · exact hrest _ h

namespace ExceptionRange

/-- What is left of ranges has the handlers of those. -/
theorem handler_removeAll {start stop : UInt16} {ranges : List ExceptionRange} {r : ExceptionRange}
    (h : r ∈ removeAll start stop ranges) :
    ∃ r' ∈ ranges, r.handler = r'.handler := by
  rw [removeAll_eq] at h
  obtain ⟨r', hmem, h⟩ := List.mem_flatMap.1 h
  refine ⟨r', hmem, ?_⟩
  unfold remove at h
  split at h
  · rw [List.mem_singleton.1 h]
  · split at h
    · split at h
      · exact absurd h List.not_mem_nil
      · rw [List.mem_singleton.1 h]
    · split at h
      · rw [List.mem_singleton.1 h]
      · rcases List.mem_cons.1 h with rfl | h
        · rfl
        · rw [List.mem_singleton.1 h]

/-- Taking out unreachable code leaves ranges their handlers. -/
theorem handler_foldl_removeAll {dead : List (Nat × Nat)} {ranges : List ExceptionRange} {r : ExceptionRange}
    (h : r ∈ dead.foldl (fun ranges (start, stop) => removeAll start.toUInt16 stop.toUInt16 ranges) ranges) :
    ∃ r' ∈ ranges, r.handler = r'.handler := by
  induction dead generalizing ranges with
  | nil => exact ⟨r, h, rfl⟩
  | cons range rest ih =>
    obtain ⟨r', hmem, hr⟩ := ih h
    obtain ⟨r'', hmem', hr'⟩ := handler_removeAll hmem
    exact ⟨r'', hmem', hr.trans hr'⟩

end ExceptionRange

/-! ## The code of a method -/

namespace MethodDraft

section Framed

variable {ctx : Context} {m : MethodDraft} {es : List CodeEvent}

/-- Where a label stands that an instruction or a handler of a body leads to. -/
theorem Fresh.position_eq (hfresh : m.Fresh .frames) (hbody : FramedBody es) (hok : (m.recordAll ctx es).1.failure = none)
    {e : CodeEvent} (he : e ∈ es) {l : Label} (hl : l ∈ e.targets) : l.debug = false ∧
      (m.recordAll ctx es).2.flow.blocks.position l = some (m.place ctx es l) ∧
      m.place ctx es l < (m.recordAll ctx es).2.code.size := by
  obtain ⟨before, after, i, hes, hi⟩ := hbody.inside e he l hl
  have hplaced : l ∈ es.filterMap CodeEvent.placed? := List.mem_filterMap.2 ⟨.label l, by rw [hes]; simp, rfl⟩
  have hlaid := hfresh.laid.recordAll hbody.once (fun _ _ => rfl) hok
  exact ⟨hbody.regular e he l hl, (ClassFile.Laid.placed hlaid l).trans (placesAfter_eq_place hplaced),
    hfresh.place_lt hbody.once hok hes hi⟩

/-- A handler that is in the method was told by an event. -/
theorem mem_handlers (hhandlers : m.handlers = #[]) {handler : Handler}
    (h : handler ∈ (m.recordAll ctx es).2.handlers.toList) :
    ∃ e ∈ es, handler.handler ∈ e.targets := by
  rw [handlers_recordAll, hhandlers] at h
  obtain ⟨e, he, hhandler⟩ := List.mem_filterMap.1 h
  refine ⟨e, he, ?_⟩
  cases e with
  | tryCatch start stop target type =>
    obtain rfl := Option.some.inj hhandler
    exact List.mem_singleton_self _
  | _ => cases hhandler

/-- Recording events leaves the classes alone that are known. -/
theorem hierarchy_recordAll (ctx : Context) (m : MethodDraft) (es : List CodeEvent) :
    (m.recordAll ctx es).1.hierarchy = ctx.hierarchy := by
  obtain ⟨pool, types, failure, hcontext⟩ := (recorded_recordAll ctx m es).context
  rw [hcontext]

/-- The flow of what a fresh method has recorded waits for its frames to be computed. -/
theorem Fresh.unsolved (hfresh : m.Fresh .frames) (hc : TypeTable.Consistent ctx.hierarchy ctx.types) (es : List CodeEvent) :
    (m.recordAll ctx es).2.flow.Unsolved ctx.hierarchy (m.recordAll ctx es).1.types := by
  obtain ⟨events, hdriven⟩ := (recorded_recordAll ctx m es).driven
  have hu := (ControlFlow.unsolved_start hc).driveAll events
  rw [← hfresh.flow, hdriven] at hu
  exact hu

/-- Frames of a body that have been computed stand wherever a verifier looks for one in the code
without what is never reached. -/
theorem Fresh.framed (hfresh : m.Fresh .frames) (hhandlers : m.handlers = #[]) (hpool : ctx.pool.Sound)
    (hc : TypeTable.Consistent ctx.hierarchy ctx.types) (hbody : FramedBody es) (hok : (m.recordAll ctx es).1.failure = none)
    (hsize : (m.recordAll ctx es).2.code.size ≤ maxCodeLength) {method : Frame.Method}
    {analysis : FrameAnalysis} {flow : ControlFlow}
    {types : TypeTable} (hframes : (m.recordAll ctx es).2.flow.computeFrames (m.recordAll ctx es).2.handlers.toList method
      (m.recordAll ctx es).2.code.size (m.recordAll ctx es).1.types (m.recordAll ctx es).1.hierarchy =
      (.ok analysis, flow, types)) :
    ∃ items : List (Nat × Instruction), Code.Framed analysis.offsets.tail items ∧
      (∀ handler ∈ (m.recordAll ctx es).2.handlers.toList, ∀ p,
        (m.recordAll ctx es).2.flow.blocks.position handler.handler = some p →
          p < (m.recordAll ctx es).2.code.size ∧ p ∈ analysis.offsets.tail) ∧
      ∀ (view : PoolView) (pool : ConstantPool),
        view.Shows pool → pool.Built → pool.Fits → (m.recordAll ctx es).1.pool.Extends pool →
        Code.FoundAll view 0 (analysis.dead.foldl blank (m.recordAll ctx es).2.code) items := by
  -- the stretches of what has been recorded
  obtain ⟨c, hrun⟩ := hfresh.run hc hbody.once
  have hs := hrun.stretched
  have hregular := hrun.regular hfresh.laid hbody.once (fun _ _ => rfl) hok hsize
    (fun i hi l hl => placesAfter_eq_place (hbody.placed i hi l hl)) (Course.regular_start (m.place ctx es))
  have hitems : c.items = m.items ctx es := hrun.items_eq
  have hposition := fun e (he : e ∈ es) l (hl : l ∈ CodeEvent.targets e) => hfresh.position_eq hbody hok he hl
  have hfound := fun (view : PoolView) (pool : ConstantPool) (hview : view.Shows pool) hp hf hle =>
    hfresh.foundAll hbody.toWellFormedBody hpool hok hsize hview hp hf hle
  have hhandler := fun handler (h : handler ∈ (m.recordAll ctx es).2.handlers.toList) => mem_handlers hhandlers h
  have hmap := map_items ctx m es
  have hmem := fun x (hx : x ∈ m.items ctx es) => mem_of_mem_items hx
  have hu := hfresh.unsolved hc es
  rw [hierarchy_recordAll] at hframes
  simp only [listing_eq, ← hitems] at hfound
  rw [← hitems] at hmap hmem
  generalize m.place ctx es = place at *
  generalize m.recordAll ctx es = r at *
  have hleads : ∀ s ∈ c.all, ∀ l ∈ s.leads,
    l.debug = false ∧ r.2.flow.blocks.position l = some (place l) ∧ place l < r.2.code.size := by
    intro s hsmem l hl
    rw [(hregular.plain s hsmem).leads] at hl
    split at hl
    · obtain ⟨x, hx, hl⟩ := List.mem_flatMap.1 hl
      exact hposition _ (hmem x (List.mem_flatMap.2 ⟨s, hsmem, hx⟩)) l hl
    · exact absurd hl List.not_mem_nil
  have hstart : ∀ handler ∈ r.2.handlers.toList, handler.handler.debug = false ∧
      ∃ p < r.2.code.size, r.2.flow.blocks.position handler.handler = some p := by
    intro handler hh
    obtain ⟨e, he, hl⟩ := hhandler handler hh
    obtain ⟨hdebug, hp, hlt⟩ := hposition e he _ hl
    exact ⟨hdebug, _, hlt, hp⟩
  have hnamed : ∀ handler ∈ r.2.handlers.toList, (r.2.flow.blocks.labels[handler.handler]?).isSome := by
    intro handler hh
    obtain ⟨-, p, -, hp⟩ := hstart handler hh
    obtain ⟨i, hi⟩ := ControlFlow.labels_of_position hp
    exact Option.isSome_iff_exists.2 ⟨i, hi⟩
  obtain ⟨final, he, hoffsets, hdead⟩ := hs.computeFrames hu hnamed hframes
  have hsearched := he.searched hs hregular hleads hstart
  have hrow := hs.row
  have hend := hbody.items_end hmap
  have hframed := hsearched.framed hrow hregular hend.1 hend.2 fun x hx l hl => (hposition _ (hmem x hx) l hl).2.2
  rw [← hoffsets] at hframed
  refine ⟨_, hframed, fun handler hh p hp => ?_, fun view pool hview hp hf hle => ?_⟩
  · obtain ⟨hdebug, p', hlt, hp'⟩ := hstart handler hh
    obtain rfl := Option.some.inj (hp.symm.trans hp')
    obtain ⟨i, hi⟩ := ControlFlow.labels_of_position hp
    obtain ⟨s, hsmem, hblock, hsstart, -⟩ := hs.placed hi hdebug hp
    have htarget : s.targetIn final = true := by
      unfold Stretch.targetIn
      rw [hblock]
      exact he.marks handler hh i hi
    refine ⟨hlt, ?_⟩
    rw [hoffsets, ← hsstart]
    exact Course.mem_frames_of_target hsmem ((hrow.body_ne_iff s hsmem).2 (hsstart ▸ hlt)) fun _ => htarget
  · have hall := hfound view pool hview hp hf hle
    have hlost : ∀ s ∈ c.all, s.lost (·.reachedIn final) = true → s.start < r.2.code.size := fun s hsmem hl =>
      (hrow.body_ne_iff s hsmem).1 (Stretch.body_ne_of_lost hl)
    have hlistings : (c.items.flatMap fun x => x.2.decoded place x.1) = c.all.flatMap (Stretch.listing place) := by
      unfold Course.items
      rw [List.flatMap_assoc]
      rfl
    rw [hlistings] at hall
    have hblanked := hrow.foundAll_blanked hlost hall
    rwa [← hdead, Array.foldl_toList] at hblanked

/-- What frames that have been computed come to: the code without what is never reached, the
exception table and the stack map. -/
def framedResult (m : MethodDraft) (version : Version) (exceptions : List ExceptionRange) (types : TypeTable)
    (pool : ConstantPool) (analysis : FrameAnalysis) : CodeResult :=
  ⟨analysis.maxStack, analysis.dead.foldl blank m.code,
    analysis.dead.foldl (fun ranges (start, stop) =>
      ExceptionRange.removeAll start.toUInt16 stop.toUInt16 ranges) exceptions,
    (stackMapContent version types analysis.frames.toList pool).1⟩

/-- What frames come to has no handlers but those that there were. -/
theorem handler_framedResult {version : Version} {exceptions : List ExceptionRange} {types : TypeTable} {pool : ConstantPool}
    {analysis : FrameAnalysis} {range : ExceptionRange}
    (h : range ∈ (m.framedResult version exceptions types pool analysis).exceptions) :
    ∃ r ∈ exceptions, range.handler = r.handler := by
  unfold framedResult at h
  dsimp only at h
  rw [← Array.foldl_toList] at h
  exact ExceptionRange.handler_foldl_removeAll h

/-- The analysis of a method of which frames are computed, whatever has been put into the pool before. -/
theorem analysed_frames (ctx : Context) (hframes : m.flow.analysis = .frames) (pool : ConstantPool)
    (exceptions : List ExceptionRange) :
    let r := m.flow.computeFrames m.handlers.toList (m.frameMethod ctx) m.code.size ctx.types ctx.hierarchy
    (m.analysed { ctx with pool } exceptions).1 = r.1.map (m.framedResult ctx.version exceptions r.2.2 pool) := by
  have hmethod : m.frameMethod { ctx with pool } = m.frameMethod ctx := rfl
  unfold analysed framedCode
  rw [hframes, hmethod]
  dsimp only
  generalize m.flow.computeFrames m.handlers.toList (m.frameMethod ctx) m.code.size ctx.types ctx.hierarchy = r
  obtain ⟨result, flow, types⟩ := r
  cases result <;> rfl

/-- Where the analysis of a method with frames comes to a result, the frames have been computed and the result is theirs. -/
theorem exists_of_analysed (hframes : m.flow.analysis = .frames) {pool : ConstantPool} {exceptions : List ExceptionRange}
    {result : CodeResult} {ctx₁ : Context} {m₁ : MethodDraft}
    (h : m.analysed { ctx with pool } exceptions = (.ok result, ctx₁, m₁)) :
    ∃ analysis flow types,
      m.flow.computeFrames m.handlers.toList (m.frameMethod ctx) m.code.size ctx.types
        ctx.hierarchy = (.ok analysis, flow, types) ∧
      m.framedResult ctx.version exceptions types pool analysis = result := by
  have hanalysed := m.analysed_frames ctx hframes pool exceptions
  dsimp only at hanalysed
  rw [h] at hanalysed
  generalize m.flow.computeFrames m.handlers.toList (m.frameMethod ctx) m.code.size ctx.types ctx.hierarchy = r at hanalysed
  obtain ⟨found, flow, types⟩ := r
  cases found with
  | error e => cases hanalysed
  | ok analysis => exact ⟨analysis, flow, types, rfl, (Except.ok.inj hanalysed).symm⟩

/-- If frames can be computed of code that is not too long, then the attribute of the code can be written. -/
theorem codeAttribute_ok (hframes : m.flow.analysis = .frames) (hsize : m.code.size ≤ maxCodeLength)
    {analysis : FrameAnalysis} {flow : ControlFlow} {types : TypeTable}
    (hok : m.flow.computeFrames m.handlers.toList (m.frameMethod ctx) m.code.size ctx.types ctx.hierarchy =
      (.ok analysis, flow, types)) :
    ∃ a ctx' m', m.codeAttribute ctx = (.ok a, ctx', m') := by
  rw [codeAttribute_eq, if_neg (Nat.not_lt_of_le hsize), Context.intern_eq]
  have hanalysed := m.analysed_frames ctx hframes (exceptionTable m.flow.blocks m.handlers.toList ctx.pool).2
    (exceptionTable m.flow.blocks m.handlers.toList ctx.pool).1
  dsimp only at hanalysed ⊢
  rw [hok] at hanalysed
  generalize m.analysed _ _ = r at hanalysed
  obtain ⟨result, ctx₁, m₁⟩ := r
  obtain rfl : result = _ := hanalysed
  exact ⟨_, _, _, rfl⟩

/-- The frames of the code of a body stand wherever a verifier looks for one. If the attribute of the code can be
written, then frames have been computed of which this holds (`Code.Framed`), behind the one of the entry; their map
is the stack map of the attribute, and a reader finds the instructions in the code. Every handler of the exception
table is one of their offsets. -/
theorem codeAttribute_framed (hpool : ctx.pool.Sound) (hc : TypeTable.Consistent ctx.hierarchy ctx.types)
    (hfresh : m.Fresh .frames)
    (hhandlers : m.handlers = #[]) (hbody : FramedBody es) (hok : (m.recordAll ctx es).1.failure = none)
    {a : Attribute} {ctx' : Context}
    {m' : MethodDraft} (ha : (m.recordAll ctx es).2.codeAttribute (m.recordAll ctx es).1 = (.ok a, ctx', m')) :
    let r := m.recordAll ctx es
    ∃ (analysis : FrameAnalysis) (flow : ControlFlow) (types : TypeTable) (items : List (Nat × Instruction)),
      r.2.flow.computeFrames r.2.handlers.toList (r.2.frameMethod r.1) r.2.code.size r.1.types
        r.1.hierarchy = (.ok analysis, flow, types) ∧ Code.Framed analysis.offsets.tail items ∧
      ∀ later : ConstantPool, later.Built → ctx'.pool.Extends later → later.Fits → ∃ content : CodeContent,
        a.Says later (.code content) ∧ (∃ tables pool, content.attributes = tables ++
      (stackMapContent r.1.version types analysis.frames.toList pool).1) ∧
        (∀ (view : PoolView) (start : Nat), view.Shows later → view.bytes.HasAt start content.code →
          Code.Decodes view start content.code.size items) ∧
        ∀ range ∈ content.exceptions, range.handler.toNat ∈ analysis.offsets.tail := by
  intro r
  have hlater := later_recordAll ctx m es
  have hsound := (hlater.pool hpool).1
  have hgrown : r.1.pool.Extends ctx'.pool := by
    have hclosing := later_codeAttribute r.1 r.2
    rw [ha] at hclosing
    exact (hclosing.pool hsound).2
  obtain ⟨hsize, result, ctx₁, hanalysed, hsays⟩ := codeAttribute_says r.1 r.2 a ctx' m' ha hsound
  have hmode : r.2.flow.analysis = .frames := by
    rw [(recorded_recordAll ctx m es).driven.analysis, hfresh.flow, ControlFlow.analysis_start]
  rw [Context.intern_eq] at hanalysed
  obtain ⟨analysis, flow, types, hframes, rfl⟩ := exists_of_analysed hmode hanalysed
  obtain ⟨items, hframed, hstarts, hfound⟩ := hfresh.framed hhandlers hpool hc hbody hok hsize hframes
  refine ⟨analysis, flow, types, items, hframes, hframed, fun later hl hle hf => ?_⟩
  obtain ⟨content, hcontent, ha⟩ := hsays later hl hle hf
  obtain ⟨tables, htables⟩ := hcontent.stackMap
  refine ⟨content, ha, ⟨tables, _, htables⟩, fun view start hview hat => ?_, fun range hrange => ?_⟩
  · have hfinal := hfound view later hview hl hf (hgrown.trans hle)
    have hcode : content.code = analysis.dead.foldl blank r.2.code := hcontent.code
    rw [hcode] at hat ⊢
    refine hfinal.decodes (fun item hitem l hlabel => ?_) hat
    obtain ⟨offset, -, hl⟩ := hframed.targets item hitem l hlabel
    exact ⟨offset, hl⟩
  · rw [hcontent.exceptions] at hrange
    obtain ⟨first, hfirst, hsame⟩ := handler_framedResult hrange
    obtain ⟨handler, hmem, p, hp, hhandler⟩ := handler_exceptionTable hfirst
    obtain ⟨hlt, ho⟩ := hstarts handler hmem p hp
    have hlt : p < r.2.code.size := hlt
    have hp' : p.toUInt16.toNat = p := by
      unfold maxCodeLength at hsize
      rw [UInt16.toNat_ofNat']
      omega
    rw [hsame, hhandler, hp']
    exact ho

end Framed

/-! ### A loop -/

/-- The label of the loop, which may serve debug information only. -/
def spinLabel (debug : Bool) : Label :=
  ⟨0, debug⟩

/-- A loop behind one instruction. -/
def spinBody (debug : Bool) : List CodeEvent :=
  [.instruction (.bare 0), .label (spinLabel debug), .instruction (.bare 0),
    .instruction (.jump Opcode.goto (spinLabel debug))]

def spinContext : Context :=
  { pool := .empty, hierarchy := .empty, policy := .frames, source := none }

def spinMethod : MethodDraft :=
  { access := 9, name := "f", descriptor := "()V", nameIndex := 1, descriptorIndex := 2, signature := none, exceptions := []
    flow := .start .frames, maxLocals := 0 }

/-- The flow before the loop, with the frame of its block. -/
def spinStart (f : Frame) : ControlFlow :=
  { analysis := .frames, blocks := ⟨#[{ pushed := true, resolved := true, frame := some f }], ∅⟩
    first := 0, current := some 0, previous := some 0, height := 0, peak := 0 }

/-- The flow in the loop, with the frame of its block. A label that serves debug information only starts no block. -/
def spinFlow (debug : Bool) (f : Frame) : ControlFlow :=
  { analysis := .frames
    blocks := ⟨if debug then
        #[{ pushed := true, resolved := true, frame := some f },
        { debug := true, resolved := true, position := 1, owner := 1 }]
      else
        #[{ pushed := true, resolved := true, successor := some 1, edges := #[⟨.normal 0, 1⟩], frame := some .empty },
          { resolved := true, position := 1, owner := 1, frame := some f }],
          (∅ : Std.HashMap Label Nat).insert (spinLabel debug) 1⟩
    first := 0, current := some (if debug then 0 else 1), previous := some (if debug then 0 else 1), height := 0, peak := 0 }

/-- The flow behind the loop, with what has been found out of its blocks. -/
def spinEnd (debug found : Bool) (input f : Frame) : ControlFlow :=
  let behind : Block := { resolved := true, position := 5, owner := 2, frame := some .empty }
  { analysis := .frames
    blocks := ⟨if debug then
        #[{ pushed := true, resolved := true, reachable := found, successor := some 2
            edges := #[⟨.normal 0, 1⟩], frame := some f },
          { debug := true, resolved := true, target := true, position := 1, owner := 1 }, behind]
      else
        #[{ pushed := true, resolved := true, reachable := found, successor := some 1
            edges := #[⟨.normal 0, 1⟩], frame := some input },
          { resolved := true, target := true, store := found, reachable := found, position := 1, owner := 1
            successor := some 2, edges := #[⟨.normal 0, 1⟩], frame := some f }, behind],
      (∅ : Std.HashMap Label Nat).insert (spinLabel debug) 1⟩
    first := 0, current := none, previous := some 2, height := 0, peak := 0 }

theorem bare_nop : Frame.empty.bare 0 = Frame.empty := by
  decide +kernel

theorem jump_goto : Frame.empty.jump Opcode.goto = Frame.empty := by
  decide +kernel

/-- The first instruction of the loop method is written at the front. -/
theorem record_spinFirst (ctx : Context) : spinMethod.record ctx (.instruction (.bare 0)) =
    (ctx, { spinMethod with code := #[0], flow := spinStart .empty }) := by
  have hflow : (ControlFlow.start .frames).bare 0 1 = spinStart (Frame.empty.bare 0) := rfl
  change (ctx, { spinMethod with code := #[0], flow := (ControlFlow.start .frames).bare 0 1 }) = _
  rw [hflow, bare_nop]

/-- The label of the loop starts a block, unless it serves debug information only. -/
theorem record_spinLabel (ctx : Context) (debug : Bool) :
    MethodDraft.record ctx { spinMethod with code := #[0], flow := spinStart .empty } (.label (spinLabel debug)) =
      (ctx, { spinMethod with code := #[0], flow := spinFlow debug .empty }) := by
  have hlabel : (spinStart .empty).label (spinLabel debug) #[0] = (spinFlow debug .empty, #[0], none) := by
    rw [ControlFlow.label, ControlFlow.index_new Std.HashMap.getElem?_empty]
    cases debug <;> rfl
  change (MethodDraft.reportOverflow _ ctx ((spinStart .empty).label (spinLabel debug) #[0]).2.2,
    { spinMethod with code := ((spinStart .empty).label (spinLabel debug) #[0]).2.1
                      flow := ((spinStart .empty).label (spinLabel debug) #[0]).1 }) = _
  rw [hlabel]
  rfl

/-- The instruction of the loop is written behind the label. -/
theorem record_spinNop (ctx : Context) (debug : Bool) :
    MethodDraft.record ctx { spinMethod with code := #[0], flow := spinFlow debug .empty } (.instruction (.bare 0)) =
      (ctx, { spinMethod with code := #[0, 0], flow := spinFlow debug .empty }) := by
  have hflow : (spinFlow debug .empty).bare 0 2 = spinFlow debug (Frame.empty.bare 0) := by
    cases debug <;> rfl
  change (ctx, { spinMethod with code := #[0, 0], flow := (spinFlow debug .empty).bare 0 2 }) = _
  rw [hflow, bare_nop]

/-- The flow at the jump, with the edge of its block. -/
def spinJumped (debug : Bool) (f : Frame) : ControlFlow :=
  ((spinFlow debug f).markTarget 1).addEdge (.normal 0) 1

/-- The jump closes the loop. -/
theorem record_spinJump (ctx : Context) (debug : Bool) :
    MethodDraft.record ctx { spinMethod with code := #[0, 0], flow := spinFlow debug .empty }
      (.instruction (.jump Opcode.goto (spinLabel debug))) =
        (ctx, { spinMethod with code := #[0, 0, 167, 255, 255], flow := spinEnd debug false .empty .empty }) := by
  have hlabel : ∀ f, (spinFlow debug f).blocks.labels[spinLabel debug]? = some 1 := fun f => Std.HashMap.getElem?_insert_self
  have hlabel' : (spinJumped debug .empty).blocks.labels[spinLabel debug]? = some 1 := hlabel .empty
  have hjump : (spinFlow debug .empty).jump Opcode.goto (spinLabel debug) =
    (false, spinJumped debug (Frame.empty.jump Opcode.goto)) := by
    rw [ControlFlow.jump, ControlFlow.index_known (hlabel _)]
    cases debug <;> rfl
  have hnear : MethodDraft.jumpsFar { spinMethod with code := #[0, 0], flow := spinJumped debug .empty }
    (spinLabel debug) = false := by
    unfold MethodDraft.jumpsFar Blocks.position
    dsimp only
    rw [hlabel']
    cases debug <;> rfl
  have hput : (spinJumped debug .empty).putReference (spinLabel debug) 2 #[0, 0, 167] false =
    (spinJumped debug .empty, #[0, 0, 167, 255, 255]) := by
    unfold ControlFlow.putReference Blocks.putReference Blocks.index
    dsimp only
    rw [hlabel']
    cases debug
    · refine Prod.ext ?_ ?_
      · rfl
      · decide +kernel
    · rfl
  have hwritten : MethodDraft.writeJump { spinMethod with code := #[0, 0], flow := spinJumped debug .empty }
    Opcode.goto (spinLabel debug) false =
      { spinMethod with code := #[0, 0, 167, 255, 255], flow := spinJumped debug .empty } := by
    change { spinMethod with code := ((spinJumped debug .empty).putReference (spinLabel debug) 2 #[0, 0, 167] false).2
                             flow := ((spinJumped debug .empty).putReference (spinLabel debug) 2 #[0, 0, 167] false).1 } = _
    rw [hput]
  change MethodDraft.jump ctx { spinMethod with code := #[0, 0], flow := spinFlow debug .empty }
    Opcode.goto (spinLabel debug) = _
  rw [MethodDraft.jump_eq]
  dsimp only
  rw [hjump, jump_goto, hnear, hwritten]
  cases debug <;> rfl

/-- The events of the loop leave its three instructions and its flow. -/
theorem record_spin (ctx : Context) (debug : Bool) : spinMethod.recordAll ctx (spinBody debug) =
    (ctx, { spinMethod with code := #[0, 0, 167, 255, 255], flow := spinEnd debug false .empty .empty }) := by
  unfold spinBody MethodDraft.recordAll
  rw [record_spinFirst]
  unfold MethodDraft.recordAll
  rw [record_spinLabel]
  unfold MethodDraft.recordAll
  rw [record_spinNop]
  unfold MethodDraft.recordAll
  rw [record_spinJump]
  rfl

/-- What is found out about the loop: there is a frame at its start, unless its label serves debug information only. -/
def spinAnalysis (debug : Bool) : FrameAnalysis :=
  ⟨0, if debug then #[⟨0, #[], #[]⟩] else #[⟨0, #[], #[]⟩, ⟨1, #[], #[]⟩], #[]⟩

def spinInput : Frame :=
  { entered := true }

/-- A block that is entered with the method, which has no parameters and no locals. -/
theorem enter_spin (f : Frame) (types : TypeTable) : f.enter types (spinMethod.frameMethod spinContext) =
    ({ f with locals := #[], stack := #[], entered := true }, types, none) := by
  have hparameters : Descriptor.parameterTypes "()V" = [] := by
    have hchars : "()V".toList.drop 1 = [')', 'V'] := by decide
    rw [Descriptor.parameterTypes, hchars]
    simp [Descriptor.parameterChars]
  unfold Frame.enter
  rw [show (spinMethod.frameMethod spinContext).descriptor = "()V" from rfl, hparameters]
  rfl

/-- The search reaches both blocks of the loop. -/
theorem computeFrames_spin (debug : Bool) :
    (spinEnd debug false .empty .empty).computeFrames [] (spinMethod.frameMethod spinContext) 5 .empty .empty =
    (.ok (spinAnalysis debug), spinEnd debug true spinInput spinInput, .empty) := by
  have hentered : (spinEnd debug false .empty .empty).enterFirst .empty (spinMethod.frameMethod spinContext) =
      ((spinEnd debug false .empty .empty).enteredWith spinInput, spinInput, .empty, none) := by
    have hframe : ((spinEnd debug false .empty .empty).blocks.get (spinEnd debug false .empty .empty).first).frame.getD
      Frame.empty = .empty := by
      cases debug <;> rfl
    rw [ControlFlow.enterFirst_eq, hframe, enter_spin]
    rfl
  unfold ControlFlow.computeFrames
  rw [List.foldl_nil]
  dsimp only
  rw [hentered]
  cases debug
  · rfl
  · rfl

/-- The loop method starts with nothing written. -/
theorem fresh_spin : spinMethod.Fresh .frames :=
  ⟨rfl, rfl, rfl⟩

/-- The code of the loop does not run off its end. -/
theorem closed_spin (debug : Bool) : ClosedBody (spinBody debug) := by
  have hnop : Opcode.layout 0 = .bare := by decide +kernel
  have hgoto : Opcode.layout Opcode.goto = .jump := by decide +kernel
  have hjumps : ∀ i, .instruction i ∈ spinBody debug → i = .bare 0 ∨ i = .jump Opcode.goto (spinLabel debug) := by
    intro i hi
    simpa [spinBody] using hi
  have htargets : ∀ e ∈ spinBody debug, ∀ l ∈ e.targets, l = spinLabel debug := by
    intro e he l hl
    simp only [spinBody, List.mem_cons, List.not_mem_nil, or_false] at he
    rcases he with rfl | rfl | rfl | rfl
    · exact absurd hl List.not_mem_nil
    · exact absurd hl List.not_mem_nil
    · exact absurd hl List.not_mem_nil
    · exact List.mem_singleton.1 hl
  refine ⟨⟨fun i hi => ?_, ?_, fun i hi l hl => ?_⟩, fun e he l hl => ?_, ⟨_, rfl, by rfl⟩⟩
  · rcases hjumps i hi with rfl | rfl
    · exact hnop
    · exact hgoto
  · cases debug <;> decide
  · obtain rfl := htargets _ hi l hl
    exact List.mem_singleton.2 rfl
  · obtain rfl := htargets e he l hl
    exact ⟨[.instruction (.bare 0)], _, .bare 0, rfl, List.mem_cons_self⟩

/-- The code of the loop is written without an error. -/
theorem codeAttribute_spin (debug : Bool) : ∃ a ctx' m',
    (spinMethod.recordAll spinContext (spinBody debug)).2.codeAttribute
      (spinMethod.recordAll spinContext (spinBody debug)).1 =
      (.ok a, ctx', m') := by
  rw [record_spin]
  exact codeAttribute_ok rfl (show 5 ≤ maxCodeLength by decide) (computeFrames_spin debug)

/-- The loop has a frame where its jump leads. -/
theorem codeAttribute_framed_spin :
    FramedBody (spinBody false) ∧ ∃ items : List (Nat × Instruction), Code.Framed [1] items := by
  have hbody : FramedBody (spinBody false) := by
    refine ⟨closed_spin false, fun e he l hl => ?_⟩
    simp only [spinBody, List.mem_cons, List.not_mem_nil, or_false] at he
    rcases he with rfl | rfl | rfl | rfl
    · exact absurd hl List.not_mem_nil
    · exact absurd hl List.not_mem_nil
    · exact absurd hl List.not_mem_nil
    · obtain rfl := List.mem_singleton.1 hl
      rfl
  obtain ⟨a, ctx', m', ha⟩ := codeAttribute_spin false
  have hok : (spinMethod.recordAll spinContext (spinBody false)).1.failure = none := by
    rw [record_spin]
    rfl
  obtain ⟨analysis, flow, types, items, hframes, hframed, -⟩ :=
    codeAttribute_framed ConstantPool.sound_empty (TypeTable.consistent_empty _) fresh_spin rfl hbody hok ha
  rw [record_spin] at hframes
  have hsame := hframes.symm.trans (computeFrames_spin false)
  obtain rfl := Except.ok.inj (Prod.mk.inj hsame).1
  exact ⟨hbody, items, hframed⟩

/-- The same loop has no frame where its jump leads if its label serves debug information only, since
such a label starts no block. -/
theorem codeAttribute_spin_unframed :
    let r := spinMethod.recordAll spinContext (spinBody true)
    spinContext.pool.Sound ∧ TypeTable.Consistent spinContext.hierarchy spinContext.types ∧ spinMethod.Fresh .frames ∧
    spinMethod.handlers = #[] ∧ ClosedBody (spinBody true) ∧ r.1.failure = none ∧
    (∃ a ctx' m', r.2.codeAttribute r.1 = (.ok a, ctx', m')) ∧
    ∃ (analysis : FrameAnalysis) (flow : ControlFlow) (types : TypeTable) (items : List (Nat × Instruction)),
      r.2.flow.computeFrames r.2.handlers.toList (r.2.frameMethod r.1) r.2.code.size r.1.types
        r.1.hierarchy = (.ok analysis, flow, types) ∧
      (∀ view : PoolView, Code.FoundAll view 0 (analysis.dead.foldl blank r.2.code) items) ∧
      ¬ Code.Framed analysis.offsets.tail items := by
  intro r
  have hr : r = _ := record_spin spinContext true
  have hnop : Opcode.layout 0 = .bare := by decide +kernel
  have hgoto : Opcode.layout Opcode.goto = .jump := by decide +kernel
  refine ⟨ConstantPool.sound_empty, TypeTable.consistent_empty _, fresh_spin, rfl, closed_spin true,
    ?_, codeAttribute_spin true, spinAnalysis true, spinEnd true true spinInput spinInput, .empty,
    [(0, .bare 0), (1, .bare 0), (2, .jump Opcode.goto (.ofOffset 1))], ?_, fun view => ?_, fun hframed => ?_⟩
  · rw [hr]
    rfl
  · rw [hr]
    exact computeFrames_spin true
  · rw [hr]
    have hback := Code.found_jump view 2 1 hgoto (by unfold InReach; omega)
    exact .cons (Code.found_bare hnop) (.cons (Code.found_bare hnop) (.single hback))
  · obtain ⟨offset, hmem, -⟩ := hframed.targets (2, .jump Opcode.goto (.ofOffset 1)) (by simp) (.ofOffset 1)
      (List.mem_singleton.2 rfl)
    exact absurd hmem List.not_mem_nil

end MethodDraft

end ClassFile
