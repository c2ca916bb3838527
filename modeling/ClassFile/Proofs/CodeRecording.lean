import ClassFile.Proofs.CodeEvents
import ClassFile.Proofs.PoolAccounts

/-!
# The code of a method whose events have been recorded

What is written of a list of events is the pieces of their instructions, one after the other (`Emission`), and a label has
its place where the code ended when it was placed. The constant pool only grows meanwhile, and a failure stays
(`Context.Later`), so that a class without a failure has none behind it: every distance fitted.
-/

namespace ClassFile

/-- What writing on does to what the parts of a class share: the pool grows and a failure stays. -/
structure Context.Later (ctx later : Context) : Prop where
  pool : ctx.pool.Sound → later.pool.Sound ∧ ctx.pool.Extends later.pool
  built : ctx.pool.Built → later.pool.Built
  failure : later.failure = none → ctx.failure = none
  source : later.source = ctx.source

namespace Context.Later

variable {ctx ctx' ctx'' : Context}

theorem refl (ctx : Context) : ctx.Later ctx :=
  ⟨fun h => ⟨h, ConstantPool.Extends.refl _⟩, id, id, rfl⟩

theorem trans (h : ctx.Later ctx') (h' : ctx'.Later ctx'') : ctx.Later ctx'' :=
  ⟨fun hs => ⟨(h'.pool (h.pool hs).1).1, (h.pool hs).2.trans (h'.pool (h.pool hs).1).2⟩, fun hb => h'.built (h.built hb),
    fun hf => h.failure (h'.failure hf), h'.source.trans h.source⟩

/-- Only the pool and the failure count. -/
theorem of_eq (hpool : ctx'.pool = ctx.pool) (hfailure : ctx'.failure = ctx.failure) (hsource : ctx'.source = ctx.source) :
    ctx.Later ctx' :=
  ⟨fun h => by rw [hpool]; exact ⟨h, ConstantPool.Extends.refl _⟩, fun h => hpool ▸ h, fun h => hfailure ▸ h, hsource⟩

/-- A failure is noted for good. -/
theorem fail (ctx : Context) (e : Error) : ctx.Later (ctx.fail e) := by
  refine ⟨fun h => ⟨h, ConstantPool.Extends.refl _⟩, id, fun h => ?_, rfl⟩
  unfold Context.fail at h
  cases hf : ctx.failure with
  | none => rfl
  | some e' =>
    rw [hf] at h
    cases h

/-- An error that there may be is noted for good. -/
theorem check (ctx : Context) (e : Option Error) : ctx.Later (ctx.check e) := by
  cases e with
  | none => exact refl ctx
  | some e => exact fail ctx e

/-- Taking constants only lets the pool grow. -/
theorem intern {α : Type} (ctx : Context) {step : Interning α} (h : ConstantPool.Grows step) :
    ctx.Later (ctx.intern step).2 :=
  ⟨h.leads ctx.pool, fun hb => (h.interns.extends hb).1, id, rfl⟩

end Context.Later

namespace Instruction

/-- The operand of an instruction only lets the pool grow. -/
theorem grows_operand (i : Instruction) : ConstantPool.Grows i.operand := by
  cases i with
  | typed op name => exact ConstantPool.grows_type name
  | field op owner name descriptor => exact ConstantPool.grows_fieldRef owner name descriptor
  | invoke op r => exact ConstantPool.grows_methodRef _ _ _ _
  | invokeDynamic name descriptor bootstrap arguments =>
    exact ConstantPool.grows_callSite name descriptor bootstrap arguments
  | constant value => exact ConstantPool.grows_constant value
  | multiArray descriptor dimensions => exact ConstantPool.grows_type descriptor
  | _ => exact ConstantPool.Grows.pure 0

end Instruction

namespace MethodDraft

variable {ctx : Context} {m : MethodDraft} {places : Label → Option Nat} {ps : List CodePiece}

/-- A jump that is too long is noted with the name of the method. -/
theorem reportOverflow_eq (m : MethodDraft) (ctx : Context) (overflow : Option Int) :
    m.reportOverflow ctx overflow = ctx.check (overflow.map fun distance => .jumpTooFar (m.qualifiedName ctx) distance) := by
  cases overflow <;> rfl

/-- An instruction may fail, and of the constant pool it needs its operand. -/
theorem context_instruction (ctx : Context) (m : MethodDraft) (i : Instruction) : ∃ (types : TypeTable) (e : Option Error),
    (m.instruction ctx i).1 = ((({ ctx with types } : Context).check e).intern i.operand).2 := by
  have hfailed : ∀ e : Option Error, ∃ (types : TypeTable) (e' : Option Error),
      ctx.check e = ((({ ctx with types } : Context).check e').intern (pure 0 : Interning PoolIndex)).2 :=
    fun e => ⟨ctx.types, e, rfl⟩
  cases i with
  | typed op name =>
    dsimp only [MethodDraft.instruction, MethodDraft.typed, Instruction.operand, follow_eq]
    exact ⟨_, _, rfl⟩
  | field op owner name descriptor =>
    dsimp only [MethodDraft.instruction, MethodDraft.field, Instruction.operand, follow_eq]
    exact ⟨_, _, rfl⟩
  | invoke op r =>
    dsimp only [MethodDraft.instruction, MethodDraft.invoke, Instruction.operand, follow_eq]
    exact ⟨_, _, rfl⟩
  | invokeDynamic name descriptor bootstrap arguments =>
    dsimp only [MethodDraft.instruction, MethodDraft.invokeDynamic, Instruction.operand, follow_eq]
    exact ⟨_, _, rfl⟩
  | constant value =>
    dsimp only [MethodDraft.instruction, MethodDraft.constant, Instruction.operand, follow_eq]
    exact ⟨_, _, rfl⟩
  | multiArray descriptor dimensions =>
    dsimp only [MethodDraft.instruction, MethodDraft.multiArray, Instruction.operand, follow_eq]
    exact ⟨_, _, rfl⟩
  | moveLocal op slot =>
    unfold MethodDraft.instruction Instruction.operand
    dsimp only
    rw [moveLocal_eq]
    generalize ((m.useLocals (slot.toNat + if Opcode.movesWide op then 2 else 1)).emit (moveLocalBytes op slot)).advance
      (fun flow position => flow.moveLocal op slot.toNat position) = moved
    dsimp only
    split
    · unfold splitBlock
      dsimp only
      rw [reportOverflow_eq]
      exact hfailed _
    · exact hfailed none
  | jump op label =>
    unfold MethodDraft.instruction Instruction.operand
    dsimp only
    rw [jump_eq]
    unfold closeJump
    dsimp only
    rw [reportOverflow_eq]
    exact hfailed _
  | bare op | immediate op operand | increment slot amount | tableSwitch low high defaultLabel labels
  | lookupSwitch defaultLabel keys labels =>
    unfold MethodDraft.instruction Instruction.operand
    exact hfailed none

/-- An instruction takes its operand from the pool and nothing else. -/
theorem pool_instruction (ctx : Context) (m : MethodDraft) (i : Instruction) :
    (m.instruction ctx i).1.pool = (i.operand ctx.pool).2 := by
  obtain ⟨types, e, hctx⟩ := context_instruction ctx m i
  rw [hctx]
  cases e <;> rfl

/-- Writing an instruction goes on with what the parts of a class share. -/
theorem later_instruction (ctx : Context) (m : MethodDraft) (i : Instruction) : ctx.Later (m.instruction ctx i).1 := by
  obtain ⟨types, e, hctx⟩ := context_instruction ctx m i
  rw [hctx]
  have htyped : ctx.Later { ctx with types } := .of_eq rfl rfl rfl
  exact (htyped.trans (.check _ e)).trans (.intern _ i.grows_operand)

/-- Recording an event goes on with what the parts of a class share. -/
theorem later_record (ctx : Context) (m : MethodDraft) (e : CodeEvent) : ctx.Later (m.record ctx e).1 := by
  cases e with
  | instruction i => exact later_instruction ctx m i
  | label l =>
    change ctx.Later (MethodDraft.reportOverflow _ ctx _)
    rw [reportOverflow_eq]
    exact .check ctx _
  | localVariable name descriptor signature start stop slot =>
    have hgrows : ConstantPool.Grows (do
        let name ← ConstantPool.utf8 name
        let descriptor ← ConstantPool.utf8 descriptor
        let signature ← signature.mapM ConstantPool.utf8
        return { name, descriptor, signature, start, stop, slot : PendingLocal }) :=
      (ConstantPool.grows_utf8 name).bind fun _ => (ConstantPool.grows_utf8 descriptor).bind fun _ =>
        (ConstantPool.Grows.optionMapM ConstantPool.grows_utf8 signature).bind fun _ => ConstantPool.Grows.pure _
    exact .intern ctx hgrows
  | tryCatch start stop handler type | lineNumber line start | maxStack height => exact .refl ctx

theorem later_recordAll (ctx : Context) (m : MethodDraft) (es : List CodeEvent) : ctx.Later (m.recordAll ctx es).1 := by
  induction es generalizing ctx m with
  | nil => exact .refl ctx
  | cons e rest ih => exact (later_record ctx m e).trans (ih _ _)

end MethodDraft

/-! ## Runs -/

/-- An instruction as it is written: with the index of its operand, and whether it jumps too far back for two bytes. -/
structure Emission where
  instruction : Instruction
  index : PoolIndex
  far : Bool

/-- An instruction at an offset, in pieces. -/
def Emission.pieces (offset : Nat) (e : Emission) : List CodePiece :=
  e.instruction.pieces e.index e.far offset

/-- Instructions from an offset on, in pieces. -/
def Emission.allPieces (offset : Nat) : List Emission → List CodePiece
  | [] => []
  | e :: rest => e.pieces offset ++ allPieces (offset + CodePiece.totalSize (e.pieces offset)) rest

/-- Instructions behind others start where these end. -/
theorem Emission.allPieces_append (offset : Nat) (es fs : List Emission) :
    Emission.allPieces offset (es ++ fs) =
      Emission.allPieces offset es ++ Emission.allPieces
        (offset + CodePiece.totalSize (Emission.allPieces offset es)) fs := by
  induction es generalizing offset with
  | nil => rfl
  | cons e rest ih => simp [Emission.allPieces, ih, Nat.add_assoc]

/-- The label that an event places. -/
def CodeEvent.placed? : CodeEvent → Option Label
  | label l => some l
  | _ => none

namespace MethodDraft

/-- What is written of an event. -/
def emission (ctx : Context) (m : MethodDraft) : CodeEvent → List Emission
  | .instruction i => [⟨i, (i.operand ctx.pool).1, m.isFar i⟩]
  | _ => []

/-- What is written of events, one by one. -/
def emissions (ctx : Context) (m : MethodDraft) : List CodeEvent → List Emission
  | [] => []
  | e :: rest => m.emission ctx e ++ emissions (m.record ctx e).1 (m.record ctx e).2 rest

/-- The place of a label once events have been recorded. -/
def placesAfter (ctx : Context) (m : MethodDraft) (places : Label → Option Nat) : List CodeEvent → Label → Option Nat
  | [] => places
  | e :: rest => placesAfter (m.record ctx e).1 (m.record ctx e).2
      (fun l => if e.placed? = some l then some m.code.size else places l) rest

variable {ctx : Context} {m : MethodDraft} {places : Label → Option Nat} {ps : List CodePiece}

/-- The code is as long as its pieces. -/
theorem Laid.size_eq (h : m.Laid places ps) : m.code.size = CodePiece.totalSize ps :=
  ClassFile.Laid.size h

/-- A label is placed, if all distances to it fit. -/
theorem Laid.label (h : m.Laid places ps) {l : Label} (hnew : places l = none) (hok : (m.label ctx l).1.failure = none) :
    (m.label ctx l).2.Laid (fun l' => if l = l' then some m.code.size else places l') ps := by
  have hfits : (m.flow.label l m.code).2.2 = none := by
    change (MethodDraft.reportOverflow _ ctx (m.flow.label l m.code).2.2).failure = none at hok
    cases hover : (m.flow.label l m.code).2.2 with
    | none => rfl
    | some distance =>
      rw [hover] at hok
      unfold MethodDraft.reportOverflow Context.fail at hok
      cases hf : ctx.failure <;> rw [hf] at hok <;> cases hok
  have hplaced := ControlFlow.laid_label h hnew hfits
  simp only [eq_comm (b := l)] at hplaced
  exact hplaced

/-- An event is recorded. -/
theorem Laid.record (h : m.Laid places ps) (e : CodeEvent) (hnew : ∀ l, e.placed? = some l → places l = none)
    (hok : (m.record ctx e).1.failure = none) :
    (m.record ctx e).2.Laid (fun l => if e.placed? = some l then some m.code.size else places l)
      (ps ++ Emission.allPieces m.code.size (m.emission ctx e)) := by
  have hquiet : ∀ m' : MethodDraft, m'.flow = m.flow → m'.code = m.code →
      m'.Laid (fun l => if none = some l then some m.code.size else places l) (ps ++ []) := by
    intro m' hflow hcode
    unfold MethodDraft.Laid
    rw [hflow, hcode, List.append_nil]
    exact h
  cases e with
  | instruction i =>
    have hwritten := h.instruction ctx i
    change (m.instruction ctx i).2.Laid places _
    simpa [emission, Emission.allPieces, Emission.pieces] using hwritten
  | label l =>
    have hplaced := h.label (hnew l rfl) hok
    change (m.label ctx l).2.Laid (fun l' => if some l = some l' then some m.code.size else places l') (ps ++ [])
    simpa using hplaced
  | localVariable name descriptor signature start stop slot => exact hquiet _ rfl rfl
  | tryCatch start stop handler type => exact hquiet _ rfl rfl
  | lineNumber line start => exact hquiet _ rfl rfl
  | maxStack height => exact hquiet _ rfl rfl

/-- When the first of several events is recorded, which place no label twice, those of the others still have no place. -/
theorem placed_rest {e : CodeEvent} {rest : List CodeEvent} {position : Nat}
    (hnodup : ((e :: rest).filterMap CodeEvent.placed?).Nodup)
    (hnew : ∀ l ∈ (e :: rest).filterMap CodeEvent.placed?, places l = none) :
    (rest.filterMap CodeEvent.placed?).Nodup ∧ (∀ l, e.placed? = some l → places l = none) ∧
      ∀ l ∈ rest.filterMap CodeEvent.placed?, (if e.placed? = some l then some position else places l) = none := by
  have hrest : (rest.filterMap CodeEvent.placed?).Nodup ∧ ∀ l ∈ rest.filterMap CodeEvent.placed?, e.placed? ≠ some l := by
    rw [List.filterMap_cons] at hnodup
    split at hnodup
    · rename_i hnone
      exact ⟨hnodup, fun l _ hl => nomatch hnone.symm.trans hl⟩
    · rename_i l' hl'
      obtain ⟨hnot, hnodup⟩ := List.nodup_cons.1 hnodup
      refine ⟨hnodup, fun l hl he => hnot ?_⟩
      obtain rfl := Option.some.inj (hl'.symm.trans he)
      exact hl
  refine ⟨hrest.1, fun l hl => hnew l (List.mem_filterMap.2 ⟨e, List.mem_cons_self, hl⟩), fun l hl => ?_⟩
  rw [if_neg (hrest.2 l hl)]
  obtain ⟨x, hx, hxl⟩ := List.mem_filterMap.1 hl
  exact hnew l (List.mem_filterMap.2 ⟨x, List.mem_cons_of_mem e hx, hxl⟩)

/-- The first of several events is recorded, which place no label twice. -/
theorem Laid.recordFirst (h : m.Laid places ps) {e : CodeEvent} {rest : List CodeEvent}
    (hnodup : ((e :: rest).filterMap CodeEvent.placed?).Nodup)
    (hnew : ∀ l ∈ (e :: rest).filterMap CodeEvent.placed?, places l = none)
    (hok : (m.recordAll ctx (e :: rest)).1.failure = none) :
    (rest.filterMap CodeEvent.placed?).Nodup ∧
      (∀ l ∈ rest.filterMap CodeEvent.placed?, (if e.placed? = some l then some m.code.size else places l) = none) ∧
      (m.record ctx e).2.Laid (fun l => if e.placed? = some l then some m.code.size else places l)
        (ps ++ Emission.allPieces m.code.size (m.emission ctx e)) := by
  obtain ⟨hrest, hfirst, hnew'⟩ := placed_rest hnodup hnew
  exact ⟨hrest, hnew', h.record e hfirst ((later_recordAll _ _ rest).failure hok)⟩

/-- What is written of an event stands behind what was written before. -/
theorem Laid.size_record (h : m.Laid places ps) {e : CodeEvent} {places' : Label → Option Nat}
    (h' : (m.record ctx e).2.Laid places' (ps ++ Emission.allPieces m.code.size (m.emission ctx e))) :
    (m.record ctx e).2.code.size = m.code.size +
      CodePiece.totalSize (Emission.allPieces m.code.size (m.emission ctx e)) := by
  rw [h'.size_eq, CodePiece.totalSize_append, ← h.size_eq]

/-- Events are recorded, which place no label twice. -/
theorem Laid.recordAll (h : m.Laid places ps) {es : List CodeEvent} (hnodup : (es.filterMap CodeEvent.placed?).Nodup)
    (hnew : ∀ l ∈ es.filterMap CodeEvent.placed?, places l = none) (hok : (m.recordAll ctx es).1.failure = none) :
    (m.recordAll ctx es).2.Laid (m.placesAfter ctx places es)
      (ps ++ Emission.allPieces m.code.size (m.emissions ctx es)) := by
  induction es generalizing ctx m places ps with
  | nil => simpa [MethodDraft.recordAll, placesAfter, emissions, Emission.allPieces] using h
  | cons e rest ih =>
    obtain ⟨hnodup', hnew', hrecorded⟩ := h.recordFirst hnodup hnew hok
    have := ih hrecorded hnodup' hnew' hok
    rw [h.size_record hrecorded] at this
    simpa [MethodDraft.recordAll, placesAfter, emissions, Emission.allPieces_append] using this

/-- The index of every instruction names its operand from then on. -/
theorem named_emissions {later : ConstantPool} (hl : later.Built) (hf : later.Fits) (es : List CodeEvent)
    (hs : ctx.pool.Sound)
    (hle : (m.recordAll ctx es).1.pool.Extends later) : ∀ e ∈ m.emissions ctx es, e.instruction.Named later e.index := by
  induction es generalizing ctx m with
  | nil => exact fun e he => absurd he List.not_mem_nil
  | cons e rest ih =>
    obtain ⟨hs', hgrown⟩ := (later_record ctx m e).pool hs
    have hle' := ((later_recordAll _ _ rest).pool hs').2.trans hle
    intro em hem
    rcases List.mem_append.1 hem with hem | hem
    · cases e with
      | instruction i =>
        obtain rfl := List.mem_singleton.1 hem
        refine (i.ensures_operand ctx.pool hs.built).2.2 later hl ?_ hf
        have hpool : (m.record ctx (.instruction i)).1.pool = (i.operand ctx.pool).2 := pool_instruction ctx m i
        rwa [hpool] at hle'
      | _ => cases hem
    · exact ih hs' hle em hem

end MethodDraft

end ClassFile
