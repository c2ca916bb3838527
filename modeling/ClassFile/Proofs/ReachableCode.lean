import ClassFile.Proofs.HandledMethods

/-!
# Code that is reached

Where frames are computed, blocks that the search has not reached are replaced (`Blocks.unreached`). Their ranges do not meet
and lie in the code, so that each of them ends up as instructions that do nothing and a throw at its end, and all other bytes
stay (`MethodDraft.getElem?_foldl_blank`). Every instruction that is left is guarded by the handlers that it was given, in
their order, and what has been replaced is guarded by none (`MethodDraft.codeAttribute_keeps_reached`).
-/

namespace ClassFile

/-! ## Ranges of unreachable code -/

/-- The range of a block that has not been reached, if the block is not empty. -/
def Blocks.unreached (size : Nat) (blocks : Blocks) (i : Nat) : Option (Nat × Nat) :=
  let b := blocks.get i
  let stop := (b.successor.map fun next => (blocks.get next).position).getD size
  if !b.reachable && decide (stop > b.position) then some (b.position, stop) else none

namespace ControlFlow

/-- The ranges that an analysis calls unreachable are those of the blocks that the search has not
reached, in the order of the code. -/
theorem dead_of_computeFrames {flow flow' : ControlFlow} {handlers : List Handler} {m : Frame.Method} {size : Nat}
    {types types' : TypeTable} {h : Hierarchy} {analysis : FrameAnalysis}
    (hok : flow.computeFrames handlers m size types h = (.ok analysis, flow', types')) :
    analysis.dead.toList = (flow'.blocks.chain flow'.first).filterMap (Blocks.unreached size flow'.blocks) := by
  have hfold : ∀ (blocks : Blocks) (chain : List Nat) (state : FrameAnalysis × TypeTable),
      (chain.foldl (collectBlock size blocks) state).1.dead.toList =
        state.1.dead.toList ++ chain.filterMap (Blocks.unreached size blocks) := by
    intro blocks chain
    induction chain with
    | nil => exact fun state => (List.append_nil _).symm
    | cons i rest ih =>
      intro state
      rw [List.foldl_cons, ih, (collectBlock_spec size blocks state i).2, List.append_assoc, List.filterMap_cons]
      unfold Blocks.unreached
      dsimp only
      split <;> rfl
  rw [computeFrames_eq] at hok
  generalize flow.prepare handlers m types = r at hok
  obtain ⟨ready, entry, grown, failure⟩ := r
  cases failure with
  | some e => cases hok
  | none =>
    dsimp only at hok
    generalize (ready.beginSearch grown).run h m.className (roundBound h entry.locals.size ready.blocks) = s at hok
    unfold conclude at hok
    split at hok
    · cases hok
    · have hcollected := hfold s.blocks (s.blocks.chain ready.first)
        (⟨s.maxStack, #[⟨0, entry.locals, entry.stack⟩], #[]⟩, s.types)
      simp only [Prod.mk.injEq, Except.ok.injEq] at hok
      obtain ⟨rfl, rfl, -⟩ := hok
      exact hcollected

end ControlFlow

namespace Stretch

variable {lost : Stretch → Bool} {size : Nat} {ss : List Stretch}

/-- Ranges of stretches lie in the code, one behind the other. -/
theorem Row.ranges_spec (hr : Row size ss) (hlost : ∀ s ∈ ss, lost s = true → s.body ≠ []) :
    (∀ range ∈ ranges lost size ss, border size ss ≤ range.1 ∧ range.1 < range.2 ∧ range.2 ≤ size) ∧
      (ranges lost size ss).Pairwise fun a b => a.2 ≤ b.1 := by
  have hbody := hr.body_ne_iff
  induction hr with
  | @last s hw =>
    change (∀ range ∈ (if lost s then [(s.start, size)] else []) ++ [], _) ∧
      List.Pairwise _ ((if lost s then [(s.start, size)] else []) ++ [])
    rw [List.append_nil]
    cases hl : lost s with
    | false => exact ⟨fun range hmem => absurd hmem List.not_mem_nil, .nil⟩
    | true =>
      refine ⟨fun range hmem => ?_, List.pairwise_singleton _ _⟩
      obtain rfl := List.mem_singleton.1 hmem
      exact ⟨Nat.le_refl _, (hbody s List.mem_cons_self).1 (hlost s List.mem_cons_self hl), Nat.le_refl _⟩
  | @cons s next rest hw hlt hrest ih =>
    obtain ⟨hinside, hapart⟩ := ih (fun s hs => hlost s (List.mem_cons_of_mem _ hs)) fun s hs =>
      hbody s (List.mem_cons_of_mem _ hs)
    have hnext := hrest.start_le next List.mem_cons_self
    change (∀ range ∈ (if lost s then [(s.start, next.start)] else []) ++ ranges lost size (next :: rest),
      s.start ≤ range.1 ∧ _) ∧ List.Pairwise _
      ((if lost s then [(s.start, next.start)] else []) ++ ranges lost size (next :: rest))
    have hrest' : ∀ range ∈ ranges lost size (next :: rest),
      s.start ≤ range.1 ∧ range.1 < range.2 ∧ range.2 ≤ size := fun range hmem =>
      ⟨Nat.le_trans (Nat.le_of_lt hlt) (hinside range hmem).1, (hinside range hmem).2⟩
    cases lost s with
    | false => exact ⟨hrest', hapart⟩
    | true =>
      refine ⟨fun range hmem => ?_, List.pairwise_cons.2 ⟨fun range hmem => (hinside range hmem).1, hapart⟩⟩
      rcases List.mem_cons.1 hmem with rfl | hmem
      · exact ⟨Nat.le_refl _, hlt, hnext⟩
      · exact hrest' range hmem

end Stretch

/-! ## Bytes -/

namespace MethodDraft

open ExceptionRange (between inside)

/-- A range that is blanked holds instructions that do nothing and a throw, and all else stays. -/
theorem getElem?_blank (code : Bytes) {range : Nat × Nat} (hlt : range.1 < range.2) (x : Nat) :
    (blank code range)[x]? =
      if between range.1 range.2 x && decide (x < code.size) then
        some (if x + 1 = range.2 then Opcode.athrow else Opcode.nop)
      else code[x]? := by
  obtain ⟨start, stop⟩ := range
  dsimp only at hlt
  have hlength : (List.replicate (stop - 1 - start) Opcode.nop ++ [Opcode.athrow]).length = stop - start := by
    rw [List.length_append, List.length_replicate, List.length_singleton]
    omega
  unfold blank
  dsimp only
  rw [Bytes.getElem?_overwrite, hlength]
  by_cases hin : start ≤ x ∧ x < start + (stop - start) ∧ x < code.size
  · have hbetween : (between start stop x && decide (x < code.size)) = true := by
      rw [Bool.and_eq_true, ExceptionRange.between_iff, decide_eq_true_eq]
      omega
    rw [if_pos hin, if_pos hbetween]
    by_cases hlast : x + 1 = stop
    · rw [if_pos hlast, List.getElem?_append_right (by rw [List.length_replicate]; omega), List.length_replicate,
        show x - start - (stop - 1 - start) = 0 by omega]
      rfl
    · rw [if_neg hlast, List.getElem?_append_left (by rw [List.length_replicate]; omega),
        List.getElem?_replicate, if_pos (by omega)]
  · have hbetween : ¬(between start stop x && decide (x < code.size)) = true := by
      rw [Bool.and_eq_true, ExceptionRange.between_iff, decide_eq_true_eq]
      omega
    rw [if_neg hin, if_neg hbetween]

/-- Blanking a range leaves the size of the code alone. -/
theorem size_blank (code : Bytes) (range : Nat × Nat) : (blank code range).size = code.size :=
  Bytes.size_overwrite _ _ _

/-- Each of several ranges that do not meet is replaced, and all other bytes stay. -/
theorem getElem?_foldl_blank {dead : List (Nat × Nat)} (hin : ∀ range ∈ dead, range.1 < range.2)
    (hapart : dead.Pairwise fun a b => a.2 ≤ b.1) (code : Bytes) :
    (dead.foldl blank code).size = code.size ∧ (∀ x, inside dead x = false → (dead.foldl blank code)[x]? = code[x]?) ∧
      ∀ range ∈ dead, range.2 ≤ code.size → ∀ x, range.1 ≤ x → x < range.2 →
        (dead.foldl blank code)[x]? = some (if x + 1 = range.2 then Opcode.athrow else Opcode.nop) := by
  induction dead generalizing code with
  | nil => exact ⟨rfl, fun _ _ => rfl, fun range hmem => absurd hmem List.not_mem_nil⟩
  | cons first rest ih =>
    obtain ⟨hfirst, hrest⟩ := List.pairwise_cons.1 hapart
    obtain ⟨hsize, hstays, hgone⟩ := ih (fun range hmem => hin range (List.mem_cons_of_mem _ hmem)) hrest (blank code first)
    have hblank := getElem?_blank code (hin first List.mem_cons_self)
    rw [size_blank] at hsize
    rw [List.foldl_cons]
    refine ⟨hsize, fun x hx => ?_, fun range hmem hle x hstart hstop => ?_⟩
    · have hx : (between first.1 first.2 x || inside rest x) = false := hx
      rw [Bool.or_eq_false_iff] at hx
      rw [hstays x hx.2, hblank, hx.1, Bool.false_and, if_neg Bool.false_ne_true]
    · rcases List.mem_cons.1 hmem with rfl | hmem
      · -- the ranges behind the first one do not meet it
        have hlater : inside rest x = false := by
          refine List.any_eq_false.2 fun later hlater => ?_
          rw [ExceptionRange.between_iff]
          have := hfirst later hlater
          omega
        have hbetween : (between range.1 range.2 x && decide (x < code.size)) = true := by
          rw [Bool.and_eq_true, ExceptionRange.between_iff, decide_eq_true_eq]
          omega
        rw [hstays x hlater, hblank, if_pos hbetween]
      · exact hgone range hmem (by rwa [size_blank]) x hstart hstop

end MethodDraft

/-! ## Handlers -/

namespace Handler

/-- Whether a handler whose labels have been placed guards an offset. -/
def guards (blocks : Blocks) (x : Nat) (h : Handler) : Bool :=
  match blocks.position h.start, blocks.position h.stop, blocks.position h.handler with
  | some start, some stop, some _ => ExceptionRange.between start stop x
  | _, _, _ => false

/-- Whether the labels of a handler have been placed. -/
def placed (blocks : Blocks) (h : Handler) : Bool :=
  (blocks.position h.start).isSome && (blocks.position h.stop).isSome && (blocks.position h.handler).isSome

/-- An entry of an exception table sends to a handler what it catches. -/
def Leads (blocks : Blocks) (pool : ConstantPool) (h : Handler) (entry : UInt16 × Option PoolIndex) : Prop :=
  blocks.position h.handler = some entry.1.toNat ∧ Option.Rel (fun name i => pool.HoldsType i name) h.catchType entry.2

/-- A range stands for a handler. -/
structure Stands (blocks : Blocks) (pool : ConstantPool) (h : Handler) (r : ExceptionRange) : Prop where
  start : blocks.position h.start = some r.start.toNat
  stop : blocks.position h.stop = some r.stop.toNat
  leads : h.Leads blocks pool r.entry

variable {blocks : Blocks} {pool : ConstantPool}

/-- A handler guards what the range that stands for it covers. -/
theorem Stands.guards_eq {h : Handler} {r : ExceptionRange} (hs : h.Stands blocks pool r) (x : Nat) :
    h.guards blocks x = r.covers x := by
  unfold guards
  rw [hs.start, hs.stop, hs.leads.1]
  rfl

/-- A handler that guards something has been placed. -/
theorem placed_of_guards {h : Handler} {x : Nat} (hg : h.guards blocks x = true) : h.placed blocks = true := by
  unfold guards at hg
  unfold placed
  split at hg
  · rename_i hstart hstop hhandler
    rw [hstart, hstop, hhandler]
    rfl
  · cases hg

/-- A table says what each handler guards whose labels have been placed. -/
theorem ensures_exceptionTable {blocks : Blocks} (hbound : ∀ l p, blocks.position l = some p → p < 65536)
    (handlers : List Handler) :
    ConstantPool.Ensures (MethodDraft.exceptionTable blocks handlers) fun table later =>
      List.Forall₂ (Stands blocks later) (handlers.filter (placed blocks)) table := by
  have htoNat : ∀ l p, blocks.position l = some p → p.toUInt16.toNat = p :=
    fun l p hp => UInt16.toNat_ofNat_of_lt (hbound l p hp)
  induction handlers with
  | nil => exact (ConstantPool.Ensures.pure []).mono fun _ _ h => h ▸ .nil
  | cons h rest ih =>
    unfold MethodDraft.exceptionTable
    split
    · rename_i start stop p hstart hstop hhandler
      have hplaced : h.placed blocks = true := by
        unfold placed
        rw [hstart, hstop, hhandler]
        rfl
      rw [List.filter_cons_of_pos hplaced]
      refine (ConstantPool.Ensures.optionMapM ConstantPool.ensures_type h.catchType).bind
        (R := fun catchType table later => ∃ ranges,
        table = ⟨start.toUInt16, stop.toUInt16, p.toUInt16, catchType⟩ :: ranges ∧
          List.Forall₂ (Stands blocks later) (rest.filter (placed blocks)) ranges)
        (fun catchType => ih.map fun ranges later hranges => ⟨ranges, rfl, hranges⟩)
          fun catchType table later htype htable => ?_
      obtain ⟨ranges, rfl, hranges⟩ := htable
      refine .cons ⟨?_, ?_, ?_, htype⟩ hranges
      · rw [hstart, htoNat _ _ hstart]
      · rw [hstop, htoNat _ _ hstop]
      · rw [hhandler]
        exact congrArg some (htoNat _ _ hhandler).symm
    · rename_i hmissing
      have hplaced : ¬h.placed blocks = true := by
        unfold placed
        rw [Bool.and_eq_true, Bool.and_eq_true, Option.isSome_iff_exists, Option.isSome_iff_exists, Option.isSome_iff_exists]
        rintro ⟨⟨⟨start, hstart⟩, stop, hstop⟩, p, hhandler⟩
        exact hmissing start stop p hstart hstop hhandler
      rw [List.filter_cons_of_neg hplaced]
      exact ih

/-- Every range of the table stands for some handler. -/
theorem exists_stands {handlers : List Handler} {table : List ExceptionRange}
    (h : List.Forall₂ (Stands blocks pool) handlers table) :
    ∀ r ∈ table, ∃ handler ∈ handlers, handler.Stands blocks pool r := by
  induction h with
  | nil => exact fun r hr => absurd hr List.not_mem_nil
  | cons hs _ ih =>
    intro r hr
    rcases List.mem_cons.1 hr with rfl | hr
    · exact ⟨_, List.mem_cons_self, hs⟩
    · obtain ⟨handler, hmem, hstands⟩ := ih r hr
      exact ⟨handler, List.mem_cons_of_mem _ hmem, hstands⟩

/-- Where ranges stand for handlers, those that are asked at an offset are the handlers that guard it, in their order. -/
theorem forall₂_handlersAt {handlers : List Handler} {table : List ExceptionRange}
    (htable : List.Forall₂ (Stands blocks pool) (handlers.filter (placed blocks)) table) (x : Nat) :
    List.Forall₂ (Leads blocks pool) (handlers.filter (guards blocks x)) (ExceptionRange.handlersAt x table) := by
  have hguards : (handlers.filter (placed blocks)).filter (guards blocks x) = handlers.filter (guards blocks x) := by
    rw [List.filter_filter]
    refine List.filter_congr fun h _ => ?_
    cases hg : h.guards blocks x with
    | false => rfl
    | true => rw [placed_of_guards hg, Bool.and_self]
  rw [← hguards, ExceptionRange.handlersAt, List.forall₂_map_right_iff]
  refine (List.rel_filter (R := Stands blocks pool) (fun h r hs => Bool.eq_iff_iff.1 (hs.guards_eq x)) htable).imp
    fun h r hs => hs.leads

end Handler

/-! ## The code of a method -/

namespace MethodDraft

open ExceptionRange (between inside handlersAt Remains)

variable {ctx : Context} {m : MethodDraft} {es : List CodeEvent}

/-- Where frames have been computed of what a fresh method has recorded, unreachable ranges lie in
the code and do not meet. -/
theorem Fresh.dead_spec (hfresh : m.Fresh .frames) (hc : TypeTable.Consistent ctx.hierarchy ctx.types)
    (hnodup : (es.filterMap CodeEvent.placed?).Nodup) {handlers : List Handler} {method : Frame.Method}
    {analysis : FrameAnalysis}
    {flow : ControlFlow} {types : TypeTable} (hframes : (m.recordAll ctx es).2.flow.computeFrames handlers method
      (m.recordAll ctx es).2.code.size (m.recordAll ctx es).1.types (m.recordAll ctx es).1.hierarchy =
      (.ok analysis, flow, types)) :
    (∀ range ∈ analysis.dead.toList, range.1 < range.2 ∧ range.2 ≤ (m.recordAll ctx es).2.code.size) ∧
      analysis.dead.toList.Pairwise fun a b => a.2 ≤ b.1 := by
  obtain ⟨c, hrun⟩ := hfresh.run hc hnodup
  have hs := hrun.stretched
  rw [hierarchy_recordAll] at hframes
  obtain ⟨final, hdead⟩ := hs.dead_eq (hfresh.unsolved hc es) hframes
  have hlost : ∀ s ∈ c.all, s.lost (·.reachedIn final) = true → s.body ≠ [] := fun s _ => Stretch.body_ne_of_lost
  obtain ⟨hinside, hapart⟩ := hs.row.ranges_spec hlost
  rw [hdead]
  exact ⟨fun range hmem => (hinside range hmem).2, hapart⟩

/-- Labels of a fresh method are placed in its code. -/
theorem Fresh.position_le (hfresh : m.Fresh .frames) (hnodup : (es.filterMap CodeEvent.placed?).Nodup) {l : Label} {p : Nat}
    (hp : (m.recordAll ctx es).2.flow.blocks.position l = some p) : p ≤ (m.recordAll ctx es).2.code.size := by
  obtain ⟨places, qs, hlaid⟩ : ∃ places qs, (m.recordAll ctx es).2.Laid places qs :=
    hfresh.laid.recordAll_late hnodup fun _ _ => rfl
  exact ClassFile.Laid.bounded hlaid l p ((ClassFile.Laid.placed hlaid l).symm.trans hp)

/-- The exception table comes first of what the attribute of the code puts into the pool. -/
theorem later_exceptionTable {a : Attribute} {ctx' : Context} {m' : MethodDraft}
    (ha : m.codeAttribute ctx = (.ok a, ctx', m')) :
    (ctx.intern (exceptionTable m.flow.blocks m.handlers.toList)).2.Later ctx' := by
  rw [codeAttribute_eq] at ha
  split at ha
  · cases ha
  · generalize ctx.intern (exceptionTable m.flow.blocks m.handlers.toList) = r at *
    have hanalysed := later_analysed r.2 m r.1
    dsimp only at ha
    generalize m.analysed r.2 r.1 = analysed at *
    obtain ⟨result, ctx₁, m₁⟩ := analysed
    cases result with
    | error e => cases ha
    | ok result =>
      obtain ⟨-, rfl, -⟩ : (m₁.resultAttribute result ctx₁.pool).1 = a ∧
        (ctx₁.intern (m₁.resultAttribute result)).2 = ctx' ∧ m₁ = m' := by
        simpa [Context.intern_eq] using ha
      exact hanalysed.trans (.intern _ ((grows_internAttributes _).bind fun _ => grows_attribute _))

/-- Code in which unreachable ranges have been replaced, and its exception table: all other bytes are as they were
recorded and guarded by the handlers that guarded them, in their order. The ranges of the table are those of handlers, or
parts of them that are not empty. -/
structure Replaced (m : MethodDraft) (dead : List (Nat × Nat)) (pool : ConstantPool) (content : CodeContent) : Prop where
  size : content.code.size = m.code.size
  kept : ∀ x, inside dead x = false → content.code[x]? = m.code[x]?
  filled : ∀ range ∈ dead, ∀ x, range.1 ≤ x → x < range.2 →
    content.code[x]? = some (if x + 1 = range.2 then Opcode.athrow else Opcode.nop)
  guarded : ∀ x, inside dead x = false → List.Forall₂ (Handler.Leads m.flow.blocks pool)
    (m.handlers.toList.filter (Handler.guards m.flow.blocks x)) (handlersAt x content.exceptions)
  unguarded : ∀ x, inside dead x = true → handlersAt x content.exceptions = []
  proper : ∀ range ∈ content.exceptions, range.start < range.stop ∨
    ∃ handler ∈ m.handlers.toList, handler.Stands m.flow.blocks pool range

/-- Ranges in code of at most 65535 bytes are taken out of it and of its exception table. -/
theorem replaced_of_dead {dead : List (Nat × Nat)} (hdead : ∀ range ∈ dead, range.1 < range.2 ∧ range.2 ≤ m.code.size)
    (hapart : dead.Pairwise fun a b => a.2 ≤ b.1) (hsize : m.code.size < 65536) {pool : ConstantPool}
    {table : List ExceptionRange} (htable : List.Forall₂ (Handler.Stands m.flow.blocks pool)
      (m.handlers.toList.filter (Handler.placed m.flow.blocks)) table)
    {content : CodeContent} (hcode : content.code = dead.foldl blank m.code)
    (hexceptions : content.exceptions = ExceptionRange.removeEach dead table) : m.Replaced dead pool content := by
  have hremains : ∀ r ∈ table, Remains (inside dead) r (ExceptionRange.removeEach dead [r]) := fun r _ =>
    ExceptionRange.remains_removeEach (fun range hmem =>
      ⟨(hdead range hmem).1, Nat.lt_of_le_of_lt (hdead range hmem).2 hsize⟩) r
  obtain ⟨hcodeSize, hkept, hfilled⟩ := getElem?_foldl_blank (fun range hmem => (hdead range hmem).1) hapart m.code
  rw [ExceptionRange.removeEach_eq] at hexceptions
  have hhandlers := fun x => ExceptionRange.handlersAt_flatMap_of_remains hremains x
  rw [← hcode] at hcodeSize hkept hfilled
  refine ⟨hcodeSize, hkept, fun range hmem => hfilled range hmem (hdead range hmem).2, fun x hx => ?_,
    fun x hx => ?_, fun p hp => ?_⟩
  · rw [hexceptions, hhandlers, hx]
    exact Handler.forall₂_handlersAt htable x
  · rw [hexceptions, hhandlers, hx]
    rfl
  · rw [hexceptions] at hp
    obtain ⟨r, hr, hp⟩ := List.mem_flatMap.1 hp
    rcases ((hremains r hr).proper p hp).2 with rfl | ⟨-, hlt, -⟩
    · obtain ⟨handler, hmem, hstands⟩ := Handler.exists_stands htable p hr
      exact Or.inr ⟨handler, List.mem_of_mem_filter hmem, hstands⟩
    · exact Or.inl hlt

/-- The attribute of the code of a method of which frames are computed has unreachable code replaced, and keeps what is
reached. If it can be written, then frames have been computed, the unreachable ranges are those of the blocks that the search
has not reached, none of them is empty or meets another, and they have been taken out of the code and of its exception table
(`Replaced`). A range is taken out of any table by leaving of each of its ranges what is not in it, in their order. -/
theorem codeAttribute_keeps_reached (hpool : ctx.pool.Sound) (hc : TypeTable.Consistent ctx.hierarchy ctx.types)
    (hfresh : m.Fresh .frames)
    (hhandlers : m.handlers = #[]) (hnodup : (es.filterMap CodeEvent.placed?).Nodup) {a : Attribute}
    {ctx' : Context} {m' : MethodDraft}
    (ha : (m.recordAll ctx es).2.codeAttribute (m.recordAll ctx es).1 = (.ok a, ctx', m')) :
    let r := m.recordAll ctx es
    (r.2.handlers.toList = es.filterMap CodeEvent.handler? ∧
      ∃ (analysis : FrameAnalysis) (flow : ControlFlow) (types : TypeTable),
        r.2.flow.computeFrames r.2.handlers.toList (r.2.frameMethod r.1) r.2.code.size r.1.types
          r.1.hierarchy = (.ok analysis, flow, types) ∧
        analysis.dead.toList = (flow.blocks.chain flow.first).filterMap (Blocks.unreached r.2.code.size flow.blocks) ∧
        (∀ range ∈ analysis.dead.toList, range.1 < range.2 ∧ range.2 ≤ r.2.code.size) ∧
        analysis.dead.toList.Pairwise (fun x y => x.2 ≤ y.1) ∧
        ∀ later : ConstantPool, later.Built → ctx'.pool.Extends later → later.Fits →
          ∃ content : CodeContent, a.Says later (.code content) ∧ r.2.Replaced analysis.dead.toList later content) ∧
    ∀ start stop : UInt16, start < stop → ∃ left : ExceptionRange → List ExceptionRange,
      (∀ range, Remains (between start.toNat stop.toNat) range (left range)) ∧
      ∀ ranges, ExceptionRange.removeAll start stop ranges = ranges.flatMap left := by
  intro r
  refine ⟨⟨?_, ?_⟩, fun start stop hlt => ExceptionRange.removeAll_remains hlt⟩
  · rw [handlers_recordAll, hhandlers]
    exact List.nil_append _
  · have hsound : r.1.pool.Sound := ((later_recordAll ctx m es).pool hpool).1
    have hgrown := ((Context.Later.intern r.1 (grows_exceptionTable r.2.flow.blocks r.2.handlers.toList)).pool hsound).1
    have hlater := later_exceptionTable ha
    obtain ⟨hsize, result, ctx₁, hanalysed, hsays⟩ := codeAttribute_says r.1 r.2 a ctx' m' ha hsound
    have hsize : r.2.code.size < 65536 := Nat.lt_succ_of_le hsize
    have hmode : r.2.flow.analysis = .frames := by
      rw [(recorded_recordAll ctx m es).driven.analysis, hfresh.flow, ControlFlow.analysis_start]
    obtain ⟨hbuilt, -, htable⟩ := Handler.ensures_exceptionTable
      (fun l p hp => Nat.lt_of_le_of_lt (hfresh.position_le hnodup hp) hsize) r.2.handlers.toList r.1.pool hsound.built
    rw [Context.intern_eq] at hanalysed hlater hgrown
    obtain ⟨analysis, flow, types, hframes, rfl⟩ := exists_of_analysed hmode hanalysed
    obtain ⟨hdead, hapart⟩ := hfresh.dead_spec hc hnodup hframes
    refine ⟨analysis, flow, types, hframes, ControlFlow.dead_of_computeFrames hframes, hdead,
      hapart, fun later hl hle hf => ?_⟩
    obtain ⟨content, hcontent, hsay⟩ := hsays later hl hle hf
    refine ⟨content, hsay, replaced_of_dead hdead hapart hsize (htable later hl ?_ hf) ?_ ?_⟩
    · exact (hlater.pool hgrown).2.trans hle
    · rw [hcontent.code, Array.foldl_toList]
      rfl
    · rw [hcontent.exceptions, ExceptionRange.removeEach, Array.foldl_toList]
      rfl

/-! ### A handler with code in its range that nothing leads to -/

/-- A throw in the range of a handler, which itself throws in that range, with an instruction between
them that nothing leads to. -/
def splitBody : List CodeEvent :=
  [.tryCatch (guardLabel false) unguardLabel rescueLabel none, .label (guardLabel false), .instruction (.bare 1),
    .instruction (.bare Opcode.athrow), .instruction (.bare 0), .label rescueLabel, .instruction (.bare Opcode.athrow),
    .label unguardLabel]

/-- The labels placed so far. -/
def splitLabels : (count : Nat) → Std.HashMap Label Nat
  | 1 => (∅ : Std.HashMap Label Nat).insert (guardLabel false) 1
  | 2 => ((∅ : Std.HashMap Label Nat).insert (guardLabel false) 1).insert rescueLabel 3
  | _ => (((∅ : Std.HashMap Label Nat).insert (guardLabel false) 1).insert rescueLabel 3).insert unguardLabel 5

/-- The flow so far: the block of the entry, that of the first label, which starts no other one, and those behind. -/
def splitFlow (labels : Nat) (entry : Block) (behind : List Block) (current : Option Nat) (previous : Nat) : ControlFlow :=
  { analysis := .frames
    blocks := ⟨(entry :: { resolved := true, owner := 0 } :: behind).toArray, splitLabels labels⟩
    first := 0, current, previous := some previous, height := 0, peak := 0 }

/-- The frame of a block that has thrown null. -/
def raisedFrame : Frame :=
  { peak := 1 }

/-- The block of the entry, before what nothing leads to. -/
def raisedEntry (f : Frame) : Block :=
  { guardedEntry f with successor := some 2 }

/-- The flow when all has been recorded. -/
def splitEnd (f : Frame) : ControlFlow :=
  splitFlow 3 (raisedEntry f)
    [{ placedBlock 2 2 .empty with successor := some 3 }, { placedBlock 3 3 thrownFrame with successor := some 4 },
    placedBlock 4 4 .empty, { resolved := true, position := 4, owner := 4 }] (some 4) 4

/-- The first label starts no block of its own, since the code is empty up to there. -/
theorem label_splitGuard : (ControlFlow.start .frames).label (guardLabel false) #[] =
    (splitFlow 1 (guardedEntry .empty) [] (some 0) 0, #[], none) := by
  rw [ControlFlow.label, ControlFlow.index_new Std.HashMap.getElem?_empty]
  rfl

/-- Null comes onto the stack of the entry. -/
theorem push_split : (splitFlow 1 (guardedEntry .empty) [] (some 0) 0).bare 1 1 =
    splitFlow 1 (guardedEntry pushedFrame) [] (some 0) 0 := by
  have hframe : ∀ f, (splitFlow 1 (guardedEntry f) [] (some 0) 0).bare 1 1 =
    splitFlow 1 (guardedEntry (f.bare 1)) [] (some 0) 0 := fun _ => rfl
  rw [hframe, frames_guarded.2.1]

/-- The entry throws, and nothing leads to the block behind it. -/
theorem throw_split : (splitFlow 1 (guardedEntry pushedFrame) [] (some 0) 0).bare Opcode.athrow 2 =
    splitFlow 1 (raisedEntry raisedFrame) [placedBlock 2 2 .empty] none 2 := by
  have hframe : ∀ f, (splitFlow 1 (guardedEntry f) [] (some 0) 0).mapFrame (·.bare Opcode.athrow) =
    splitFlow 1 (guardedEntry (f.bare Opcode.athrow)) [] (some 0) 0 := fun _ => rfl
  rw [bare_athrow rfl rfl, hframe, show pushedFrame.bare Opcode.athrow = raisedFrame by decide +kernel]
  rfl

/-- The label of the handler starts a block, into which the instruction runs to which nothing leads. -/
theorem label_splitRescue (e : Block) : (splitFlow 1 e [placedBlock 2 2 .empty] none 2).label rescueLabel #[1, 191, 0] =
    (splitFlow 2 e [{ placedBlock 2 2 .empty with successor := some 3 }, placedBlock 3 3 .empty] (some 3) 3,
      #[1, 191, 0], none) := by
  have hnew : (splitFlow 1 e [placedBlock 2 2 .empty] none 2).blocks.labels[rescueLabel]? = none := by
    change ((∅ : Std.HashMap Label Nat).insert (guardLabel false) 1)[rescueLabel]? = none
    rw [Std.HashMap.getElem?_insert, if_neg (by decide), Std.HashMap.getElem?_empty]
  rw [ControlFlow.label, ControlFlow.index_new hnew]
  rfl

/-- The handler throws what it has caught. -/
theorem throw_splitRescue (e b : Block) : (splitFlow 2 e [b, placedBlock 3 3 .empty] (some 3) 3).bare Opcode.athrow 4 =
    splitFlow 2 e [b, { placedBlock 3 3 thrownFrame with successor := some 4 }, placedBlock 4 4 .empty] none 4 := by
  have hframe : ∀ f, (splitFlow 2 e [b, placedBlock 3 3 f] (some 3) 3).mapFrame (·.bare Opcode.athrow) =
    splitFlow 2 e [b, placedBlock 3 3 (f.bare Opcode.athrow)] (some 3) 3 := fun _ => rfl
  rw [bare_athrow rfl rfl, hframe, frames_guarded.2.2.2]
  rfl

/-- The label behind the range starts the last block. -/
theorem label_splitUnguard (e b c : Block) :
    (splitFlow 2 e [b, c, placedBlock 4 4 .empty] none 4).label unguardLabel #[1, 191, 0, 191] =
    (splitFlow 3 e [b, c, placedBlock 4 4 .empty, { resolved := true, position := 4, owner := 4 }] (some 4) 4,
      #[1, 191, 0, 191], none) := by
  have hnew : (splitFlow 2 e [b, c, placedBlock 4 4 .empty] none 4).blocks.labels[unguardLabel]? = none := by
    change (((∅ : Std.HashMap Label Nat).insert (guardLabel false) 1).insert rescueLabel 3)[unguardLabel]? = none
    rw [Std.HashMap.getElem?_insert, if_neg (by decide), Std.HashMap.getElem?_insert, if_neg (by decide),
      Std.HashMap.getElem?_empty]
  rw [ControlFlow.label, ControlFlow.index_new hnew]
  rfl

/-- The events of the method leave its code, its labels and its flow. -/
theorem record_split : spinMethod.recordAll spinContext splitBody =
    (spinContext, { spinMethod with
      code := #[1, 191, 0, 191], handlers := #[guardHandler false], flow := splitEnd raisedFrame }) := by
  let m : MethodDraft := { spinMethod with handlers := #[guardHandler false] }
  have hidle : (splitFlow 1 (raisedEntry raisedFrame) [placedBlock 2 2 .empty] none 2).bare 0 3 =
    splitFlow 1 (raisedEntry raisedFrame) [placedBlock 2 2 .empty] none 2 := rfl
  unfold splitBody
  rw [recordAll]
  change recordAll spinContext { m with code := #[], flow := .start .frames } _ = _
  rw [recordAll, record_label_of spinContext m label_splitGuard, recordAll, record_bare_of spinContext m #[1] rfl push_split,
    recordAll, record_bare_of spinContext m #[1, 191] rfl throw_split, recordAll,
    record_bare_of spinContext m #[1, 191, 0] rfl hidle, recordAll,
    record_label_of spinContext m (label_splitRescue _), recordAll,
    record_bare_of spinContext m #[1, 191, 0, 191] rfl (throw_splitRescue _ _), recordAll,
    record_label_of spinContext m (label_splitUnguard _ _ _)]
  rfl

/-- The flow with the edges to the handler, from each block that starts in its range. -/
def splitRange (f : Frame) : ControlFlow :=
  let edge : Edge := ⟨.exception (.object 0), 3⟩
  splitFlow 3 { raisedEntry f with edges := #[edge] }
    [{ placedBlock 2 2 .empty with successor := some 3, edges := #[edge] },
      { placedBlock 3 3 thrownFrame with successor := some 4, edges := #[edge], target := true }, placedBlock 4 4 .empty,
      { resolved := true, position := 4, owner := 4 }] (some 4) 4

/-- The labels have a block that shares the first one, the one of the handler and the one behind the range. -/
theorem getElem?_splitLabels : (splitLabels 3)[guardLabel false]? = some 1 ∧ (splitLabels 3)[unguardLabel]? = some 5 ∧
    (splitLabels 3)[rescueLabel]? = some 3 := by
  change ((((∅ : Std.HashMap Label Nat).insert (guardLabel false) 1).insert rescueLabel 3).insert unguardLabel
    5)[guardLabel false]? = some 1 ∧ ((((∅ : Std.HashMap Label Nat).insert (guardLabel false) 1).insert rescueLabel 3).insert
    unguardLabel 5)[unguardLabel]? = some 5 ∧
    ((((∅ : Std.HashMap Label Nat).insert (guardLabel false) 1).insert rescueLabel 3).insert unguardLabel 5)[rescueLabel]? =
    some 3
  refine ⟨?_, Std.HashMap.getElem?_insert_self, ?_⟩
  · rw [Std.HashMap.getElem?_insert, if_neg (by decide), Std.HashMap.getElem?_insert, if_neg (by decide),
      Std.HashMap.getElem?_insert_self]
  · rw [Std.HashMap.getElem?_insert, if_neg (by decide), Std.HashMap.getElem?_insert_self]

/-- The handler gets an edge from each block in its range. -/
theorem addFramedHandler_split (f : Frame) : ControlFlow.addFramedHandler (splitEnd f, .empty) (guardHandler false) =
    (splitRange f, rescueTypes) := by
  obtain ⟨hguard, hunguard, hrescue⟩ := getElem?_splitLabels
  unfold ControlFlow.addFramedHandler ControlFlow.coveredBlocks
  dsimp only [guardHandler, Option.getD_none]
  rw [addNormal_throwable]
  dsimp only
  rw [ControlFlow.index_known (show (splitEnd f).blocks.labels[rescueLabel]? = some 3 from hrescue)]
  dsimp only
  rw [ControlFlow.index_known (show ((splitEnd f).markTarget 3).blocks.labels[guardLabel false]? = some 1 from hguard)]
  dsimp only
  rw [ControlFlow.index_known (show ((splitEnd f).markTarget 3).blocks.labels[unguardLabel]? = some 5 from hunguard)]
  rfl

/-- The frame of the block of the entry when the method has been entered. -/
def splitInput : Frame :=
  { raisedFrame with entered := true }

/-- The finished search for frames. -/
def splitSearch : ControlFlow.Search :=
  ((splitRange splitInput).beginSearch rescueTypes).run .empty ""
    (ControlFlow.roundBound .empty 0 (splitRange splitInput).blocks)

/-- The search reaches the entry and the handler, and nothing between them. -/
theorem computeFrames_split : ∃ analysis flow types,
    (splitEnd raisedFrame).computeFrames [guardHandler false] (spinMethod.frameMethod spinContext) 4 .empty .empty =
      (.ok analysis, flow, types) ∧ flow.blocks = splitSearch.blocks ∧ flow.first = 0 := by
  have hentered : (splitRange raisedFrame).enterFirst rescueTypes (spinMethod.frameMethod spinContext) =
      (splitRange splitInput, splitInput, rescueTypes, none) := by
    have hframe : ((splitRange raisedFrame).blocks.get (splitRange raisedFrame).first).frame.getD Frame.empty =
      raisedFrame := rfl
    rw [ControlFlow.enterFirst_eq, hframe, enter_spin]
    rfl
  have hnone : splitSearch.conflict = none := by decide +kernel
  have hnone : (((splitRange splitInput).beginSearch rescueTypes).run .empty (spinMethod.frameMethod spinContext).className
      (ControlFlow.roundBound .empty splitInput.locals.size (splitRange splitInput).blocks)).conflict = none := hnone
  unfold ControlFlow.computeFrames
  rw [List.foldl_cons, List.foldl_nil, addFramedHandler_split]
  dsimp only
  rw [hentered]
  dsimp only
  rw [hnone]
  exact ⟨_, _, _, rfl, rfl, rfl⟩

/-- What is replaced lies between the throws, and the range of the handler is split there. -/
theorem codeAttribute_keeps_reached_split :
    let r := spinMethod.recordAll spinContext splitBody
    ∃ (a : Attribute) (ctx' : Context) (m' : MethodDraft), r.2.codeAttribute r.1 = (.ok a, ctx', m') ∧
      r.2.handlers.toList = [guardHandler false] ∧
      ∀ later : ConstantPool, later.Built → ctx'.pool.Extends later → later.Fits →
        ∃ content : CodeContent, a.Says later (.code content) ∧ r.2.Replaced [(2, 3)] later content := by
  intro r
  have hr : r = _ := record_split
  obtain ⟨found, flow, types, hfound, hblocks, hfirst⟩ := computeFrames_split
  obtain ⟨a, ctx', m', ha⟩ : ∃ a ctx' m', r.2.codeAttribute r.1 = (.ok a, ctx', m') := by
    rw [hr]
    exact codeAttribute_ok rfl (show 4 ≤ maxCodeLength by decide) hfound
  obtain ⟨⟨hhandlers, analysis, flow', types', hframes, hdead, -, -, hreplaced⟩, -⟩ :=
    codeAttribute_keeps_reached ConstantPool.sound_empty (TypeTable.consistent_empty _) fresh_spin rfl (by decide) ha
  obtain rfl : flow = flow' := by
    rw [record_split] at hframes
    exact (Prod.mk.inj (Prod.mk.inj (hfound.symm.trans hframes)).2).1
  have hrange : (splitSearch.blocks.chain 0).filterMap (Blocks.unreached 4 splitSearch.blocks) = [(2, 3)] := by
    decide +kernel
  rw [hdead, hblocks, hfirst, record_split] at hreplaced
  change ∀ later : ConstantPool, _ → _ → _ → ∃ content : CodeContent, _ ∧ Replaced _
    ((splitSearch.blocks.chain 0).filterMap (Blocks.unreached 4 splitSearch.blocks)) later content at hreplaced
  rw [hrange] at hreplaced
  exact ⟨a, ctx', m', ha, hhandlers, hr ▸ hreplaced⟩

end MethodDraft

end ClassFile
