import ClassFile.Proofs.FoundStretches
import ClassFile.Proofs.HandlerLocals
import ClassFile.Proofs.StoredLocals

/-!
# Handlers of methods

In a method of which frames are computed, the frame of a handler has taken in what locals hold before any instruction
of its range (`MethodDraft.handlerSees_computeFrames`), as long as the type table is roomy, so that a word says which
class it is about. A store ends the block, so that locals are between the instructions of a block what they are when it
is entered or left, unless a constructor is called in between: what waited for that is no type that a handler keeps.
-/

namespace ClassFile

/-- What the instructions do that stand from one offset on up to another one. -/
def operationsBetween (start stop : Nat) (items : List (Nat × Instruction)) : List Frame.Operation :=
  (items.filter fun x => start ≤ x.1 && x.1 < stop).map fun x => x.2.operation x.1

/-- Nothing stands between an offset and itself. -/
theorem operationsBetween_self (p : Nat) (xs : List (Nat × Instruction)) : operationsBetween p p xs = [] := by
  have hnone : (xs.filter fun x => p ≤ x.1 && x.1 < p) = [] := by
    refine List.filter_eq_nil_iff.2 fun x _ => ?_
    simp only [Bool.and_eq_true, decide_eq_true_eq]
    omega
  unfold operationsBetween
  rw [hnone, List.map_nil]

namespace ControlFlow

section Handled

variable {h : Hierarchy} {types found later : TypeTable} {flow covered : ControlFlow} {size count : Nat} {c : Course}
variable {handlers : List Handler} {handler : Handler} {className : String} {final : Blocks}
variable {place : Label → Nat} {s s' : Stretch} {x : Nat × Instruction}

/-! ## Instructions of stretches -/

/-- Before another stretch, one comes right behind a stretch. -/
theorem Stretched.exists_next (hs : flow.Stretched h types size c) (hmem : s ∈ c.all) (hmem' : s' ∈ c.all)
    (hlt : s.start < s'.start) :
    ∃ next ∈ c.all, s.Precedes h types flow.blocks next ∧ next.start ≤ s'.start := by
  obtain ⟨before, rest, hall⟩ := List.append_of_mem hmem
  have hsorted := hs.sorted
  rw [hall, List.map_append, List.map_cons, List.pairwise_append, List.pairwise_cons] at hsorted
  have hbehind : s' ∈ rest := by
    rw [hall] at hmem'
    rcases List.mem_append.1 hmem' with hmem' | hmem'
    · have := hsorted.2.2 _ (List.mem_map_of_mem hmem') s.start List.mem_cons_self
      omega
    · exact (List.mem_cons.1 hmem').resolve_left fun heq => absurd (heq ▸ hlt) (Nat.lt_irrefl _)
  cases rest with
  | nil => exact absurd hbehind List.not_mem_nil
  | cons next after =>
    refine ⟨next, by rw [hall]; simp, List.isChain_iff_forall_rel_of_append_cons_cons.1 hs.chain hall, ?_⟩
    rcases List.mem_cons.1 hbehind with rfl | hbehind
    · exact Nat.le_refl _
    · have hrest := hsorted.2.1.2
      rw [List.map_cons, List.pairwise_cons] at hrest
      exact Nat.le_of_lt (hrest.1 _ (List.mem_map_of_mem hbehind))

/-- Instructions of a stretch stand between its start and the start of any stretch behind it. -/
theorem Stretched.inside (hs : flow.Stretched h types size c) (hmem : s ∈ c.all) (hx : x ∈ s.body) :
    s.start ≤ x.1 ∧ ∀ s' ∈ c.all, s.start < s'.start → x.1 < s'.start := by
  refine ⟨?_, fun s' hmem' hlt => ?_⟩
  · rcases Course.mem_all.1 hmem with hmem | rfl
    · obtain ⟨next, hprecedes⟩ := hs.holds_done hmem
      exact (hprecedes.within.inside x hx).1
    · exact (hs.within.inside x hx).1
  · obtain ⟨next, -, hprecedes, hle⟩ := hs.exists_next hmem hmem' hlt
    exact Nat.lt_of_lt_of_le (hprecedes.within.inside x hx).2 hle

/-- An instruction that stands before the next stretch is one of a stretch. -/
theorem Stretched.mem_body (hs : flow.Stretched h types size c) (hmem : s ∈ c.all) (hx : x ∈ c.items) (hle : s.start ≤ x.1)
    (hlt : ∀ next ∈ c.all, (flow.blocks.get s.block).successor = some next.block → x.1 < next.start) : x ∈ s.body := by
  obtain ⟨s', hmem', hbody⟩ := List.mem_flatMap.1 hx
  obtain ⟨hle', hbefore⟩ := hs.inside hmem' hbody
  rcases Nat.lt_trichotomy s.start s'.start with hstart | hstart | hstart
  · obtain ⟨next, hmemn, hprecedes, hnext⟩ := hs.exists_next hmem hmem' hstart
    have := hlt next hmemn hprecedes.holds.successor
    omega
  · rwa [List.inj_on_of_nodup_map (hs.sorted.imp fun hlt => Nat.ne_of_lt hlt) hmem hmem' hstart]
  · have := hbefore s hmem hstart
    omega

/-- The block of a stretch has a frame. -/
theorem Stretched.isSome_frame (hs : flow.Stretched h types size c) (hmem : s ∈ c.all) :
    (flow.blocks.get s.block).frame.isSome = true := by
  obtain ⟨next, hholds⟩ := hs.holds hmem
  obtain ⟨f, hf, -⟩ := hholds.frame
  rw [hf]
  rfl

/-- The block in which a method starts has a frame. -/
theorem Stretched.isSome_first (hs : flow.Stretched h types size c) :
    (flow.blocks.get flow.first).frame.isSome = true := by
  obtain ⟨s, hhead, hblock, -⟩ := hs.first
  exact hblock ▸ hs.isSome_frame (List.mem_of_mem_head? hhead)

/-- The block of a label that stands has a frame, unless the label serves debug information only. -/
theorem Stretched.isSome_placed (hs : flow.Stretched h types size c) {l : Label} {i p : Nat}
    (hl : flow.blocks.labels[l]? = some i) (hdebug : l.debug = false) (hp : flow.blocks.position l = some p) :
    (flow.blocks.get (flow.blocks.owner i)).frame.isSome = true := by
  obtain ⟨s, hmem, hblock, -, -⟩ := hs.placed hl hdebug hp
  exact hblock ▸ hs.isSome_frame hmem

/-- A stretch with an instruction behind a label starts behind it too, since a stretch starts where the label stands. -/
theorem Stretched.le_start (hs : flow.Stretched h types size c) {l : Label} {p : Nat} (hdebug : l.debug = false)
    (hp : flow.blocks.position l = some p) (hmem : s ∈ c.all) (hx : x ∈ s.body) (hle : p ≤ x.1) : p ≤ s.start := by
  obtain ⟨i, hi⟩ := labels_of_position hp
  obtain ⟨s₀, hmem₀, -, hstart₀, -⟩ := hs.placed hi hdebug hp
  refine Nat.le_of_not_lt fun hbefore => ?_
  have := (hs.inside hmem hx).2 s₀ hmem₀ (hstart₀ ▸ hbefore)
  omega

/-- What the instructions of a stretch do before one of them. -/
theorem Stretched.operationsBetween_eq (hs : flow.Stretched h types size c) (hascends : (c.items.map (·.1)).Pairwise (· < ·))
    (hmem : s ∈ c.all) {first rest : List (Nat × Instruction)} (hbody : s.body = first ++ x :: rest) :
    operationsBetween s.start x.1 c.items = first.map fun x => x.2.operation x.1 := by
  obtain ⟨before, after, hall⟩ := List.append_of_mem hmem
  have hitems : c.items = before.flatMap (·.body) ++ (first ++ (x :: (rest ++ after.flatMap (·.body)))) := by
    unfold Course.items
    rw [hall, List.flatMap_append, List.flatMap_cons, hbody, List.append_assoc, List.cons_append]
  have hsorted := hs.sorted
  rw [hall, List.map_append, List.map_cons, List.pairwise_append] at hsorted
  rw [hitems, List.map_append, List.map_append, List.map_cons, List.pairwise_append, List.pairwise_append,
    List.pairwise_cons] at hascends
  have hbefore : (before.flatMap (·.body)).filter (fun y => decide (s.start ≤ y.1) && decide (y.1 < x.1)) = [] := by
    refine List.filter_eq_nil_iff.2 fun y hy => ?_
    obtain ⟨t, ht, hy⟩ := List.mem_flatMap.1 hy
    have hlt := (hs.inside (s := t) (by rw [hall]; exact List.mem_append_left _ ht) hy).2 s hmem
      (hsorted.2.2 _ (List.mem_map_of_mem ht) s.start List.mem_cons_self)
    simp [Nat.not_le.2 hlt]
  have hfirst : first.filter (fun y => decide (s.start ≤ y.1) && decide (y.1 < x.1)) = first := by
    refine List.filter_eq_self.2 fun y hy => ?_
    have hle := (hs.inside hmem (hbody ▸ List.mem_append_left _ hy : y ∈ s.body)).1
    have hlt := hascends.2.1.2.2 y.1 (List.mem_map_of_mem hy) x.1 List.mem_cons_self
    simp [hle, hlt]
  have hrest : (x :: (rest ++ after.flatMap (·.body))).filter
    (fun y => decide (s.start ≤ y.1) && decide (y.1 < x.1)) = [] := by
    refine List.filter_eq_nil_iff.2 fun y hy => ?_
    have hle : x.1 ≤ y.1 := by
      rcases List.mem_cons.1 hy with rfl | hy
      · exact Nat.le_refl _
      · exact Nat.le_of_lt (hascends.2.1.2.1.1 y.1 (List.mem_map_of_mem hy))
    simp [Nat.not_lt.2 hle]
  unfold operationsBetween
  rw [hitems, List.filter_append, List.filter_append, hbefore, hfirst, hrest, List.nil_append, List.append_nil]

/-- A handler whose labels stand leads from each stretch that starts in its range to its own block. -/
theorem Stretched.exists_handling (hs : flow.Stretched h types size c) (hmem : handler ∈ handlers) {start stop target : Nat}
    (hstart : flow.blocks.position handler.start = some start) (hdebug : handler.start.debug = false)
    (hstop : flow.blocks.position handler.stop = some stop) (htarget : flow.blocks.labels[handler.handler]? = some target)
    (hmem' : s ∈ c.all) (hle : start ≤ s.start) (hlt : s.start < stop) :
    let covered := (handlers.foldl addFramedHandler (flow, types)).1
    ∃ e ∈ (covered.blocks.get s.block).edges, e.kind.handled.isSome = true ∧ covered.blocks.owner e.target =
      flow.blocks.owner target := by
  obtain ⟨i, hi⟩ := labels_of_position hstart
  obtain ⟨k, hk⟩ := labels_of_position hstop
  obtain ⟨s₀, hmem₀, howner, rfl, -⟩ := hs.placed hi hdebug hstart
  refine hs.handled hmem hi hk htarget hmem₀ howner.symm hmem' hle fun s₁ hmem₁ hblock => ?_
  cases hlabel : handler.stop.debug with
  | true =>
    obtain ⟨hidle, hnot⟩ := (hs.names.known _ _ hk).idle (Or.inr hlabel)
    exact absurd (hblock.trans hidle.owner) (hnot s₁ hmem₁)
  | false =>
    obtain ⟨s₂, hmem₂, howner₂, rfl, -⟩ := hs.placed hk hlabel hstop
    rwa [hs.eq_of_block hmem₁ hmem₂ (hblock.trans howner₂.symm)]

/-! ## Locals between instructions -/

/-- A handler has taken in what locals hold between the instructions of a stretch that leads to it, if none of
these but the last stores any. -/
theorem Found.sees (hg : h.Grounded) (hobject : h.superClass objectClass = none)
    (hf : Found h className count covered final found)
    (hfound : TypeTable.Consistent h found) (hcovered : Covered handlers flow covered) (hs : flow.Stretched h types size c)
    (hc : c.Regular place)
    (hnamed : ∀ (l : Label) (i : Nat), covered.blocks.labels[l]? = some i →
      flow.blocks.labels[l]? = some i ∨ flow.blocks.size ≤ i ∧ covered.blocks.owner i = i)
    (hascends : (c.items.map (·.1)).Pairwise (· < ·)) (hfew : c.items.length ≤ 2 ^ 16) (hmem : s ∈ c.all)
    (hfollowed : s.followed = true) (hstores : ∀ x ∈ s.body.dropLast, (x.2.operation x.1).stores = false)
    {known : TypeTable} (hknown : TypeTable.Consistent h known) (hext : types.Extends known) (hext' : found.Extends known)
    {f : Frame} (hreach : (final.get s.block).reachable = true) (hframe : (final.get s.block).frame = some f)
    {e : Edge} (he : e ∈ (covered.blocks.get s.block).edges) (hhandled : e.kind.handled.isSome = true)
    {g : Frame} (hgf : (final.get (covered.blocks.owner e.target)).frame = some g) (hx : x ∈ s.body)
    (hadm : (Frame.entering f.locals f.stack).AdmissibleAll className h known (operationsBetween s.start x.1 c.items)) :
    let stepped := (Frame.entering f.locals f.stack).steps className h known 0 (operationsBetween s.start x.1 c.items)
    g.entered = true ∧ Frame.Sees h stepped.2.1 g.locals stepped.1.locals ∧
      (stepped.2.1.Roomy → Frame.SeesTold g.locals stepped.1.locals) := by
  dsimp only
  obtain ⟨f', hframe', hentered, hsane⟩ := hf.framed _ hreach
  obtain rfl : f = f' := Option.some.inj (hframe.symm.trans hframe')
  obtain ⟨first, rest, hbody⟩ := List.append_of_mem hx
  rw [hs.operationsBetween_eq hascends hmem hbody] at hadm ⊢
  -- the frame of the block, when it had followed the instructions before this one
  obtain ⟨whole, htraced, hwhole⟩ := hf.traced hcovered hs hmem hframe hentered.entered
  rw [(hc.plain s hmem).operations, if_pos hfollowed, hbody, List.map_append] at htraced
  obtain ⟨front, table, hfront, hgrown, hcalled⟩ := htraced.before rfl
  have hkeeps : ∀ i ∈ first.map fun x => x.2.operation x.1, i.stores = false := by
    intro i hi
    obtain ⟨y, hy, rfl⟩ := List.mem_map.1 hi
    refine hstores y ?_
    rw [hbody, List.dropLast_append_cons]
    exact List.mem_append_left _ hy
  have hsmall : f.stack.size + 6 * (first.map fun x => x.2.operation x.1).length < 2 ^ 23 := by
    have hheight := hf.heights _ f hframe hentered.entered
    have htotal := hf.total_le hcovered hs hc hnamed
    have hfirst : first.length ≤ c.items.length := by
      have hsub : s.body.Sublist c.items := by
        unfold Course.items
        rw [List.flatMap_def]
        exact List.sublist_flatten_of_mem (List.mem_map_of_mem hmem)
      exact Nat.le_trans (by rw [hbody]; simp) hsub.length_le
    rw [List.length_map]
    omega
  obtain ⟨locals, stack, grown, reached, hsteps, hgrownc, hgrowne, hfollows, -⟩ := hfront.follows hknown (hgrown.trans hext)
    (fun t ht => (hentered.locals t ht).settled) hsmall hkeeps hadm 0
  have hheld : (Frame.entering f.locals f.stack).Entered known f.locals.size :=
    ⟨rfl, rfl, (hentered.mono hext').locals, (hentered.mono hext').stack⟩
  have hstepped := Frame.steps_entered className hg hobject hkeeps hknown hheld 0
  rw [hsteps] at hstepped ⊢
  obtain ⟨exception, hexception⟩ := Option.isSome_iff_exists.1 hhandled
  obtain ⟨hge, htakes⟩ := hf.handled _ f hreach hframe e he exception hexception g hgf
  refine ⟨hge, htakes.sees hg hobject hfound.sound hentered hsane (hext'.trans hgrowne) hgrownc hfollows.size fun i => ?_,
    fun hroomy => htakes.seesTold (hext'.trans hgrowne) hroomy hstepped⟩
  rcases hfollows.kept i with hsame | ⟨-, hawaits, called, hmemc, hresolved⟩
  · exact Or.inl hsame
  · refine Or.inr ⟨hawaits, called, ?_, ?_⟩
    · rw [hwhole]
      exact hcalled called hmemc
    · exact (Frame.resolve_congr rfl rfl called).trans hresolved

end Handled

end ControlFlow

/-! ## Handlers -/

/-- The offset lies in the code of a block, which ends where the next block starts. -/
def Blocks.Spans (blocks : Blocks) (j offset : Nat) : Prop :=
  (blocks.get j).position ≤ offset ∧ ∀ next, (blocks.get j).successor = some next → offset < (blocks.get next).position

/-- A handler sees all locals of its range: the frame with which it is entered has taken in what locals hold before any
instruction of the range in a block that is reached. They hold there what the instructions from the start of the block on
make of its input, one by one. The handler has a frame, unless its label serves debug information only. Labels stand where
they did before the frames were computed. -/
def ControlFlow.HandlerSees (h : Hierarchy) (className : String) (items : List (Nat × Instruction))
    (written solved : ControlFlow) (types : TypeTable) (handler : Handler) : Prop :=
  ∀ start stop target k, written.blocks.position handler.start = some start →
    written.blocks.position handler.stop = some stop → written.blocks.position handler.handler = some target →
    written.blocks.labels[handler.handler]? = some k →
  ∀ j f, (solved.blocks.get j).reachable = true → (solved.blocks.get j).frame = some f →
  ∀ x ∈ items, start ≤ x.1 → x.1 < stop → solved.blocks.Spans j x.1 →
    let is := operationsBetween (solved.blocks.get j).position x.1 items
    (Frame.entering f.locals f.stack).AdmissibleAll className h types is →
    let stepped := (Frame.entering f.locals f.stack).steps className h types 0 is
    stepped.2.1.Roomy →
    (handler.handler.debug = false → (solved.blocks.get (solved.blocks.owner k)).frame.isSome = true) ∧
      ∀ g, (solved.blocks.get (solved.blocks.owner k)).frame = some g →
        g.entered = true ∧ Frame.Sees h stepped.2.1 g.locals stepped.1.locals ∧ Frame.SeesTold g.locals stepped.1.locals

namespace MethodDraft

section Handled

variable {ctx : Context} {m : MethodDraft} {es before after : List CodeEvent}
  {start stop target : Label} {type : Option String}

/-- Where a label stands that has been placed once. -/
theorem Fresh.placed_at (hfresh : m.Fresh .frames) (hnodup : (es.filterMap CodeEvent.placed?).Nodup) {l : Label} {p : Nat}
    (hp : (m.recordAll ctx es).2.flow.blocks.position l = some p) :
    ∃ before after, es = before ++ .label l :: after ∧ p = (m.recordAll ctx before).2.code.size := by
  obtain ⟨qs, hlaid⟩ := hfresh.laid.recordAll_places ctx hnodup fun _ _ => rfl
  have hplace := (ClassFile.Laid.placed hlaid l).symm.trans hp
  have hmem : l ∈ es.filterMap CodeEvent.placed? := by
    by_contra hnot
    rw [placesAfter_of_notMem hnot] at hplace
    cases hplace
  obtain ⟨e, he, hel⟩ := List.mem_filterMap.1 hmem
  obtain rfl : e = .label l := by
    cases e with
    | label l' => exact congrArg CodeEvent.label (Option.some.inj hel)
    | _ => cases hel
  obtain ⟨before, after, rfl⟩ := List.append_of_mem he
  refine ⟨before, after, rfl, ?_⟩
  rw [List.filterMap_append] at hnodup
  have hafter : l ∉ after.filterMap CodeEvent.placed? := (List.nodup_cons.1 (List.nodup_append.1 hnodup).2.1).1
  rw [placesAfter_append, placesAfter, placesAfter_of_notMem hafter] at hplace
  exact (Option.some.inj ((if_pos rfl).symm.trans hplace)).symm

/-- A method has no more instructions than bytes of code. -/
theorem length_items_le {c : Course} (hascends : (c.items.map (·.1)).Pairwise (· < ·)) {size : Nat}
    (hsize : ∀ x ∈ c.items, x.1 < size) :
    c.items.length ≤ size := by
  have hsub : c.items.map (·.1) ⊆ List.range size := fun p hp => by
    obtain ⟨x, hx, rfl⟩ := List.mem_map.1 hp
    exact List.mem_range.2 (hsize x hx)
  have hle := (List.Nodup.subperm (hascends.imp fun hlt => Nat.ne_of_lt hlt) hsub).length_le
  rwa [List.length_map, List.length_range] at hle

/-- Where a label starts a range after its handler has been recorded, no stretch of the range stores a local
before its last instruction. -/
theorem Fresh.storesLast (hfresh : m.Fresh .frames) {c : Course} {h : Hierarchy} (hrun : Course.Run h ctx m .start es c)
    (hnodup : (es.filterMap CodeEvent.placed?).Nodup) (hes : es = before ++ .tryCatch start stop target type :: after)
    (hlate : .label start ∉ before) (hdebug : start.debug = false) {p : Nat}
    (hp : (m.recordAll ctx es).2.flow.blocks.position start = some p) : c.StoresLast p := by
  obtain ⟨front, rest, heq, rfl⟩ := hfresh.placed_at hnodup hp
  have hmem : .tryCatch start stop target type ∈ front := by
    rw [hes, List.append_eq_append_iff] at heq
    rcases heq with ⟨mid, rfl, hmid⟩ | ⟨mid, hbefore, hmid⟩
    · cases mid with
      | nil => cases hmid
      | cons e mid =>
        obtain ⟨rfl, -⟩ := List.cons.inj hmid
        exact List.mem_append_right _ List.mem_cons_self
    · cases mid with
      | nil => cases hmid
      | cons e mid =>
        obtain ⟨rfl, -⟩ := List.cons.inj hmid
        exact absurd (hbefore ▸ List.mem_append_right _ List.mem_cons_self) hlate
  have hhandlers : (m.recordAll ctx front).2.handlers ≠ #[] := by
    intro hempty
    have hall := handlers_recordAll ctx m front
    rw [hempty] at hall
    have hnone := (List.append_eq_nil_iff.1 hall.symm).2
    have hsome : (⟨start, stop, target, type⟩ : Handler) ∈ front.filterMap CodeEvent.handler? :=
      List.mem_filterMap.2 ⟨_, hmem, rfl⟩
    rw [hnone] at hsome
    exact List.not_mem_nil hsome
  subst heq
  exact hrun.storesLast_label hfresh.laid hnodup (fun _ _ => rfl) hdebug hhandlers

/-- Handlers see all locals of their ranges, if each label is placed once, that at the start of the range after the handler
has been recorded and not for debug information only, and if no parameter is read as of no value. -/
theorem handlerSees_computeFrames (hg : ctx.hierarchy.Grounded) (hobject : ctx.hierarchy.superClass objectClass = none)
    (hc : TypeTable.Consistent ctx.hierarchy ctx.types) (hfresh : m.Fresh .frames)
    (hnodup : (es.filterMap CodeEvent.placed?).Nodup)
    (hes : es = before ++ .tryCatch start stop target type :: after) (hlate : .label start ∉ before)
    (hdebug : start.debug = false)
    (hvalues : (m.frameMethod ctx).TakesValues) (hsize : (m.recordAll ctx es).2.code.size ≤ maxCodeLength)
    {analysis : FrameAnalysis} {solved : ControlFlow} {types : TypeTable}
    (hok : (m.recordAll ctx es).2.flow.computeFrames (m.recordAll ctx es).2.handlers.toList
      ((m.recordAll ctx es).2.frameMethod (m.recordAll ctx es).1) (m.recordAll ctx es).2.code.size
        (m.recordAll ctx es).1.types
      (m.recordAll ctx es).1.hierarchy = (.ok analysis, solved, types)) :
    ControlFlow.HandlerSees ctx.hierarchy ctx.className (m.items ctx es) (m.recordAll ctx es).2.flow solved types
      ⟨start, stop, target, type⟩ := by
  have hhierarchy := hierarchy_recordAll ctx m es
  have hclass : (m.recordAll ctx es).1.className = ctx.className := by
    obtain ⟨pool, types, failure, hcontext⟩ := (recorded_recordAll ctx m es).context
    rw [hcontext]
  have hmethod : ((m.recordAll ctx es).2.frameMethod (m.recordAll ctx es).1).TakesValues := by
    obtain ⟨_, _, _, _, _, _, _, hm⟩ := (recorded_recordAll ctx m es).method
    rw [hm]
    exact hvalues
  have hmem : (⟨start, stop, target, type⟩ : Handler) ∈ (m.recordAll ctx es).2.handlers.toList := by
    rw [handlers_recordAll, hes]
    exact List.mem_append_right _ (List.mem_filterMap.2 ⟨.tryCatch start stop target type, by simp, rfl⟩)
  obtain ⟨c, hrun⟩ := hfresh.run hc hnodup
  have hs := hrun.stretched
  have hu := hfresh.unsolved hc es
  have hregular := hrun.regular_last hfresh.laid hnodup (fun _ _ => rfl) hsize
  obtain ⟨hascends, hbound⟩ := hrun.ascends hfresh.laid hnodup fun _ _ => rfl
  have hitems : c.items = m.items ctx es := hrun.items_eq
  intro p q z k hp hq hz hk j f hreach hframe x hx hle hlt hspans is hadm stepped
  have hstores := hfresh.storesLast hrun hnodup hes hlate hdebug hp
  generalize m.recordAll ctx es = r at *
  obtain ⟨ctx', m'⟩ := r
  dsimp only at *
  rw [hhierarchy] at hok
  have hcovered := ControlFlow.covered_addFramedHandlers hs.owned hs.names.labelled ctx'.types m'.handlers.toList
  have hnamed := fun l i => ControlFlow.named_addFramedHandlers hs.owned hs.names.labelled ctx'.types
    m'.handlers.toList (l := l) (i := i)
  obtain ⟨count, n, entry, found, hfound, hconsistent, hextends, -, hcollected⟩ :=
    hu.found hg hobject hs.isSome_first hmethod hcovered hok
  obtain ⟨hknown, hext, -⟩ := ControlFlow.collectBlocks_spec m'.code.size solved.blocks (solved.blocks.chain solved.first)
    (⟨n, #[entry], #[]⟩, found) hconsistent rfl
  rw [hcollected] at hknown hext
  obtain ⟨s, hmems, rfl, hfollowed⟩ := hfound.exists_stretch hcovered hs hregular hnamed hreach
  have hposition : ∀ s ∈ c.all, (solved.blocks.get s.block).position = s.start := fun s hmem => by
    obtain ⟨next, hholds⟩ := hs.holds hmem
    exact (hfound.position _).trans ((hcovered.position _ hholds.lt_size).trans hholds.position)
  obtain ⟨hfrom, hto⟩ := hspans
  rw [hposition s hmems] at hfrom
  have hbody : x ∈ s.body := by
    refine hs.mem_body hmems (hitems ▸ hx) hfrom fun next hmemn hnext => ?_
    rw [← hposition next hmemn]
    exact hto _ ((hfound.successor _).trans ((hcovered.successor _ (hs.lt_size hmems)).trans hnext))
  -- the stretch starts in the range, since one starts where the range does
  have hrange := hs.le_start hdebug hp hmems hbody hle
  obtain ⟨e, he, hhandled, htarget⟩ := hs.exists_handling hmem hp hdebug hq hk hmems hrange (Nat.lt_of_le_of_lt hfrom hlt)
  have howner : solved.blocks.owner k = m'.flow.blocks.owner k :=
    (hfound.graph.owner k).trans (hcovered.owner k (hs.names.labelled.bound _ _ hk))
  rw [howner]
  refine fun hroomy => ⟨fun hregular => ?_, fun g hg' => ?_⟩
  · rw [hfound.isSome_frame hcovered]
    exact hs.isSome_placed hk hregular hz
  · have his : is = operationsBetween s.start x.1 c.items := by
      rw [hitems, ← hposition s hmems]
    rw [← htarget] at hg'
    have hfew : c.items.length ≤ 2 ^ 16 := by
      have := length_items_le hascends hbound
      unfold maxCodeLength at hsize
      omega
    have hmclass : (m'.frameMethod ctx').className = ctx.className := hclass
    rw [hmclass] at hfound
    rw [his] at hadm
    obtain ⟨hge, hsees, htold⟩ := hfound.sees hg hobject hconsistent hcovered hs hregular hnamed
      hascends hfew hmems hfollowed (hstores s hmems hrange) hknown (hextends.trans hext) hext hreach hframe
      he hhandled hg' hbody hadm
    rw [← his] at hsees htold
    exact ⟨hge, hsees, htold hroomy⟩

end Handled

/-! ### A range of one instruction -/

/-- The range of the handler starts here, maybe for debug information only. -/
def guardLabel (debug : Bool) : Label :=
  ⟨0, debug⟩

/-- The range of the handler stops here. -/
def unguardLabel : Label :=
  ⟨1, false⟩

/-- The handler starts here. -/
def rescueLabel : Label :=
  ⟨2, false⟩

def guardHandler (debug : Bool) : Handler :=
  ⟨guardLabel debug, unguardLabel, rescueLabel, none⟩

/-- A handler that covers one instruction and into which the code behind that runs, with null in the
first local and on the stack. -/
def guardedBody (debug : Bool) : List CodeEvent :=
  [.tryCatch (guardLabel debug) unguardLabel rescueLabel none, .label (guardLabel debug),
    .instruction (.bare 0), .label unguardLabel, .instruction (.bare 1), .instruction (.moveLocal Opcode.astore 0),
    .instruction (.bare 1), .label rescueLabel, .instruction (.bare Opcode.athrow)]

/-- A static method with one local. -/
def guardedMethod (descriptor : String) : MethodDraft :=
  { access := 9, name := "g", descriptor, nameIndex := 1, descriptorIndex := 2, signature := none, exceptions := []
    flow := .start .frames, maxLocals := 1 }

/-- The labels placed so far. -/
def guardLabels (debug : Bool) : (count : Nat) → Std.HashMap Label Nat
  | 0 => ∅
  | 1 => (∅ : Std.HashMap Label Nat).insert (guardLabel debug) 1
  | 2 => ((∅ : Std.HashMap Label Nat).insert (guardLabel debug) 1).insert unguardLabel 2
  | _ => (((∅ : Std.HashMap Label Nat).insert (guardLabel debug) 1).insert unguardLabel 2).insert rescueLabel 4

/-- The flow of the method so far: the block of the entry, that of the first label, which starts no
other one, and those behind. -/
def guardedFlow (debug : Bool) (labels : Nat) (entry : Block) (behind : List Block) (current : Option Nat) (previous : Nat) :
    ControlFlow :=
  { analysis := .frames
    blocks := ⟨(entry :: { debug, resolved := true, owner := if debug then 1 else 0 } :: behind).toArray,
      guardLabels debug labels⟩
    first := 0, current, previous := some previous, height := 0, peak := 0 }

/-- The block of the entry, before another one follows. -/
def guardedEntry (f : Frame) : Block :=
  { pushed := true, resolved := true, frame := some f }

/-- A block that has been placed, before another one follows. -/
def placedBlock (i position : Nat) (f : Frame) : Block :=
  { resolved := true, position, owner := i, frame := some f }

/-- A block that runs into another one. -/
def runInto (b : Block) (next : Nat) : Block :=
  { b with successor := some next, edges := #[⟨.normal 0, next⟩] }

/-- The frame of a block that stores null in the first local. -/
def storedFrame : Frame :=
  { outLocals := #[.null], peak := 1 }

/-- The frame of a block that puts null on the stack. -/
def pushedFrame : Frame :=
  { outStack := #[.null], peak := 1 }

/-- The frame of a block that throws what is on the stack. -/
def thrownFrame : Frame :=
  { consumed := 1 }

/-- The blocks that stand behind the range when all has been recorded. -/
def unguardedBlocks : List Block :=
  [runInto (placedBlock 2 1 storedFrame) 3, runInto (placedBlock 3 3 pushedFrame) 4,
    { placedBlock 4 4 thrownFrame with successor := some 5 }, placedBlock 5 5 .empty]

/-- The flow when all has been recorded. -/
def guardedEnd (debug : Bool) : ControlFlow :=
  guardedFlow debug 3 (runInto (guardedEntry .empty) 2) unguardedBlocks none 5

/-- What the instructions of the method make of empty frames. -/
theorem frames_guarded :
    Frame.empty.bare 0 = .empty ∧ Frame.empty.bare 1 = pushedFrame ∧ pushedFrame.moveLocal Opcode.astore 0 = storedFrame ∧
    Frame.empty.bare Opcode.athrow = thrownFrame := by
  decide +kernel

/-- The first label starts no block of its own, since the code is empty up to there. -/
theorem label_guard (debug : Bool) : (ControlFlow.start .frames).label (guardLabel debug) #[] =
    (guardedFlow debug 1 (guardedEntry .empty) [] (some 0) 0, #[], none) := by
  rw [ControlFlow.label, ControlFlow.index_new Std.HashMap.getElem?_empty]
  cases debug <;> rfl

/-- The instruction in the range changes no frame. -/
theorem bare_guarded (debug : Bool) : (guardedFlow debug 1 (guardedEntry .empty) [] (some 0) 0).bare 0 1 =
    guardedFlow debug 1 (guardedEntry .empty) [] (some 0) 0 := by
  have hframe : ∀ f, (guardedFlow debug 1 (guardedEntry f) [] (some 0) 0).bare 0 1 =
    guardedFlow debug 1 (guardedEntry (f.bare 0)) [] (some 0) 0 := fun _ => rfl
  rw [hframe, frames_guarded.1]

/-- The label behind the range starts the second block of the code. -/
theorem label_unguard (debug : Bool) (f : Frame) :
    (guardedFlow debug 1 (guardedEntry f) [] (some 0) 0).label unguardLabel #[0] =
    (guardedFlow debug 2 (runInto (guardedEntry f) 2) [placedBlock 2 1 .empty] (some 2) 2, #[0], none) := by
  have hnew : (guardedFlow debug 1 (guardedEntry f) [] (some 0) 0).blocks.labels[unguardLabel]? = none := by
    change ((∅ : Std.HashMap Label Nat).insert (guardLabel debug) 1)[unguardLabel]? = none
    rw [Std.HashMap.getElem?_insert, if_neg (by cases debug <;> decide), Std.HashMap.getElem?_empty]
  rw [ControlFlow.label, ControlFlow.index_new hnew]
  rfl

/-- Null comes onto the stack of the second block. -/
theorem push_guarded (debug : Bool) (e : Block) : (guardedFlow debug 2 e [placedBlock 2 1 .empty] (some 2) 2).bare 1 2 =
    guardedFlow debug 2 e [placedBlock 2 1 pushedFrame] (some 2) 2 := by
  have hframe : ∀ f, (guardedFlow debug 2 e [placedBlock 2 1 f] (some 2) 2).bare 1 2 =
    guardedFlow debug 2 e [placedBlock 2 1 (f.bare 1)] (some 2) 2 := fun _ => rfl
  rw [hframe, frames_guarded.2.1]

/-- Null goes into the local of the second block. -/
theorem store_guarded (debug : Bool) (e : Block) :
    (guardedFlow debug 2 e [placedBlock 2 1 pushedFrame] (some 2) 2).moveLocal Opcode.astore 0 3 =
      guardedFlow debug 2 e [placedBlock 2 1 storedFrame] (some 2) 2 := by
  have hframe : ∀ f, (guardedFlow debug 2 e [placedBlock 2 1 f] (some 2) 2).moveLocal Opcode.astore 0 3 =
    guardedFlow debug 2 e [placedBlock 2 1 (f.moveLocal Opcode.astore 0)] (some 2) 2 := fun _ => rfl
  rw [hframe, frames_guarded.2.2.1]

/-- Splitting behind the store starts a third block, into which the second one runs. -/
theorem split_guarded (debug : Bool) (e : Block) (f : Frame) :
    (guardedFlow debug 2 e [placedBlock 2 1 f] (some 2) 2).split #[0, 1, 75] =
    (guardedFlow debug 2 e [runInto (placedBlock 2 1 f) 3, placedBlock 3 3 .empty] (some 3) 3, #[0, 1, 75], none) :=
  rfl

/-- Null comes onto the stack of the third block. -/
theorem push_again_guarded (debug : Bool) (e s : Block) :
    (guardedFlow debug 2 e [s, placedBlock 3 3 .empty] (some 3) 3).bare 1 4 =
    guardedFlow debug 2 e [s, placedBlock 3 3 pushedFrame] (some 3) 3 := by
  have hframe : ∀ f, (guardedFlow debug 2 e [s, placedBlock 3 3 f] (some 3) 3).bare 1 4 =
    guardedFlow debug 2 e [s, placedBlock 3 3 (f.bare 1)] (some 3) 3 := fun _ => rfl
  rw [hframe, frames_guarded.2.1]

/-- The label of the handler starts a block, into which the one before runs. -/
theorem label_rescue (debug : Bool) (e s : Block) (f : Frame) :
    (guardedFlow debug 2 e [s, placedBlock 3 3 f] (some 3) 3).label rescueLabel #[0, 1, 75, 1] =
      (guardedFlow debug 3 e [s, runInto (placedBlock 3 3 f) 4, placedBlock 4 4 .empty] (some 4) 4,
        #[0, 1, 75, 1], none) := by
  have hnew : (guardedFlow debug 2 e [s, placedBlock 3 3 f] (some 3) 3).blocks.labels[rescueLabel]? = none := by
    change (((∅ : Std.HashMap Label Nat).insert (guardLabel debug) 1).insert unguardLabel 2)[rescueLabel]? = none
    rw [Std.HashMap.getElem?_insert, if_neg (by decide), Std.HashMap.getElem?_insert, if_neg (by cases debug <;> decide),
      Std.HashMap.getElem?_empty]
  rw [ControlFlow.label, ControlFlow.index_new hnew]
  rfl

/-- A throw ends its block. -/
theorem bare_athrow {flow : ControlFlow} (hin : flow.inBlock = true) (hframes : flow.analysis = .frames) (position : Nat) :
    flow.bare Opcode.athrow position = (flow.mapFrame (·.bare Opcode.athrow)).noSuccessor position := by
  have hends : (Opcode.isReturn Opcode.athrow || Opcode.athrow == Opcode.athrow) = true := by decide +kernel
  unfold ControlFlow.bare
  rw [if_pos hin, hframes]
  dsimp only
  rw [if_pos hends]

/-- The block of the handler throws what is on its stack, and ends. -/
theorem throw_guarded (debug : Bool) (e s p : Block) :
    (guardedFlow debug 3 e [s, p, placedBlock 4 4 .empty] (some 4) 4).bare Opcode.athrow 5 =
      guardedFlow debug 3 e [s, p, { placedBlock 4 4 thrownFrame with successor := some 5 }, placedBlock 5 5 .empty]
        none 5 := by
  have hframe : ∀ f, (guardedFlow debug 3 e [s, p, placedBlock 4 4 f] (some 4) 4).mapFrame (·.bare Opcode.athrow) =
    guardedFlow debug 3 e [s, p, placedBlock 4 4 (f.bare Opcode.athrow)] (some 4) 4 := fun _ => rfl
  rw [bare_athrow rfl rfl, hframe, frames_guarded.2.2.2]
  rfl

section Recorded

variable (ctx : Context) (m : MethodDraft) {code : Bytes} {flow flow' : ControlFlow}

/-- What a label leaves alone. -/
theorem record_label_of {l : Label} (h : flow.label l code = (flow', code, none)) :
    MethodDraft.record ctx { m with code, flow } (.label l) = (ctx, { m with code, flow := flow' }) := by
  unfold record MethodDraft.label mapFlow
  dsimp only
  rw [h]
  rfl

/-- What an instruction without operands leaves alone. -/
theorem record_bare_of {op : UInt8} (code' : Bytes) (hcode : code ++ #[op] = code') (h : flow.bare op code'.size = flow') :
    MethodDraft.record ctx { m with code, flow } (.instruction (.bare op)) =
    (ctx, { m with code := code', flow := flow' }) := by
  subst hcode h
  rfl

end Recorded

/-- The events of the method leave its code, its labels and its flow. -/
theorem record_guarded (ctx : Context) (debug : Bool) (descriptor : String) :
    (guardedMethod descriptor).recordAll ctx (guardedBody debug) = (ctx, { guardedMethod descriptor with
      code := #[0, 1, 75, 1, 191], handlers := #[guardHandler debug], flow := guardedEnd debug }) := by
  let m : MethodDraft := { guardedMethod descriptor with handlers := #[guardHandler debug] }
  have hstore : ∀ {flow flow' flow'' : ControlFlow}, flow.moveLocal Opcode.astore 0 3 = flow' → flow'.analysis = .frames →
      flow'.split #[0, 1, 75] = (flow'', #[0, 1, 75], none) →
      MethodDraft.record ctx { m with code := #[0, 1], flow } (.instruction (.moveLocal Opcode.astore 0)) =
        (ctx, { m with code := #[0, 1, 75], flow := flow'' }) := by
    rintro flow flow' flow'' rfl hframes hsplit
    have hbytes : moveLocalBytes Opcode.astore 0 = #[75] := by decide +kernel
    have hstores : decide (Opcode.astore ≥ Opcode.istore) = true := by decide +kernel
    have hmove : flow.moveLocal Opcode.astore (0 : UInt16).toNat (#[0, 1] ++ #[75] : Bytes).size =
      flow.moveLocal Opcode.astore 0 3 := rfl
    change moveLocal ctx { m with code := #[0, 1], flow } Opcode.astore 0 = _
    unfold moveLocal
    dsimp only [useLocals, emit, advance, mapFlow]
    rw [hbytes, hmove, hframes, hstores,
      if_pos (show (true && Analysis.frames == Analysis.frames && !m.handlers.isEmpty) = true from rfl),
      show (#[0, 1] ++ #[75] : Bytes) = #[0, 1, 75] from rfl, hsplit]
    rfl
  unfold guardedBody
  rw [recordAll]
  change recordAll ctx { m with code := #[], flow := .start .frames } _ = _
  rw [recordAll, record_label_of ctx m (label_guard debug), recordAll, record_bare_of ctx m #[0] rfl (bare_guarded debug),
    recordAll, record_label_of ctx m (label_unguard debug _), recordAll,
    record_bare_of ctx m #[0, 1] rfl (push_guarded debug _), recordAll,
    hstore (store_guarded debug _) rfl (split_guarded debug _ _), recordAll,
    record_bare_of ctx m #[0, 1, 75, 1] rfl (push_again_guarded debug _ _), recordAll,
    record_label_of ctx m (label_rescue debug _ _ _), recordAll,
    record_bare_of ctx m #[0, 1, 75, 1, 191] rfl (throw_guarded debug _ _ _)]
  rfl

/-- The types of the handler. -/
def rescueTypes : TypeTable where
  entries := #[.normal throwableClass]
  lookup := (∅ : Std.HashMap TypeEntry Nat).insert (.normal throwableClass) 0
  merged := ∅

/-- The class of all that can be thrown is the first type of the table. -/
theorem addNormal_throwable : TypeTable.empty.addNormal throwableClass = (0, rescueTypes) := by
  unfold TypeTable.addNormal TypeTable.add
  rw [show TypeTable.empty.lookup = ∅ from rfl, Std.HashMap.getElem?_empty]
  rfl

/-- The edge to the handler. -/
def rescueEdge : Edge :=
  ⟨.exception (.object 0), 4⟩

/-- The flow with the edge to the handler, which does not lead from the entry if no block starts where the range does. -/
def guardedRange (debug : Bool) (entry : Frame) : ControlFlow :=
  { analysis := .frames
    blocks := ⟨#[{ guardedEntry entry with
        successor := some 2, edges := if debug then #[⟨.normal 0, 2⟩] else #[⟨.normal 0, 2⟩, rescueEdge] },
      { debug, resolved := true, owner := if debug then 1 else 0, edges := if debug then #[rescueEdge] else #[] },
      runInto (placedBlock 2 1 storedFrame) 3, runInto (placedBlock 3 3 pushedFrame) 4,
      { placedBlock 4 4 thrownFrame with successor := some 5, target := true }, placedBlock 5 5 .empty], guardLabels debug 3⟩
    first := 0, current := none, previous := some 5, height := 0, peak := 0 }

/-- The labels have the blocks behind the first one: the one that shares it, that of the store and that of the handler. -/
theorem getElem?_guardLabels (debug : Bool) : (guardLabels debug 3)[guardLabel debug]? = some 1 ∧
    (guardLabels debug 3)[unguardLabel]? = some 2 ∧ (guardLabels debug 3)[rescueLabel]? = some 4 := by
  change ((((∅ : Std.HashMap Label Nat).insert (guardLabel debug) 1).insert unguardLabel 2).insert rescueLabel
    4)[guardLabel debug]? = some 1 ∧ ((((∅ : Std.HashMap Label Nat).insert (guardLabel debug) 1).insert unguardLabel
    2).insert rescueLabel 4)[unguardLabel]? = some 2 ∧
    ((((∅ : Std.HashMap Label Nat).insert (guardLabel debug) 1).insert unguardLabel 2).insert rescueLabel 4)[rescueLabel]? =
    some 4
  refine ⟨?_, ?_, Std.HashMap.getElem?_insert_self⟩
  · rw [Std.HashMap.getElem?_insert, if_neg (by cases debug <;> decide), Std.HashMap.getElem?_insert,
      if_neg (by cases debug <;> decide), Std.HashMap.getElem?_insert_self]
  · rw [Std.HashMap.getElem?_insert, if_neg (by decide), Std.HashMap.getElem?_insert_self]

/-- The handler gets an edge from the block of the entry, if a block starts where its range does. -/
theorem addFramedHandler_guarded (debug : Bool) :
    ControlFlow.addFramedHandler (guardedEnd debug, .empty) (guardHandler debug) =
    (guardedRange debug .empty, rescueTypes) := by
  obtain ⟨hguard, hunguard, hrescue⟩ := getElem?_guardLabels debug
  unfold ControlFlow.addFramedHandler ControlFlow.coveredBlocks
  dsimp only [guardHandler, Option.getD_none]
  rw [addNormal_throwable]
  dsimp only
  rw [ControlFlow.index_known (show (guardedEnd debug).blocks.labels[rescueLabel]? = some 4 from hrescue)]
  dsimp only
  rw [ControlFlow.index_known (show ((guardedEnd debug).markTarget 4).blocks.labels[guardLabel debug]? = some 1 from hguard)]
  dsimp only
  rw [ControlFlow.index_known (show ((guardedEnd debug).markTarget 4).blocks.labels[unguardLabel]? = some 2 from hunguard)]
  dsimp only
  cases debug <;> rfl

/-- The frame of the entry, with what its local holds. -/
def guardedInput (entry : FrameType) : Frame :=
  .entering #[entry] #[]

/-- The first local when the method is entered, for what its parameter is read as. -/
theorem enter_guarded (types : TypeTable) (t : FrameType) (p : String) {descriptor : String}
    (hparameters : Descriptor.parameterTypes descriptor = [p])
    (ht : FrameType.ofDescriptor types p = (.ok t, types)) (hwide : t.isWide = false) :
    Frame.empty.enter types ((guardedMethod descriptor).frameMethod spinContext) = (guardedInput t, types, none) := by
  have hlocals : Frame.parameterLocals #[] types [p] = (#[t], types, none) := by
    unfold Frame.parameterLocals
    rw [ht]
    simp [hwide, Frame.parameterLocals]
  have hstatic : AccessFlags.isStatic (guardedMethod descriptor).access = true := by
    change AccessFlags.isStatic 9 = true
    decide +kernel
  unfold Frame.enter
  rw [show ((guardedMethod descriptor).frameMethod spinContext).descriptor = descriptor from rfl, hparameters,
    show ((guardedMethod descriptor).frameMethod spinContext).isStatic = true from hstatic, if_pos rfl]
  dsimp only
  rw [hlocals]
  rfl

/-- The finished search for frames. -/
def guardedSearch (debug : Bool) (entry : FrameType) : ControlFlow.Search :=
  let flow := guardedRange debug (guardedInput entry)
  (flow.beginSearch rescueTypes).run .empty "" (ControlFlow.roundBound .empty 1 flow.blocks)

/-- The types once the frames have been collected. -/
def guardedTypes (debug : Bool) (entry : FrameType) : TypeTable :=
  let s := guardedSearch debug entry
  ((s.blocks.chain 0).foldl (ControlFlow.collectBlock 5 s.blocks) (⟨s.maxStack, #[⟨0, #[entry], #[]⟩], #[]⟩, s.types)).2

/-- What the search finds: the local at the entry, where the range starts, and what the handler takes the local for. -/
structure GuardedAs (blocks : Blocks) (entry seen : FrameType) : Prop where
  reachable : (blocks.get 0).reachable = true
  entry : (blocks.get 0).frame.map (fun f => (f.locals, f.stack)) = some (#[entry], #[])
  position : (blocks.get 0).position = 0
  successor : (blocks.get 0).successor = some 2
  behind : (blocks.get 2).position = 1
  owner : blocks.owner 4 = 4
  seen : (blocks.get 4).frame.map (·.locals) = some #[seen]

/-- The search ends without a conflict and with a small type table, and finds these. -/
structure Guards (debug : Bool) (entry seen : FrameType) : Prop where
  conflict : (guardedSearch debug entry).conflict = none
  roomy : (guardedTypes debug entry).Roomy
  found : GuardedAs (guardedSearch debug entry).blocks entry seen

/-- With an int in the first local, the handler takes the local for unusable. -/
theorem guards_int : Guards false .integer .top :=
  ⟨by decide +kernel, by decide +kernel, by decide +kernel, by decide +kernel, by decide +kernel, by decide +kernel,
    by decide +kernel, by decide +kernel, by decide +kernel⟩

/-- Where no block starts with the range, the handler does not see the int and takes the local for null. -/
theorem guards_debug : Guards true .integer .null :=
  ⟨by decide +kernel, by decide +kernel, by decide +kernel, by decide +kernel, by decide +kernel, by decide +kernel,
    by decide +kernel, by decide +kernel, by decide +kernel⟩

/-- With nothing in the first local, the handler takes the local for null. -/
theorem guards_void : Guards false .unset .null :=
  ⟨by decide +kernel, by decide +kernel, by decide +kernel, by decide +kernel, by decide +kernel, by decide +kernel,
    by decide +kernel, by decide +kernel, by decide +kernel⟩

/-- The search ends without a conflict and finds what the handler takes the local for. -/
theorem computeFrames_guarded {debug : Bool} {descriptor : String} {entry seen : FrameType}
    (henter : Frame.empty.enter rescueTypes ((guardedMethod descriptor).frameMethod spinContext) =
      (guardedInput entry, rescueTypes, none))
    (hguards : Guards debug entry seen) :
    ∃ analysis solved types,
      (guardedEnd debug).computeFrames [guardHandler debug]
        ((guardedMethod descriptor).frameMethod spinContext) 5 .empty .empty =
        (.ok analysis, solved, types) ∧ types.Roomy ∧ GuardedAs solved.blocks entry seen := by
  have hentered : (guardedRange debug .empty).enterFirst rescueTypes ((guardedMethod descriptor).frameMethod spinContext) =
      (guardedRange debug (guardedInput entry), guardedInput entry, rescueTypes, none) := by
    have hframe : ((guardedRange debug .empty).blocks.get (guardedRange debug .empty).first).frame.getD
      Frame.empty = .empty := rfl
    rw [ControlFlow.enterFirst_eq, hframe, henter]
    rfl
  unfold ControlFlow.computeFrames
  rw [List.foldl_cons, List.foldl_nil, addFramedHandler_guarded]
  dsimp only
  rw [hentered]
  dsimp only
  have hnone : (((guardedRange debug (guardedInput entry)).beginSearch rescueTypes).run .empty
      ((guardedMethod descriptor).frameMethod spinContext).className
        (ControlFlow.roundBound .empty (guardedInput entry).locals.size
        (guardedRange debug (guardedInput entry)).blocks)).conflict = none := hguards.conflict
  rw [hnone]
  exact ⟨_, _, _, rfl, hguards.roomy, hguards.found⟩

/-- The range covers the first instruction, and the handler starts behind the fourth one. -/
theorem position_guardedEnd (debug : Bool) : (guardedEnd debug).blocks.position (guardLabel debug) = some 0 ∧
    (guardedEnd debug).blocks.position unguardLabel = some 1 ∧ (guardedEnd debug).blocks.position rescueLabel = some 4 := by
  obtain ⟨hguard, hunguard, hrescue⟩ := getElem?_guardLabels debug
  unfold Blocks.position
  rw [show (guardedEnd debug).blocks.labels = guardLabels debug 3 from rfl, hguard, hunguard, hrescue]
  exact ⟨rfl, rfl, rfl⟩

/-- The instruction in the range stands at the front. -/
theorem mem_items_guarded (debug : Bool) (descriptor : String) :
    (0, Instruction.bare 0) ∈ (guardedMethod descriptor).items spinContext (guardedBody debug) := by
  have hlabel := record_label_of spinContext { guardedMethod descriptor with handlers := #[guardHandler debug] }
    (label_guard debug)
  unfold guardedBody
  rw [items, items, items]
  refine List.mem_append_right _ (List.mem_append_right _ (List.mem_append_left _ ?_))
  change (0, Instruction.bare 0) ∈ [((record spinContext { guardedMethod descriptor with
      code := #[], handlers := #[guardHandler debug], flow := .start .frames } (.label (guardLabel debug))).2.code.size,
    Instruction.bare 0)]
  rw [hlabel]
  exact List.mem_cons_self

/-- If the handler sees the locals of its range, then it has taken in that of the entry. -/
theorem sees_guarded {debug : Bool} {descriptor : String} {entry seen : FrameType} {solved : ControlFlow} {types : TypeTable}
    (hroomy : types.Roomy) (hfound : GuardedAs solved.blocks entry seen)
    (hsees : ControlFlow.HandlerSees .empty "" ((guardedMethod descriptor).items spinContext (guardedBody debug))
      (guardedEnd debug) solved types (guardHandler debug)) :
    Frame.Sees .empty types #[seen] #[entry] := by
  obtain ⟨hguard, hunguard, hrescue⟩ := position_guardedEnd debug
  obtain ⟨f, hf, hinput⟩ := Option.map_eq_some_iff.1 hfound.entry
  obtain ⟨g, hg, hlocals⟩ := Option.map_eq_some_iff.1 hfound.seen
  have hspans : solved.blocks.Spans 0 0 := by
    refine ⟨Nat.le_of_eq hfound.position, fun next hnext => ?_⟩
    obtain rfl := Option.some.inj (hfound.successor.symm.trans hnext)
    rw [hfound.behind]
    exact Nat.one_pos
  have h := hsees 0 1 4 4 hguard hunguard hrescue (getElem?_guardLabels debug).2.2 0 f hfound.reachable hf (0, .bare 0)
    (mem_items_guarded debug descriptor) (Nat.le_refl 0) Nat.one_pos hspans
  dsimp only at h
  rw [hfound.position, operationsBetween_self, hfound.owner] at h
  have h := ((h trivial hroomy).2 g hg).2.1
  rw [hlocals] at h
  change Frame.Sees _ _ _ f.locals at h
  rwa [(Prod.mk.inj hinput).1] at h

/-- A method with an int is entered with values. -/
theorem takesValues_guarded : ((guardedMethod "(I)V").frameMethod spinContext).TakesValues := by
  intro p hp
  rw [show ((guardedMethod "(I)V").frameMethod spinContext).descriptor = "(I)V" from rfl,
    ControlFlow.parameterTypes_int] at hp
  obtain rfl := List.mem_singleton.1 hp
  decide

/-- No label is placed twice. -/
theorem placed_guardedBody (debug : Bool) : ((guardedBody debug).filterMap CodeEvent.placed?).Nodup := by
  cases debug <;> decide

/-- What the handler sees of an int that is given to the method: the local holds no value of use. -/
theorem handlerSees_computeFrames_guarded :
    let r := (guardedMethod "(I)V").recordAll spinContext (guardedBody false)
    ∃ analysis solved types,
      r.2.flow.computeFrames r.2.handlers.toList (r.2.frameMethod r.1) r.2.code.size r.1.types
        r.1.hierarchy = (.ok analysis, solved, types) ∧
      types.Roomy ∧ GuardedAs solved.blocks .integer .top ∧ Frame.Sees .empty types #[.top] #[.integer] := by
  intro r
  have hr : r = _ := record_guarded spinContext false "(I)V"
  obtain ⟨analysis, solved, types, hok, hroomy, hfound⟩ :=
    computeFrames_guarded (enter_guarded rescueTypes .integer "I" ControlFlow.parameterTypes_int rfl rfl) guards_int
  have hok' : r.2.flow.computeFrames r.2.handlers.toList (r.2.frameMethod r.1) r.2.code.size r.1.types r.1.hierarchy =
      (.ok analysis, solved, types) := by
    rw [hr]
    exact hok
  have hsize : r.2.code.size ≤ maxCodeLength := by
    rw [hr]
    exact (by decide : 5 ≤ maxCodeLength)
  have hbody : guardedBody false = [] ++ .tryCatch (guardLabel false) unguardLabel rescueLabel none ::
    (guardedBody false).tail := rfl
  have hsees := handlerSees_computeFrames Hierarchy.grounded_empty Std.HashMap.getElem?_empty
    (TypeTable.consistent_empty _) ⟨rfl, rfl, rfl⟩ (placed_guardedBody false) hbody List.not_mem_nil rfl
    takesValues_guarded hsize hok'
  rw [record_guarded] at hsees
  exact ⟨analysis, solved, types, hok', hroomy, hfound, sees_guarded hroomy hfound hsees⟩

/-- The frames of the method are computed, but its handler does not see all locals of its range. -/
def Unseen (debug : Bool) (descriptor : String) : Prop :=
  let r := (guardedMethod descriptor).recordAll spinContext (guardedBody debug)
  (guardedMethod descriptor).Fresh .frames ∧ ((guardedBody debug).filterMap CodeEvent.placed?).Nodup ∧
  r.2.code.size ≤ maxCodeLength ∧ ∃ analysis solved types,
      r.2.flow.computeFrames r.2.handlers.toList (r.2.frameMethod r.1) r.2.code.size r.1.types
        r.1.hierarchy = (.ok analysis, solved, types) ∧
      ¬ControlFlow.HandlerSees spinContext.hierarchy spinContext.className
        ((guardedMethod descriptor).items spinContext (guardedBody debug))
        r.2.flow solved types (guardHandler debug)

/-- Where the local at the entry does not go into what the handler takes it for, the handler does not see it. -/
theorem unseen_of_search {debug : Bool} {descriptor : String} {entry seen : FrameType}
    (henter : Frame.empty.enter rescueTypes ((guardedMethod descriptor).frameMethod spinContext) =
      (guardedInput entry, rescueTypes, none))
    (hguards : Guards debug entry seen) (hnot : ∀ types, ¬Frame.Sees .empty types #[seen] #[entry]) :
    Unseen debug descriptor := by
  unfold Unseen
  intro r
  have hr : r = _ := record_guarded spinContext debug descriptor
  obtain ⟨analysis, solved, types, hok, hroomy, hfound⟩ := computeFrames_guarded henter hguards
  refine ⟨⟨rfl, rfl, rfl⟩, placed_guardedBody debug, ?_, analysis, solved, types, ?_, fun hsees => hnot types ?_⟩
  · rw [hr]
    exact (by decide : 5 ≤ maxCodeLength)
  · rw [hr]
    exact hok
  · rw [hr] at hsees
    exact sees_guarded hroomy hfound hsees

/-- A local of another type is not taken in by one that is null. -/
theorem not_sees_null {t : FrameType} (types : TypeTable) (h : (FrameType.mergeInto .empty types .null t).2.1 = true) :
    ¬Frame.Sees .empty types #[.null] #[t] := by
  intro hsees
  obtain ⟨u, later, hu, hmerged⟩ := hsees 0 t rfl
  obtain rfl : FrameType.null = u := Option.some.inj hu
  rw [hmerged] at h
  cases h

/-- A handler does not see the locals of a range that starts at a label for debug information only, since no block starts
there, nor those of a method with a parameter of no value. Past twenty bits the word of a class is that of another one. -/
theorem not_handlerSees_guarded :
    Hierarchy.empty.Grounded ∧ Hierarchy.empty.superClass objectClass = none ∧
      TypeTable.Consistent spinContext.hierarchy spinContext.types ∧ Unseen true "(I)V" ∧ Unseen false "(V)V" ∧
      (FrameType.object (2 ^ 20)).word = (FrameType.object 0).word :=
  ⟨Hierarchy.grounded_empty, Std.HashMap.getElem?_empty, TypeTable.consistent_empty _,
    unseen_of_search (enter_guarded rescueTypes .integer "I" ControlFlow.parameterTypes_int rfl rfl) guards_debug
      fun types => not_sees_null types rfl,
    unseen_of_search (enter_guarded rescueTypes .unset "V" ControlFlow.parameterTypes_void rfl rfl) guards_void
      fun types => not_sees_null types rfl, by decide⟩

end MethodDraft

end ClassFile
