import ClassFile.Flow.Graph
import ClassFile.Proofs.CodeLayout

/-!
# Places of labels in a control flow

Nothing that follows an instruction moves a label or touches what waits for it (`Blocks.Neutral`): only placing the label
does. This holds whatever is computed of the flow.
-/

namespace ClassFile

namespace ControlFlow

open Blocks (Neutral Labelled Unnamed)

variable (flow : ControlFlow)

/-- A change of a block that leaves its place and what waits for it is neutral. -/
theorem neutral_modify (i : Nat) {f : Block → Block}
    (hf : ∀ b, (f b).resolved = b.resolved ∧ (f b).position = b.position ∧ (f b).references = b.references) :
    flow.blocks.Neutral (flow.modify i f).blocks :=
  Neutral.modify flow.blocks i hf

/-- A change of the current frame leaves the labels their places. -/
theorem neutral_mapFrame (f : Frame → Frame) : flow.blocks.Neutral (flow.mapFrame f).blocks := by
  unfold mapFrame
  split
  · rename_i i _
    exact (flow.neutral_modify i (f := fun b => { b with frame := none }) fun _ => ⟨rfl, rfl, rfl⟩).trans
      (neutral_modify _ i fun _ => ⟨rfl, rfl, rfl⟩)
  · exact Neutral.refl _

/-- Running an instruction on the current frame leaves the labels their places. -/
theorem neutral_stepFrame (types : TypeTable) (f : Frame → TypeTable → Frame × TypeTable × Option Error) :
    flow.blocks.Neutral (flow.stepFrame types f).1.blocks := by
  unfold stepFrame
  split
  · rename_i i _
    have htaken := flow.neutral_modify i (f := fun b => { b with frame := none }) fun _ => ⟨rfl, rfl, rfl⟩
    dsimp only
    split
    · exact htaken.trans (neutral_modify _ i fun _ => ⟨rfl, rfl, rfl⟩)
    · exact htaken
  · exact Neutral.refl _

theorem neutral_addEdge (kind : EdgeKind) (target : Nat) : flow.blocks.Neutral (flow.addEdge kind target).blocks := by
  unfold addEdge
  split
  · exact flow.neutral_modify _ fun _ => ⟨rfl, rfl, rfl⟩
  · exact Neutral.refl _

theorem neutral_markTarget (i : Nat) : flow.blocks.Neutral (flow.markTarget i).blocks :=
  flow.neutral_modify _ fun _ => ⟨rfl, rfl, rfl⟩

theorem neutral_index (label : Label) : flow.blocks.Neutral (flow.index label).2.blocks :=
  flow.blocks.neutral_index label

theorem neutral_append (i : Nat) : flow.blocks.Neutral (flow.append i).blocks := by
  unfold append
  cases flow.previous with
  | none => exact Neutral.refl _
  | some p => exact flow.neutral_modify p fun _ => ⟨rfl, rfl, rfl⟩

theorem neutral_inheritTarget (i source : Nat) : flow.blocks.Neutral (flow.inheritTarget i source).blocks :=
  flow.neutral_modify _ fun _ => ⟨rfl, rfl, rfl⟩

theorem neutral_noSuccessor (hl : flow.blocks.Labelled) (position : Nat) :
    flow.blocks.Neutral (flow.noSuccessor position).blocks := by
  unfold noSuccessor
  split
  · have hfresh := flow.blocks.neutral_fresh
    have hnew : flow.fresh.2.blocks.Neutral (flow.fresh.2.modify flow.fresh.1
        fun b => { b with frame := some Frame.empty, resolved := true, position }).blocks :=
      Neutral.modifyUnnamed (Blocks.unnamed_fresh hl) rfl
    exact (hfresh.trans hnew).trans (neutral_append _ _)
  · cases flow.current with
    | none => exact Neutral.refl _
    | some i => exact flow.neutral_modify i (f := fun b => { b with peak := flow.peak }) fun _ => ⟨rfl, rfl, rfl⟩

theorem neutral_placeFramed (i position : Nat) : flow.blocks.Neutral (flow.placeFramed i position).blocks := by
  unfold placeFramed
  dsimp only
  split
  · rename_i j _
    exact (flow.neutral_inheritTarget j i).trans
      (neutral_modify _ i (f := fun b => { b with owner := j }) fun _ => ⟨rfl, rfl, rfl⟩)
  · have hedge := flow.neutral_addEdge (.normal 0) i
    generalize flow.addEdge (.normal 0) i = flow' at hedge
    split
    · rename_i j _
      exact (hedge.trans (flow'.neutral_inheritTarget j i)).trans
        (neutral_modify _ i (f := fun b => { b with owner := j, frame := none }) fun _ => ⟨rfl, rfl, rfl⟩)
    · exact (hedge.trans (flow'.neutral_modify i (f := fun b => { b with frame := some (b.frame.getD Frame.empty) })
        fun _ => ⟨rfl, rfl, rfl⟩)).trans (neutral_append _ i)

theorem neutral_placeMeasured (i : Nat) : flow.blocks.Neutral (flow.placeMeasured i).blocks := by
  unfold placeMeasured
  cases flow.current with
  | none => exact flow.neutral_append i
  | some j =>
    exact ((flow.neutral_modify j (f := fun b => { b with peak := flow.peak }) fun _ => ⟨rfl, rfl, rfl⟩).trans
      (neutral_addEdge _ (.normal flow.height) i)).trans (neutral_append _ i)

theorem neutral_jump (op : UInt8) (label : Label) : flow.blocks.Neutral (flow.jump op label).2.blocks := by
  have hindex := flow.neutral_index label
  unfold jump
  split
  · generalize flow.index label = r at *
    obtain ⟨target, flow'⟩ := r
    dsimp only at hindex ⊢
    split
    · exact ((hindex.trans (flow'.neutral_mapFrame (·.jump op))).trans (neutral_markTarget _ target)).trans
        (neutral_addEdge _ (.normal 0) target)
    · have hgrown : flow.blocks.Neutral (flow'.grow (Opcode.stackDelta op)).blocks := hindex
      exact hgrown.trans (neutral_addEdge _ _ target)
  · exact Neutral.refl _

/-- Whether a block ends behind a step or not, the labels keep their places. -/
theorem neutral_ended {later : ControlFlow} (hl : flow.blocks.Labelled) (h : flow.blocks.Neutral later.blocks) (ends : Bool)
    (position : Nat) : flow.blocks.Neutral (if ends then later.noSuccessor position else later).blocks := by
  split
  · exact h.trans (neutral_noSuccessor _ (h.labelled hl) position)
  · exact h

theorem neutral_bare (hl : flow.blocks.Labelled) (op : UInt8) (position : Nat) :
    flow.blocks.Neutral (flow.bare op position).blocks := by
  unfold bare
  split
  · cases hanalysis : flow.analysis with
    | frames => exact flow.neutral_ended hl (flow.neutral_mapFrame _) _ position
    | maxStack =>
      have hgrown : flow.blocks.Neutral (flow.grow (Opcode.stackDelta op)).blocks := Neutral.refl _
      exact flow.neutral_ended hl hgrown _ position
  · exact Neutral.refl _

theorem neutral_immediate (op : UInt8) (operand : Int32) : flow.blocks.Neutral (flow.immediate op operand).blocks := by
  unfold immediate
  split
  · split
    · exact flow.neutral_mapFrame _
    · split
      · exact Neutral.refl _
      · exact Neutral.refl _
  · exact Neutral.refl _

theorem neutral_moveLocal (hl : flow.blocks.Labelled) (op : UInt8) (i position : Nat) :
    flow.blocks.Neutral (flow.moveLocal op i position).blocks := by
  unfold moveLocal
  split
  · cases hanalysis : flow.analysis with
    | frames => exact flow.neutral_ended hl (flow.neutral_mapFrame _) _ position
    | maxStack =>
      have hgrown : flow.blocks.Neutral (flow.grow (Opcode.stackDelta op)).blocks := Neutral.refl _
      exact flow.neutral_ended hl hgrown _ position
  · exact Neutral.refl _

theorem neutral_follow (types : TypeTable) (f : Frame → TypeTable → Frame × TypeTable × Option Error) (delta : Int) :
    flow.blocks.Neutral (flow.follow types f delta).1.blocks := by
  unfold follow
  split
  · split
    · exact flow.neutral_stepFrame types f
    · exact Neutral.refl _
  · exact Neutral.refl _

theorem neutral_switchEdge (kind : EdgeKind) (label : Label) : flow.blocks.Neutral (switchEdge kind flow label).blocks := by
  have hedge := (flow.neutral_index label).trans (neutral_addEdge _ kind (flow.index label).1)
  unfold switchEdge
  dsimp only
  split
  · exact hedge.trans (neutral_markTarget _ _)
  · exact hedge

theorem neutral_switchEdges (kind : EdgeKind) (labels : List Label) (flow : ControlFlow) :
    flow.blocks.Neutral (labels.foldl (switchEdge kind) flow).blocks := by
  induction labels generalizing flow with
  | nil => exact Neutral.refl _
  | cons label rest ih => exact (flow.neutral_switchEdge kind label).trans (ih _)

theorem neutral_switch (hl : flow.blocks.Labelled) (defaultLabel : Label) (labels : List Label) (position : Nat) :
    flow.blocks.Neutral (flow.switch defaultLabel labels position).blocks := by
  have hedges : ∀ (kind : EdgeKind) (flow' : ControlFlow), flow.blocks.Neutral flow'.blocks →
      flow.blocks.Neutral (((defaultLabel :: labels).foldl (switchEdge kind) flow').noSuccessor position).blocks := by
    intro kind flow' h
    have hfold := h.trans (neutral_switchEdges kind (defaultLabel :: labels) flow')
    exact hfold.trans (neutral_noSuccessor _ (hfold.labelled hl) position)
  unfold switch
  split
  · split
    rename_i kind flow' heq
    split at heq
    · obtain ⟨rfl, rfl⟩ := Prod.mk.inj heq
      exact hedges _ _ (flow.neutral_mapFrame _)
    · obtain ⟨rfl, rfl⟩ := Prod.mk.inj heq
      exact hedges _ _ (Neutral.refl _)
  · exact Neutral.refl _

/-! ## Placing -/

variable {flow} {code : Bytes} {places : Label → Option Nat} {ps : List CodePiece}

/-- What placing does behind giving the block its position. -/
theorem neutral_place (i : Nat) : (flow.blocks.resolve i code.size code).1.Neutral (flow.place i code).1.blocks ∧
    (flow.place i code).2 = (flow.blocks.resolve i code.size code).2 := by
  have hresolved : (flow.resolve i code.size code).1.blocks = (flow.blocks.resolve i code.size code).1 := rfl
  unfold place
  dsimp only
  split
  · exact ⟨hresolved ▸ Neutral.refl _, rfl⟩
  · split
    · exact ⟨hresolved ▸ neutral_placeFramed _ i _, rfl⟩
    · exact ⟨hresolved ▸ neutral_placeMeasured _ i, rfl⟩

/-- A block without a label is placed: nothing was waiting. -/
theorem laid_placeUnnamed (h : Laid flow.blocks code places ps) {i : Nat} (hi : flow.blocks.Unnamed i) :
    Laid (flow.place i code).1.blocks code places ps ∧ (flow.place i code).2 = (code, none) := by
  obtain ⟨hneutral, hcode⟩ := neutral_place i
  obtain ⟨hlaid, hresolved⟩ := h.resolveUnnamed hi code.size
  exact ⟨hlaid.neutral hneutral, hcode.trans hresolved⟩

/-- Splitting a block changes nothing of the code. -/
theorem laid_split (h : Laid flow.blocks code places ps) :
    Laid (flow.split code).1.blocks code places ps ∧ (flow.split code).2 = (code, none) :=
  laid_placeUnnamed (h.neutral flow.blocks.neutral_fresh) (Blocks.unnamed_fresh h.labelled)

/-- Ending a jump changes nothing of the code. -/
theorem laid_endJump (h : Laid flow.blocks code places ps) (op : UInt8) (next : Option Bool) :
    Laid (flow.endJump op next code).1.blocks code places ps ∧ (flow.endJump op next code).2 = (code, none) := by
  have hend : ∀ flow' : ControlFlow, Laid flow'.blocks code places ps →
      Laid (if op == Opcode.goto then flow'.noSuccessor code.size else flow').blocks code places ps := by
    intro flow' h'
    split
    · exact h'.neutral (neutral_noSuccessor _ h'.labelled _)
    · exact h'
  unfold endJump
  split
  · cases next with
    | none => exact ⟨hend flow h, rfl⟩
    | some isTarget =>
      have hfresh : Laid flow.fresh.2.blocks code places ps := h.neutral flow.blocks.neutral_fresh
      have hunnamed : flow.fresh.2.blocks.Unnamed flow.fresh.1 := Blocks.unnamed_fresh h.labelled
      have hmarked : Laid (if isTarget then flow.fresh.2.markTarget flow.fresh.1 else flow.fresh.2).blocks code places ps ∧
          (if isTarget then flow.fresh.2.markTarget flow.fresh.1 else flow.fresh.2).blocks.Unnamed flow.fresh.1 := by
        cases isTarget with
        | true => exact ⟨hfresh.neutral (neutral_markTarget _ _), hunnamed⟩
        | false => exact ⟨hfresh, hunnamed⟩
      obtain ⟨hplaced, hcode⟩ := laid_placeUnnamed hmarked.1 hmarked.2
      dsimp only
      generalize (if isTarget then flow.fresh.2.markTarget flow.fresh.1 else flow.fresh.2).place flow.fresh.1 code =
        r at hplaced hcode
      obtain ⟨flow', code', overflow⟩ := r
      obtain ⟨rfl, rfl⟩ := Prod.mk.inj hcode
      exact ⟨hend flow' hplaced, rfl⟩
  · exact ⟨h, rfl⟩

/-- A label that was named has the block with which it was answered. -/
theorem labels_index (flow : ControlFlow) (label : Label) :
    (flow.index label).2.blocks.labels[label]? = some (flow.index label).1 :=
  flow.blocks.labels_index label

/-- A label is placed at the end of the code and all distances to it fit. -/
theorem laid_label (h : Laid flow.blocks code places ps) {label : Label} (hnew : places label = none)
    (hfits : (flow.label label code).2.2 = none) :
    Laid (flow.label label code).1.blocks (flow.label label code).2.1
      (fun l => if l = label then some code.size else places l) ps := by
  have hindexed := h.neutral (flow.neutral_index label)
  have hname := flow.labels_index label
  unfold ControlFlow.label at hfits ⊢
  generalize flow.index label = r at *
  obtain ⟨i, flow'⟩ := r
  obtain ⟨hneutral, hcode⟩ := neutral_place i
  dsimp only at hfits hindexed hname ⊢
  rw [hcode] at hfits ⊢
  exact (hindexed.resolve hname hnew hfits).neutral hneutral

/-- Before anything is written no label has a place. -/
theorem laid_start (analysis : Analysis) : Laid (start analysis).blocks #[] (fun _ => none) [] := by
  have hnone : ∀ offset p, ¬CodePiece.StandsAt [] offset p := by
    rintro offset p ⟨before, after, h, -⟩
    simp at h
  have hget : ∀ i, Blocks.get .empty i = {} := fun i => rfl
  have hempty : Laid .empty #[] (fun _ => none) [] :=
    ⟨rfl, fun offset _ hs => absurd hs (hnone offset _), fun offset _ _ _ _ hs => absurd hs (hnone offset _),
      fun offset _ _ _ hs => absurd hs (hnone offset _), fun i r hr => absurd hr (by simp [hget]),
      fun offset _ _ _ hs => absurd hs (hnone offset _), fun label => by simp [Blocks.position, Blocks.empty],
      fun _ _ h => (by cases h), ⟨fun label i h => by
      simp [Blocks.empty] at h, fun label _ i h => by simp [Blocks.empty] at h⟩⟩
  have hunnamed := Blocks.unnamed_fresh hempty.labelled
  have hfresh := hempty.neutral (Blocks.neutral_fresh _)
  have hpushed := hfresh.neutral (Blocks.Neutral.modify _ Blocks.empty.fresh.1
    (f := fun b => { b with pushed := true }) fun b => ⟨rfl, rfl, rfl⟩)
  exact (laid_placeUnnamed hpushed hunnamed).1

end ControlFlow

end ClassFile
