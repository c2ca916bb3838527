import ClassFile.Proofs.FlowPlacing

/-!
# Handlers of stretches

Where frames are computed, a handler marks the block that it starts with and adds an edge there to every block that it covers
(`ControlFlow.Covered`). All else stays as the stretches of the code have left it.
-/

namespace ClassFile

namespace Blocks

/-- The block of a label shares that of another one at most. -/
def Owned (blocks : Blocks) : Prop :=
  ∀ (l : Label) (i : Nat), blocks.labels[l]? = some i → blocks.owner i < blocks.size ∧
    blocks.owner (blocks.owner i) = blocks.owner i

/-- Blocks that are added or marked leave the others to their owners. -/
theorem Owned.calm {blocks blocks' : Blocks} (ho : blocks.Owned) (hl : blocks.Labelled) (hcalm : blocks.Calm blocks') :
    blocks'.Owned := by
  intro l i hi
  rcases hcalm.named l i hi with hi | ⟨hle, hlt, -⟩
  · obtain ⟨hlt, howner⟩ := ho l i hi
    have hsame : blocks'.owner i = blocks.owner i := (hcalm.get i (hl.bound l i hi)).owner
    have hsame' : blocks'.owner (blocks.owner i) = blocks.owner (blocks.owner i) := (hcalm.get _ hlt).owner
    rw [hsame, hsame']
    exact ⟨Nat.lt_of_lt_of_le hlt hcalm.size, howner⟩
  · have howner : blocks'.owner i = i := ((hcalm.added i hle).2.2 hlt).owner
    rw [howner]
    exact ⟨hlt, howner⟩

end Blocks

namespace ControlFlow

/-- Where blocks stand for stretches, a label's block shares that of another one at most. -/
theorem Stretched.owned {h : Hierarchy} {types : TypeTable} {flow : ControlFlow} {size : Nat} {c : Course}
    (hs : flow.Stretched h types size c) : flow.blocks.Owned := by
  intro l i hi
  have hknown := hs.names.known l i hi
  by_cases hr : (flow.blocks.get i).resolved = true ∧ l.debug = false
  · obtain ⟨s, hmem, howner, -⟩ := hknown.placed hr.1 hr.2
    obtain ⟨next, hholds⟩ := hs.holds hmem
    have hself : flow.blocks.owner i = s.block := howner
    rw [hself]
    exact ⟨hholds.lt_size, hholds.owner⟩
  · rw [not_and, Bool.not_eq_false] at hr
    have howner : flow.blocks.owner i = i := (hknown.idle ((Bool.eq_false_or_eq_true _).symm.imp_right hr)).1.owner
    rw [howner]
    exact ⟨hs.names.labelled.bound l i hi, howner⟩

/-- A flow to which edges to handlers have been added: they lead to the blocks of the labels where
handlers start, which are marked. -/
structure Covered (handlers : List Handler) (flow flow' : ControlFlow) : Prop where
  framed : flow'.analysis = flow.analysis
  first : flow'.first = flow.first
  size : flow.blocks.size ≤ flow'.blocks.size
  labels : ∀ (l : Label) (i : Nat), flow.blocks.labels[l]? = some i → flow'.blocks.labels[l]? = some i
  position : ∀ j < flow.blocks.size, (flow'.blocks.get j).position = (flow.blocks.get j).position
  resolved : ∀ j < flow.blocks.size, (flow'.blocks.get j).resolved = (flow.blocks.get j).resolved
  owner : ∀ j < flow.blocks.size, (flow'.blocks.get j).owner = (flow.blocks.get j).owner
  successor : ∀ j < flow.blocks.size, (flow'.blocks.get j).successor = (flow.blocks.get j).successor
  frame : ∀ j, (flow'.blocks.get j).frame = (flow.blocks.get j).frame
  target : ∀ j, (flow.blocks.get j).target = true → (flow'.blocks.get j).target = true
  edges : ∀ j, ∀ e ∈ (flow'.blocks.get j).edges, e ∈ (flow.blocks.get j).edges ∨ e.target < flow'.blocks.size ∧
    ∃ handler ∈ handlers, ∃ i < flow'.blocks.size, flow'.blocks.labels[handler.handler]? = some i ∧
      flow'.blocks.owner e.target = flow'.blocks.owner i
  marks : ∀ handler ∈ handlers, ∃ i < flow'.blocks.size, flow'.blocks.labels[handler.handler]? = some i ∧
    (flow'.blocks.get (flow'.blocks.owner i)).target = true

section Covered

variable {h : Hierarchy} {types : TypeTable} {flow flow' flow'' : ControlFlow} {size : Nat} {c : Course}
variable {handlers handlers' : List Handler}

/-- Handlers that are added after others come behind them. -/
theorem Covered.trans (hc : Covered handlers flow flow') (hc' : Covered handlers' flow' flow'') :
    Covered (handlers ++ handlers') flow flow'' := by
  have hlt : ∀ j < flow.blocks.size, j < flow'.blocks.size := fun j hj => Nat.lt_of_lt_of_le hj hc.size
  have howner : ∀ j < flow'.blocks.size, flow''.blocks.owner j = flow'.blocks.owner j := hc'.owner
  refine ⟨hc'.framed.trans hc.framed, hc'.first.trans hc.first, Nat.le_trans hc.size hc'.size,
    fun l i hl => hc'.labels l i (hc.labels l i hl), fun j hj => (hc'.position j (hlt j hj)).trans (hc.position j hj),
    fun j hj => (hc'.resolved j (hlt j hj)).trans (hc.resolved j hj),
    fun j hj => (hc'.owner j (hlt j hj)).trans (hc.owner j hj),
    fun j hj => (hc'.successor j (hlt j hj)).trans (hc.successor j hj), fun j => (hc'.frame j).trans (hc.frame j),
    fun j ht => hc'.target j (hc.target j ht), fun j e he => ?_, fun handler hmem => ?_⟩
  · rcases hc'.edges j e he with he | ⟨hbound, handler, hmem, hi⟩
    · rcases hc.edges j e he with he | ⟨hbound, handler, hmem, i, hi, hname, hsame⟩
      · exact Or.inl he
      · refine Or.inr ⟨Nat.lt_of_lt_of_le hbound hc'.size, handler, List.mem_append_left _ hmem, i,
          Nat.lt_of_lt_of_le hi hc'.size, hc'.labels _ i hname, ?_⟩
        rw [howner _ hbound, howner _ hi, hsame]
    · exact Or.inr ⟨hbound, handler, List.mem_append_right _ hmem, hi⟩
  · rcases List.mem_append.1 hmem with hmem | hmem
    · obtain ⟨i, hi, hname, htarget⟩ := hc.marks handler hmem
      refine ⟨i, Nat.lt_of_lt_of_le hi hc'.size, hc'.labels _ i hname, ?_⟩
      rw [howner _ hi]
      exact hc'.target _ htarget
    · exact hc'.marks handler hmem

/-- Where no edge is added, no handler is. -/
theorem covered_of_calm {blocks : Blocks} (hcalm : flow.blocks.Calm blocks) : Covered [] flow { flow with blocks } := by
  have hold : ∀ j, (flow.blocks.get j).target = true → j < flow.blocks.size := fun j ht => by
    refine Nat.lt_of_not_le fun hle => ?_
    rw [Blocks.get_of_size_le hle] at ht
    cases ht
  have hnew : ∀ j, flow.blocks.size ≤ j → (blocks.get j).edges = #[] ∧ (blocks.get j).frame = none := fun j hj => by
    refine ⟨(hcalm.added j hj).2.1, ?_⟩
    by_cases hlt : j < blocks.size
    · exact ((hcalm.added j hj).2.2 hlt).frame
    · rw [Blocks.get_of_size_le (Nat.le_of_not_lt hlt)]
  refine ⟨rfl, rfl, hcalm.size, hcalm.labels, fun j hj => (hcalm.get j hj).position, fun j hj => (hcalm.get j hj).resolved,
    fun j hj => (hcalm.get j hj).owner, fun j hj => (hcalm.get j hj).successor, fun j => ?_,
    fun j ht => (hcalm.get j (hold j ht)).target ht, fun j e he => Or.inl ?_, fun _ hmem => absurd hmem List.not_mem_nil⟩
  · by_cases hj : j < flow.blocks.size
    · exact (hcalm.get j hj).frame
    · rw [Blocks.get_of_size_le (Nat.le_of_not_lt hj)]
      exact (hnew j (Nat.le_of_not_lt hj)).2
  · by_cases hj : j < flow.blocks.size
    · rwa [← (hcalm.get j hj).edges]
    · dsimp only at he
      rw [(hnew j (Nat.le_of_not_lt hj)).1] at he
      exact absurd he (Array.not_mem_empty e)

/-- An arena in which edges have been added to some blocks. -/
structure Blocks.Joined (e : Edge) (blocks blocks' : Blocks) : Prop where
  size : blocks'.size = blocks.size
  labels : blocks'.labels = blocks.labels
  block : ∀ j, ∃ edges, blocks'.get j = { blocks.get j with edges } ∧ ∀ e' ∈ edges, e' ∈ (blocks.get j).edges ∨ e' = e

/-- An edge from each of several blocks is all that changes. -/
theorem joined_addEdges (flow : ControlFlow) (e : Edge) (blocks : List Nat) :
    (flow.addEdges e blocks).analysis = flow.analysis ∧ (flow.addEdges e blocks).first = flow.first ∧
      Blocks.Joined e flow.blocks (flow.addEdges e blocks).blocks := by
  unfold ControlFlow.addEdges
  induction blocks generalizing flow with
  | nil => exact ⟨rfl, rfl, rfl, rfl, fun j => ⟨_, rfl, fun _ he => Or.inl he⟩⟩
  | cons i rest ih =>
    obtain ⟨hframed, hfirst, hjoined⟩ := ih (flow.modify i fun b => { b with edges := b.edges.push e })
    refine ⟨hframed, hfirst, hjoined.size.trans (Blocks.size_modify _ _ _), hjoined.labels, fun j => ?_⟩
    obtain ⟨edges, hget, hedges⟩ := hjoined.block j
    rw [modify_eq] at hget hedges
    dsimp only at hget hedges
    rw [Blocks.get_modify] at hget hedges
    split at hget
    · rename_i hj
      rw [if_pos hj] at hedges
      rw [hj.1]
      refine ⟨edges, hj.1 ▸ hget, fun e' he' => ?_⟩
      rcases hedges e' he' with he' | he'
      · exact (Array.mem_push.1 he')
      · exact Or.inr he'
    · rename_i hj
      rw [if_neg hj] at hedges
      exact ⟨edges, hget, hedges⟩

/-- Edges are added that lead to where a handler starts. -/
theorem covered_addEdges {e : Edge} {handler : Handler} {i : Nat} (hbound : e.target < flow.blocks.size)
    (hi : i < flow.blocks.size)
    (hname : flow.blocks.labels[handler.handler]? = some i) (hsame : flow.blocks.owner e.target = flow.blocks.owner i)
    (hmarked : (flow.blocks.get (flow.blocks.owner i)).target = true) (blocks : List Nat) :
    Covered [handler] flow (flow.addEdges e blocks) := by
  obtain ⟨hframed, hfirst, hjoined⟩ := joined_addEdges flow e blocks
  have hfield : ∀ {α : Type} (p : Block → α), (∀ (b : Block) (edges : Array Edge), p { b with edges } = p b) →
      ∀ j, p ((flow.addEdges e blocks).blocks.get j) = p (flow.blocks.get j) := fun p hp j => by
    obtain ⟨edges, hget, -⟩ := hjoined.block j
    exact (congrArg p hget).trans (hp _ _)
  have howner : ∀ j, (flow.addEdges e blocks).blocks.owner j = flow.blocks.owner j := hfield Block.owner fun _ _ => rfl
  have htarget := hfield Block.target fun _ _ => rfl
  have hlabel : (flow.addEdges e blocks).blocks.labels[handler.handler]? = some i := hjoined.labels.symm ▸ hname
  refine ⟨hframed, hfirst, Nat.le_of_eq hjoined.size.symm, fun _ _ hl => hjoined.labels.symm ▸ hl,
    fun j _ => hfield Block.position (fun _ _ => rfl) j, fun j _ => hfield Block.resolved (fun _ _ => rfl) j,
    fun j _ => howner j, fun j _ => hfield Block.successor (fun _ _ => rfl) j,
    hfield Block.frame fun _ _ => rfl, fun j ht => (htarget j).trans ht,
    fun j e' he' => ?_, fun handler' hmem => ?_⟩
  · obtain ⟨edges, hget, hedges⟩ := hjoined.block j
    rw [hget] at he'
    rcases hedges e' he' with he' | rfl
    · exact Or.inl he'
    · refine Or.inr ⟨hjoined.size.symm ▸ hbound, handler, List.mem_singleton_self _, i, hjoined.size.symm ▸ hi, hlabel, ?_⟩
      rw [howner, howner, hsame]
  · obtain rfl := List.mem_singleton.1 hmem
    refine ⟨i, hjoined.size.symm ▸ hi, hlabel, ?_⟩
    rw [howner, htarget]
    exact hmarked

/-- A handler marks the block that it starts with, and adds edges that lead there. -/
theorem covered_addFramedHandler (ho : flow.blocks.Owned) (hl : flow.blocks.Labelled) (types : TypeTable)
    (handler : Handler) :
    Covered [handler] flow (addFramedHandler (flow, types) handler).1 ∧
    (addFramedHandler (flow, types) handler).1.blocks.Owned ∧
      (addFramedHandler (flow, types) handler).1.blocks.Labelled := by
  have hcalmIndex := flow.blocks.calm_index handler.handler
  have hnamed := flow.labels_index handler.handler
  have hcalmMark : (flow.index handler.handler).2.blocks.Calm
    ((flow.index handler.handler).2.markTarget (flow.index handler.handler).1).blocks :=
    Blocks.Calm.modify _ _ fun _ => ⟨rfl, rfl, rfl, rfl, rfl, rfl, rfl, fun _ => rfl⟩
  -- the block that the handler starts with is marked
  have hindexed : (flow.index handler.handler).2.blocks.Owned := ho.calm hl hcalmIndex
  have hlabelled : (flow.index handler.handler).2.blocks.Labelled := hcalmIndex.labelled hl
  have htarget : (((flow.index handler.handler).2.markTarget (flow.index handler.handler).1).blocks.get
      (((flow.index handler.handler).2.markTarget (flow.index handler.handler).1).blocks.owner
        (flow.index handler.handler).1)).target =
        true := by
    have howner : ((flow.index handler.handler).2.markTarget (flow.index handler.handler).1).blocks.owner
      (flow.index handler.handler).1 = (flow.index handler.handler).2.blocks.owner (flow.index handler.handler).1 :=
      Blocks.get_modify_field Block.owner _ _ rfl _
    rw [howner]
    exact congrArg Block.target (Blocks.get_modify_self (hindexed _ _ hnamed).1 _)
  have hmarkedOwned := hindexed.calm hlabelled hcalmMark
  have hmarkedLabelled := hcalmMark.labelled hlabelled
  have hname := hcalmMark.labels _ _ hnamed
  have hcalm : flow.blocks.Calm ((flow.index handler.handler).2.markTarget (flow.index handler.handler).1).blocks :=
    hcalmIndex.trans hcalmMark
  have hfirst : Covered [] flow ((flow.index handler.handler).2.markTarget (flow.index handler.handler).1) :=
    covered_of_calm hcalm
  unfold ControlFlow.addFramedHandler coveredBlocks
  dsimp only
  generalize (flow.index handler.handler).1 = i at *
  generalize (flow.index handler.handler).2.markTarget i = marked at *
  -- the labels of the range get their numbers
  have hcalmRange := (marked.blocks.calm_index handler.start).trans
    ((marked.index handler.start).2.blocks.calm_index handler.stop)
  have hranged : Covered [] marked ((marked.index handler.start).2.index handler.stop).2 := covered_of_calm hcalmRange
  have hrangedOwned : ((marked.index handler.start).2.index handler.stop).2.blocks.Owned :=
    hmarkedOwned.calm hmarkedLabelled hcalmRange
  have hrangedLabelled : ((marked.index handler.start).2.index handler.stop).2.blocks.Labelled :=
    hcalmRange.labelled hmarkedLabelled
  generalize (marked.index handler.start).1 = start
  generalize ((marked.index handler.start).2.index handler.stop).1 = stop
  generalize ((marked.index handler.start).2.index handler.stop).2 = ranged at *
  obtain ⟨hbound, hself⟩ := hmarkedOwned _ i hname
  have hi := hmarkedLabelled.bound _ i hname
  have howner : ranged.blocks.owner i = marked.blocks.owner i := hranged.owner i hi
  have hedge : ranged.blocks.owner (marked.blocks.owner i) = marked.blocks.owner i := (hranged.owner _ hbound).trans hself
  have hcovered := covered_addEdges
    (e := ⟨.exception (.object (types.addNormal (handler.catchType.getD throwableClass)).1), marked.blocks.owner i⟩)
    (Nat.lt_of_lt_of_le hbound hranged.size) (Nat.lt_of_lt_of_le hi hranged.size) (hranged.labels _ i hname)
    (hedge.trans howner.symm) (howner.symm ▸ hranged.target _ htarget)
    (ranged.blocks.chainFrom (some (ranged.blocks.owner stop)) ranged.blocks.size (ranged.blocks.owner start))
  obtain ⟨-, -, hjoined⟩ := joined_addEdges ranged
    ⟨.exception (.object (types.addNormal (handler.catchType.getD throwableClass)).1), marked.blocks.owner i⟩
    (ranged.blocks.chainFrom (some (ranged.blocks.owner stop)) ranged.blocks.size (ranged.blocks.owner start))
  generalize ranged.addEdges _ _ = final at *
  have hsame : ∀ j, final.blocks.owner j = ranged.blocks.owner j := fun j => by
    obtain ⟨edges, hget, -⟩ := hjoined.block j
    have howns := congrArg Block.owner hget
    exact howns
  refine ⟨(hfirst.trans hranged).trans hcovered, fun l j hj => ?_, ⟨fun l j hj => ?_, fun l l' j hj hj' => ?_⟩⟩
  · rw [hjoined.labels] at hj
    rw [hjoined.size, hsame, hsame]
    exact hrangedOwned l j hj
  · rw [hjoined.labels] at hj
    exact hjoined.size.symm ▸ hrangedLabelled.bound l j hj
  · rw [hjoined.labels] at hj hj'
    exact hrangedLabelled.unique l l' j hj hj'

/-- Handlers mark the blocks that they start with, and add edges that lead there. -/
theorem covered_addFramedHandlers (ho : flow.blocks.Owned) (hl : flow.blocks.Labelled) (types : TypeTable)
    (handlers : List Handler) :
    Covered handlers flow (handlers.foldl addFramedHandler (flow, types)).1 := by
  induction handlers generalizing flow types with
  | nil => exact covered_of_calm (Blocks.Calm.refl _)
  | cons handler rest ih =>
    obtain ⟨hcovered, howned, hlabelled⟩ := covered_addFramedHandler ho hl types handler
    rw [List.foldl_cons]
    generalize addFramedHandler (flow, types) handler = state at *
    exact hcovered.trans (ih howned hlabelled state.2)

end Covered

end ControlFlow

end ClassFile
