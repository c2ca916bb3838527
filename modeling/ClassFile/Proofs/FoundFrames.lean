import ClassFile.Proofs.FlowHandlers
import ClassFile.Proofs.FrameSolution
import ClassFile.Proofs.SearchMarks
import ClassFile.Proofs.SearchKeeping

/-!
# What the search has found

When frames have been computed, every block that the search has come to has a frame, whose instructions do what they did
before the search (`ControlFlow.Found`). It has been reached on the edges of other such blocks, and the frames of handlers
have taken in what its instructions may leave.
-/

namespace ClassFile

open ControlFlow.Search (total enteredHeight)

/-- Entering a method gives a frame its input and leaves its effect alone. -/
theorem Frame.effect_enter (f : Frame) (types : TypeTable) (m : Frame.Method) : (f.enter types m).1.effect = f.effect := by
  unfold Frame.enter
  dsimp only
  split <;> rfl

namespace ControlFlow

/-- What the search for frames has found out of the blocks of a flow that has edges to handlers. -/
structure Found (h : Hierarchy) (className : String) (count : Nat) (flow : ControlFlow) (final : Blocks)
    (types : TypeTable) : Prop where
  graph : Blocks.SameGraph flow.blocks final
  position : ∀ j, (final.get j).position = (flow.blocks.get j).position
  successor : ∀ j, (final.get j).successor = (flow.blocks.get j).successor
  framed : ∀ j, (final.get j).reachable = true → ∃ f, (final.get j).frame = some f ∧ f.Entered types count ∧ f.Sane types
  effects : ∀ j, (final.get j).frame.map Frame.effect = (flow.blocks.get j).frame.map Frame.effect
  visited : ∀ j f, (final.get j).frame = some f → f.entered = true → (final.get j).reachable = true
  reached : ∀ j, (final.get j).reachable = true →
    j = flow.first ∨ ∃ i, (final.get i).reachable = true ∧ ∃ e ∈ (flow.blocks.get i).edges, flow.blocks.owner e.target = j
  handled : ∀ j f, (final.get j).reachable = true → (final.get j).frame = some f → ∀ e ∈ (flow.blocks.get j).edges,
    ∀ x ∈ e.kind.handled, ∀ g, (final.get (flow.blocks.owner e.target)).frame = some g → g.entered = true ∧
      f.Takes h types className g (some x)
  heights : ∀ j f, (final.get j).frame = some f → f.entered = true →
    f.stack.size ≤ 1 + total enteredHeight final.size fun j => (final.get j).frame

section Found

variable {h : Hierarchy} {types : TypeTable} {flow : ControlFlow}

/-- Handlers only add types to the table. -/
theorem extends_addFramedHandlers (hc : TypeTable.Consistent h types) (flow : ControlFlow) (handlers : List Handler) :
    types.Extends (handlers.foldl addFramedHandler (flow, types)).2 := by
  induction handlers generalizing flow types with
  | nil => exact TypeTable.Extends.refl _
  | cons handler rest ih =>
    have htypes : (addFramedHandler (flow, types) handler).2 =
      (types.addNormal (handler.catchType.getD throwableClass)).2 := by
      unfold addFramedHandler
      rfl
    have hconsistent := hc.add (.normal (handler.catchType.getD throwableClass))
    obtain ⟨-, hext, -⟩ := TypeTable.addNormal_spec hc.sound (handler.catchType.getD throwableClass)
    unfold TypeTable.addNormal at htypes hext
    rw [List.foldl_cons]
    rw [← htypes] at hconsistent hext
    generalize addFramedHandler (flow, types) handler = state at *
    obtain ⟨covered, middle⟩ := state
    exact hext.trans (ih hconsistent covered)

/-- Entering the first block changes its input only. -/
theorem effect_enteredWith (flow : ControlFlow) (found : TypeTable) (m : Frame.Method)
    (hfirst : (flow.blocks.get flow.first).frame.isSome = true) (j : Nat) :
    ((flow.enteredWith (((flow.blocks.get flow.first).frame.getD Frame.empty).enter found m).1).blocks.get j).frame.map
    Frame.effect =
      (flow.blocks.get j).frame.map Frame.effect := by
  refine Blocks.get_modify_field (fun b => b.frame.map Frame.effect) flow.blocks flow.first ?_ j
  obtain ⟨f, hf⟩ := Option.isSome_iff_exists.1 hfirst
  rw [hf, Option.getD_some, Option.map_some, Option.map_some, Frame.effect_enter]

/-- What is left when a search is over that has found no stack of two heights. -/
theorem Search.Invariant.found {className : String} {count height : Nat}
    {entry : Array FrameType} {covered : ControlFlow} {g : Frame} {grown : TypeTable} {s : Search}
    (inv : Search.Invariant h className count covered.first entry s s.allFrames covered.first []) (hqueue : s.queue = [])
    (hmarked : Search.Marked (covered.enteredWith g).blocks covered.first s)
    (hbounded : Search.Bounded h count height s s.allFrames)
    (hcontinues : Search.Continues ((covered.enteredWith g).beginSearch grown) s s.allFrames)
    (heffect : ∀ j, ((covered.enteredWith g).blocks.get j).frame.map Frame.effect =
      (covered.blocks.get j).frame.map Frame.effect) :
    Found h className count covered s.blocks s.types := by
  have hentered : ∀ {α : Type} (p : Block → α), (∀ (b : Block) (frame : Option Frame), p { b with frame } = p b) →
      ∀ j, p ((covered.enteredWith g).blocks.get j) = p (covered.blocks.get j) := fun p hp j =>
    Blocks.get_modify_field p covered.blocks covered.first (hp _ _) j
  have hfield : ∀ {α : Type} (p : Block → α),
      (∀ (b : Block) (frame : Option Frame) (store reachable : Bool), p { b with frame, store, reachable } = p b) →
      ∀ j, p (s.blocks.get j) = p (covered.blocks.get j) := fun p hp j => by
    obtain ⟨frame, hj⟩ := hmarked.block j
    exact ((congrArg p hj).trans (hp _ _ _ _)).trans (hentered p (fun b frame => hp b frame b.store b.reachable) j)
  have hgraph := graph_enteredWith covered g
  have howner : ∀ j, s.blocks.owner j = covered.blocks.owner j := hfield Block.owner fun _ _ _ _ => rfl
  have hedges : ∀ j, (s.blocks.get j).edges = (covered.blocks.get j).edges := hfield Block.edges fun _ _ _ _ => rfl
  have hnot : ∀ j, j ∉ s.queue := fun j => by
    rw [hqueue]
    exact List.not_mem_nil
  refine ⟨⟨hmarked.size.trans hgraph.size, hedges, howner⟩, hfield Block.position fun _ _ _ _ => rfl,
    hfield Block.successor fun _ _ _ _ => rfl, fun j hj => ?_, fun j => ?_, fun j f hf hfe => ?_, fun j hj => ?_,
    fun j f hj hf e he x hx k hk => ?_, fun j f hf hfe => ?_⟩
  · obtain ⟨f, hf, hfe⟩ := inv.reached j (Or.inr hj)
    exact ⟨f, hf, inv.entered j f hf hfe, inv.sane j f hf⟩
  · exact (hcontinues.effects j).trans (heffect j)
  · exact (hcontinues.visited j f hf hfe).resolve_left (hnot j)
  · rcases (hmarked.reached j (Or.inr hj)).2 with hfirst | ⟨i, hi, e, he, hleads⟩
    · exact Or.inl hfirst
    · rw [hgraph.edges] at he
      rw [hgraph.owner] at hleads
      exact Or.inr ⟨i, hi, e, he, hleads⟩
  · rw [← hedges] at he
    rw [← howner] at hk
    rcases inv.settled j f hf hj (hnot j) e he with hsettled | ⟨-, hnone⟩
    · obtain ⟨hke, htakes | ⟨hnone, -⟩⟩ := hsettled k hk
      · rw [show e.kind.handled = some x from hx] at htakes
        exact ⟨hke, htakes⟩
      · rw [show e.kind.handled = some x from hx] at hnone
        cases hnone
    · cases hnone
  · exact Nat.le_trans (Nat.le_add_right _ _) (hbounded.heights j f hf hfe)

/-- Frames that have been computed of a flow to which handlers have been added: its first block has been entered with the
frame `g`, and the search has come to its end in `s`. -/
structure Ended (h : Hierarchy) (m : Frame.Method) (codeLength : Nat) (covered : ControlFlow) (middle grown : TypeTable)
    (g : Frame) (s : Search) (flow' : ControlFlow) (analysis : FrameAnalysis) (types' : TypeTable) : Prop where
  unsolved : covered.Unsolved h middle
  enter : ((covered.blocks.get covered.first).frame.getD Frame.empty).enter middle m = (g, grown, none)
  consistent : TypeTable.Consistent h grown
  grows : middle.Extends grown
  sane : g.Sane grown
  stack : g.stack = #[]
  input : g.InputListed grown g.locals.size
  entered : m.TakesValues → g.Entered grown g.locals.size
  run : ∃ n, ((covered.enteredWith g).beginSearch grown).run h m.className n = s
  conflict : s.conflict = none
  queue : s.queue = []
  blocks : flow'.blocks = s.blocks
  first : flow'.first = covered.first
  collected : (flow'.blocks.chain flow'.first).foldl (collectBlock codeLength flow'.blocks)
    (⟨s.maxStack, #[⟨0, g.locals, g.stack⟩], #[]⟩, s.types) = (analysis, types')

section Ended

variable {m : Frame.Method} {codeLength : Nat} {covered flow' : ControlFlow} {middle grown types' : TypeTable}
  {g : Frame} {s : Search}
variable {analysis : FrameAnalysis} {handlers : List Handler}

/-- A search that has ended has marked the blocks that it has looked at, and no others. -/
theorem Ended.marked (he : Ended h m codeLength covered middle grown g s flow' analysis types') :
    Search.Marked (covered.enteredWith g).blocks covered.first s := by
  have hfresh : ∀ j, ((covered.enteredWith g).blocks.get j).store = false ∧
    ((covered.enteredWith g).blocks.get j).reachable = false :=
    fun j => by
      refine ⟨?_, reachable_enteredWith he.unsolved g j⟩
      rw [← (he.unsolved.blocks j).store]
      exact Blocks.get_modify_field Block.store covered.blocks covered.first rfl j
  obtain ⟨n, hrun⟩ := he.run
  have hmarked := (Search.marked_beginSearch (covered.enteredWith g) grown hfresh
    (by rw [show (covered.enteredWith g).first = covered.first from rfl, first_enteredWith he.unsolved g]; rfl)).run
      rfl h m.className n
  rw [hrun] at hmarked
  exact (hmarked.resolve_left fun hsome => by simp [he.conflict] at hsome).2

/-- When frames are computed, the search comes to an end without having found a stack of two heights. -/
theorem Unsolved.ended (hg : h.Grounded) (hobject : h.superClass objectClass = none) (hu : flow.Unsolved h types)
    (hok : flow.computeFrames handlers m codeLength types h = (.ok analysis, flow', types')) :
    ∃ grown g s, Ended h m codeLength (handlers.foldl ControlFlow.addFramedHandler (flow, types)).1
      (handlers.foldl ControlFlow.addFramedHandler (flow, types)).2 grown g s flow' analysis types' := by
  have hhandled := hu.addFramedHandlers handlers
  rw [computeFrames_eq] at hok
  unfold ControlFlow.prepare at hok
  generalize handlers.foldl ControlFlow.addFramedHandler (flow, types) = r at hhandled hok ⊢
  obtain ⟨covered, middle⟩ := r
  dsimp only at hhandled hok ⊢
  rw [enterFirst_eq] at hok
  dsimp only at hok
  have hunentered : ((covered.blocks.get covered.first).frame.getD Frame.empty).Unentered middle := by
    cases hf : (covered.blocks.get covered.first).frame with
    | none => exact Frame.unentered_empty middle
    | some f => exact (hhandled.blocks covered.first).frame f hf
  obtain ⟨g, grown, failure, henter, hc, hgrown, hsane, hstack, hinput, hentered⟩ := hunentered.enter hhandled.consistent m
  rw [henter] at hok
  cases failure with
  | some e => cases hok
  | none =>
    dsimp only at hok
    obtain ⟨rounds, hle, hdone, -, hrounds⟩ := hhandled.ends hg hobject m.className hc hgrown hsane hstack hinput
    rw [hrounds _ hle] at hok
    generalize hrun : (Search.step h m.className)^[rounds] ((covered.enteredWith g).beginSearch grown) = s at hok hdone
    unfold conclude at hok
    cases hconflict : s.conflict with
    | some offset =>
      rw [hconflict] at hok
      cases hok
    | none =>
      have hqueue : s.queue = [] := by simpa [Search.isDone, hconflict] using hdone
      rw [hconflict] at hok
      change ((Except.ok _, _, _) : Except Error FrameAnalysis × ControlFlow × TypeTable) = _ at hok
      obtain ⟨hanalysis, hrest⟩ := Prod.mk.inj hok
      obtain ⟨rfl, rfl⟩ := Prod.mk.inj hrest
      obtain rfl := Except.ok.inj hanalysis
      exact ⟨grown, g, s, hhandled, henter, hc, hgrown, hsane, hstack, hinput, hentered,
        ⟨rounds, (hrounds _ (Nat.le_refl _)).trans hrun⟩, hconflict, hqueue, rfl, rfl, rfl⟩

end Ended

/-- Frames that have been computed are what the search has found of a flow to which handlers have been added. -/
theorem Unsolved.found (hg : h.Grounded) (hobject : h.superClass objectClass = none) {flow' : ControlFlow}
    (hu : flow.Unsolved h types) (hfirst : (flow.blocks.get flow.first).frame.isSome = true)
    {handlers : List Handler} {m : Frame.Method}
    (hm : m.TakesValues) {codeLength : Nat} {analysis : FrameAnalysis} {types' : TypeTable}
    (hcovered : Covered handlers flow (handlers.foldl ControlFlow.addFramedHandler (flow, types)).1)
    (hok : flow.computeFrames handlers m codeLength types h = (.ok analysis, flow', types')) :
    ∃ (count n : Nat) (entry : ComputedFrame) (found : TypeTable),
      Found h m.className count (handlers.foldl ControlFlow.addFramedHandler (flow, types)).1 flow'.blocks found ∧
        TypeTable.Consistent h found ∧ types.Extends found ∧ flow'.first = flow.first ∧
        (flow'.blocks.chain flow'.first).foldl (collectBlock codeLength flow'.blocks) (⟨n, #[entry], #[]⟩, found) =
        (analysis, types') := by
  have hext := extends_addFramedHandlers hu.consistent flow handlers
  obtain ⟨grown, g, s, he⟩ := hu.ended hg hobject hok
  generalize handlers.foldl ControlFlow.addFramedHandler (flow, types) = r at hcovered hext he ⊢
  obtain ⟨covered, middle⟩ := r
  dsimp only at hcovered hext he ⊢
  have hno : ¬s.conflict.isSome = true := by simp [he.conflict]
  obtain ⟨n, hrun⟩ := he.run
  rw [← hcovered.frame, ← hcovered.first] at hfirst
  have heffect := effect_enteredWith covered middle m hfirst
  rw [he.enter] at heffect
  have hstart := he.unsolved.beginSearch m.className he.consistent he.grows he.sane (he.entered hm) he.stack
  have hbegun : Search.Continues ((covered.enteredWith g).beginSearch grown) ((covered.enteredWith g).beginSearch grown)
      ((covered.enteredWith g).beginSearch grown).allFrames := by
    refine ⟨TypeTable.Extends.refl _, fun _ => rfl, fun j f hf hfe => Or.inl ?_⟩
    obtain ⟨rfl, -⟩ := entered_enteredWith he.unsolved g hf hfe
    exact List.mem_singleton_self _
  have hinv := hstart.run hg hobject n rfl
  have hbounded := (he.unsolved.bounded he.consistent he.grows he.sane he.input he.stack).after m.className hg hobject n rfl
  have hcontinues := (Search.keeps_continues h m.className g.locals.size covered.first g.locals
    ((covered.enteredWith g).beginSearch grown)).run hg hobject n hstart rfl hbegun
  rw [hrun] at hinv hbounded hcontinues
  have inv := (hinv.resolve_left hno).2
  have hcontinues := hcontinues.resolve_left hno
  refine ⟨g.locals.size, s.maxStack, ⟨0, g.locals, g.stack⟩, s.types, ?_, inv.consistent,
    (hext.trans he.grows).trans hcontinues.types, he.first.trans hcovered.first, he.collected⟩
  rw [he.blocks]
  exact inv.found he.queue he.marked (hbounded.resolve_left hno) hcontinues heffect

end Found

end ControlFlow

end ClassFile
