import ClassFile.Proofs.SearchStart

/-!
# The computation of frames comes to its end

Frames are computed by looking at blocks of a queue until it is empty or a stack is found to have two heights. For every
flow, whatever it was driven by, that is so after finitely many rounds: the number of rounds that the search is given never
cuts it short, and frames are what the search has found at its end.
-/

namespace ClassFile

namespace ControlFlow

/-- The flow with the handlers' edges, its first block entered. -/
def prepare (flow : ControlFlow) (handlers : List Handler) (m : Frame.Method) (types : TypeTable) :
    ControlFlow × Frame × TypeTable × Option Error :=
  let (flow, types) := handlers.foldl addFramedHandler (flow, types)
  flow.enterFirst types m

/-- What a search that is done comes to: a stack of two heights, or the frames of all blocks. -/
def conclude (flow : ControlFlow) (m : Frame.Method) (codeLength : Nat) (entry : Frame) (s : Search) :
    Except Error FrameAnalysis × ControlFlow × TypeTable :=
  let flow := { flow with blocks := s.blocks }
  match s.conflict with
  | some offset =>
    (.error (.unequalStackHeights (m.className ++ "." ++ m.name ++ m.descriptor) offset), flow, s.types)
  | none =>
    let (analysis, types) := (flow.blocks.chain flow.first).foldl (collectBlock codeLength flow.blocks)
      (⟨s.maxStack, #[⟨0, entry.locals, entry.stack⟩], #[]⟩, s.types)
    (.ok analysis, flow, types)

section Rounds

variable {h : Hierarchy} {types : TypeTable} {flow : ControlFlow}

/-- Frames are computed by preparing the flow, searching it and concluding from what was found. -/
theorem computeFrames_eq (flow : ControlFlow) (handlers : List Handler) (m : Frame.Method) (codeLength : Nat)
    (types : TypeTable) (h : Hierarchy) :
    flow.computeFrames handlers m codeLength types h =
      match flow.prepare handlers m types with
      | (ready, _, grown, some e) => (.error e, ready, grown)
      | (ready, entry, grown, none) => ready.conclude m codeLength entry
          ((ready.beginSearch grown).run h m.className (roundBound h entry.locals.size ready.blocks)) := by
  unfold computeFrames prepare
  generalize handlers.foldl addFramedHandler (flow, types) = r
  obtain ⟨handled, found⟩ := r
  dsimp only
  generalize handled.enterFirst found m = r
  obtain ⟨ready, entry, grown, failure⟩ := r
  cases failure <;> rfl

/-- The handlers' edges lead from the blocks of a flow in which the first one has been entered. -/
theorem Unsolved.prepare (hu : flow.Unsolved h types) (handlers : List Handler) (m : Frame.Method) :
    ∃ (handled : ControlFlow) (found : TypeTable) (g : Frame) (grown : TypeTable) (failure : Option Error),
      flow.prepare handlers m types = (handled.enteredWith g, g, grown, failure) ∧
      handled.Unsolved h found ∧ TypeTable.Consistent h grown ∧ found.Extends grown ∧ g.Sane grown ∧ g.stack = #[] ∧
      g.InputListed grown g.locals.size ∧ (m.TakesValues → g.Entered grown g.locals.size) := by
  have hhandled := hu.addFramedHandlers handlers
  unfold ControlFlow.prepare
  generalize handlers.foldl ControlFlow.addFramedHandler (flow, types) = r at hhandled
  obtain ⟨handled, found⟩ := r
  have hfirst : ((handled.blocks.get handled.first).frame.getD Frame.empty).Unentered found := by
    cases hf : (handled.blocks.get handled.first).frame with
    | none => exact Frame.unentered_empty found
    | some f => exact (hhandled.blocks handled.first).frame f hf
  obtain ⟨g, grown, failure, henter, hspec⟩ := hfirst.enter hhandled.consistent m
  refine ⟨handled, found, g, grown, failure, ?_, hhandled, hspec⟩
  dsimp only
  rw [enterFirst_eq, henter]

/-- The search that frames are computed by is done within the rounds that it is given. -/
theorem Unsolved.ends (hg : h.Grounded) (hobject : h.superClass objectClass = none) (hu : flow.Unsolved h types)
    {grown : TypeTable} {g : Frame} (className : String) (hc : TypeTable.Consistent h grown) (hext : types.Extends grown)
    (hsane : g.Sane grown) (hstack : g.stack = #[]) (hinput : g.InputListed grown g.locals.size) :
    ∃ k ≤ roundBound h g.locals.size (flow.enteredWith g).blocks,
      ((Search.step h className)^[k] ((flow.enteredWith g).beginSearch grown)).isDone = true ∧
      (∀ j < k, ((Search.step h className)^[j] ((flow.enteredWith g).beginSearch grown)).isDone = false) ∧
      ∀ n, k ≤ n → ((flow.enteredWith g).beginSearch grown).run h className n =
        (Search.step h className)^[k] ((flow.enteredWith g).beginSearch grown) :=
  (hu.bounded hc hext hsane hinput hstack).run hg hobject rfl rfl (hu.weight_le hg hinput hstack)

/-- Frames of a flow driven by whatever events are computed in finitely many rounds: after one of them the queue is empty or
a stack has two heights, and what that round leaves is what the frames are taken from. -/
theorem computeFrames_ends (hg : h.Grounded) (hobject : h.superClass objectClass = none) (hr : TypeTable.Reached h types)
    {events : List FlowEvent} {driven : TypeTable} (hdriven : (start .frames).driveAll types events = (flow, driven))
    (handlers : List Handler) (m : Frame.Method) :
    ∃ (ready : ControlFlow) (entry : Frame) (grown : TypeTable) (failure : Option Error) (rounds : Nat),
      flow.prepare handlers m driven = (ready, entry, grown, failure) ∧
      ((Search.step h m.className)^[rounds] (ready.beginSearch grown)).isDone = true ∧
      (∀ n < rounds, ((Search.step h m.className)^[n] (ready.beginSearch grown)).isDone = false) ∧
      ∀ codeLength, flow.computeFrames handlers m codeLength driven h =
        match failure with
        | some e => (.error e, ready, grown)
        | none => ready.conclude m codeLength entry ((Search.step h m.className)^[rounds] (ready.beginSearch grown)) := by
  have hu := (unsolved_start hr.consistent).driveAll events
  rw [hdriven] at hu
  obtain ⟨handled, found, g, grown, failure, hprepare, hhandled, hc, hext, hsane, hstack, hinput, -⟩ := hu.prepare handlers m
  obtain ⟨rounds, hle, hdone, hbefore, hrun⟩ := hhandled.ends hg hobject m.className hc hext hsane hstack hinput
  refine ⟨handled.enteredWith g, g, grown, failure, rounds, hprepare, hdone, hbefore, fun codeLength => ?_⟩
  rw [computeFrames_eq, hprepare]
  cases failure with
  | some e => rfl
  | none =>
    dsimp only
    rw [hrun _ hle]

end Rounds

/-- A loop that puts the element of an array in the place of the array, without end. -/
def elementLoop : List FlowEvent :=
  let again : Label := ⟨0, false⟩
  [.label again #[], .moveLocal Opcode.aload 0 2, .bare 3 3, .bare Opcode.aaload 4, .moveLocal Opcode.astore 0 6,
    .jump Opcode.goto again, .endJump Opcode.goto none #[25, 0, 3, 50, 58, 0, 167, 255, 250]]

/-- A static method whose parameter has no value. -/
def elementMethod : Frame.Method :=
  ⟨"a/A", "m", "(V)V", true, false, 1⟩

/-- The loop of a method with a parameter of which nothing is known: dimensions are taken off without end. -/
theorem computeFrames_ends_elementLoop :
    Hierarchy.empty.Grounded ∧ Hierarchy.empty.superClass objectClass = none ∧ TypeTable.Reached .empty .empty ∧
      ∃ (ready : ControlFlow) (entry : Frame) (grown : TypeTable) (failure : Option Error) (rounds : Nat),
        ((start .frames).driveAll .empty elementLoop).1.prepare [] elementMethod
          ((start .frames).driveAll .empty elementLoop).2 = (ready, entry, grown, failure) ∧
        ((Search.step .empty "a/A")^[rounds] (ready.beginSearch grown)).isDone = true ∧
        (∀ n < rounds, ((Search.step .empty "a/A")^[n] (ready.beginSearch grown)).isDone = false) ∧
        ∀ codeLength, ((start .frames).driveAll .empty elementLoop).1.computeFrames [] elementMethod codeLength
            ((start .frames).driveAll .empty elementLoop).2 .empty =
          match failure with
          | some e => (.error e, ready, grown)
          | none =>
            ready.conclude elementMethod codeLength entry ((Search.step .empty "a/A")^[rounds] (ready.beginSearch grown)) :=
  have hobject : Hierarchy.empty.superClass objectClass = none := Std.HashMap.getElem?_empty
  ⟨Hierarchy.grounded_empty, hobject, .empty,
    computeFrames_ends Hierarchy.grounded_empty hobject .empty (Prod.eta _).symm [] elementMethod⟩

end ControlFlow

end ClassFile
