import ClassFile.Flow.Graph

/-!
# Solving the control flow

Two questions to a finished control flow: how high the operand stack can grow, and with which frame each block is entered.
The first is answered by one walk over the blocks. The second is the least solution of the data flow equations, found with a
list of blocks whose frame changed since their successors were last looked at.

The list runs for as many rounds as slots can change: every round but the first answers a change of some slot, and a slot
climbs a chain no longer than the longest chain of superclasses and a few steps more.
-/

namespace ClassFile

/-- An exception handler: the range it covers, where it starts, and what it catches. -/
structure Handler where
  start : Label
  stop : Label
  handler : Label
  catchType : Option String
  deriving DecidableEq, Repr, Inhabited

/-- The frame with which a block is entered. -/
structure ComputedFrame where
  offset : Nat
  locals : Array FrameType
  stack : Array FrameType
  deriving DecidableEq, Repr, Inhabited

/-- What the computation of frames finds. -/
structure FrameAnalysis where
  maxStack : Nat
  /-- The frame of the method's entry, and then those to be written, in the order of the code. -/
  frames : Array ComputedFrame
  /-- Ranges of code that is never reached. -/
  dead : Array (Nat × Nat)
  deriving Repr, Inhabited

namespace ControlFlow

/-- Blocks from that of one label up to that of another. -/
def coveredBlocks (flow : ControlFlow) (start stop : Label) : List Nat × ControlFlow :=
  let (i, flow) := flow.index start
  let (j, flow) := flow.index stop
  let i := flow.blocks.owner i
  let j := flow.blocks.owner j
  (flow.blocks.chainFrom (some j) flow.blocks.size i, flow)

/-- Adds an edge to each of the blocks. -/
def addEdges (flow : ControlFlow) (e : Edge) (blocks : List Nat) : ControlFlow :=
  blocks.foldl (fun flow i => flow.modify i fun b => { b with edges := b.edges.push e }) flow

/-- Adds the edges from the blocks that a handler covers, where the stack height is computed. -/
def addMeasuredHandler (flow : ControlFlow) (h : Handler) : ControlFlow :=
  let (target, flow) := flow.index h.handler
  let (covered, flow) := flow.coveredBlocks h.start h.stop
  flow.addEdges ⟨.exception .top, target⟩ covered

/-- A walk over the blocks: those to look at, and the greatest height found. -/
structure HeightWalk where
  blocks : Blocks
  pending : List Nat
  height : Int

namespace HeightWalk

/-- Finds the block at the end of an edge, if it has not been found before. -/
def followEdge (start : Int) (walk : HeightWalk) (e : Edge) : HeightWalk :=
  if (walk.blocks.get e.target).pushed then walk
  else
    let inputHeight :=
      match e.kind with
      | .exception _ => 1
      | .normal height => start + height
    { walk with
      blocks := walk.blocks.modify e.target fun b => { b with inputHeight, pushed := true }
      pending := e.target :: walk.pending }

/-- Looks at the block found last. -/
def step (walk : HeightWalk) : HeightWalk :=
  match walk.pending with
  | [] => walk
  | i :: rest =>
    let b := walk.blocks.get i
    let walk := { walk with pending := rest, height := max walk.height (b.inputHeight + b.peak) }
    b.edges.foldl (followEdge b.inputHeight) walk

/-- Looks at `n` blocks. -/
def run : (n : Nat) → HeightWalk → HeightWalk
  | 0, walk => walk
  | n + 1, walk => if walk.pending.isEmpty then walk else run n walk.step

end HeightWalk

/-- The greatest height of the operand stack, and the flow with the handlers' edges. Every block is found once at most. -/
def maxStack (flow : ControlFlow) (handlers : List Handler) : Int × ControlFlow :=
  let flow :=
    match flow.current with
    | some i => let peak := flow.peak; flow.modify i fun b => { b with peak }
    | none => flow
  let flow := handlers.foldl addMeasuredHandler flow
  let walk := HeightWalk.run (flow.blocks.size + 1) ⟨flow.blocks, [flow.first], 0⟩
  (walk.height, { flow with blocks := walk.blocks })

/-- Adds the edges from the blocks that a handler covers, where frames are computed. -/
def addFramedHandler (state : ControlFlow × TypeTable) (h : Handler) : ControlFlow × TypeTable :=
  let (flow, types) := state
  let (i, types) := types.addNormal (h.catchType.getD throwableClass)
  let (target, flow) := flow.index h.handler
  let flow := flow.markTarget target
  let target := flow.blocks.owner target
  let (covered, flow) := flow.coveredBlocks h.start h.stop
  (flow.addEdges ⟨.exception (.object i), target⟩ covered, types)

/-- The state of the search for frames. -/
structure Search where
  blocks : Blocks
  types : TypeTable
  /-- Blocks whose successors are to be looked at, the next one first. -/
  queue : List Nat
  /-- For each block, whether it is in the queue. -/
  queued : Array Bool
  maxStack : Nat
  /-- Position of a block that is reached with two stack heights. -/
  conflict : Option Nat

namespace Search

/-- Merges the frame of a block into that of the block at the end of an edge. The frame of the block itself is held apart,
since the edge may lead back. -/
def followEdge (h : Hierarchy) (className : String) (i : Nat) (state : Search × Frame) (e : Edge) : Search × Frame :=
  let (s, frame) := state
  if s.conflict.isSome then (s, frame)
  else
    let ⟨blocks, types, queue, queued, maxStack, _⟩ := s
    let target := blocks.owner e.target
    let handled :=
      match e.kind with
      | .exception type => some type
      | .normal _ => none
    let (merged, blocks, frame, types) :=
      if target = i then
        let (merged, updated, types) := frame.merge frame handled className h types
        (merged, blocks, updated, types)
      else
        let targetFrame := (blocks.get target).frame
        let blocks := blocks.modify target fun b => { b with frame := none }
        match targetFrame with
        | some targetFrame =>
          let (merged, updated, types) := frame.merge targetFrame handled className h types
          (merged, blocks.modify target fun b => { b with frame := some updated }, frame, types)
        | none => (some false, blocks, frame, types)
    match merged with
    | none => (⟨blocks, types, queue, queued, maxStack, some (blocks.get target).position⟩, frame)
    | some changed =>
      if changed && !queued.getD target true then
        (⟨blocks, types, target :: queue, queued.setIfInBounds target true, maxStack, none⟩, frame)
      else
        (⟨blocks, types, queue, queued, maxStack, none⟩, frame)

/-- Looks at the successors of the next block. -/
def step (h : Hierarchy) (className : String) (s : Search) : Search :=
  match s with
  | ⟨blocks, types, i :: queue, queued, maxStack, conflict⟩ =>
    let frame := (blocks.get i).frame
    let edges := (blocks.get i).edges
    let blocks := blocks.modify i fun b => { b with store := b.store || b.target, reachable := true, frame := none }
    let queued := queued.setIfInBounds i false
    match frame with
    | none => ⟨blocks, types, queue, queued, maxStack, conflict⟩
    | some frame =>
      let maxStack := max maxStack (frame.stack.size + frame.peak)
      let (s, frame) :=
        edges.foldl (followEdge h className i) (⟨blocks, types, queue, queued, maxStack, conflict⟩, frame)
      { s with blocks := s.blocks.modify i fun b => { b with frame := some frame } }
  | s => s

/-- Whether nothing is left to do. -/
def isDone (s : Search) : Bool :=
  s.queue.isEmpty || s.conflict.isSome

/-- Looks at the successors of `n` blocks. -/
def run (h : Hierarchy) (className : String) : (n : Nat) → Search → Search
  | 0, s => s
  | n + 1, s => if s.isDone then s else run h className n (s.step h className)

end Search

/-- How often a slot can change: from unset to null, up a chain of superclasses, down all dimensions,
and to no usable type. -/
def slotChanges (h : Hierarchy) : Nat :=
  h.size + 40

/-- Greatest height that any operand stack reaches on a way that meets every block once. -/
def heightBound (blocks : Blocks) : Nat :=
  blocks.arena.foldl (fun n b => n + ((b.frame.map fun f => f.outStack.size).getD 0)) 1

/-- A bound on the rounds of the search: the entry and, for every block, every change of its slots. -/
def roundBound (h : Hierarchy) (locals : Nat) (blocks : Blocks) : Nat :=
  2 + blocks.size * (3 + (locals + heightBound blocks) * slotChanges h)

/-- The frame and the dead range that a block of the finished search gives rise to. -/
def collectBlock (codeLength : Nat) (blocks : Blocks) (state : FrameAnalysis × TypeTable) (i : Nat) :
    FrameAnalysis × TypeTable :=
  let (⟨maxStack, frames, dead⟩, types) := state
  let b := blocks.get i
  let frames :=
    match b.frame with
    | some frame => if b.store then frames.push ⟨b.position, frame.locals, frame.stack⟩ else frames
    | none => frames
  let stop := (b.successor.map fun next => (blocks.get next).position).getD codeLength
  if !b.reachable && stop > b.position then
    let (throwable, types) := types.addNormal throwableClass
    (⟨max maxStack 1, frames.push ⟨b.position, #[], #[.object throwable]⟩, dead.push (b.position, stop)⟩, types)
  else (⟨maxStack, frames, dead⟩, types)

/-- The start of the search: the first block is to be looked at. -/
def beginSearch (flow : ControlFlow) (types : TypeTable) : Search :=
  { blocks := flow.blocks, types, queue := [flow.first]
    queued := (Array.replicate flow.blocks.size false).setIfInBounds flow.first true
    maxStack := 0, conflict := none }

/-- The flow in which the first block is entered with the receiver and the parameters of the method. -/
def enterFirst (flow : ControlFlow) (types : TypeTable) (m : Frame.Method) :
    ControlFlow × Frame × TypeTable × Option Error :=
  let frame := (flow.blocks.get flow.first).frame.getD Frame.empty
  let (frame, types, failure) := frame.enter types m
  (flow.modify flow.first fun b => { b with frame := some frame }, frame, types, failure)

/-- The frame with which every block is entered. The flow comes with the handlers' edges. -/
def computeFrames (flow : ControlFlow) (handlers : List Handler) (m : Frame.Method) (codeLength : Nat)
    (types : TypeTable) (h : Hierarchy) : Except Error FrameAnalysis × ControlFlow × TypeTable :=
  let (flow, types) := handlers.foldl addFramedHandler (flow, types)
  let (flow, entry, types, failure) := flow.enterFirst types m
  match failure with
  | some e => (.error e, flow, types)
  | none =>
    let rounds := roundBound h entry.locals.size flow.blocks
    let s := (flow.beginSearch types).run h m.className rounds
    let flow := { flow with blocks := s.blocks }
    match s.conflict with
    | some offset =>
      (.error (.unequalStackHeights (m.className ++ "." ++ m.name ++ m.descriptor) offset), flow, s.types)
    | none =>
      let initial : FrameAnalysis := ⟨s.maxStack, #[⟨0, entry.locals, entry.stack⟩], #[]⟩
      let (analysis, types) :=
        (flow.blocks.chain flow.first).foldl (collectBlock codeLength flow.blocks) (initial, s.types)
      (.ok analysis, flow, types)

end ControlFlow

end ClassFile
