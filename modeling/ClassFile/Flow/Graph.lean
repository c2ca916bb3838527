import ClassFile.Flow.Blocks
import ClassFile.Opcode.StackDelta
import ClassFile.Version

/-!
# Control flow

The control flow of a method is worked out while its code is written. Instructions belong to the current block. After a
return, a throw or an unconditional jump there is no current block until a label is placed, and instructions are written but
not looked at.

Where frames are computed, blocks end at every jump, so that a block is entered at its start only and left at its end only.
Where only the stack height is computed, an edge remembers the height at the jump instead.
-/

namespace ClassFile

/-- The control flow of a method under construction. -/
structure ControlFlow where
  analysis : Analysis
  blocks : Blocks
  /-- Block that the method starts with. -/
  first : Nat
  /-- Block that instructions belong to. -/
  current : Option Nat
  /-- Last block in the order of the code. -/
  previous : Option Nat
  /-- Height of the stack, counted from the input of the current block. -/
  height : Int
  /-- Greatest height of the stack in the current block. -/
  peak : Int
  deriving Inhabited

namespace ControlFlow

/-- Whether an instruction written now can be reached. -/
def inBlock (flow : ControlFlow) : Bool :=
  flow.current.isSome

/-- The flow with a block changed by a function. -/
def modify (flow : ControlFlow) (i : Nat) (f : Block → Block) : ControlFlow :=
  let ⟨analysis, blocks, first, current, previous, height, peak⟩ := flow
  ⟨analysis, blocks.modify i f, first, current, previous, height, peak⟩

/-- The frame of the current block changed by a function. -/
def mapFrame (flow : ControlFlow) (f : Frame → Frame) : ControlFlow :=
  match flow.current with
  | some i =>
    let frame := (flow.blocks.get i).frame
    let flow := flow.modify i fun b => { b with frame := none }
    let frame := frame.map f
    flow.modify i fun b => { b with frame }
  | none => flow

/-- The frame of the current block changed by a step that looks at the type table and may fail. -/
def stepFrame (flow : ControlFlow) (types : TypeTable) (f : Frame → TypeTable → Frame × TypeTable × Option Error) :
    ControlFlow × TypeTable × Option Error :=
  match flow.current with
  | some i =>
    let frame := (flow.blocks.get i).frame
    let flow := flow.modify i fun b => { b with frame := none }
    match frame with
    | some frame =>
      let (frame, types, failure) := f frame types
      (flow.modify i fun b => { b with frame := some frame }, types, failure)
    | none => (flow, types, none)
  | none => (flow, types, none)

/-- Raises the height of the stack. -/
def grow (flow : ControlFlow) (delta : Int) : ControlFlow :=
  let height := flow.height + delta
  { flow with height, peak := max flow.peak height }

/-- Adds an edge to the current block. -/
def addEdge (flow : ControlFlow) (kind : EdgeKind) (target : Nat) : ControlFlow :=
  match flow.current with
  | some i => flow.modify i fun b => { b with edges := b.edges.push ⟨kind, target⟩ }
  | none => flow

/-- Marks the owner of a block as one that jumps lead to. -/
def markTarget (flow : ControlFlow) (i : Nat) : ControlFlow :=
  flow.modify (flow.blocks.owner i) fun b => { b with target := true }

/-- The number of the block of a label. -/
def index (flow : ControlFlow) (label : Label) : Nat × ControlFlow :=
  let ⟨analysis, blocks, first, current, previous, height, peak⟩ := flow
  let (i, blocks) := blocks.index label
  (i, ⟨analysis, blocks, first, current, previous, height, peak⟩)

/-- A new block that no label names. -/
def fresh (flow : ControlFlow) : Nat × ControlFlow :=
  let ⟨analysis, blocks, first, current, previous, height, peak⟩ := flow
  let (i, blocks) := blocks.fresh
  (i, ⟨analysis, blocks, first, current, previous, height, peak⟩)

/-- Marks the block of a label as one that jumps lead to. -/
def markLabel (flow : ControlFlow) (label : Label) : ControlFlow :=
  let (i, flow) := flow.index label
  flow.markTarget i

/-- Writes the distance from a jump to its label, or leaves room for it. -/
def putReference (flow : ControlFlow) (label : Label) (origin : Nat) (code : Bytes) (wide : Bool) :
    ControlFlow × Bytes :=
  let ⟨analysis, blocks, first, current, previous, height, peak⟩ := flow
  let (blocks, code) := blocks.putReference label origin code wide
  (⟨analysis, blocks, first, current, previous, height, peak⟩, code)

/-- Gives a block its position and fills the room that jumps left for it. -/
def resolve (flow : ControlFlow) (i position : Nat) (code : Bytes) : ControlFlow × Bytes × Option Int :=
  let ⟨analysis, blocks, first, current, previous, height, peak⟩ := flow
  let (blocks, code, overflow) := blocks.resolve i position code
  (⟨analysis, blocks, first, current, previous, height, peak⟩, code, overflow)

/-- Makes a block follow the last one in the order of the code. -/
def append (flow : ControlFlow) (i : Nat) : ControlFlow :=
  let flow :=
    match flow.previous with
    | some p => flow.modify p fun b => { b with successor := some i }
    | none => flow
  { flow with previous := some i }

/-- Ends the current block at a position; what follows is not reached from it. -/
def noSuccessor (flow : ControlFlow) (position : Nat) : ControlFlow :=
  match flow.analysis with
  | .frames =>
    let (i, flow) := flow.fresh
    let flow := flow.modify i fun b => { b with frame := some Frame.empty, resolved := true, position }
    { flow.append i with current := none }
  | .maxStack =>
    let flow :=
      match flow.current with
      | some i => let peak := flow.peak; flow.modify i fun b => { b with peak }
      | none => flow
    { flow with current := none }

/-- A block takes the mark of another one as a place that jumps lead to. -/
def inheritTarget (flow : ControlFlow) (i source : Nat) : ControlFlow :=
  let target := (flow.blocks.get source).target
  flow.modify i fun b => { b with target := b.target || target }

/-- Places a block where frames are computed: it shares the block that starts here already, or follows the last one. -/
def placeFramed (flow : ControlFlow) (i position : Nat) : ControlFlow :=
  let startsHere (j : Nat) : Bool := (flow.blocks.get j).position == position
  match flow.current.filter startsHere with
  | some j => (flow.inheritTarget j i).modify i fun b => { b with owner := j }
  | none =>
    let flow := flow.addEdge (.normal 0) i
    match flow.previous.filter startsHere with
    | some j =>
      let flow := (flow.inheritTarget j i).modify i fun b => { b with owner := j, frame := none }
      { flow with current := some j }
    | none =>
      let flow := flow.modify i fun b => { b with frame := some (b.frame.getD Frame.empty) }
      { flow.append i with current := some i }

/-- Places a block where the stack height is computed: the current block flows into it. -/
def placeMeasured (flow : ControlFlow) (i : Nat) : ControlFlow :=
  let flow :=
    match flow.current with
    | some j =>
      let ⟨peak, height⟩ := (flow.peak, flow.height)
      (flow.modify j fun b => { b with peak }).addEdge (.normal height) i
    | none => flow
  { flow.append i with current := some i, height := 0, peak := 0 }

/-- Places a block at the end of the code. Comes with the first distance to it that does not fit in a jump. -/
def place (flow : ControlFlow) (i : Nat) (code : Bytes) : ControlFlow × Bytes × Option Int :=
  let position := code.size
  let (flow, code, overflow) := flow.resolve i position code
  if (flow.blocks.get i).debug then (flow, code, overflow)
  else
    match flow.analysis with
    | .frames => (flow.placeFramed i position, code, overflow)
    | .maxStack => (flow.placeMeasured i, code, overflow)

/-- The control flow of a method without code. -/
def start (analysis : Analysis) : ControlFlow :=
  let (first, blocks) := Blocks.empty.fresh
  let blocks := blocks.modify first fun b => { b with pushed := true }
  let flow : ControlFlow := { analysis, blocks, first, current := none, previous := none, height := 0, peak := 0 }
  (flow.place first #[]).1

/-- Places a label at the end of the code. -/
def label (flow : ControlFlow) (label : Label) (code : Bytes) : ControlFlow × Bytes × Option Int :=
  let (i, flow) := flow.index label
  flow.place i code

/-- Places a new block without a label at the end of the code. -/
def split (flow : ControlFlow) (code : Bytes) : ControlFlow × Bytes × Option Int :=
  let (i, flow) := flow.fresh
  flow.place i code

/-- Follows an instruction without operands, which ends at a position. -/
def bare (flow : ControlFlow) (op : UInt8) (position : Nat) : ControlFlow :=
  if flow.inBlock then
    let flow :=
      match flow.analysis with
      | .frames => flow.mapFrame (·.bare op)
      | .maxStack => flow.grow (Opcode.stackDelta op)
    if Opcode.isReturn op || op == Opcode.athrow then flow.noSuccessor position else flow
  else flow

/-- Follows an instruction with a number as operand. -/
def immediate (flow : ControlFlow) (op : UInt8) (operand : Int32) : ControlFlow :=
  if flow.inBlock then
    match flow.analysis with
    | .frames => flow.mapFrame (·.immediate op operand)
    | .maxStack => if op == Opcode.newarray then flow else flow.grow 1
  else flow

/-- Follows a load or store of a local, which ends at a position. -/
def moveLocal (flow : ControlFlow) (op : UInt8) (i : Nat) (position : Nat) : ControlFlow :=
  if flow.inBlock then
    let flow :=
      match flow.analysis with
      | .frames => flow.mapFrame (·.moveLocal op i)
      | .maxStack => flow.grow (Opcode.stackDelta op)
    if op == Opcode.ret then flow.noSuccessor position else flow
  else flow

/-- Follows an increment of a local. -/
def increment (flow : ControlFlow) (i : Nat) : ControlFlow :=
  flow.mapFrame (·.increment i)

/-- Follows an instruction whose effect hangs on types, where frames are computed, or raises the height of the stack. -/
def follow (flow : ControlFlow) (types : TypeTable) (f : Frame → TypeTable → Frame × TypeTable × Option Error)
    (delta : Int) : ControlFlow × TypeTable × Option Error :=
  if flow.inBlock then
    match flow.analysis with
    | .frames => flow.stepFrame types f
    | .maxStack => (flow.grow delta, types, none)
  else (flow, types, none)

/-- Follows an instruction with a class as operand, which will stand at an offset. -/
def typed (flow : ControlFlow) (types : TypeTable) (op : UInt8) (name : String) (offset : Nat) :
    ControlFlow × TypeTable × Option Error :=
  flow.follow types (fun f types => f.typed types op name offset) (if op == Opcode.newObject then 1 else 0)

/-- How far an access to a field raises the stack. -/
def fieldDelta (op : UInt8) (descriptor : String) : Int :=
  let wide := Descriptor.startsWide descriptor
  if op == Opcode.getstatic then if wide then 2 else 1
  else if op == Opcode.putstatic then if wide then -2 else -1
  else if op == Opcode.getfield then if wide then 1 else 0
  else if wide then -3 else -2

/-- Follows an access to a field. -/
def field (flow : ControlFlow) (types : TypeTable) (op : UInt8) (descriptor : String) :
    ControlFlow × TypeTable × Option Error :=
  flow.follow types (fun f types => f.field types op descriptor) (fieldDelta op descriptor)

/-- How far a call raises the stack. The slots are read from their word as a signed one. -/
def invokeDelta (descriptor : String) (isStatic : Bool) : Int :=
  let slots := (Descriptor.packedSlots descriptor).toInt32
  let delta := (slots &&& 3).toInt - (slots >>> 2).toInt
  if isStatic then delta + 1 else delta

/-- Follows a call of a method. -/
def invoke (flow : ControlFlow) (types : TypeTable) (op : UInt8) (name descriptor : String) :
    ControlFlow × TypeTable × Option Error :=
  flow.follow types (fun f types => f.invoke types op name descriptor)
    (invokeDelta descriptor (op == Opcode.invokestatic))

/-- Follows a dynamic invocation. -/
def invokeDynamic (flow : ControlFlow) (types : TypeTable) (descriptor : String) :
    ControlFlow × TypeTable × Option Error :=
  flow.follow types (fun f types => f.invokeDynamic types descriptor) (invokeDelta descriptor true)

/-- Follows a load of a constant. -/
def constant (flow : ControlFlow) (types : TypeTable) (value : ConstantValue) :
    ControlFlow × TypeTable × Option Error :=
  flow.follow types (fun f types => f.constant types value) (if value.isWide then 2 else 1)

/-- Follows an allocation of an array with several dimensions. -/
def multiArray (flow : ControlFlow) (types : TypeTable) (descriptor : String) (dimensions : UInt8) :
    ControlFlow × TypeTable × Option Error :=
  flow.follow types (fun f types => f.multiArray types descriptor dimensions.toNat) (1 - dimensions.toNat)

/-- Follows a jump, before it is written. Says whether a new block must be placed behind it. -/
def jump (flow : ControlFlow) (op : UInt8) (label : Label) : Bool × ControlFlow :=
  if flow.inBlock then
    let (target, flow) := flow.index label
    match flow.analysis with
    | .frames => (op != Opcode.goto, ((flow.mapFrame (·.jump op)).markTarget target).addEdge (.normal 0) target)
    | .maxStack =>
      let flow := flow.grow (Opcode.stackDelta op)
      (false, flow.addEdge (.normal flow.height) target)
  else (false, flow)

/-- Follows a jump, after it has been written. `next` says that a new block must be placed, and
whether a jump leads there. -/
def endJump (flow : ControlFlow) (op : UInt8) (next : Option Bool) (code : Bytes) : ControlFlow × Bytes × Option Int :=
  if flow.inBlock then
    let (flow, code, overflow) :=
      match next with
      | some isTarget =>
        let (i, flow) := flow.fresh
        (if isTarget then flow.markTarget i else flow).place i code
      | none => (flow, code, none)
    (if op == Opcode.goto then flow.noSuccessor code.size else flow, code, overflow)
  else (flow, code, none)

/-- Adds an edge to the current block for a label of a switch. -/
def switchEdge (kind : EdgeKind) (flow : ControlFlow) (label : Label) : ControlFlow :=
  let (target, flow) := flow.index label
  let flow := flow.addEdge kind target
  match flow.analysis with
  | .frames => flow.markTarget target
  | .maxStack => flow

/-- Follows a switch, which ends at a position. -/
def switch (flow : ControlFlow) (defaultLabel : Label) (labels : List Label) (position : Nat) : ControlFlow :=
  if flow.inBlock then
    let (kind, flow) :=
      match flow.analysis with
      | .frames => (EdgeKind.normal 0, flow.mapFrame (·.switch))
      | .maxStack => (EdgeKind.normal (flow.height - 1), { flow with height := flow.height - 1 })
    ((defaultLabel :: labels).foldl (switchEdge kind) flow).noSuccessor position
  else flow

end ControlFlow

end ClassFile
