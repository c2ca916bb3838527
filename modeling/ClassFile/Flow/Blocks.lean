import ClassFile.Bytes.Basic
import ClassFile.Frame.Basic
import ClassFile.Label
import Std.Data.HashMap

/-!
# Labels and basic blocks

Every label of a method gets a block of an arena, found by its number; a block may also stand without a label. Jumps are
written with the distance to their label. As long as the label has no position they leave room in the code, which is filled
when the label is placed. A label placed where a block starts already shares that block, its owner.
-/

namespace ClassFile

/-- What an edge of the control flow hands over. -/
inductive EdgeKind where
  /-- Plain flow. Where only the stack height is computed, the height is that of the stack at the jump, counted from the
  input of the block. -/
  | normal (height : Int)
  /-- The way to an exception handler, which starts with only the exception on the stack. -/
  | exception (type : FrameType)
  deriving DecidableEq, Repr, Inhabited

/-- An edge of the control flow. -/
structure Edge where
  kind : EdgeKind
  target : Nat
  deriving DecidableEq, Repr, Inhabited

/-- A jump that waits for the position of its label. -/
structure Reference where
  /-- Position of the opcode, from which the distance counts. -/
  origin : Nat
  /-- Position of the room for the distance. -/
  operand : Nat
  /-- Whether the room is of four bytes and not of two. -/
  wide : Bool
  deriving DecidableEq, Repr, Inhabited

/-- A label and what is known of the block it starts. -/
structure Block where
  /-- Marks a position for debug information only. -/
  debug : Bool := false
  /-- The position is known. -/
  resolved : Bool := false
  /-- Found already when the greatest stack height is computed. -/
  pushed : Bool := false
  /-- A jump or an exception leads here. -/
  target : Bool := false
  /-- The stack map must have a frame here. -/
  store : Bool := false
  /-- The fixed point iteration came here. -/
  reachable : Bool := false
  position : Nat := 0
  references : Array Reference := #[]
  /-- Block that holds the frame of this label. -/
  owner : Nat := 0
  /-- Next block in the order of the code. -/
  successor : Option Nat := none
  edges : Array Edge := #[]
  frame : Option Frame := none
  /-- Height of the stack when the block is entered. -/
  inputHeight : Int := 0
  /-- Greatest height of the stack over its input. -/
  peak : Int := 0
  deriving Inhabited

namespace Block

/-- The names of the marks of a block that are set, between bars. -/
def describeStatus (b : Block) : String :=
  let marks := [("DEBUG", b.debug), ("RESOLVED", b.resolved), ("PUSHED", b.pushed), ("TARGET", b.target),
    ("STORE", b.store), ("REACHABLE", b.reachable)]
  match marks.filter (·.2) with
  | [] => "(empty)"
  | set => " | ".intercalate (set.map (·.1))

end Block

/-- The labels and blocks of a method. -/
structure Blocks where
  arena : Array Block := #[]
  labels : Std.HashMap Label Nat := ∅
  deriving Inhabited

namespace Blocks

/-- The arena without blocks. -/
def empty : Blocks := {}

def size (blocks : Blocks) : Nat :=
  blocks.arena.size

def isEmpty (blocks : Blocks) : Bool :=
  blocks.arena.isEmpty

/-- The block of a number. -/
def get (blocks : Blocks) (i : Nat) : Block :=
  blocks.arena.getD i {}

/-- The arena with a block changed by a function. -/
def modify (blocks : Blocks) (i : Nat) (f : Block → Block) : Blocks :=
  let ⟨arena, labels⟩ := blocks
  ⟨arena.modify i f, labels⟩

/-- A new block that no label names. -/
def fresh (blocks : Blocks) : Nat × Blocks :=
  let ⟨arena, labels⟩ := blocks
  let i := arena.size
  (i, ⟨arena.push { owner := i }, labels⟩)

/-- The number of the block of a label, which is added if the label is new. -/
def index (blocks : Blocks) (label : Label) : Nat × Blocks :=
  match blocks.labels[label]? with
  | some i => (i, blocks)
  | none =>
    let ⟨arena, labels⟩ := blocks
    let i := arena.size
    (i, ⟨arena.push { debug := label.debug, owner := i }, labels.insert label i⟩)

/-- The position of a label that has been placed. -/
def position (blocks : Blocks) (label : Label) : Option Nat :=
  match blocks.labels[label]? with
  | some i =>
    let b := blocks.get i
    if b.resolved then some b.position else none
  | none => none

/-- The block that holds the frame of a block. -/
def owner (blocks : Blocks) (i : Nat) : Nat :=
  (blocks.get i).owner

/-- A distance in two or four bytes. -/
def distanceBytes (wide : Bool) (distance : Int) : Bytes :=
  if wide then Bytes.ofUInt32 (UInt32.ofInt distance) else Bytes.ofUInt16 (UInt16.ofInt distance)

/-- Writes the distance from a jump to its label, or leaves room for it. -/
def putReference (blocks : Blocks) (label : Label) (origin : Nat) (code : Bytes) (wide : Bool) : Blocks × Bytes :=
  let (i, blocks) := blocks.index label
  let b := blocks.get i
  if b.resolved then
    (blocks, code ++ distanceBytes wide (b.position - origin))
  else
    let reference : Reference := ⟨origin, code.size, wide⟩
    (blocks.modify i fun b => { b with references := b.references.push reference }, code ++ distanceBytes wide (-1))

/-- Greatest distance that fits in two bytes. -/
def maxDistance : Int := 0x7FFF

/-- Fills the room that a jump left, given the position of its label. A distance that does not fit is kept back, unless an
earlier one was. -/
def fill (position : Nat) (state : Bytes × Option Int) (r : Reference) : Bytes × Option Int :=
  let (code, overflow) := state
  let distance : Int := position - r.origin
  if r.wide then (Bytes.setUInt32 code r.operand (UInt32.ofInt distance), overflow)
  else if distance > maxDistance then (code, overflow.or (some distance))
  else (Bytes.setUInt16 code r.operand (UInt16.ofInt distance), overflow)

/-- Gives a block its position and fills the room that jumps left for it. Comes with the first distance that does not fit. -/
def resolve (blocks : Blocks) (i position : Nat) (code : Bytes) : Blocks × Bytes × Option Int :=
  let references := (blocks.get i).references
  let blocks := blocks.modify i fun b => { b with resolved := true, position, references := #[] }
  let (code, overflow) := references.foldl (fill position) (code, none)
  (blocks, code, overflow)

/-- Blocks in the order of the code from a block on, up to another one and at most `fuel` of them. -/
def chainFrom (blocks : Blocks) (stop : Option Nat) : (fuel i : Nat) → List Nat
  | 0, _ => []
  | fuel + 1, i =>
    if stop = some i then []
    else
      i ::
        match (blocks.get i).successor with
        | some next => chainFrom blocks stop fuel next
        | none => []

/-- All blocks in the order of the code from a block on. -/
def chain (blocks : Blocks) (i : Nat) : List Nat :=
  blocks.chainFrom none blocks.size i

end Blocks

end ClassFile
