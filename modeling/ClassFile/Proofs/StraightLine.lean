import ClassFile.Frame.Basic
import ClassFile.Proofs.TypeTableGrowth

/-!
# Straight-line code

Instructions as frames follow them, in two ways: all in one frame (`Frame.run`), or each in a frame of its own that is joined
into the next one (`Frame.steps`). An instruction suits a frame if the frame has what it takes: enough slots on the stack,
the locals, and an array where an element of one is loaded.
-/

namespace ClassFile

/-- An instruction as a frame follows it. -/
inductive Frame.Operation where
  | bare (op : UInt8)
  | immediate (op : UInt8) (operand : Int32)
  | moveLocal (op : UInt8) (slot : UInt16)
  | increment (slot : UInt16)
  | typed (op : UInt8) (name : String) (offset : Nat)
  | field (op : UInt8) (descriptor : String)
  | invoke (op : UInt8) (name descriptor : String)
  | invokeDynamic (descriptor : String)
  | constant (value : ConstantValue)
  | jump (op : UInt8)
  | switch
  | multiArray (descriptor : String) (dimensions : UInt8)
  deriving Repr, Inhabited

namespace Frame.Operation

/-- What an instruction allocates, if it allocates an object. -/
def allocates : Operation → Option TypeEntry
  | typed op name offset => if op == Opcode.newObject then some (.uninitialized name offset) else none
  | _ => none

/-- The offset of an instruction that allocates an object. -/
def allocationOffset : Operation → Option Nat
  | typed op _ offset => if op == Opcode.newObject then some offset else none
  | _ => none

/-- Number of locals that there have to be for an instruction. -/
def localsUsed : Operation → Nat
  | moveLocal op slot => if op == Opcode.lstore || op == Opcode.dstore then slot.toNat + 2 else slot.toNat + 1
  | increment slot => slot.toNat + 1
  | _ => 0

/-- Whether an instruction loads an element of an array of objects. -/
def loadsElement : Operation → Bool
  | bare op => StackEffect.ofOpcode op == .loadElement
  | _ => false

end Frame.Operation

namespace FrameType

/-- Whether a shape is that of elements of an array. -/
def isElement (s : Shape) : Bool :=
  match s with
  | .object _ | .boolean | .byte | .char | .short | .integer | .float | .long | .double => true
  | _ => false

/-- The type of an array, or the null type. -/
def ArrayOrNull (t : FrameType) : Prop :=
  t = null ∨ 0 < t.dimensions ∧ isElement t.shape = true

/-- An array of values of two slots each. -/
def WideArray (t : FrameType) : Prop :=
  t = long.arrayOf ∨ t = double.arrayOf

instance (t : FrameType) : Decidable t.ArrayOrNull := by
  unfold ArrayOrNull
  infer_instance

instance (t : FrameType) : Decidable t.WideArray := by
  unfold WideArray
  infer_instance

/-- A type of a value, whatever the input of a block is. -/
structure Concrete (types : TypeTable) (t : FrameType) : Prop where
  numbered : t.Numbered types
  shape : t.shape.isConcrete = true
  null : t.shape = .null → t.dims = 0

end FrameType

namespace Frame

/-- The frame of a block without instructions that is entered with certain types. -/
def entering (locals stack : Array FrameType) : Frame :=
  { locals, stack, entered := true }

/-- An instruction in a frame. -/
def execute (f : Frame) (types : TypeTable) : Operation → Frame × TypeTable × Option Error
  | .bare op => (f.bare op, types, none)
  | .immediate op operand => (f.immediate op operand, types, none)
  | .moveLocal op slot => (f.moveLocal op slot.toNat, types, none)
  | .increment slot => (f.increment slot.toNat, types, none)
  | .typed op name offset => f.typed types op name offset
  | .field op descriptor => f.field types op descriptor
  | .invoke op name descriptor => f.invoke types op name descriptor
  | .invokeDynamic descriptor => f.invokeDynamic types descriptor
  | .constant value => f.constant types value
  | .jump op => (f.jump op, types, none)
  | .switch => (f.switch, types, none)
  | .multiArray descriptor dimensions => f.multiArray types descriptor dimensions.toNat

/-- All instructions in one frame. -/
def run (f : Frame) (types : TypeTable) : List Operation → Frame × TypeTable
  | [] => (f, types)
  | i :: rest =>
    let (f, types, _) := f.execute types i
    run f types rest

/-- The frame of a block that has no other way in than from a frame. -/
def leave (f : Frame) (className : String) (h : Hierarchy) (types : TypeTable) : Frame × TypeTable :=
  let (_, next, types) := f.merge Frame.empty none className h types
  (next, types)

/-- An instruction in a frame of its own, and the frame behind it. -/
def step (f : Frame) (className : String) (h : Hierarchy) (types : TypeTable) (i : Operation) : Frame × TypeTable :=
  let (f, types, _) := f.execute types i
  f.leave className h types

/-- Greatest height of the stack, from the bottom of the input. -/
def reach (f : Frame) : Nat :=
  f.stack.size + f.peak

/-- Each instruction in a frame of its own: the last frame, and the greatest height of the stack in
any of them and before. -/
def steps (f : Frame) (className : String) (h : Hierarchy) (types : TypeTable) (reached : Nat) :
    List Operation → Frame × TypeTable × Nat
  | [] => (f, types, reached)
  | i :: rest =>
    let (next, types') := f.step className h types i
    steps next className h types' (max reached (f.execute types i).1.reach) rest

/-- The array that the loading of an element takes, below the index. -/
def arrayOperand (f : Frame) : FrameType :=
  f.stack.getD (f.stack.size - 2) .top

/-- A frame that has been entered and has no instructions has what an instruction takes. -/
structure Suits (f : Frame) (types : TypeTable) (i : Operation) : Prop where
  operands : (f.execute types i).1.consumed ≤ f.stack.size
  locals : i.localsUsed ≤ f.locals.size
  array : i.loadsElement = true → f.arrayOperand.ArrayOrNull

instance (f : Frame) (types : TypeTable) (i : Operation) : Decidable (f.Suits types i) :=
  decidable_of_iff ((f.execute types i).1.consumed ≤ f.stack.size ∧ i.localsUsed ≤ f.locals.size ∧
    (i.loadsElement = true → f.arrayOperand.ArrayOrNull))
      ⟨fun ⟨h₁, h₂, h₃⟩ => ⟨h₁, h₂, h₃⟩, fun ⟨h₁, h₂, h₃⟩ => ⟨h₁, h₂, h₃⟩⟩

/-- Each of the frames of single instructions has what its instruction takes. -/
def Supplies (f : Frame) (className : String) (h : Hierarchy) (types : TypeTable) : List Operation → Prop
  | [] => True
  | i :: rest =>
    f.Suits types i ∧ (f.step className h types i).1.Supplies className h (f.step className h types i).2 rest

/-- No instruction loads an element of an array of values of two slots. -/
def AvoidsWideArrays (f : Frame) (className : String) (h : Hierarchy) (types : TypeTable) : List Operation → Prop
  | [] => True
  | i :: rest =>
    (i.loadsElement = true → ¬f.arrayOperand.WideArray) ∧
      (f.step className h types i).1.AvoidsWideArrays className h (f.step className h types i).2 rest

instance decidableSupplies (className : String) (h : Hierarchy) :
    (is : List Operation) → (f : Frame) → (types : TypeTable) → Decidable (f.Supplies className h types is)
  | [], _, _ => .isTrue trivial
  | i :: rest, f, types =>
    have := decidableSupplies className h rest (f.step className h types i).1 (f.step className h types i).2
    inferInstanceAs (Decidable (_ ∧ _))

instance decidableAvoidsWideArrays (className : String) (h : Hierarchy) :
    (is : List Operation) → (f : Frame) → (types : TypeTable) → Decidable (f.AvoidsWideArrays className h types is)
  | [], _, _ => .isTrue trivial
  | i :: rest, f, types =>
    have := decidableAvoidsWideArrays className h rest (f.step className h types i).1 (f.step className h types i).2
    inferInstanceAs (Decidable (_ ∧ _))

/-- A block's input and instructions: types of values, none of them of what one of the instructions allocates, allocations at
different places, and each instruction with what it takes. -/
structure Admits (className : String) (h : Hierarchy) (types : TypeTable) (locals stack : Array FrameType)
    (is : List Operation) : Prop where
  sound : types.Sound
  inputLocals : ∀ t ∈ locals, t.Concrete types
  inputStack : ∀ t ∈ stack, t.Concrete types
  offsets : (is.filterMap Operation.allocationOffset).Nodup
  fresh : ∀ t, t ∈ locals ∨ t ∈ stack → ∀ i, t.shape = .uninitialized i → ∀ e, types.get? i = some e →
    e ∉ is.filterMap Operation.allocates
  supplies : (entering locals stack).Supplies className h types is

/-- All instructions in one frame come to the same as each in a frame of its own: the block behind them is entered with the
same types by name, and the stack has reached the same height. -/
def Composes (className : String) (h : Hierarchy) (types : TypeTable) (locals stack : Array FrameType)
    (is : List Operation) : Prop :=
  let single := (entering locals stack).run types is
  let left := single.1.merge Frame.empty none className h single.2
  let stepped := (entering locals stack).steps className h types stack.size is
  left.1 = some true ∧
    left.2.1.locals.map (FrameType.named left.2.2) = stepped.1.locals.map (FrameType.named stepped.2.1) ∧
    left.2.1.stack.map (FrameType.named left.2.2) = stepped.1.stack.map (FrameType.named stepped.2.1) ∧
    single.1.reach = stepped.2.2

end Frame

end ClassFile
