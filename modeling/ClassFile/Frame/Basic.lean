import ClassFile.Constant.Value
import ClassFile.Frame.Effect

/-!
# Frames of basic blocks

A frame is what is known of a basic block: the types of the locals and of the operand stack when the block is entered, and
what the block makes of them. The effect of the block is worked out while its instructions are written, before its input is
known, so its types may name slots of the input. A local that the block leaves alone stays unset in the output and is read
through to the input.

The stack of the output stands on what is left of the input stack: `consumed` slots of the input have been taken off. Taking
a slot off an empty output stack names the input slot instead.
-/

namespace ClassFile

/-- The input of a basic block and the effect of its instructions. -/
structure Frame where
  /-- Types of the locals when the block is entered. -/
  locals : Array FrameType := #[]
  /-- Types of the operand stack when the block is entered. -/
  stack : Array FrameType := #[]
  /-- Whether the block has been entered; an empty stack alone does not say so. -/
  entered : Bool := false
  /-- Types of the locals that the block has set. -/
  outLocals : Array FrameType := #[]
  /-- Types that the block has put on the stack. -/
  outStack : Array FrameType := #[]
  /-- Number of input stack slots that the block has taken off. -/
  consumed : Nat := 0
  /-- Greatest height of the stack over its input. -/
  peak : Nat := 0
  /-- What constructors were called on. -/
  constructed : Array FrameType := #[]
  deriving DecidableEq, Repr, Inhabited

namespace Frame

/-- The frame of a block without instructions that has not been entered. -/
def empty : Frame := {}

/-- The type of a local, as a rule of the input. -/
def getLocal (f : Frame) (i : Nat) : FrameType :=
  match f.outLocals[i]? with
  | some t => if t.isUnset then .localSlot i else t
  | none => .localSlot i

/-- An array that reaches to an index, with unset slots added. -/
def extendTo (slots : Array FrameType) (size : Nat) : Array FrameType :=
  slots ++ Array.replicate (size - slots.size) FrameType.unset

def setLocal (f : Frame) (i : Nat) (t : FrameType) : Frame :=
  { f with outLocals := (extendTo f.outLocals (i + 1)).setIfInBounds i t }

/-- Puts a type on the stack. -/
def push (f : Frame) (t : FrameType) : Frame :=
  { f with outStack := f.outStack.push t, peak := max f.peak (f.outStack.size + 1 - f.consumed) }

def pushAll (f : Frame) (ts : List FrameType) : Frame :=
  ts.foldl push f

/-- Takes a type off the stack. -/
def pop (f : Frame) : FrameType × Frame :=
  match f.outStack.back? with
  | some t => (t, { f with outStack := f.outStack.pop })
  | none => (.stackSlot (f.consumed + 1), { f with consumed := f.consumed + 1 })

/-- Takes types off the stack, the topmost first. -/
def popMany : Nat → Frame → List FrameType × Frame
  | 0, f => ([], f)
  | n + 1, f =>
    let (t, f) := f.pop
    let (ts, f) := popMany n f
    (t :: ts, f)

/-- Takes slots off the stack, whatever they hold. -/
def drop (f : Frame) (n : Nat) : Frame :=
  if n ≤ f.outStack.size then
    { f with outStack := f.outStack.shrink (f.outStack.size - n) }
  else
    { f with consumed := f.consumed + (n - f.outStack.size), outStack := #[] }

/-- Types of the slots that a value takes: a second one for what takes two, and none for no value. -/
def slotsOf (t : FrameType) : List FrameType :=
  if t.isUnset then [] else if t.isWide then [t, .top] else [t]

/-- Puts on the stack what a field holds or a method returns. -/
def pushDescriptor (f : Frame) (types : TypeTable) (descriptor : String) : Frame × TypeTable × Option Error :=
  match FrameType.ofDescriptor types descriptor with
  | (.ok t, types) => (f.pushAll (slotsOf t), types, none)
  | (.error e, types) => (f, types, some e)

/-- Takes off the stack the value of a field or the arguments of a method. -/
def dropDescriptor (f : Frame) (descriptor : String) : Frame :=
  match descriptor.toList with
  | '(' :: _ => f.drop (Descriptor.argumentSlots descriptor - 1)
  | 'J' :: _ | 'D' :: _ => f.drop 2
  | _ => f.drop 1

/-- Sets a local, and the next one for a value of two slots. If the local was the second half of such a value, the first half
becomes unusable, or may become so where it is not known what the slot holds. -/
def store (f : Frame) (i : Nat) (t : FrameType) (wide : Bool) : Frame :=
  let f := f.setLocal i t
  let f := if wide then f.setLocal (i + 1) .top else f
  if i = 0 then f
  else
    let previous := f.getLocal (i - 1)
    if previous.isWide then f.setLocal (i - 1) .top
    else if previous.shape.isConcrete then f
    else f.setLocal (i - 1) previous.topIfWide

/-- The frame after an effect on the stack. -/
def apply (f : Frame) : StackEffect → Frame
  | .replace pops pushes => (f.drop pops).pushAll pushes
  | .shuffle depth order =>
    let (ts, f) := popMany depth f
    f.pushAll (order.map fun i => ts.getD (i - 1) .top)
  | .loadElement =>
    let (array, f) := (f.drop 1).pop
    f.push array.elementOf

/-- An instruction without operands. -/
def bare (f : Frame) (op : UInt8) : Frame :=
  f.apply (StackEffect.ofOpcode op)

/-- The element type that the operand of an array allocation stands for. -/
def newArrayElement (operand : UInt8) : FrameType :=
  match operand.toNat with
  | 4 => .boolean
  | 5 => .char
  | 6 => .float
  | 7 => .double
  | 8 => .byte
  | 9 => .short
  | 10 => .integer
  | _ => .long

/-- An instruction with a number as operand: an array of plain values is allocated, or a number is loaded. -/
def immediate (f : Frame) (op : UInt8) (operand : Int32) : Frame :=
  if op == Opcode.newarray then (f.drop 1).push (newArrayElement operand.toUInt32.toUInt8).arrayOf
  else f.push .integer

/-- A load or store of a local. Subroutines are left out. -/
def moveLocal (f : Frame) (op : UInt8) (i : Nat) : Frame :=
  if op == Opcode.iload then f.push .integer
  else if op == Opcode.fload then f.push .float
  else if op == Opcode.lload then f.pushAll StackEffect.longSlots
  else if op == Opcode.dload then f.pushAll StackEffect.doubleSlots
  else if op == Opcode.aload then f.push (f.getLocal i)
  else if op == Opcode.istore || op == Opcode.fstore || op == Opcode.astore then
    let (t, f) := f.pop
    f.store i t false
  else if op == Opcode.lstore || op == Opcode.dstore then
    let (t, f) := (f.drop 1).pop
    f.store i t true
  else f

/-- An increment of a local. -/
def increment (f : Frame) (i : Nat) : Frame :=
  f.setLocal i .integer

/-- The descriptor or name of a class that starts with a bracket is that of an array. -/
def isArrayName (name : String) : Bool :=
  name.toList.head? == some '['

/-- An instruction with a class as operand, at an offset that tells allocations apart. -/
def typed (f : Frame) (types : TypeTable) (op : UInt8) (name : String) (offset : Nat) :
    Frame × TypeTable × Option Error :=
  if op == Opcode.newObject then
    let (i, types) := types.addUninitialized name offset
    (f.push (.uninitialized i), types, none)
  else if op == Opcode.anewarray then
    let f := f.pop.2
    if isArrayName name then f.pushDescriptor types ("[" ++ name)
    else
      let (i, types) := types.addNormal name
      (f.push (FrameType.object i).arrayOf, types, none)
  else if op == Opcode.checkcast then
    let f := f.pop.2
    if isArrayName name then f.pushDescriptor types name
    else
      let (i, types) := types.addNormal name
      (f.push (.object i), types, none)
  else
    ((f.drop 1).push .integer, types, none)

/-- An access to a field. -/
def field (f : Frame) (types : TypeTable) (op : UInt8) (descriptor : String) : Frame × TypeTable × Option Error :=
  if op == Opcode.getstatic then f.pushDescriptor types descriptor
  else if op == Opcode.putstatic then (f.dropDescriptor descriptor, types, none)
  else if op == Opcode.getfield then (f.drop 1).pushDescriptor types descriptor
  else ((f.dropDescriptor descriptor).pop.2, types, none)

/-- A call of a method. A special call of a method whose name starts with an angle bracket is that of a constructor. -/
def invoke (f : Frame) (types : TypeTable) (op : UInt8) (name descriptor : String) :
    Frame × TypeTable × Option Error :=
  let f := f.dropDescriptor descriptor
  let f :=
    if op == Opcode.invokestatic then f
    else
      let (receiver, f) := f.pop
      if op == Opcode.invokespecial && name.toList.head? == some '<' then
        { f with constructed := f.constructed.push receiver }
      else f
  f.pushDescriptor types descriptor

/-- A dynamic invocation. -/
def invokeDynamic (f : Frame) (types : TypeTable) (descriptor : String) : Frame × TypeTable × Option Error :=
  (f.dropDescriptor descriptor).pushDescriptor types descriptor

/-- The class of a constant that is an object. -/
def constantClass : ConstantValue → String
  | .string _ => "java/lang/String"
  | .type _ => "java/lang/Class"
  | .methodType _ => "java/lang/invoke/MethodType"
  | .methodHandle _ => "java/lang/invoke/MethodHandle"
  | _ => objectClass

/-- A load of a constant. -/
def constant (f : Frame) (types : TypeTable) (value : ConstantValue) : Frame × TypeTable × Option Error :=
  match value with
  | .integer _ => (f.push .integer, types, none)
  | .float _ => (f.push .float, types, none)
  | .long _ => (f.pushAll StackEffect.longSlots, types, none)
  | .double _ => (f.pushAll StackEffect.doubleSlots, types, none)
  | .dynamic _ descriptor _ _ => f.pushDescriptor types descriptor
  | value =>
    let (i, types) := types.addNormal (constantClass value)
    (f.push (.object i), types, none)

/-- What a jump takes off the stack. -/
def jump (f : Frame) (op : UInt8) : Frame :=
  if (153 ≤ op && op ≤ 158) || op == Opcode.ifnull || op == Opcode.ifnonnull then f.drop 1
  else if 159 ≤ op && op ≤ 166 then f.drop 2
  else f

/-- What a switch takes off the stack. -/
def switch (f : Frame) : Frame :=
  f.drop 1

/-- An allocation of an array with several dimensions. -/
def multiArray (f : Frame) (types : TypeTable) (descriptor : String) (dimensions : Nat) :
    Frame × TypeTable × Option Error :=
  (f.drop dimensions).pushDescriptor types descriptor

/-- The locals of the parameters, up to the first descriptor that describes no type. -/
def parameterLocals (locals : Array FrameType) (types : TypeTable) :
    List String → Array FrameType × TypeTable × Option Error
  | [] => (locals, types, none)
  | p :: rest =>
    match FrameType.ofDescriptor types p with
    | (.ok t, types) => parameterLocals (if t.isWide then (locals.push t).push .top else locals.push t) types rest
    | (.error e, types) => (locals, types, some e)

/-- The method that a frame belongs to. -/
structure Method where
  className : String
  name : String
  descriptor : String
  isStatic : Bool
  isConstructor : Bool
  maxLocals : Nat
  deriving Repr, Inhabited

/-- The frame with the input of the first block of a method: the receiver, the parameters, and unusable locals. -/
def enter (f : Frame) (types : TypeTable) (m : Method) : Frame × TypeTable × Option Error :=
  let (locals, types) :=
    if m.isStatic then (#[], types)
    else if m.isConstructor then (#[FrameType.uninitializedThis], types)
    else
      let (i, types) := types.addNormal m.className
      (#[FrameType.object i], types)
  match parameterLocals locals types (Descriptor.parameterTypes m.descriptor) with
  | (locals, types, none) =>
    let locals := locals ++ Array.replicate (m.maxLocals - locals.size) FrameType.top
    ({ f with locals, stack := #[], entered := true }, types, none)
  | (locals, types, some e) => ({ f with locals, stack := #[], entered := true }, types, some e)

/-- What an output type stands for, given the input. A slot that the input does not have holds no usable value. -/
def resolve (f : Frame) (t : FrameType) : FrameType :=
  let ofInput (input : Option FrameType) : FrameType :=
    let resolved := (input.getD .top).withDimensionsOf t
    if t.wantsTop && resolved.isWide then .top else resolved
  match t.shape with
  | .localSlot slot _ => ofInput f.locals[slot]?
  | .stackSlot slot _ | .straySlot _ slot _ =>
    ofInput (if slot ≤ f.stack.size then f.stack[f.stack.size - slot]? else none)
  | _ => t

/-- What an object that has not been initialised becomes if the block has called its constructor. -/
def afterConstructor (f : Frame) (types : TypeTable) (className : String) (t : FrameType) : FrameType × TypeTable :=
  if f.constructed.isEmpty then (t, types)
  else
    let ofClass (name : String) : FrameType × TypeTable :=
      let (i, types) := types.addNormal name
      (if f.constructed.any fun c => f.resolve c == t then .object i else t, types)
    match t with
    | ⟨0, .uninitializedThis⟩ => ofClass className
    | ⟨0, .uninitialized i⟩ => ofClass (types.name i)
    | _ => (t, types)

/-- What the block leaves in a local. -/
def localAfter (f : Frame) (types : TypeTable) (className : String) (i : Nat) : FrameType × TypeTable :=
  let t :=
    match f.outLocals[i]? with
    | some t => if t.isUnset then f.locals.getD i .top else f.resolve t
    | none => f.locals.getD i .top
  f.afterConstructor types className t

/-- Number of input stack slots that the block leaves alone. -/
def untouched (f : Frame) : Nat :=
  f.stack.size - f.consumed

/-- Height of the stack when the block is left. -/
def heightAfter (f : Frame) : Nat :=
  f.untouched + f.outStack.size

/-- What the block leaves in a stack slot, counted from the bottom. -/
def stackAfter (f : Frame) (types : TypeTable) (className : String) (i : Nat) : FrameType × TypeTable :=
  let t := if i < f.untouched then f.stack.getD i .top else f.resolve (f.outStack.getD (i - f.untouched) .top)
  f.afterConstructor types className t

/-- Joins a type into each of the next `count` slots from `i` on. -/
def joinSlots (h : Hierarchy) (incoming : Nat → TypeTable → FrameType × TypeTable) :
    (count i : Nat) → Array FrameType → Bool → TypeTable → Array FrameType × Bool × TypeTable
  | 0, _, slots, changed, types => (slots, changed, types)
  | count + 1, i, slots, changed, types =>
    let (t, types) := incoming i types
    let (joined, different, types) := FrameType.mergeInto h types (slots.getD i .unset) t
    joinSlots h incoming count (i + 1) (slots.setIfInBounds i joined) (changed || different) types

/-- Joins what the block leaves behind into the input of a successor. On the way to a handler, the handler sees the locals
both as they are when the block is entered and when it is left, and a stack with only the exception. Says whether the
successor's input changed, or nothing if its stack has another height already. -/
def merge (f target : Frame) (handled : Option FrameType) (className : String) (h : Hierarchy) (types : TypeTable) :
    Option Bool × Frame × TypeTable :=
  let count := f.locals.size
  let fresh := !target.entered
  let grown := target.locals.size < count
  let ⟨locals, stack, _, outLocals, outStack, consumed, peak, constructed⟩ := target
  let locals := if fresh then Array.replicate count FrameType.unset else extendTo locals count
  let stack := if fresh then #[] else stack
  let done (locals stack : Array FrameType) : Frame :=
    ⟨locals, stack, true, outLocals, outStack, consumed, peak, constructed⟩
  let (locals, changed, types) :=
    joinSlots h (fun i types => f.localAfter types className i) count 0 locals (fresh || grown) types
  match handled with
  | some exception =>
    let (locals, changed, types) :=
      joinSlots h (fun i types => (f.locals.getD i .top, types)) count 0 locals changed types
    let changed := changed || stack.isEmpty
    let stack := if stack.isEmpty then #[FrameType.unset] else stack
    let (stack, changed, types) := joinSlots h (fun _ types => (exception, types)) 1 0 stack changed types
    (some changed, done locals stack, types)
  | none =>
    let height := f.heightAfter
    let stack := if fresh then Array.replicate height FrameType.unset else stack
    if stack.size ≠ height then (none, done locals stack, types)
    else
      let (stack, changed, types) :=
        joinSlots h (fun i types => f.stackAfter types className i) height 0 stack changed types
      (some changed, done locals stack, types)

end Frame

end ClassFile
