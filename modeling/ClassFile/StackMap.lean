import ClassFile.Constant.Pool
import ClassFile.Flow.Solve

/-!
# Stack maps

A stack map tells the verifier the types of the locals and of the operand stack at chosen offsets. Its entries list a value
of two slots once, and no unusable locals at the end. The current form says how an entry differs from the one before, the
first from the method's entry, which is not written; offsets count from the one before, so that two entries never share an
offset. The older form writes every entry in full.
-/

namespace ClassFile

/-- The type of a local or stack slot in a stack map. -/
inductive VerificationType where
  | top
  | integer
  | float
  | double
  | long
  | null
  /-- The object under construction, before its constructor has called another. -/
  | uninitializedThis
  /-- A class or an array class. -/
  | object (type : PoolIndex)
  /-- What the instruction at the offset allocates, before its constructor has run. -/
  | uninitialized (offset : UInt16)
  deriving DecidableEq, Repr, Inhabited

namespace VerificationType

/-- The descriptor of the elements of an array. -/
def elementDescriptor (types : TypeTable) (s : Shape) : String :=
  match s with
  | .integer => "I"
  | .float => "F"
  | .double => "D"
  | .long => "J"
  | .boolean => "Z"
  | .byte => "B"
  | .char => "C"
  | .short => "S"
  | s => "L" ++ types.name s.index ++ ";"

/-- The descriptor of an array. -/
def arrayDescriptor (types : TypeTable) (dimensions : Nat) (s : Shape) : String :=
  String.ofList (List.replicate dimensions '[') ++ elementDescriptor types s

/-- The type of a slot of a frame. Class types get the constants they need. -/
def ofFrameType (types : TypeTable) (t : FrameType) : Interning VerificationType := do
  if t.dimensions > 0 then
    return .object (← ConstantPool.type (arrayDescriptor types t.dimensions.toNat t.shape))
  else
    match t.shape with
    | .object index => return .object (← ConstantPool.type (types.name index))
    | .uninitialized index =>
      match types.get? index with
      | some (.uninitialized _ offset) => return .uninitialized offset.toUInt16
      | _ => return .top
    | shape =>
      if t.dims != 0 then return .top
      else
        match shape with
        | .integer | .boolean | .byte | .char | .short => return .integer
        | .float => return .float
        | .double => return .double
        | .long => return .long
        | .null => return .null
        | .uninitializedThis => return .uninitializedThis
        | _ => return .top

/-- A type as it stands in the class file. -/
def encode : VerificationType → Bytes
  | top => #[0]
  | integer => #[1]
  | float => #[2]
  | double => #[3]
  | long => #[4]
  | null => #[5]
  | uninitializedThis => #[6]
  | object type => #[7] ++ Bytes.ofUInt16 type
  | uninitialized offset => #[8] ++ Bytes.ofUInt16 offset

end VerificationType

/-- An entry of a stack map, as a difference from the entry before. -/
inductive StackMapFrame where
  /-- The same locals and an empty stack. -/
  | same (delta : UInt16)
  /-- The same locals and one stack slot. -/
  | sameOneStack (delta : UInt16) (stack : VerificationType)
  /-- The last locals, one to three of them, gone, and an empty stack. -/
  | chop (delta : UInt16) (count : UInt8)
  /-- One to three more locals and an empty stack. -/
  | append (delta : UInt16) (locals : List VerificationType)
  /-- Locals and stack in full. -/
  | full (delta : UInt16) (locals stack : List VerificationType)
  deriving DecidableEq, Repr, Inhabited

namespace StackMapFrame

/-- An entry as it stands in the class file. -/
def encode : StackMapFrame → Bytes
  | same delta => if delta < 64 then #[delta.toUInt8] else #[251] ++ Bytes.ofUInt16 delta
  | sameOneStack delta stack =>
    (if delta < 63 then #[delta.toUInt8 + 64] else #[247] ++ Bytes.ofUInt16 delta) ++ stack.encode
  | chop delta count => #[251 - count] ++ Bytes.ofUInt16 delta
  | append delta locals =>
    #[251 + locals.length.toUInt8] ++ Bytes.ofUInt16 delta ++ Bytes.concat (locals.map VerificationType.encode)
  | full delta locals stack =>
    #[255] ++ Bytes.ofUInt16 delta ++ Bytes.counted (locals.map VerificationType.encode) ++
      Bytes.counted (stack.map VerificationType.encode)

/-- The shortest form of an entry whose locals and stack are given, after an entry with other locals. -/
def ofDifference (delta : UInt16) (previous locals stack : List VerificationType) : StackMapFrame :=
  let shared := min locals.length previous.length
  let added : Int := locals.length - previous.length
  if locals.take shared == previous.take shared then
    match stack with
    | [] =>
      if -3 ≤ added ∧ added ≤ -1 then .chop delta (-added).toNat.toUInt8
      else if added = 0 then .same delta
      else if 1 ≤ added ∧ added ≤ 3 then .append delta (locals.drop shared)
      else .full delta locals stack
    | [t] => if added = 0 then .sameOneStack delta t else .full delta locals stack
    | _ => .full delta locals stack
  else .full delta locals stack

end StackMapFrame

/-- An entry of a stack map in the older form. -/
structure StackMapEntry where
  offset : UInt16
  locals : List VerificationType
  stack : List VerificationType
  deriving DecidableEq, Repr, Inhabited

/-- An entry as it stands in the class file. -/
def StackMapEntry.encode (e : StackMapEntry) : Bytes :=
  Bytes.ofUInt16 e.offset ++ Bytes.counted (e.locals.map VerificationType.encode) ++
    Bytes.counted (e.stack.map VerificationType.encode)

namespace StackMap

/-- The types of slots, behind those listed already. The slot behind a long or a double is left out. -/
def listSlots (types : TypeTable) (listed : Array VerificationType) :
    List FrameType → Interning (Array VerificationType)
  | [] => pure listed
  | [t] => do
    return listed.push (← VerificationType.ofFrameType types t)
  | t :: u :: rest => do
    let v ← VerificationType.ofFrameType types t
    if t.isWide then listSlots types (listed.push v) rest else listSlots types (listed.push v) (u :: rest)

/-- The stack as an entry lists it. -/
def stackTypes (types : TypeTable) (slots : Array FrameType) : Interning (List VerificationType) := do
  return (← listSlots types #[] slots.toList).toList

/-- The types without the unusable ones at the end. -/
def dropTops (ts : List VerificationType) : List VerificationType :=
  (ts.reverse.dropWhile (· == .top)).reverse

/-- The locals as an entry lists them. -/
def localTypes (types : TypeTable) (slots : Array FrameType) : Interning (List VerificationType) := do
  return dropTops (← stackTypes types slots)

/-- The entry of a frame after an entry at an offset, or after the method's entry, with given locals. -/
def compressFrame (types : TypeTable) (previousOffset : Option Nat) (previous : List VerificationType)
    (frame : ComputedFrame) : Interning (StackMapFrame × List VerificationType) := do
  let locals ← localTypes types frame.locals
  let stack ← stackTypes types frame.stack
  let delta :=
    match previousOffset with
    | none => frame.offset
    | some p => frame.offset - p - 1
  return (.ofDifference delta.toUInt16 previous locals stack, locals)

/-- The entries of frames after an entry with given locals, behind those found already. -/
def compressFrom (types : TypeTable) (found : Array StackMapFrame) (previousOffset : Option Nat)
    (previous : List VerificationType) : List ComputedFrame → Interning (Array StackMapFrame)
  | [] => pure found
  | frame :: rest => do
    let (entry, locals) ← compressFrame types previousOffset previous frame
    compressFrom types (found.push entry) (some frame.offset) locals rest

/-- The entries of frames, the first of which is the method's entry and is not written. -/
def compress (types : TypeTable) (frames : List ComputedFrame) : Interning (List StackMapFrame) := do
  match frames with
  | [] => return []
  | first :: rest =>
    let locals ← localTypes types first.locals
    return (← compressFrom types #[] none locals rest).toList

/-- The entry of a frame in the older form. -/
def legacyFrame (types : TypeTable) (frame : ComputedFrame) : Interning StackMapEntry := do
  let locals ← localTypes types frame.locals
  let stack ← stackTypes types frame.stack
  return { offset := frame.offset.toUInt16, locals, stack }

/-- The entries of frames in the older form, behind those found already. -/
def legacyFrom (types : TypeTable) (found : Array StackMapEntry) : List ComputedFrame → Interning (Array StackMapEntry)
  | [] => pure found
  | frame :: rest => do
    legacyFrom types (found.push (← legacyFrame types frame)) rest

/-- The entries of frames in the older form; the first frame is the method's entry and is not written. -/
def legacy (types : TypeTable) (frames : List ComputedFrame) : Interning (List StackMapEntry) := do
  return (← legacyFrom types #[] frames.tail).toList

end StackMap

end ClassFile
