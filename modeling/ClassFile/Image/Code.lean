import ClassFile.Image.Walk
import ClassFile.Opcode.Basic

/-!
# Reading code

The code of a method is read twice. The first pass finds the offsets that jumps and switches lead to and makes labels for
them; exception ranges and debug tables add theirs. The second pass reports the instructions, each behind the label of its
offset. A label is known by its offset, so a jump may have a label that no instruction stands at.
-/

namespace ClassFile

/-- The labels and line numbers of a method, by offset. -/
structure CodeLabels where
  labels : Std.HashMap Int Label := ∅
  lines : Std.HashMap Int UInt16 := ∅

namespace CodeLabels

/-- The labels with one at an offset, if there is none. -/
def mark (ls : CodeLabels) (debug : Bool) (offset : Int) : CodeLabels :=
  { ls with labels := ls.labels.insertIfNew offset ⟨offset, debug⟩ }

/-- The labels with one at each of the offsets. -/
def markAll (ls : CodeLabels) (debug : Bool) (offsets : List Int) : CodeLabels :=
  offsets.foldl (fun ls offset => ls.mark debug offset) ls

/-- The label at an offset. -/
def get (ls : CodeLabels) (offset : Int) : Label :=
  ls.labels.getD offset ⟨offset, false⟩

end CodeLabels

namespace Code

/-- Number of bytes between the opcode of a switch at an offset and its operands. -/
def switchPadding (offset : Nat) : Nat :=
  3 - offset % 4

/-- The distance that a jump says in two bytes. -/
def distance16 : Decoder Int := do
  return (← Decoder.i16).toInt

/-- The distance that a jump says in four bytes. -/
def distance32 : Decoder Int := do
  return (← Decoder.i32).toInt

/-- How many labels a switch over a range of keys has. -/
def rangeSize (low high : Int32) : Nat :=
  (high.toInt - low.toInt + 1).toNat

/-- The distances of a switch over a range of keys, the default first. -/
def tableDistances (offset : Nat) : Decoder (List Int) := do
  Decoder.skip (switchPadding offset)
  let default ← distance32
  let low ← Decoder.i32
  let high ← Decoder.i32
  let distances ← Decoder.many (rangeSize low high) distance32
  return default :: distances.toList

/-- The distances of a switch over single keys, the default first. -/
def lookupDistances (offset : Nat) : Decoder (List Int) := do
  Decoder.skip (switchPadding offset)
  let default ← distance32
  let pairs ← Decoder.i32
  let distances ← Decoder.many pairs.toInt.toNat do
    Decoder.skip 4
    distance32
  return default :: distances.toList

/-- Passes over an instruction at an offset; comes with the distances to which it leads. -/
def scanInstruction (offset : Nat) : Decoder (List Int) := do
  let op ← Decoder.u8
  match Opcode.layout op with
  | .bare | .impliedIndex => return []
  | .localIndex | .signedByte | .constant => do
    Decoder.skip 1
    return []
  | .signedShort | .wideConstant | .type | .member | .increment => do
    Decoder.skip 2
    return []
  | .multiArray => do
    Decoder.skip 3
    return []
  | .interfaceMethod | .callSite => do
    Decoder.skip 4
    return []
  | .jump => return [← distance16]
  | .wideJump => return [← distance32]
  | .wide => do
    let op ← Decoder.u8
    Decoder.skip (if op == Opcode.iinc then 4 else 2)
    return []
  | .tableSwitch => tableDistances offset
  | .lookupSwitch => lookupDistances offset

/-- The labels with one at every offset that the code from the position on leads to. -/
def scanFrom (start length : Nat) : (fuel : Nat) → CodeLabels → Decoder CodeLabels
  | 0, ls => pure ls
  | fuel + 1, ls => do
    let position ← Decoder.position
    if position < start + length then
      let offset := position - start
      let distances ← scanInstruction offset
      scanFrom start length fuel (ls.markAll false (distances.map (offset + ·)))
    else
      return ls

/-- The labels of the offsets that the code leads to. -/
def findLabels (bytes : Bytes) (start length : Nat) : Except Error CodeLabels :=
  (scanFrom start length length {}).runAt bytes start

/-- The opcode of a jump over four bytes as that of the jump over two. -/
def narrowJump (op : UInt8) : UInt8 :=
  op - (Opcode.gotoW - Opcode.goto)

/-- The load or store, and the local, that an opcode of one byte stands for. -/
def impliedMove (op : UInt8) : Instruction :=
  let (base, implied) :=
    if op > Opcode.istore then (Opcode.istore, op - Opcode.istore0) else (Opcode.iload, op - Opcode.iload0)
  .moveLocal (base + (implied >>> 2)) (implied &&& 3).toUInt16

/-- The label at a distance from an instruction. -/
def target (ls : CodeLabels) (offset : Nat) (distance : Int) : Label :=
  ls.get (offset + distance)

/-- A switch over a range of keys. -/
def tableSwitch (ls : CodeLabels) (offset : Nat) : Decoder Instruction := do
  Decoder.skip (switchPadding offset)
  let default ← distance32
  let low ← Decoder.i32
  let high ← Decoder.i32
  let distances ← Decoder.many (rangeSize low high) distance32
  return .tableSwitch low high (target ls offset default) (distances.toList.map (target ls offset))

/-- A switch over single keys. -/
def lookupSwitch (ls : CodeLabels) (offset : Nat) : Decoder Instruction := do
  Decoder.skip (switchPadding offset)
  let default ← distance32
  let pairs ← Decoder.i32
  let cases ← Decoder.many pairs.toInt.toNat do
    let key ← Decoder.i32
    let distance ← distance32
    return (key, target ls offset distance)
  return .lookupSwitch (target ls offset default) (cases.toList.map (·.1)) (cases.toList.map (·.2))

/-- A field access or a call whose operand names a member. -/
def memberInstruction (op : UInt8) (r : MemberRef) : Instruction :=
  if op < Opcode.invokevirtual then .field op r.owner r.name r.descriptor else .invoke op r

/-- An instruction at an offset. -/
def readInstruction (pool : PoolView) (ls : CodeLabels) (offset : Nat) : Decoder Instruction := do
  let op ← Decoder.u8
  match Opcode.layout op with
  | .bare => return .bare op
  | .impliedIndex => return impliedMove op
  | .localIndex => return .moveLocal op (← Decoder.u8).toUInt16
  | .signedByte => return .immediate op (← Decoder.i8).toInt32
  | .signedShort => return .immediate op (← Decoder.i16).toInt32
  | .constant => return .constant (← pool.constant (← Decoder.u8).toUInt16)
  | .wideConstant => return .constant (← pool.constant (← Decoder.u16))
  | .increment => do
    let slot ← Decoder.u8
    let amount ← Decoder.i8
    return .increment slot.toUInt16 amount.toInt16
  | .wide => do
    let op ← Decoder.u8
    let slot ← Decoder.u16
    if op == Opcode.iinc then return .increment slot (← Decoder.i16) else return .moveLocal op slot
  | .type => return .typed op (← pool.typeName (← Decoder.u16))
  | .member | .interfaceMethod => do
    let r ← pool.memberRef (← Decoder.u16)
    if op == Opcode.invokeinterface then Decoder.skip 2
    return memberInstruction op r
  | .callSite => do
    let index ← Decoder.u16
    Decoder.skip 2
    let (name, descriptor, handle, arguments) ← pool.callSite index
    return .invokeDynamic name descriptor handle arguments
  | .jump => return .jump op (target ls offset (← distance16))
  | .wideJump => return .jump (narrowJump op) (target ls offset (← distance32))
  | .tableSwitch => tableSwitch ls offset
  | .lookupSwitch => lookupSwitch ls offset
  | .multiArray => do
    let descriptor ← pool.typeName (← Decoder.u16)
    return .multiArray descriptor (← Decoder.u8)

/-- Reports the label at an offset and the line that starts there. -/
def reportLabel (ls : CodeLabels) (offset : Nat) : Walk Unit :=
  match ls.labels[(offset : Int)]? with
  | some l => do
    Walk.report (.label l)
    match ls.lines[(offset : Int)]? with
    | some line => Walk.report (.lineNumber line l)
    | none => pure ()
  | none => pure ()

/-- Reports the instructions from the position on. -/
def narrateFrom (pool : PoolView) (ls : CodeLabels) (start length : Nat) : (fuel : Nat) → Walk Unit
  | 0 => pure ()
  | fuel + 1 => do
    let position ← Walk.read Decoder.position
    if position < start + length then
      let offset := position - start
      reportLabel ls offset
      Walk.report (.instruction (← Walk.read (readInstruction pool ls offset)))
      narrateFrom pool ls start length fuel
    else
      pure ()

/-- Reports the exception handlers; comes with their labels. -/
def handlers (pool : PoolView) : (count : Nat) → CodeLabels → Walk CodeLabels
  | 0, ls => pure ls
  | count + 1, ls => do
    let start := (← Walk.read Decoder.u16).toNat
    let stop := (← Walk.read Decoder.u16).toNat
    let handler := (← Walk.read Decoder.u16).toNat
    let ls := ls.markAll false [start, stop, handler]
    let type ← Walk.read do pool.typeName? (← Decoder.u16)
    Walk.report (.tryCatch (ls.get start) (ls.get stop) (ls.get handler) type)
    handlers pool count ls

/-- What the debug tables of a method say before its instructions are reported. -/
structure DebugTables where
  labels : CodeLabels
  /-- Offset of the last table of local variables. -/
  localTable : Option Nat := none
  /-- Generic signatures of local variables, by where they start and their slots. -/
  signatures : Std.HashMap (UInt16 × UInt16) String := ∅

namespace DebugTables

/-- Marks the range of a local variable. -/
def markVariable (t : DebugTables) : Decoder DebugTables := do
  let start := (← Decoder.u16).toNat
  let length := (← Decoder.u16).toNat
  Decoder.skip 6
  return { t with labels := t.labels.markAll true [start, start + length] }

/-- Takes down the generic signature of a local variable. -/
def addSignature (pool : PoolView) (t : DebugTables) : Decoder DebugTables := do
  let start ← Decoder.u16
  Decoder.skip 4
  let signature ← pool.utf8 (← Decoder.u16)
  let slot ← Decoder.u16
  return { t with signatures := t.signatures.insert (start, slot) signature }

/-- Takes down a line number; of two for one offset the later one counts. -/
def addLine (t : DebugTables) : Decoder DebugTables := do
  let start := (← Decoder.u16).toNat
  let line ← Decoder.u16
  let ls := t.labels.mark true start
  return { t with labels := { ls with lines := ls.lines.insert (start : Int) line } }

/-- Changes the tables `n` times. -/
def times (d : DebugTables → Decoder DebugTables) : Nat → DebugTables → Decoder DebugTables
  | 0, t => pure t
  | n + 1, t => do
    times d n (← d t)

/-- Changes the tables as many times as a count of two bytes says. -/
def counted (d : DebugTables → Decoder DebugTables) (t : DebugTables) : Decoder DebugTables := do
  let n ← Decoder.u16
  times d n.toNat t

/-- Takes down what an attribute of the code says. -/
def addAttribute (pool : PoolView) (t : DebugTables) (a : RawAttribute) : Except Error DebugTables :=
  if a.name == "LocalVariableTable" then
    (counted markVariable { t with localTable := some a.start }).runAt pool.bytes a.start
  else if a.name == "LocalVariableTypeTable" then
    (counted (addSignature pool) t).runAt pool.bytes a.start
  else if a.name == "LineNumberTable" then
    (counted addLine t).runAt pool.bytes a.start
  else
    .ok t

/-- Takes down what the attributes of the code say. -/
def addAttributes (pool : PoolView) (skip : Bool) (t : DebugTables) (attributes : List RawAttribute) :
    Except Error DebugTables :=
  if skip then .ok t else attributes.foldlM (addAttribute pool) t

end DebugTables

/-- Reports a local variable. -/
def variableItem (pool : PoolView) (t : DebugTables) : Walk Unit := do
  let start ← Walk.read Decoder.u16
  let length ← Walk.read Decoder.u16
  let name ← Walk.read do pool.utf8 (← Decoder.u16)
  let descriptor ← Walk.read do pool.utf8 (← Decoder.u16)
  let slot ← Walk.read Decoder.u16
  let at0 : Int := start.toNat
  let stop : Int := start.toNat + length.toNat
  Walk.report (.localVariable name descriptor t.signatures[(start, slot)]? (t.labels.get at0) (t.labels.get stop) slot)

/-- Reports the code of a method. -/
def narrate (pool : PoolView) (omitted : Omissions) : Walk Unit := do
  let maxStack ← Walk.read Decoder.u16
  Walk.read (Decoder.skip 2)
  let length := (← Walk.read Decoder.u32).toNat
  let start ← Walk.read Decoder.position
  Walk.read (Decoder.skip length)
  let labels ← Walk.read (findLabels pool.bytes start length)
  let count ← Walk.read Decoder.u16
  let labels ← handlers pool count.toNat labels
  let attributes ← Walk.read (Image.attributeTable pool)
  let tables ← Walk.read (DebugTables.addAttributes pool omitted.debug { labels } attributes)
  (narrateFrom pool tables.labels start length length).runAt pool.bytes start
  match tables.labels.labels[(length : Int)]? with
  | some l => Walk.report (.label l)
  | none => pure ()
  match tables.localTable with
  | some offset => (Walk.counted (variableItem pool tables)).runAt pool.bytes offset
  | none => pure ()
  Walk.report (.maxStack maxStack)

end Code

end ClassFile
