import ClassFile.Draft.Annotations

/-!
# Writing methods

The instructions of a method are written as they come and followed by the control flow, so that the greatest stack height and
the frames can be worked out when the method is closed. Code that is never reached is then replaced by instructions that do
nothing and a throw at its end, and no exception handler covers it any more.

Every instruction takes its shortest form. A jump back that is too far for two bytes becomes a wide one, a conditional one
the negated jump over a wide one; a jump ahead always has two bytes, and is an error when its label comes too late.
-/

namespace ClassFile

/-- A local variable that waits for the positions of its labels. -/
structure PendingLocal where
  name : PoolIndex
  descriptor : PoolIndex
  signature : Option PoolIndex
  start : Label
  stop : Label
  slot : UInt16
  deriving Repr, Inhabited

/-- A method under construction. -/
structure MethodDraft where
  access : UInt32
  name : String
  descriptor : String
  nameIndex : PoolIndex
  descriptorIndex : PoolIndex
  signature : Option PoolIndex
  exceptions : List PoolIndex
  annotations : AnnotationList := {}
  parameterAnnotations : Array AnnotationList := #[]
  code : Bytes := #[]
  flow : ControlFlow
  handlers : Array Handler := #[]
  declaredMaxStack : UInt16 := 0
  maxLocals : Nat
  localVariables : Array PendingLocal := #[]
  lineNumbers : Array (Label × UInt16) := #[]
  /-- Whether the method has been put into its class. -/
  finished : Bool := false
  deriving Inhabited

namespace MethodDraft

/-- Greatest number of bytes that the code of a method can have. -/
def maxCodeLength : Nat := 0xFFFF

/-- A method without code. -/
def start (ctx : Context) (access : UInt32) (name descriptor : String) (signature : Option String)
    (exceptions : List String) : MethodDraft × Context :=
  let analysis := ctx.policy.analysis ctx.version
  ctx.intern do
    let nameIndex ← ConstantPool.utf8 name
    let descriptorIndex ← ConstantPool.utf8 descriptor
    let signature ← signature.mapM ConstantPool.utf8
    let exceptions ← exceptions.mapM ConstantPool.type
    let slots := Descriptor.argumentSlots descriptor
    let maxLocals := if AccessFlags.isStatic access then slots - 1 else slots
    return { access, name, descriptor, nameIndex, descriptorIndex, signature, exceptions
             flow := .start analysis, maxLocals }

/-- The name of a method as failures show it. -/
def qualifiedName (m : MethodDraft) (ctx : Context) : String :=
  ctx.className ++ "." ++ m.name ++ m.descriptor

/-- Reports a jump that does not reach its label. -/
def reportOverflow (m : MethodDraft) (ctx : Context) (overflow : Option Int) : Context :=
  match overflow with
  | some distance => ctx.fail (.jumpTooFar (m.qualifiedName ctx) distance)
  | none => ctx

/-- The method with code at the end. -/
def emit (m : MethodDraft) (bytes : Bytes) : MethodDraft :=
  { m with code := m.code ++ bytes }

/-- The method with room for at least so many locals. -/
def useLocals (m : MethodDraft) (slots : Nat) : MethodDraft :=
  { m with maxLocals := max m.maxLocals slots }

/-- The method with its control flow and code changed. -/
def mapFlow {α : Type} (m : MethodDraft) (f : ControlFlow → Bytes → ControlFlow × Bytes × α) : MethodDraft × α :=
  let code := m.code
  let flow := m.flow
  let m := { m with code := #[], flow := default }
  let (flow, code, a) := f flow code
  ({ m with code, flow }, a)

/-- Writes the distance to a label. -/
def reference (m : MethodDraft) (label : Label) (origin : Nat) (wide : Bool) : MethodDraft :=
  (m.mapFlow fun flow code =>
    let (flow, code) := flow.putReference label origin code wide
    (flow, code, ())).1

/-- Writes the distances to labels, four bytes each. -/
def references (m : MethodDraft) (origin : Nat) (labels : List Label) : MethodDraft :=
  labels.foldl (fun m label => m.reference label origin true) m

/-- Follows what has been written, in the control flow. -/
def advance (m : MethodDraft) (f : ControlFlow → (position : Nat) → ControlFlow) : MethodDraft :=
  (m.mapFlow fun flow code =>
    let position := code.size
    (f flow position, code, ())).1

/-- Follows an instruction whose effect hangs on types. -/
def follow (ctx : Context) (m : MethodDraft)
    (f : ControlFlow → TypeTable → ControlFlow × TypeTable × Option Error) : Context × MethodDraft :=
  let ⟨pool, types, hierarchy, version, className, policy, source, failure⟩ := ctx
  let flow := m.flow
  let m := { m with flow := default }
  let (flow, types, e) := f flow types
  let ctx : Context := ⟨pool, types, hierarchy, version, className, policy, source, failure⟩
  (ctx.check e, { m with flow })

/-- Places a label at the end of the code. -/
def label (ctx : Context) (m : MethodDraft) (label : Label) : Context × MethodDraft :=
  let (m, overflow) := m.mapFlow fun flow code => flow.label label code
  (m.reportOverflow ctx overflow, m)

/-- An instruction without operands. -/
def bare (m : MethodDraft) (op : UInt8) : MethodDraft :=
  (m.emit #[op]).advance fun flow position => flow.bare op position

/-- An instruction with a number as operand. -/
def immediate (m : MethodDraft) (op : UInt8) (operand : Int32) : MethodDraft :=
  let m := m.advance fun flow _ => flow.immediate op operand
  if op == Opcode.sipush then m.emit (#[op] ++ Bytes.ofUInt16 operand.toUInt32.toUInt16)
  else m.emit #[op, operand.toUInt32.toUInt8]

/-- The shortest form of a load or store of a local. -/
def moveLocalBytes (op : UInt8) (slot : UInt16) : Bytes :=
  if slot < 4 && op != Opcode.ret then
    let implied :=
      if op < Opcode.istore then Opcode.iload0 + ((op - Opcode.iload) <<< 2)
      else Opcode.istore0 + ((op - Opcode.istore) <<< 2)
    #[implied + slot.toUInt8]
  else if slot ≥ 256 then #[Opcode.wide, op] ++ Bytes.ofUInt16 slot
  else #[op, slot.toUInt8]

/-- A load or store of a local. A store ends the block if there are handlers, which see what locals hold before and after. -/
def moveLocal (ctx : Context) (m : MethodDraft) (op : UInt8) (slot : UInt16) : Context × MethodDraft :=
  let m := m.useLocals (slot.toNat + if Opcode.movesWide op then 2 else 1)
  let m := (m.emit (moveLocalBytes op slot)).advance fun flow position => flow.moveLocal op slot.toNat position
  if op ≥ Opcode.istore && m.flow.analysis == .frames && !m.handlers.isEmpty then
    let (m, overflow) := m.mapFlow fun flow code => flow.split code
    (m.reportOverflow ctx overflow, m)
  else (ctx, m)

/-- An instruction with a constant of the pool as operand. -/
def emitIndexed (m : MethodDraft) (op : UInt8) (index : PoolIndex) : MethodDraft :=
  m.emit (#[op] ++ Bytes.ofUInt16 index)

/-- An instruction with a class as operand. -/
def typed (ctx : Context) (m : MethodDraft) (op : UInt8) (name : String) : Context × MethodDraft :=
  let offset := m.code.size
  let (ctx, m) := follow ctx m fun flow types => flow.typed types op name offset
  let (i, ctx) := ctx.intern (ConstantPool.type name)
  (ctx, m.emitIndexed op i)

/-- An access to a field. -/
def field (ctx : Context) (m : MethodDraft) (op : UInt8) (owner name descriptor : String) : Context × MethodDraft :=
  let (ctx, m) := follow ctx m fun flow types => flow.field types op descriptor
  let (i, ctx) := ctx.intern (ConstantPool.fieldRef owner name descriptor)
  (ctx, m.emitIndexed op i)

/-- A call of a method. -/
def invoke (ctx : Context) (m : MethodDraft) (op : UInt8) (r : MemberRef) : Context × MethodDraft :=
  let (ctx, m) := follow ctx m fun flow types => flow.invoke types op r.name r.descriptor
  let (i, ctx) := ctx.intern (ConstantPool.methodRef r.owner r.name r.descriptor r.interface)
  let m := m.emitIndexed op i
  (ctx, if op == Opcode.invokeinterface then m.emit #[(Descriptor.argumentSlots r.descriptor).toUInt8, 0] else m)

/-- A dynamic invocation. -/
def invokeDynamic (ctx : Context) (m : MethodDraft) (name descriptor : String) (bootstrap : MethodHandle)
    (arguments : List ConstantValue) : Context × MethodDraft :=
  let (ctx, m) := follow ctx m fun flow types => flow.invokeDynamic types descriptor
  let (i, ctx) := ctx.intern (ConstantPool.callSite name descriptor bootstrap arguments)
  (ctx, (m.emitIndexed Opcode.invokedynamic i).emit #[0, 0])

/-- The opcode that jumps as far as four bytes say. -/
def wideJump (op : UInt8) : UInt8 :=
  if op == Opcode.jsr then Opcode.jsrW else Opcode.gotoW

/-- Least distance that fits in two bytes. -/
def minDistance : Int := -0x8000

/-- A jump. -/
def jump (ctx : Context) (m : MethodDraft) (op : UInt8) (label : Label) : Context × MethodDraft :=
  let (fallsThrough, m) :=
    let flow := m.flow
    let m := { m with flow := default }
    let (fallsThrough, flow) := flow.jump op label
    (fallsThrough, { m with flow })
  let origin := m.code.size
  let far :=
    match m.flow.blocks.position label with
    | some target => (target : Int) - origin < minDistance
    | none => false
  let conditional := op != Opcode.goto && op != Opcode.jsr
  let m :=
    if far then
      let m := if conditional then m.emit (#[Opcode.invertJump op] ++ Bytes.ofUInt16 8) else m
      let origin := m.code.size
      (m.emit #[wideJump op]).reference label origin true
    else
      (m.emit #[op]).reference label origin false
  let next := if fallsThrough then some (far && conditional) else none
  let (m, overflow) := m.mapFlow fun flow code => flow.endJump op next code
  (m.reportOverflow ctx overflow, m)

/-- A load of a constant. -/
def constant (ctx : Context) (m : MethodDraft) (value : ConstantValue) : Context × MethodDraft :=
  let (ctx, m) := follow ctx m fun flow types => flow.constant types value
  let (i, ctx) := ctx.intern (ConstantPool.constant value)
  (ctx,
    if value.isWide then m.emitIndexed Opcode.ldc2W i
    else if i ≥ 256 then m.emitIndexed Opcode.ldcW i
    else m.emit #[Opcode.ldc, i.toUInt8])

/-- An increment of a local. -/
def increment (m : MethodDraft) (slot : UInt16) (amount : Int16) : MethodDraft :=
  let m := (m.advance fun flow _ => flow.increment slot.toNat).useLocals (slot.toNat + 1)
  if slot > 255 || amount > 127 || amount < -128 then
    m.emit (#[Opcode.wide, Opcode.iinc] ++ Bytes.ofUInt16 slot ++ Bytes.ofUInt16 amount.toUInt16)
  else m.emit #[Opcode.iinc, slot.toUInt8, amount.toUInt16.toUInt8]

/-- The opcode of a switch and the zero bytes that align its operands. -/
def emitAligned (m : MethodDraft) (op : UInt8) : MethodDraft :=
  let m := m.emit #[op]
  m.emit (Array.replicate (Bytes.padding m.code.size) 0)

/-- A switch over a range of keys. -/
def tableSwitch (m : MethodDraft) (low high : Int32) (defaultLabel : Label) (labels : List Label) : MethodDraft :=
  let origin := m.code.size
  let m := (m.emitAligned Opcode.tableswitch).reference defaultLabel origin true
  let m := (m.emit (Bytes.ofInt32 low ++ Bytes.ofInt32 high)).references origin labels
  m.advance fun flow position => flow.switch defaultLabel labels position

/-- A switch over single keys. -/
def lookupSwitch (m : MethodDraft) (defaultLabel : Label) (keys : List Int32) (labels : List Label) : MethodDraft :=
  let origin := m.code.size
  let m := (m.emitAligned Opcode.lookupswitch).reference defaultLabel origin true
  let m := m.emit (Bytes.ofUInt32 labels.length.toUInt32)
  let m := (keys.zip labels).foldl (fun m (key, label) => (m.emit (Bytes.ofInt32 key)).reference label origin true) m
  m.advance fun flow position => flow.switch defaultLabel labels position

/-- An allocation of an array with several dimensions. -/
def multiArray (ctx : Context) (m : MethodDraft) (descriptor : String) (dimensions : UInt8) : Context × MethodDraft :=
  let (ctx, m) := follow ctx m fun flow types => flow.multiArray types descriptor dimensions
  let (i, ctx) := ctx.intern (ConstantPool.type descriptor)
  (ctx, (m.emitIndexed Opcode.multianewarray i).emit #[dimensions])

/-- The method with another instruction. -/
def instruction (ctx : Context) (m : MethodDraft) : Instruction → Context × MethodDraft
  | .bare op => (ctx, m.bare op)
  | .immediate op operand => (ctx, m.immediate op operand)
  | .moveLocal op slot => moveLocal ctx m op slot
  | .typed op name => typed ctx m op name
  | .field op owner name descriptor => field ctx m op owner name descriptor
  | .invoke op r => invoke ctx m op r
  | .invokeDynamic name descriptor bootstrap arguments => invokeDynamic ctx m name descriptor bootstrap arguments
  | .jump op target => jump ctx m op target
  | .constant value => constant ctx m value
  | .increment slot amount => (ctx, m.increment slot amount)
  | .tableSwitch low high defaultLabel labels => (ctx, m.tableSwitch low high defaultLabel labels)
  | .lookupSwitch defaultLabel keys labels => (ctx, m.lookupSwitch defaultLabel keys labels)
  | .multiArray descriptor dimensions => multiArray ctx m descriptor dimensions

/-- The method with an exception handler. -/
def tryCatch (m : MethodDraft) (h : Handler) : MethodDraft :=
  { m with handlers := m.handlers.push h }

/-- The method with a local variable. -/
def localVariable (ctx : Context) (m : MethodDraft) (name descriptor : String) (signature : Option String)
    (start stop : Label) (slot : UInt16) : Context × MethodDraft :=
  let m := m.useLocals (slot.toNat + if Descriptor.startsWide descriptor then 2 else 1)
  let (pending, ctx) := ctx.intern do
    let name ← ConstantPool.utf8 name
    let descriptor ← ConstantPool.utf8 descriptor
    let signature ← signature.mapM ConstantPool.utf8
    return { name, descriptor, signature, start, stop, slot : PendingLocal }
  (ctx, { m with localVariables := m.localVariables.push pending })

/-- The method with a line number. -/
def lineNumber (m : MethodDraft) (line : UInt16) (start : Label) : MethodDraft :=
  { m with lineNumbers := m.lineNumbers.push (start, line) }

/-- The method with an annotation, given as it stands in the class file. -/
def annotate (m : MethodDraft) (target : AnnotationTarget) (bytes : Bytes) : MethodDraft :=
  match target with
  | .owner => { m with annotations := m.annotations.push bytes }
  | .parameter i => { m with parameterAnnotations := m.parameterAnnotations.modify i (·.push bytes) }

/-- The method with room for the annotations of a parameter. -/
def useParameter (m : MethodDraft) (i : Nat) : MethodDraft :=
  { m with parameterAnnotations :=
      m.parameterAnnotations ++ Array.replicate (i + 1 - m.parameterAnnotations.size) ({} : AnnotationList) }

end MethodDraft

namespace ExceptionRange

/-- Takes the bytes from `start` up to `stop` out of all ranges from an index on. A range that is covered is deleted, and the
tail of one that is split is put behind its front. -/
def removeFrom (start stop : UInt16) (ranges : List ExceptionRange) (i : Nat) : List ExceptionRange :=
  if h : i < ranges.length then
    let r := ranges[i]
    if stop ≤ r.start || start ≥ r.stop then removeFrom start stop ranges (i + 1)
    else if start ≤ r.start then
      if stop ≥ r.stop then removeFrom start stop (ranges.eraseIdx i) i
      else removeFrom start stop (ranges.set i { r with start := stop }) (i + 1)
    else if stop ≥ r.stop then removeFrom start stop (ranges.set i { r with stop := start }) (i + 1)
    else
      let front := ranges.set i { r with stop := start }
      removeFrom start stop (front.insertIdx (i + 1) { r with start := stop }) (i + 2)
  else ranges
termination_by ranges.length - i
decreasing_by
  · omega
  · rw [List.length_eraseIdx_of_lt h]
    omega
  · rw [List.length_set]
    omega
  · rw [List.length_set]
    omega
  · rw [List.length_insertIdx_of_le_length (by rw [List.length_set]; exact h), List.length_set]
    omega

/-- What is left of ranges without the bytes from `start` up to `stop`. -/
def removeAll (start stop : UInt16) (ranges : List ExceptionRange) : List ExceptionRange :=
  removeFrom start stop ranges 0

end ExceptionRange

namespace MethodDraft

/-- The code with a range replaced by instructions that do nothing and a throw at its end. -/
def blank (code : Bytes) (range : Nat × Nat) : Bytes :=
  let (start, stop) := range
  let filler := List.replicate (stop - 1 - start) Opcode.nop ++ [Opcode.athrow]
  Bytes.overwrite code start filler

/-- The exception table before unreachable code is taken out: handlers whose labels have all been placed. -/
def exceptionTable (blocks : Blocks) : List Handler → Interning (List ExceptionRange)
  | [] => pure []
  | h :: rest => do
    match blocks.position h.start, blocks.position h.stop, blocks.position h.handler with
    | some start, some stop, some handler =>
      let catchType ← h.catchType.mapM ConstantPool.type
      let ranges ← exceptionTable blocks rest
      return ⟨start.toUInt16, stop.toUInt16, handler.toUInt16, catchType⟩ :: ranges
    | _, _, _ => exceptionTable blocks rest

/-- The stack map of frames, if there is more than the method's entry. -/
def stackMapContent (version : Version) (types : TypeTable) (frames : List ComputedFrame) :
    Interning (List Attribute) := do
  if frames.length ≤ 1 then return []
  else if version.supportsStackMapTable then
    internAttributes [.stackMapTable (← StackMap.compress types frames)]
  else
    internAttributes [.stackMap (← StackMap.legacy types frames)]

/-- The range of a local variable whose labels have been placed in order. -/
def localRange (blocks : Blocks) (v : PendingLocal) : Option (LocalVariable × Option PoolIndex) := do
  let start ← blocks.position v.start
  let stop ← blocks.position v.stop
  if stop < start then none
  else
    return (⟨start.toUInt16, (stop - start).toUInt16, v.name, v.descriptor, v.slot⟩, v.signature)

/-- The tables of local variables and line numbers that are not empty. -/
def debugContents (m : MethodDraft) : List AttributeContent :=
  let blocks := m.flow.blocks
  let locals := m.localVariables.toList.filterMap (localRange blocks)
  let ranges := locals.map (·.1)
  let types := locals.filterMap fun (v, signature) => signature.map fun s => { v with descriptor := s }
  let lines := m.lineNumbers.toList.filterMap fun (label, line) =>
    (blocks.position label).map fun position => (⟨position.toUInt16, line⟩ : LineNumber)
  (if ranges.isEmpty then [] else [.localVariables ranges]) ++
    (if types.isEmpty then [] else [.localVariableTypes types]) ++
    (if lines.isEmpty then [] else [.lineNumbers lines])

/-- What the code attribute of a method says apart from its debug tables. -/
structure CodeResult where
  maxStack : Nat
  code : Bytes
  exceptions : List ExceptionRange
  stackMap : List Attribute

/-- The code of a method of which only the stack height is computed. -/
def measuredCode (m : MethodDraft) (exceptions : List ExceptionRange) : CodeResult × MethodDraft :=
  let (height, flow) := m.flow.maxStack m.handlers.toList
  let maxStack := (max height m.declaredMaxStack.toNat).toNat
  (⟨maxStack, m.code, exceptions, []⟩, { m with flow })

/-- The method as the computation of frames sees it. -/
def frameMethod (m : MethodDraft) (ctx : Context) : Frame.Method where
  className := ctx.className
  name := m.name
  descriptor := m.descriptor
  isStatic := AccessFlags.isStatic m.access
  isConstructor := m.name == "<init>"
  maxLocals := m.maxLocals

/-- The code of a method whose frames are computed. -/
def framedCode (ctx : Context) (m : MethodDraft) (exceptions : List ExceptionRange) :
    Except Error CodeResult × Context × MethodDraft :=
  let (result, flow, types) :=
    m.flow.computeFrames m.handlers.toList (m.frameMethod ctx) m.code.size ctx.types ctx.hierarchy
  let ctx := { ctx with types }
  let m := { m with flow }
  match result with
  | .error e => (.error e, ctx, m)
  | .ok analysis =>
    let code := analysis.dead.foldl blank m.code
    let exceptions := analysis.dead.foldl
      (fun ranges (start, stop) => ExceptionRange.removeAll start.toUInt16 stop.toUInt16 ranges) exceptions
    let (stackMap, ctx) := ctx.intern (stackMapContent ctx.version ctx.types analysis.frames.toList)
    (.ok ⟨analysis.maxStack, code, exceptions, stackMap⟩, ctx, m)

/-- The code attribute of a method. -/
def codeAttribute (ctx : Context) (m : MethodDraft) : Except Error Attribute × Context × MethodDraft :=
  if m.code.size > maxCodeLength then
    (.error (.codeTooLong (m.qualifiedName ctx) m.code.size), ctx, m)
  else
    let (exceptions, ctx) := ctx.intern (exceptionTable m.flow.blocks m.handlers.toList)
    let (result, ctx, m) :=
      match m.flow.analysis with
      | .maxStack =>
        let (result, m) := m.measuredCode exceptions
        (Except.ok result, ctx, m)
      | .frames => framedCode ctx m exceptions
    match result with
    | .error e => (.error e, ctx, m)
    | .ok result =>
      let (a, ctx) := ctx.intern do
        let tables ← internAttributes m.debugContents
        ConstantPool.attribute (.code {
          maxStack := result.maxStack.toUInt16, maxLocals := m.maxLocals.toUInt16, code := result.code
          exceptions := result.exceptions, attributes := tables ++ result.stackMap })
      (.ok a, ctx, m)

/-- The annotations of all parameters, if any parameter has been annotated. -/
def parameterContents (m : MethodDraft) : List AttributeContent :=
  if m.parameterAnnotations.isEmpty then []
  else
    let count := (Descriptor.parameterTypes m.descriptor).length
    let missing := Array.replicate (count - m.parameterAnnotations.size) ({} : AnnotationList)
    [.visibleParameterAnnotations (m.parameterAnnotations ++ missing).toList]

/-- The attributes of a method other than its code, in the order in which they are written. -/
def plainContents (m : MethodDraft) (major : UInt16) : List AttributeContent :=
  (if m.exceptions.isEmpty then [] else [.exceptions m.exceptions]) ++
    syntheticMarker m.access major ++ deprecatedMarker m.access ++
    (m.signature.map AttributeContent.signature).toList ++
    annotationsContent m.annotations ++ m.parameterContents

/-- What stands before the attributes of a method. -/
def encodeHead (m : MethodDraft) (major : UInt16) : Bytes :=
  Bytes.ofUInt16 (AccessFlags.inClassFile m.access major) ++ Bytes.ofUInt16 m.nameIndex ++
    Bytes.ofUInt16 m.descriptorIndex

/-- A method as it stands in the class file. -/
def encode (ctx : Context) (m : MethodDraft) : Except Error Bytes × Context :=
  let major := ctx.version.major
  let finishWith (code : List Attribute) (ctx : Context) (m : MethodDraft) : Except Error Bytes × Context :=
    let (rest, ctx) := ctx.intern (internAttributes (m.plainContents major))
    (.ok (m.encodeHead major ++ Attribute.encodeTable (code ++ rest)), ctx)
  if m.code.isEmpty then finishWith [] ctx m
  else
    match codeAttribute ctx m with
    | (.error e, ctx, _) => (.error e, ctx)
    | (.ok a, ctx, m) => finishWith [a] ctx m

/-- Whether nothing has been written of a method but its head. -/
def isUntouched (m : MethodDraft) : Bool :=
  m.code.isEmpty && m.annotations.isEmpty && m.parameterAnnotations.isEmpty

end MethodDraft

end ClassFile
