import ClassFile.Image.Basic
import ClassFile.Draft.Field
import ClassFile.Draft.Method

/-!
# Writing classes

A class under construction takes the events of its contents one by one. Fields and methods are encoded when they are closed,
the class when all is said. What is left open is closed then. Events that do not belong where they stand are passed over.

The size of the class file is announced before it is written, as the sum of what its parts take, and room is made for it.
-/

namespace ClassFile

/-- A class under construction, without what is open. -/
structure ClassDraft where
  access : UInt32 := 0
  thisClass : Option PoolIndex := none
  superClass : Option PoolIndex := none
  interfaces : List PoolIndex := []
  signature : Option PoolIndex := none
  sourceFile : Option PoolIndex := none
  sourceDebug : Option Bytes := none
  enclosing : Option (PoolIndex × Option PoolIndex) := none
  nestHost : Option PoolIndex := none
  nestMembers : Array PoolIndex := #[]
  annotations : AnnotationList := {}
  innerClasses : Array InnerClass := #[]
  fields : Array Bytes := #[]
  methods : Array Bytes := #[]
  deriving Inhabited

/-- A field or method that is open. -/
inductive OpenMember where
  | field (f : FieldDraft)
  | method (m : MethodDraft)

/-- A class that takes events. -/
structure Writer where
  context : Context
  draft : ClassDraft := {}
  member : Option OpenMember := none
  notes : Option AnnotationDraft := none
  /-- For each copy of a method that was asked for, whether it was made. -/
  copies : Array Bool := #[]

namespace ClassDraft

/-- The attributes of a class but for the bootstrap methods, in the order in which they are written. -/
def contents (c : ClassDraft) (major : UInt16) : List AttributeContent :=
  (if c.innerClasses.isEmpty then [] else [.innerClasses c.innerClasses.toList]) ++
    (c.enclosing.map fun (owner, method) => AttributeContent.enclosingMethod owner method).toList ++
    syntheticMarker c.access major ++
    (c.signature.map AttributeContent.signature).toList ++
    (c.sourceFile.map AttributeContent.sourceFile).toList ++
    (c.sourceDebug.map AttributeContent.sourceDebugExtension).toList ++
    deprecatedMarker c.access ++
    annotationsContent c.annotations ++
    (c.nestHost.map AttributeContent.nestHost).toList ++
    (if c.nestMembers.isEmpty then [] else [.nestMembers c.nestMembers.toList])

/-- The attributes of a class. -/
def attributes (c : ClassDraft) (major : UInt16) : Interning (List Attribute) := do
  let own ← internAttributes (c.contents major)
  let methods := (← get).bootstraps
  let bootstraps ← internAttributes (if methods.isEmpty then [] else [.bootstrapMethods methods.toList])
  return own ++ bootstraps

/-- Number of bytes of the class file, given its pool and its attributes. -/
def announcedSize (c : ClassDraft) (pool : ConstantPool) (attributes : List Attribute) : Nat :=
  8 + pool.size + 6 +
    2 + 2 * c.interfaces.length +
    2 + (c.fields.toList.map Array.size).sum +
    2 + (c.methods.toList.map Array.size).sum +
    2 + (attributes.map Attribute.size).sum

/-- The class file. -/
def encode (c : ClassDraft) (version : Version) (pool : ConstantPool) (attributes : List Attribute) :
    Except Error Bytes := do
  let constants ← pool.encode
  let room : Bytes := Array.emptyWithCapacity (c.announcedSize pool attributes)
  let head := room ++ Bytes.ofUInt32 magic ++ Bytes.ofUInt16 version.minor ++ Bytes.ofUInt16 version.major ++ constants
  let head := head ++ Bytes.ofUInt16 (AccessFlags.inClassFile c.access version.major) ++
    Bytes.ofUInt16 (c.thisClass.getD 0) ++ Bytes.ofUInt16 (c.superClass.getD 0)
  let head := head ++ Bytes.counted (c.interfaces.map Bytes.ofUInt16)
  let fields := c.fields.foldl (· ++ ·) (head ++ Bytes.ofUInt16 c.fields.size.toUInt16)
  let methods := c.methods.foldl (· ++ ·) (fields ++ Bytes.ofUInt16 c.methods.size.toUInt16)
  return methods ++ Attribute.encodeTable attributes

end ClassDraft

namespace Writer

/-- A class to be written whose pool starts from a given one. -/
def withPool (policy : FramePolicy) (hierarchy : Hierarchy) (pool : ConstantPool) (source : Option SourceId) : Writer :=
  { context := { pool, hierarchy, policy, source } }

/-- A class to be written with a pool of its own. -/
def start (policy : FramePolicy) (hierarchy : Hierarchy) : Writer :=
  withPool policy hierarchy .empty none

/-- Whether neither a member nor an annotation is open. -/
def isAtTop (w : Writer) : Bool :=
  w.member.isNone && w.notes.isNone

/-- Takes constants from the pool, which may grow. -/
def intern {α : Type} (w : Writer) (step : Interning α) : α × Writer :=
  let ⟨context, draft, member, notes, copies⟩ := w
  let (a, context) := context.intern step
  (a, ⟨context, draft, member, notes, copies⟩)

/-- Puts a complete annotation where it belongs. -/
def annotate (w : Writer) (target : AnnotationTarget) (bytes : Bytes) : Writer :=
  match w with
  | ⟨context, draft, some (.field f), notes, copies⟩ =>
    ⟨context, draft, some (.field { f with annotations := f.annotations.push bytes }), notes, copies⟩
  | ⟨context, draft, some (.method m), notes, copies⟩ =>
    ⟨context, draft, some (.method (m.annotate target bytes)), notes, copies⟩
  | ⟨context, draft, none, notes, copies⟩ =>
    ⟨context, { draft with annotations := draft.annotations.push bytes }, none, notes, copies⟩

/-- Opens an annotation. -/
def openNotes (w : Writer) (target : AnnotationTarget) (descriptor : String) : Writer :=
  let (notes, w) := w.intern (AnnotationDraft.start target descriptor)
  { w with notes := some notes }

/-- Changes the open annotation. -/
def mapNotes (w : Writer) (f : AnnotationDraft → Interning AnnotationDraft) : Writer :=
  match w with
  | ⟨context, draft, member, some notes, copies⟩ =>
    let (notes, context) := context.intern (f notes)
    ⟨context, draft, member, some notes, copies⟩
  | w => w

/-- Closes the innermost annotation or array. -/
def closeNotes (w : Writer) : Writer :=
  match w with
  | ⟨context, draft, member, some notes, copies⟩ =>
    match notes.close with
    | .inl bytes => annotate ⟨context, draft, member, none, copies⟩ notes.target bytes
    | .inr notes => ⟨context, draft, member, some notes, copies⟩
  | w => w

/-- Closes all annotations and arrays. -/
def closeAllNotes (w : Writer) : Writer :=
  match w with
  | ⟨context, draft, member, some notes, copies⟩ =>
    annotate ⟨context, draft, member, none, copies⟩ notes.target notes.closeAll
  | w => w

/-- Puts the open member into the class. -/
def closeMember (w : Writer) : Writer :=
  match w with
  | ⟨context, draft, some (.field f), notes, copies⟩ =>
    let (bytes, context) := context.intern (f.encode context.version.major)
    ⟨context, { draft with fields := draft.fields.push bytes }, none, notes, copies⟩
  | ⟨context, draft, some (.method m), notes, copies⟩ =>
    if m.finished then ⟨context, draft, none, notes, copies⟩
    else
      match m.encode context with
      | (.ok bytes, context) => ⟨context, { draft with methods := draft.methods.push bytes }, none, notes, copies⟩
      | (.error e, context) => ⟨context.fail e, draft, none, notes, copies⟩
  | w => w

/-- Changes the open method. -/
def mapMethod (w : Writer) (f : Context → MethodDraft → Context × MethodDraft) : Writer :=
  match w with
  | ⟨context, draft, some (.method m), notes, copies⟩ =>
    let (context, m) := f context m
    ⟨context, draft, some (.method m), notes, copies⟩
  | w => w

/-- Puts the attributes of a method into the class as they stand, if they come from the class file that the pool started
from and nothing else has been written of the method. -/
def copyMethod (w : Writer) (source : SourceId) (attributes : Bytes) : Writer :=
  match w with
  | ⟨context, draft, some (.method m), notes, copies⟩ =>
    if context.source == some source && m.isUntouched then
      let bytes := m.encodeHead context.version.major ++ attributes
      ⟨context, { draft with methods := draft.methods.push bytes }, some (.method { m with finished := true }), notes,
        copies.push true⟩
    else ⟨context, draft, some (.method m), notes, copies.push false⟩
  | w => w

/-- The head of the class. -/
def header (w : Writer) (version : Version) (access : UInt32) (name : String) (signature superName : Option String)
    (interfaces : List String) : Writer :=
  let ((thisClass, superClass, interfaces, signature), w) := w.intern do
    let thisClass ← ConstantPool.type name
    let superClass ← superName.mapM ConstantPool.type
    let interfaces ← interfaces.mapM ConstantPool.type
    let signature ← signature.mapM ConstantPool.utf8
    return (some thisClass, superClass, interfaces, signature)
  let ⟨context, draft, member, notes, copies⟩ := w
  let hierarchy :=
    match superName with
    | some superName => context.hierarchy.insert name superName
    | none => context.hierarchy
  ⟨{ context with version, className := name, hierarchy },
    { draft with access, thisClass, superClass, interfaces, signature }, member, notes, copies⟩

/-- The enclosing class, and the method if both its name and its descriptor are given. -/
def outerClass (w : Writer) (owner : String) (name descriptor : Option String) : Writer :=
  let (enclosing, w) := w.intern do
    let owner ← ConstantPool.type owner
    match name, descriptor with
    | some name, some descriptor => return (owner, some (← ConstantPool.nameAndType name descriptor))
    | _, _ => return (owner, none)
  { w with draft := { w.draft with enclosing := some enclosing } }

/-- An inner class; of two entries for one class the first one stays. -/
def innerClass (w : Writer) (name : String) (outer inner : Option String) (access : UInt16) : Writer :=
  let (i, w) := w.intern (ConstantPool.type name)
  if w.draft.innerClasses.any (·.inner == i) then w
  else
    let (entry, w) := w.intern do
      let outer ← outer.mapM ConstantPool.type
      let inner ← inner.mapM ConstantPool.utf8
      return { inner := i, outer, name := inner, access : InnerClass }
    { w with draft := { w.draft with innerClasses := w.draft.innerClasses.push entry } }

/-- The source file and the debug information that goes with it. -/
def sourceNames (w : Writer) (file debug : Option String) : Writer :=
  let (sourceFile, w) := w.intern (file.mapM ConstantPool.utf8)
  { w with draft := { w.draft with sourceFile, sourceDebug := debug.map ModifiedUtf8.encode } }

/-- Opens a method. -/
def openMethod (w : Writer) (access : UInt32) (name descriptor : String) (signature : Option String)
    (exceptions : List String) : Writer :=
  let ⟨context, draft, _, notes, copies⟩ := w
  let (m, context) := MethodDraft.start context access name descriptor signature exceptions
  ⟨context, draft, some (.method m), notes, copies⟩

/-- The class with another piece of its contents. -/
def step (w : Writer) : Event → Writer
  | .header version access name signature superName interfaces =>
    w.header version access name signature superName interfaces
  | .source file debug => w.sourceNames file debug
  | .outerClass owner name descriptor => w.outerClass owner name descriptor
  | .nestHost name =>
    let (i, w) := w.intern (ConstantPool.type name)
    { w with draft := { w.draft with nestHost := some i } }
  | .nestMember name =>
    let (i, w) := w.intern (ConstantPool.type name)
    { w with draft := { w.draft with nestMembers := w.draft.nestMembers.push i } }
  | .innerClass name outer inner access => w.innerClass name outer inner access
  | .annotationOpen descriptor => w.openNotes .owner descriptor
  | .parameterAnnotationOpen parameter descriptor =>
    let w := w.mapMethod fun context m => (context, m.useParameter parameter.toNat)
    w.openNotes (.parameter parameter.toNat) descriptor
  | .elementValue name value => w.mapNotes fun notes => notes.mapLevel (·.value name value)
  | .elementEnum name descriptor constant => w.mapNotes fun notes =>
    notes.mapLevel (·.enumConstant name descriptor constant)
  | .elementNested name descriptor => w.mapNotes (·.openNested name descriptor)
  | .elementArray name => w.mapNotes (·.openArray name)
  | .elementsClose => w.closeNotes
  | .fieldOpen access name descriptor signature value =>
    let (f, w) := w.intern (FieldDraft.start access name descriptor signature value)
    { w with member := some (.field f) }
  | .methodOpen access name descriptor signature exceptions => w.openMethod access name descriptor signature exceptions
  | .fieldClose | .methodClose => w.closeMember
  | .methodCopy source attributes => w.copyMethod source attributes
  | .instruction i => w.mapMethod fun context m => m.instruction context i
  | .label l => w.mapMethod fun context m => m.label context l
  | .tryCatch start stop handler type => w.mapMethod fun context m => (context, m.tryCatch ⟨start, stop, handler, type⟩)
  | .localVariable name descriptor signature start stop slot => w.mapMethod fun context m =>
    m.localVariable context name descriptor signature start stop slot
  | .lineNumber line start => w.mapMethod fun context m => (context, m.lineNumber line start)
  | .maxStack height => w.mapMethod fun context m => (context, { m with declaredMaxStack := height })
  | .classClose => w
  | .abandon => if w.notes.isSome then w.closeNotes else w.closeMember

/-- The class with all pieces of a list. -/
def play (w : Writer) (events : List Event) : Writer :=
  events.foldl step w

/-- The class with nothing left open. -/
def closeAll (w : Writer) : Writer :=
  w.closeAllNotes.closeMember

/-- The class file, or the first cause of failure. -/
def toBytes (w : Writer) : Except Error Bytes :=
  let ⟨context, draft, _, _, _⟩ := w.closeAll
  match context.failure with
  | some e => .error e
  | none =>
    let (attributes, context) := context.intern (draft.attributes context.version.major)
    draft.encode context.version context.pool attributes

end Writer

end ClassFile
