import ClassFile.Proofs.ClassParts
import ClassFile.Proofs.MirroredCode

/-!
# Reading a class part by part

This reader tells of a class what the reader of class files tells, but looks up every attribute by its name and
reads it by itself, from its payload alone (`ClassParts.narrate`). It fails where anything that is read does not
lie in the attribute to which it belongs. Nothing that it tells hangs on where an attribute stands, or on
attributes of which it does not know the names.
-/

namespace ClassFile

open Decoder (Goes)

/-! ## Attributes by their names -/

/-- What the attributes of a table are called, with what they hold. -/
abbrev Sections := List (String × Bytes)

namespace Attribute

/-- The names under which attributes of a class, of a field and of a method are known. -/
def commonNames : List String :=
  ["Signature", "Deprecated", "Synthetic", "RuntimeVisibleAnnotations"]

/-- The names under which attributes of a class are known. -/
def classNames : List String :=
  commonNames ++ ["SourceFile", "SourceDebugExtension", "EnclosingMethod", "NestHost", "NestMembers",
    "InnerClasses", "BootstrapMethods"]

/-- The names under which attributes of a field are known. -/
def fieldNames : List String :=
  commonNames ++ ["ConstantValue"]

/-- The names under which attributes of a method are known. -/
def methodNames : List String :=
  commonNames ++ ["Code", "Exceptions", "RuntimeVisibleParameterAnnotations"]

/-- The names under which attributes of code are known. -/
def codeNames : List String :=
  ["LocalVariableTable", "LocalVariableTypeTable", "LineNumberTable"]

end Attribute

/-- The attributes of a table under their names. -/
def Attribute.sections (view : PoolView) (table : List Attribute) : Except Error Sections :=
  table.mapM fun a => do return (← view.utf8 a.name, a.info)

/-- An attribute under its name, if that can be looked up. -/
def Attribute.titled (view : PoolView) (a : Attribute) : String × Bytes :=
  ((view.utf8 a.name).toOption.getD "", a.info)

/-- An attribute is called what its index names. -/
theorem Attribute.titled_eq {view : PoolView} {a : Attribute} {name : String} (h : view.utf8 a.name = .ok name) :
    a.titled view = (name, a.info) := by
  rw [Attribute.titled, h]
  rfl

/-- The attributes of a table have names if all of these can be looked up. -/
theorem Attribute.sections_eq_ok {view : PoolView} {table : List Attribute} {s : Sections} :
    Attribute.sections view table = .ok s ↔
    (∀ a ∈ table, view.utf8 a.name = .ok (a.titled view).1) ∧ s = table.map (Attribute.titled view) := by
  unfold Attribute.sections
  induction table generalizing s with
  | nil => exact ⟨fun h => ⟨fun _ ha => absurd ha List.not_mem_nil, (Except.ok.inj h).symm⟩, fun h => by rw [h.2]; rfl⟩
  | cons a rest ih =>
    rw [List.mapM_cons, List.forall_mem_cons, List.map_cons]
    constructor
    · intro h
      obtain ⟨x, hx, h⟩ := exists_of_bind_eq_ok h
      obtain ⟨name, hname, hx⟩ := exists_of_bind_eq_ok hx
      obtain ⟨xs, hxs, h⟩ := exists_of_bind_eq_ok h
      obtain ⟨hnames, rfl⟩ := ih.1 hxs
      obtain rfl := Except.ok.inj hx
      obtain rfl := Except.ok.inj h
      rw [Attribute.titled_eq hname]
      exact ⟨⟨hname, hnames⟩, rfl⟩
    · rintro ⟨⟨hname, hnames⟩, rfl⟩
      rw [hname, ih.2 ⟨hnames, rfl⟩]
      rfl

/-- What is found under a name is an attribute of the table. -/
theorem Attribute.exists_of_lookup {view : PoolView} {table : List Attribute} {s : Sections}
    (hs : Attribute.sections view table = .ok s) {name : String} {info : Bytes} (h : s.lookup name = some info) :
    ∃ a ∈ table, view.utf8 a.name = .ok name ∧ a.info = info := by
  obtain ⟨hnames, rfl⟩ := Attribute.sections_eq_ok.1 hs
  obtain ⟨before, after, hsplit, -⟩ := List.lookup_eq_some_iff.1 h
  obtain ⟨a, ha, heq⟩ := List.mem_map.1 (hsplit ▸ List.mem_append_right before List.mem_cons_self)
  have hname := hnames a ha
  rw [heq] at hname
  exact ⟨a, ha, hname, congrArg Prod.snd heq⟩

/-- A string whose index comes next. -/
def PoolView.nextText (view : PoolView) : Decoder String := do
  view.utf8 (← Decoder.u16)

namespace Sections

/-- What is read of the attribute of a name by itself, if there is one. -/
def read {α : Type} (s : Sections) (name : String) (d : Decoder α) : Except Error (Option α) :=
  match s.lookup name with
  | some info => some <$> d.runAt info 0
  | none => .ok none

/-- Tells of the attribute of a name by itself, if there is one and it is not left out. -/
def walk (s : Sections) (name : String) (w : Walk Unit) (skip : Bool := false) : Narration Unit :=
  match if skip then none else s.lookup name with
  | some info => w.runAt info 0
  | none => pure ()

/-- What the attributes say that a class, a field and a method can all have. Annotations are told by themselves. -/
def common (view : PoolView) (s : Sections) : Except Error CommonAttributes := do
  return {
    signature := ← s.read "Signature" view.nextText
    deprecated := (s.lookup "Deprecated").isSome
    synthetic := (s.lookup "Synthetic").isSome }

/-- What the attributes of a class say. Inner classes are told by themselves. -/
def classAttributes (view : PoolView) (s : Sections) : Except Error ClassAttributes := do
  return {
    common := ← s.common view
    sourceFile := ← s.read "SourceFile" view.nextText
    sourceDebug := (s.lookup "SourceDebugExtension").map ModifiedUtf8.decode
    enclosing := ← s.read "EnclosingMethod" (Image.enclosingMethod view)
    nestHost := ← s.read "NestHost" (Image.nextTypeName view)
    nestMembers := (← s.read "NestMembers" (Decoder.counted (Image.nextTypeName view))).getD #[] }

/-- What the attributes of a field say. -/
def fieldAttributes (view : PoolView) (s : Sections) : Except Error FieldAttributes := do
  return {
    common := ← s.common view
    value := ← s.read "ConstantValue" do view.constant (← Decoder.u16) }

/-- What the attributes of a method say. Its code is told by itself. -/
def methodAttributes (view : PoolView) (s : Sections) : Except Error MethodAttributes := do
  return {
    common := ← s.common view
    exceptions := (← s.read "Exceptions" (Decoder.counted (Image.nextTypeName view))).getD #[] }

open Code.DebugTables in
/-- What the debug tables of code say, beside the labels that it has without them. -/
def debugTables (view : PoolView) (s : Sections) (labels : CodeLabels) : Except Error Code.DebugTables := do
  let ranges ← s.read "LocalVariableTable" (Decoder.counted rangeItem)
  let signatures ← s.read "LocalVariableTypeTable" (Decoder.counted (signatureItem view))
  let lines ← s.read "LineNumberTable" (Decoder.counted lineItem)
  let marked := (ranges.getD #[]).foldl noteRange { labels }
  return (lines.getD #[]).foldl noteLine ((signatures.getD #[]).foldl noteSignature marked)

end Sections

/-! ## Code -/

/-- Reads an entry of an exception table. -/
def ExceptionRange.decode : Decoder ExceptionRange := do
  let start ← Decoder.u16
  let stop ← Decoder.u16
  let handler ← Decoder.u16
  let type ← Decoder.u16
  return { start, stop, handler, catchType := if type == 0 then none else some type }

/-- Reads an attribute without opening it. -/
def Attribute.decode : Decoder Attribute := do
  let name ← Decoder.u16
  let length ← Decoder.u32
  let info ← Decoder.take length.toNat
  return { name, info }

/-- Takes the code of a method apart. -/
def CodeContent.decode : Decoder CodeContent := do
  let maxStack ← Decoder.u16
  let maxLocals ← Decoder.u16
  let length ← Decoder.u32
  let code ← Decoder.take length.toNat
  let exceptions ← Decoder.counted ExceptionRange.decode
  let attributes ← Decoder.counted Attribute.decode
  return { maxStack, maxLocals, code, exceptions := exceptions.toList, attributes := attributes.toList }

/-- All counts and lengths of the code have room, and a handler of all exceptions names no type. -/
structure CodeContent.Fits (c : CodeContent) : Prop where
  length : c.code.size < 4294967296
  count : c.exceptions.length < 65536
  types : ∀ r ∈ c.exceptions, r.catchType ≠ some 0
  attributes : Attribute.TableFits c.attributes

section Decoding

open Decoder

/-- An entry of an exception table is read from its own eight bytes. -/
theorem ExceptionRange.spells_decode :
    ExceptionRange.decode.Spells fun r piece => r.catchType ≠ some 0 ∧ piece = r.encode := by
  refine (spells_u16.bind fun start => spells_u16.bind fun stop => spells_u16.bind fun handler => spells_u16.map fun type =>
    (⟨start, stop, handler, if type == 0 then none else some type⟩ : ExceptionRange)).mono ?_
  rintro r piece ⟨start, _, _, rfl, ⟨stop, _, _, rfl, ⟨handler, _, _, rfl, ⟨type, rfl, rfl⟩, rfl⟩, rfl⟩, rfl⟩
  by_cases htype : type = 0
  · simp [htype, ExceptionRange.encode, Array.append_assoc]
  · simp [htype, ExceptionRange.encode, Array.append_assoc]

/-- An entry of an exception table is read as it was written. -/
theorem ExceptionRange.reads_decode {r : ExceptionRange} (h : r.catchType ≠ some 0) : Reads decode r.encode r := by
  obtain ⟨start, stop, handler, type⟩ := r
  have htype : (if type.getD 0 == 0 then none else some (type.getD 0)) = type := by
    cases type with
    | none => rfl
    | some i =>
      have hi : i ≠ 0 := fun hi => h (congrArg some hi)
      simp [hi]
  have hlast := (Reads.u16 (type.getD 0)).map fun type =>
    (⟨start, stop, handler, if type == 0 then none else some type⟩ : ExceptionRange)
  rw [htype] at hlast
  rw [ExceptionRange.encode, Array.append_assoc, Array.append_assoc]
  exact (Reads.u16 start).bind ((Reads.u16 stop).bind ((Reads.u16 handler).bind hlast))

/-- An attribute is read from its own bytes. -/
theorem Attribute.spells_decode : Attribute.decode.Spells fun a piece => a.info.size < 4294967296 ∧ piece = a.encode := by
  refine (spells_u16.bind fun name => spells_u32.bind fun length => (spells_take length.toNat).map fun info =>
    (⟨name, info⟩ : Attribute)).mono ?_
  rintro a piece ⟨name, _, _, rfl, ⟨length, _, _, rfl, ⟨info, ⟨rfl, hinfo⟩, rfl⟩, rfl⟩, rfl⟩
  refine ⟨hinfo ▸ length.toNat_lt, ?_⟩
  rw [Attribute.encode, Array.append_assoc, hinfo]
  congr 3
  exact (UInt32.ofNat_toNat).symm

/-- An attribute is read as it was written. -/
theorem Attribute.reads_decode {a : Attribute} (h : a.info.size < 4294967296) : Reads decode a.encode a := by
  rw [Attribute.encode, Array.append_assoc]
  refine (Reads.u16 a.name).bind ((Reads.u32 _).bind ?_)
  rw [Outline.toNat_size h]
  exact (Reads.take a.info).map fun info => (⟨a.name, info⟩ : Attribute)

/-- Code that can be taken apart is put together of its parts. -/
theorem CodeContent.spells_decode : CodeContent.decode.Spells fun c piece => c.Fits ∧ piece = c.encode := by
  refine (spells_u16.bind fun maxStack => spells_u16.bind fun maxLocals => spells_u32.bind fun length =>
    (spells_take length.toNat).bind fun code => ExceptionRange.spells_decode.countedItems.bind fun exceptions =>
      Attribute.spells_decode.countedItems.map fun attributes =>
        (⟨maxStack, maxLocals, code, exceptions.toList, attributes.toList⟩ : CodeContent)).mono ?_
  rintro c piece ⟨maxStack, _, _, rfl, ⟨maxLocals, _, _, rfl,
    ⟨length, _, _, rfl, ⟨_, code, _, ⟨rfl, hcode⟩, ⟨exceptions, _, _,
    ⟨hcount, htypes, rfl⟩, ⟨attributes, ⟨hattributes, hlengths, rfl⟩, rfl⟩, rfl⟩, rfl⟩, rfl⟩, rfl⟩, rfl⟩
  refine ⟨⟨hcode ▸ length.toNat_lt, by simpa using hcount, htypes, by simpa using hattributes, hlengths⟩, ?_⟩
  have hlength : code.size.toUInt32 = length := by
    rw [hcode]
    exact UInt32.ofNat_toNat
  simp only [CodeContent.encode, hlength, Attribute.encodeTable, Array.append_assoc]

/-- Code is taken apart into its parts. -/
theorem CodeContent.reads_decode {c : CodeContent} (h : c.Fits) : Reads decode c.encode c := by
  have hlength : c.code.size.toUInt32.toNat = c.code.size := by
    rw [UInt32.toNat_ofNat']
    exact Nat.mod_eq_of_lt h.length
  have hexceptions : Reads (Decoder.counted ExceptionRange.decode) _ (c.exceptions.map id).toArray :=
    Reads.counted c.exceptions h.count fun r hr => ExceptionRange.reads_decode (h.types r hr)
  have hattributes : Reads (Decoder.counted Attribute.decode) _ (c.attributes.map id).toArray :=
    Reads.counted c.attributes h.attributes.count fun a ha => Attribute.reads_decode (h.attributes.lengths a ha)
  rw [List.map_id] at hexceptions hattributes
  simp only [CodeContent.encode, Attribute.encodeTable, Array.append_assoc]
  refine (Reads.u16 c.maxStack).bind ((Reads.u16 c.maxLocals).bind ((Reads.u32 _).bind ?_))
  rw [hlength]
  exact (Reads.take c.code).bind (hexceptions.bind (hattributes.map fun attributes =>
    (⟨c.maxStack, c.maxLocals, c.code, c.exceptions, attributes.toList⟩ : CodeContent)))

end Decoding

namespace CodeContent

/-- The exception table without its count. -/
def ranges (c : CodeContent) : Bytes :=
  Bytes.concat (c.exceptions.map ExceptionRange.encode)

/-- Tells the label behind the last instruction. -/
def narrateEnd (c : CodeContent) (labels : CodeLabels) : Narration Unit :=
  match labels.labels[(c.code.size : Int)]? with
  | some l => Narration.report (.label l)
  | none => pure ()

/-- What the debug tables say, unless they are left out. -/
def debugTables (view : PoolView) (skip : Bool) (s : Sections) (labels : CodeLabels) : Except Error Code.DebugTables :=
  if skip then .ok { labels } else s.debugTables view labels

/-- Tells of the code of a method. -/
def narrate (c : CodeContent) (view : PoolView) (omitted : Omissions) : Narration Unit := do
  let labels ← Code.findLabels c.code 0 c.code.size
  let (labels, _) ← (Code.handlers view c.exceptions.length labels).run ⟨c.ranges, 0⟩
  let s ← Attribute.sections view c.attributes
  let t ← debugTables view omitted.debug s labels
  (Code.narrateFrom view t.labels 0 c.code.size c.code.size).runAt c.code 0
  c.narrateEnd t.labels
  s.walk "LocalVariableTable" (Walk.counted (Code.variableItem view t)) omitted.debug
  Narration.report (.maxStack c.maxStack)

end CodeContent

/-! ## Members and the class -/

/-- Announces something, and tells of it if that is wanted. -/
def Narration.announce (e : Event) (wish : Wish) (x : Narration Unit) : Narration Unit := do
  report e
  if wish.grants (← get) then x

namespace MemberParts

/-- Tells of a field. -/
def narrateField (view : PoolView) (interest : Interest) (m : MemberParts) : Narration Unit := do
  let name ← view.utf8 m.name
  let descriptor ← view.utf8 m.descriptor
  let s ← Attribute.sections view m.attributes
  let f ← s.fieldAttributes view
  let access := FlagOwner.fields.truncate (m.access.toUInt32 ||| f.common.accessBits)
  Narration.announce (.fieldOpen access name descriptor f.common.signature f.value) interest.fields do
    s.walk "RuntimeVisibleAnnotations" (Walk.annotationList view interest)
    Narration.report .fieldClose

/-- Tells of the code of a method, if it has any and it is not left out. -/
def narrateCode (view : PoolView) (omitted : Omissions) (s : Sections) : Narration Unit :=
  match if omitted.code then none else s.lookup "Code" with
  | some info => do (← CodeContent.decode.runAt info 0).narrate view omitted
  | none => pure ()

/-- Tells of a method. -/
def narrateMethod (view : PoolView) (omitted : Omissions) (interest : Interest) (m : MemberParts) : Narration Unit := do
  let name ← view.utf8 m.name
  let descriptor ← view.utf8 m.descriptor
  let s ← Attribute.sections view m.attributes
  let a ← s.methodAttributes view
  let access := FlagOwner.methods.truncate (m.access.toUInt32 ||| a.common.accessBits)
  Narration.announce (.methodOpen access name descriptor a.common.signature a.exceptions.toList) interest.methods do
    s.walk "RuntimeVisibleAnnotations" (Walk.annotationList view interest)
    s.walk "RuntimeVisibleParameterAnnotations" (Walk.parameterAnnotations view interest)
    narrateCode view omitted s
    Narration.report .methodClose

end MemberParts

/-- A view with some bytes in front of all that it shows. -/
def PoolView.behind (view : PoolView) (b : Bytes) (bootstraps : Array Nat) : PoolView where
  bytes := b ++ view.bytes
  offsets := view.offsets.map fun offset => if offset = 0 then 0 else b.size + offset
  stop := b.size + view.stop
  bootstraps

/-- The constants of a class, of which nothing stands behind the front, and the bootstrap methods, which stand in
their attribute. The bytes that are filled up say nothing, but the view is as large as the class file: that is how
deep annotations may be nested. -/
def ClassParts.view (p : ClassParts) : Except Error PoolView := do
  (do Outline.checkMagic; Decoder.skip 4 : Decoder Unit).runAt p.front 0
  let constants ← PoolView.parse p.front 8
  let s ← Attribute.sections constants p.attributes
  let bootstraps ← s.read "BootstrapMethods" (Decoder.counted Image.bootstrapOffset)
  let info := (s.lookup "BootstrapMethods").getD #[]
  let filling := Array.replicate (p.encode.size - p.front.size - info.size) 0
  return constants.behind (info ++ filling) (bootstraps.getD #[])

/-- Tells of a class. -/
def ClassParts.narrate (p : ClassParts) (view : PoolView) (omitted : Omissions) (interest : Interest) : Narration Unit := do
  let (minor, major) ← PoolView.indexPair.runAt p.front 4
  let name ← view.typeName p.thisClass
  let superName ← view.typeName? p.superClass
  let interfaces ← (p.interfaces.mapM view.typeName : Except Error (List String))
  let s ← Attribute.sections view p.attributes
  let c ← s.classAttributes view
  let access := FlagOwner.classes.truncate (p.access.toUInt32 ||| c.common.accessBits)
  Narration.report (.header { major, minor } access name c.common.signature superName interfaces)
  Image.narrateClassAttributes view omitted interest c
  s.walk "RuntimeVisibleAnnotations" (Walk.annotationList view interest)
  s.walk "InnerClasses" (Walk.counted (Image.innerClassItem view)) omitted.innerClasses
  p.fields.forM (MemberParts.narrateField view interest)
  p.methods.forM (MemberParts.narrateMethod view omitted interest)
  Narration.report .classClose

/-- The events of a class that is read part by part, and what stopped them if something did. -/
def ClassParts.contents (p : ClassParts) (omitted : Omissions) (interest : Interest) : Except Error Unit × List Event :=
  let (result, events) := (do p.narrate (← p.view) omitted interest : Narration Unit).run.run #[]
  (result, events.toList)

end ClassFile
