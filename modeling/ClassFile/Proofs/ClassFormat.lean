import ClassFile.Proofs.FieldFormat
import ClassFile.Proofs.MethodFormat

/-!
# The format of classes

What a class says of itself, in names (`ClassNames`), is what its draft says in constants (`ClassNames.Named`). A reader
gathers the names from the header and the attributes (`classAttributes_says`), and reports them behind each other with the
annotations, the fields and the methods of the class.
-/

namespace ClassFile

open ConstantPool

open Decoder (Goes)

/-- What a class says of another class that is a member of some class. -/
structure InnerNames where
  name : String
  outer : Option String
  inner : Option String
  access : UInt16

/-- What a class says of itself and of those around it, in names. -/
structure ClassNames where
  name : String
  superName : Option String
  interfaces : List String
  signature : Option String
  file : Option String := none
  debug : Option String := none
  enclosing : Option (String × Option (String × String)) := none
  nestHost : Option String := none
  nestMembers : List String := []
  innerClasses : List InnerNames := []

/-- The constants of an enclosing class and its method. -/
def ConstantPool.enclosure (e : String × Option (String × String)) : Interning (PoolIndex × Option PoolIndex) := do
  let owner ← type e.1
  let method ← e.2.mapM fun m => nameAndType m.1 m.2
  return (owner, method)

/-- An inner class is named by a pool. -/
structure InnerNames.Named (pool : ConstantPool) (e : InnerNames) (c : InnerClass) : Prop where
  inner : pool.Knows (type e.name) c.inner
  outer : pool.Knows (e.outer.mapM type) c.outer
  name : pool.Knows (e.inner.mapM utf8) c.name
  access : c.access = e.access
  flags : (FlagOwner.innerClasses.truncate e.access.toUInt32).toUInt16 = e.access

/-- What a class says is named by a pool. -/
structure ClassNames.Named (pool : ConstantPool) (names : ClassNames) (c : ClassDraft) : Prop where
  flags : FlagOwner.classes.truncate c.access = c.access
  thisClass : ∃ i, c.thisClass = some i ∧ pool.Knows (type names.name) i
  superClass : pool.Knows (names.superName.mapM type) c.superClass
  interfaces : pool.Knows (names.interfaces.mapM type) c.interfaces
  signature : pool.Knows (names.signature.mapM utf8) c.signature
  sourceFile : pool.Knows (names.file.mapM utf8) c.sourceFile
  sourceDebug : c.sourceDebug = names.debug.map ModifiedUtf8.encode
  enclosing : pool.Knows (names.enclosing.mapM enclosure) c.enclosing
  nestHost : pool.Knows (names.nestHost.mapM type) c.nestHost
  nestMembers : List.Forall₂ (fun name i => pool.Knows (type name) i) names.nestMembers c.nestMembers.toList
  innerClasses : List.Forall₂ (InnerNames.Named pool) names.innerClasses c.innerClasses.toList

section Reading

variable {view : PoolView} {pool : ConstantPool} {as : List RawAttribute} {s : ClassAttributes}

/-- What classes have in common with members is gathered alike. -/
theorem gathers_class (view : PoolView) :
    Gathers view (Image.addClassAttribute view {}) ClassAttributes.common fun c common => { c with common } where
  add h := by
    unfold Image.addClassAttribute
    rw [h]
    rfl
  same _ := rfl

/-- No entry has the index zero. -/
theorem ConstantPool.Holds.ne_zero {i : PoolIndex} {e : Entry} (h : pool.Holds i e) : (i == 0) = false := by
  refine beq_false_of_ne ?_
  rintro rfl
  exact absurd (entryFrom_bounds h).1 (by decide)

/-- The name of a class that there may be is read. -/
theorem PoolView.Shows.readsTypeName? (hs : view.Shows pool) {name : Option String} {i : Option PoolIndex}
    (h : Option.Rel (fun name i => pool.HoldsType i name) name i) :
    Reads (do view.typeName? (← Decoder.u16) : Decoder (Option String)) (Bytes.ofUInt16 (i.getD 0)) name := by
  refine (Reads.u16 _).bindEmpty (Reads.lift ?_)
  cases h with
  | none => rfl
  | some h =>
    obtain ⟨j, hi, hj⟩ := h
    unfold PoolView.typeName?
    rw [Option.getD_some, hi.ne_zero, hs.typeName ⟨j, hi, hj⟩]
    rfl

/-- A string that there may be is read. -/
theorem PoolView.ShowsEntries.readsUtf8? (hs : view.ShowsEntries pool) {text : Option String} {i : Option PoolIndex}
    (h : Option.Rel (fun text i => pool.HoldsText i text) text i) :
    Reads (do view.utf8? (← Decoder.u16) : Decoder (Option String)) (Bytes.ofUInt16 (i.getD 0)) text := by
  refine (Reads.u16 _).bindEmpty (Reads.lift ?_)
  cases h with
  | none => rfl
  | some h =>
    unfold PoolView.utf8?
    rw [Option.getD_some, ConstantPool.Holds.ne_zero h, hs.utf8 h]
    rfl

/-- The name of the source file is gathered if there is one. -/
theorem foldlM_sourceFile {file : Option String} {i : Option PoolIndex}
    (h : Option.Rel (fun text i => view.utf8 i = .ok text) file i)
    (has : List.Forall₂ (RawAttribute.Says view.bytes) (i.map AttributeContent.sourceFile).toList as)
    (hs : s.sourceFile = none) :
    as.foldlM (Image.addClassAttribute view {}) s = .ok { s with sourceFile := file } := by
  refine foldlM_option h has (fun file => { s with sourceFile := file }) (by rw [← hs]) fun {text i a} htext ha => ?_
  have hname : a.name = "SourceFile" := ha.name
  have hread : (do view.utf8 (← Decoder.u16) : Decoder String).runAt view.bytes a.start = .ok text :=
    ((Reads.u16 i).bindEmpty (Reads.lift htext)).runAt ha.stands
  unfold Image.addClassAttribute
  rw [CommonAttributes.add_other (by rw [hname]; decide), hname]
  change ((do view.utf8 (← Decoder.u16) : Decoder String).runAt view.bytes a.start >>= _) = _
  rw [hread]
  rfl

/-- What a debugger wants to know is gathered if there is any. -/
theorem foldlM_sourceDebug {debug : Option String} (has : List.Forall₂ (RawAttribute.Says view.bytes)
      ((debug.map ModifiedUtf8.encode).map AttributeContent.sourceDebugExtension).toList as)
    (hs : s.sourceDebug = none) :
    as.foldlM (Image.addClassAttribute view {}) s = .ok { s with sourceDebug := debug } := by
  have h : Option.Rel (fun text bytes => bytes = ModifiedUtf8.encode text) debug (debug.map ModifiedUtf8.encode) := by
    cases debug with
    | none => exact .none
    | some text => exact .some rfl
  refine foldlM_option h has (fun debug => { s with sourceDebug := debug }) (by rw [← hs]) fun {text bytes a} htext ha => ?_
  subst htext
  have hname : a.name = "SourceDebugExtension" := ha.name
  have hread : (Decoder.take a.length).runAt view.bytes a.start = .ok (ModifiedUtf8.encode text) := by
    rw [ha.length]
    exact (Reads.take _).runAt ha.stands
  unfold Image.addClassAttribute
  rw [CommonAttributes.add_other (by rw [hname]; decide), hname]
  change ((Decoder.take a.length).runAt view.bytes a.start >>= _) = _
  rw [hread]
  exact congrArg (fun debug => Except.ok { s with sourceDebug := some debug }) (ModifiedUtf8.decode_encode text)

theorem foldlM_nestHost (hv : view.Shows pool) {host : Option String} {i : Option PoolIndex}
    (h : Option.Rel (fun name i => pool.HoldsType i name) host i)
    (has : List.Forall₂ (RawAttribute.Says view.bytes) (i.map AttributeContent.nestHost).toList as)
    (hs : s.nestHost = none) :
    as.foldlM (Image.addClassAttribute view {}) s = .ok { s with nestHost := host } := by
  refine foldlM_option h has (fun host => { s with nestHost := host }) (by rw [← hs]) fun {name i a} hi ha => ?_
  have hname : a.name = "NestHost" := ha.name
  have hread : (Image.nextTypeName view).runAt view.bytes a.start = .ok name :=
    ((Reads.u16 i).bindEmpty (Reads.lift (hv.typeName hi))).runAt ha.stands
  unfold Image.addClassAttribute
  rw [CommonAttributes.add_other (by rw [hname]; decide), hname]
  change ((Image.nextTypeName view).runAt view.bytes a.start >>= _) = _
  rw [hread]
  rfl

/-- The members of the nest are gathered, if their number fits in two bytes. -/
theorem foldlM_nestMembers (hv : view.Shows pool) {members : List String} {is : List PoolIndex}
    (h : List.Forall₂ (fun name i => pool.HoldsType i name) members is) (hl : members.length < 65536)
    (has : List.Forall₂ (RawAttribute.Says view.bytes) (if is.isEmpty then [] else [AttributeContent.nestMembers is]) as)
    (hs : s.nestMembers = #[]) :
    as.foldlM (Image.addClassAttribute view {}) s = .ok { s with nestMembers := members.toArray } := by
  split at has
  · rename_i hempty
    obtain rfl := List.forall₂_nil_left_iff.1 has
    obtain rfl := List.isEmpty_iff.1 hempty
    obtain rfl := List.forall₂_nil_right_iff.1 h
    rw [← hs]
    rfl
  · obtain ⟨a, ha, rfl⟩ := forall₂_singleton has
    have hname : a.name = "NestMembers" := ha.name
    have hread := (hv.typeNames h hl).runAt ha.stands
    refine foldlM_singleton ?_
    unfold Image.addClassAttribute
    rw [CommonAttributes.add_other (by rw [hname]; decide), hname]
    change ((Decoder.counted (Image.nextTypeName view)).runAt view.bytes a.start >>= _) = _
    rw [hread]
    have hall : s.nestMembers ++ members.toArray = members.toArray := by rw [hs, Array.empty_append]
    exact congrArg (fun nestMembers => Except.ok { s with nestMembers }) hall

/-- The constants of an enclosing class and its method name them. -/
theorem ensures_enclosure (e : String × Option (String × String)) : Ensures (enclosure e) fun r later =>
    later.HoldsType r.1 e.1 ∧ Option.Rel (fun m i => later.HoldsNameAndType i m.1 m.2) e.2 r.2 := by
  have hmethod := Ensures.optionMapM (R := fun (m : String × String) i later => later.HoldsNameAndType i m.1 m.2)
    (fun m => ensures_nameAndType m.1 m.2) e.2
  exact (ensures_type e.1).andThen fun _ => hmethod.map fun _ _ hm howner => ⟨howner, hm⟩

/-- An enclosing class is read with its method, if it has one. -/
theorem PoolView.Shows.readsEnclosing (hv : view.Shows pool) {e : String × Option (String × String)}
    {r : PoolIndex × Option PoolIndex}
    (howner : pool.HoldsType r.1 e.1) (hmethod : Option.Rel (fun m i => pool.HoldsNameAndType i m.1 m.2) e.2 r.2) :
    Reads (Image.enclosingMethod view) (Bytes.ofUInt16 r.1 ++ Bytes.ofUInt16 (r.2.getD 0)) e := by
  obtain ⟨owner, method⟩ := e
  obtain ⟨i, j⟩ := r
  refine ((Reads.u16 i).bindEmpty (Reads.lift (hv.typeName howner))).bind ((Reads.u16 (j.getD 0)).bindEmpty ?_)
  cases hmethod with
  | none => exact Reads.pure (owner, none)
  | @some m j hm =>
    obtain ⟨k, l, hj, hk, hl⟩ := hm
    have hread := hv.nameAndType ⟨k, l, hj, hk, hl⟩
    rw [if_neg (by rw [Option.getD_some, hj.ne_zero]; exact Bool.false_ne_true)]
    exact (Reads.lift hread).map fun m => (owner, some m)

theorem foldlM_enclosing (hv : view.Shows pool) {enclosing : Option (String × Option (String × String))}
    {found : Option (PoolIndex × Option PoolIndex)}
    (h : Option.Rel (fun e r => pool.HoldsType r.1 e.1 ∧ Option.Rel (fun m i => pool.HoldsNameAndType i m.1 m.2) e.2 r.2)
      enclosing found)
    (has : List.Forall₂ (RawAttribute.Says view.bytes)
      (found.map fun r => AttributeContent.enclosingMethod r.1 r.2).toList as)
    (hs : s.enclosing = none) : as.foldlM (Image.addClassAttribute view {}) s = .ok { s with enclosing } := by
  refine foldlM_option h has (fun enclosing => { s with enclosing }) (by rw [← hs]) fun {e r a} hr ha => ?_
  have hname : a.name = "EnclosingMethod" := ha.name
  have hread := (hv.readsEnclosing hr.1 hr.2).runAt ha.stands
  unfold Image.addClassAttribute
  rw [CommonAttributes.add_other (by rw [hname]; decide), hname]
  change ((Image.enclosingMethod view).runAt view.bytes a.start >>= _) = _
  rw [hread]
  rfl

/-- Where inner classes are found: nowhere if there are none. -/
def InnerClass.FoundAt (classes : List InnerClass) (b : Bytes) (found : Option Nat) : Prop :=
  match found with
  | some offset => b.HasAt offset (Bytes.counted (classes.map InnerClass.encode))
  | none => classes = []

theorem foldlM_innerClasses {classes : List InnerClass} (has : List.Forall₂ (RawAttribute.Says view.bytes)
      (if classes.isEmpty then [] else [AttributeContent.innerClasses classes]) as) :
    ∃ found, as.foldlM (Image.addClassAttribute view {}) {} = .ok { innerClasses := found } ∧
      InnerClass.FoundAt classes view.bytes found := by
  split at has
  · rename_i hempty
    obtain rfl := List.forall₂_nil_left_iff.1 has
    exact ⟨none, rfl, List.isEmpty_iff.1 hempty⟩
  · obtain ⟨a, ha, rfl⟩ := forall₂_singleton has
    have hname : a.name = "InnerClasses" := ha.name
    refine ⟨some a.start, foldlM_singleton ?_, ha.stands⟩
    unfold Image.addClassAttribute
    rw [CommonAttributes.add_other (by rw [hname]; decide), hname]
    rfl

/-- The bootstrap methods are passed over. -/
theorem foldlM_bootstraps (has : List.Forall₂ (RawAttribute.Says view.bytes) (ClassDraft.bootstrapContents pool) as) :
    as.foldlM (Image.addClassAttribute view {}) s = .ok s := by
  unfold ClassDraft.bootstrapContents at has
  split at has
  · obtain rfl := List.forall₂_nil_left_iff.1 has
    rfl
  · obtain ⟨a, ha, rfl⟩ := forall₂_singleton has
    have hname : a.name = "BootstrapMethods" := ha.name
    refine foldlM_singleton ?_
    unfold Image.addClassAttribute
    rw [CommonAttributes.add_other (by rw [hname]; decide), hname]
    rfl

/-- What a reader gathers from the attributes of a class. -/
theorem classAttributes_says (hs : view.Reveals pool) {c : ClassDraft} {names : ClassNames} (h : names.Named pool c)
    (hl : names.nestMembers.length < 65536) {major : UInt16}
    (has : List.Forall₂ (RawAttribute.Says view.bytes) (c.contents major ++ ClassDraft.bootstrapContents pool) as) :
    ∃ annotations inner, Image.classAttributes view {} as = .ok {
      common := {
        signature := names.signature, deprecated := AccessFlags.isDeprecated c.access
        synthetic := AccessFlags.hasSyntheticMarker c.access major, annotations }
      sourceFile := names.file, sourceDebug := names.debug, enclosing := names.enclosing, nestHost := names.nestHost
      nestMembers := names.nestMembers.toArray, innerClasses := inner } ∧
    c.annotations.FoundAt view.bytes annotations ∧ InnerClass.FoundAt c.innerClasses.toList view.bytes inner := by
  have hv := hs.toShows
  have hsignature := hs.texts (h.signature.ensured hs.built hs.fits (Ensures.optionMapM ensures_utf8 _))
  have hfile := hs.texts (h.sourceFile.ensured hs.built hs.fits (Ensures.optionMapM ensures_utf8 _))
  have henclosing := h.enclosing.ensured hs.built hs.fits (Ensures.optionMapM ensures_enclosure _)
  have hhost := h.nestHost.ensured hs.built hs.fits (Ensures.optionMapM ensures_type _)
  have hmembers := h.nestMembers.imp fun _ _ hi => hi.holdsType hs.built hs.fits
  have hg := gathers_class view
  obtain ⟨own, boots, hown, hboots, rfl⟩ := forall₂_append_left has
  obtain ⟨hosted, members, hhosted, hmembersSay, rfl⟩ := forall₂_append_left hown
  obtain ⟨annotated, hosts, hannotated, hhosts, rfl⟩ := forall₂_append_left hhosted
  obtain ⟨marked, annotations, hmarked, hannotations, rfl⟩ := forall₂_append_left hannotated
  obtain ⟨debugged, deprecateds, hdebugged, hdeprecateds, rfl⟩ := forall₂_append_left hmarked
  obtain ⟨sourced, debugs, hsourced, hdebugs, rfl⟩ := forall₂_append_left hdebugged
  obtain ⟨signed, files, hsigned, hfiles, rfl⟩ := forall₂_append_left hsourced
  obtain ⟨unsigned, signatures, hunsigned, hsignatures, rfl⟩ := forall₂_append_left hsigned
  obtain ⟨enclosed, synthetics, henclosed, hsynthetics, rfl⟩ := forall₂_append_left hunsigned
  obtain ⟨inners, enclosings, hinners, henclosings, rfl⟩ := forall₂_append_left henclosed
  rw [← Array.isEmpty_toList] at hinners hmembersSay
  rw [h.sourceDebug] at hdebugs
  obtain ⟨inner, hinner, hinnerAt⟩ := foldlM_innerClasses hinners
  have hfront := foldlM_append (foldlM_append (foldlM_append (foldlM_append (foldlM_append (foldlM_append hinner
    (foldlM_enclosing hv henclosing henclosings rfl)) (hg.synthetic hsynthetics rfl))
      (hg.signature hsignature hsignatures rfl)) (foldlM_sourceFile hfile hfiles rfl)) (foldlM_sourceDebug hdebugs rfl))
    (hg.deprecated hdeprecateds rfl)
  obtain ⟨found, hfound, hplace⟩ := hg.annotations hannotations (s := {
    common := {
      signature := names.signature, deprecated := AccessFlags.isDeprecated c.access
      synthetic := AccessFlags.hasSyntheticMarker c.access major }
    sourceFile := names.file, sourceDebug := names.debug, enclosing := names.enclosing, innerClasses := inner }) rfl
  exact ⟨found, inner, foldlM_append (foldlM_append
    (foldlM_append (foldlM_append hfront hfound) (foldlM_nestHost hv hhost hhosts rfl))
    (foldlM_nestMembers hv hmembers hl hmembersSay rfl)) (foldlM_bootstraps hboots), hplace, hinnerAt⟩

/-! ## Events -/

/-- Events that are reported one by one are told one by one. -/
theorem Narration.tells_forM (events : List Event) : Narration.Tells (events.forM Narration.report) events () := by
  induction events with
  | nil => exact Narration.Tells.pure ()
  | cons e rest ih => exact (Narration.Tells.report e).bind ih rfl

/-- What is reported of an inner class. -/
def InnerNames.event (e : InnerNames) : Event :=
  .innerClass e.name e.outer e.inner e.access

/-- What is reported of the attributes of a class before its annotations. -/
def ClassAttributes.events (c : ClassAttributes) : List Event :=
  (if c.sourceFile.isSome || c.sourceDebug.isSome then [.source c.sourceFile c.sourceDebug] else []) ++
    (c.enclosing.map fun e => Event.outerClass e.1 (e.2.map (·.1)) (e.2.map (·.2))).toList ++
    (c.nestHost.map Event.nestHost).toList ++ c.nestMembers.toList.map Event.nestMember

/-- Of the attributes of a class, plain ones are told first, then annotations, then inner classes. -/
theorem narrateClassAttributes_eq (view : PoolView) (interest : Interest) (c : ClassAttributes) :
    Image.narrateClassAttributes view {} interest c = (do
      c.events.forM Narration.report
      Image.walkAt view c.common.annotations (Walk.annotationList view interest)
      Image.walkAt view c.innerClasses (Walk.counted (Image.innerClassItem view))) := by
  obtain ⟨common, file, debug, enclosing, host, members, inner⟩ := c
  unfold Image.narrateClassAttributes ClassAttributes.events
  cases file <;> cases debug <;> cases enclosing <;> cases host <;> simp

/-- An inner class is read as its event. -/
theorem InnerNames.Named.tells (hs : view.Reveals pool) {e : InnerNames} {c : InnerClass} (h : e.Named pool c) {b : Bytes}
    {at0 : Nat}
    (hat : b.HasAt at0 c.encode) : (Image.innerClassItem view).Tells ⟨b, at0⟩ [e.event] () ⟨b, at0 + c.encode.size⟩ := by
  obtain ⟨hfront, haccess⟩ := Bytes.hasAt_append.1 hat
  obtain ⟨hfront, hname⟩ := Bytes.hasAt_append.1 hfront
  obtain ⟨hinner, houter⟩ := Bytes.hasAt_append.1 hfront
  have hreadInner : Reads (Image.nextTypeName view) (Bytes.ofUInt16 c.inner) e.name :=
    (Reads.u16 _).bindEmpty (Reads.lift (hs.typeName (h.inner.holdsType hs.built hs.fits)))
  have hreadOuter := hs.toShows.readsTypeName? (h.outer.ensured hs.built hs.fits (Ensures.optionMapM ensures_type _))
  have hreadName := hs.readsUtf8? (h.name.ensured hs.built hs.fits (Ensures.optionMapM ensures_utf8 _))
  refine Walk.Tells.after (Decoder.goes_of_reads hreadInner hinner) ?_
  refine Walk.Tells.after (Decoder.goes_of_reads hreadOuter houter) ?_
  refine Walk.Tells.after (Decoder.goes_of_reads hreadName hname) ?_
  refine Walk.Tells.after (Decoder.goes_of_reads (Reads.u16 _) haccess) ?_
  rw [h.access, h.flags]
  exact Walk.Tells.report e.event

/-- Inner classes are told by their names, one after the other. -/
theorem tells_innerClasses (hs : view.Reveals pool) {names : List InnerNames} {classes : List InnerClass}
    (h : List.Forall₂ (InnerNames.Named pool) names classes) (hl : classes.length < 65536) {found : Option Nat}
    (hfound : InnerClass.FoundAt classes view.bytes found) :
    (Image.walkAt view found (Walk.counted (Image.innerClassItem view))).Tells (names.map InnerNames.event) () := by
  cases found with
  | none =>
    obtain rfl : classes = [] := hfound
    obtain rfl := List.forall₂_nil_right_iff.1 h
    exact Narration.Tells.pure ()
  | some offset =>
    have hitems : List.Forall₂ (fun code es => ∀ at0, view.bytes.HasAt at0 code →
        (Image.innerClassItem view).Tells ⟨view.bytes, at0⟩ es () ⟨view.bytes, at0 + code.size⟩)
        (classes.map InnerClass.encode) (names.map fun e => [e.event]) :=
      List.forall₂_map_left_iff.2 (List.forall₂_map_right_iff.2
        (h.flip.imp fun c e he at0 hat => InnerNames.Named.tells hs he hat))
    rw [List.map_eq_flatMap, List.flatMap_def]
    exact (Walk.Tells.counted_forall₂ hitems (by simpa using hl) hfound).runAt

end Reading

/-- What is reported of a class before its annotations. -/
def ClassNames.events (names : ClassNames) : List Event :=
  ClassAttributes.events {
    sourceFile := names.file, sourceDebug := names.debug, enclosing := names.enclosing, nestHost := names.nestHost
    nestMembers := names.nestMembers.toArray }

/-- What is reported of a class: its header, its attributes, its annotations, its inner classes and its members. -/
def ClassNames.story (names : ClassNames) (version : Version) (access : UInt32)
    (annotations fields methods : List Event) : List Event :=
  .header version access names.name names.signature names.superName names.interfaces ::
    (names.events ++ annotations ++ names.innerClasses.map InnerNames.event ++ (fields ++ methods) ++ [.classClose])

section Narrating

variable {closed : Writer} {pool shown : ConstantPool} {constants : Bytes} {attributes : List Attribute} {view : PoolView}

/-- The image of a class file, of which a view shows the pool. -/
def Writer.imageOf (closed : Writer) (constants : Bytes) (view : PoolView) : Image where
  bytes := view.bytes
  pool := view
  header := 8 + constants.size
  attributes := Layout.attributesOffset closed constants

/-- The version of a class stands in front of everything else. -/
theorem Writer.Layout.version_eq (h : closed.Layout pool constants attributes view.bytes) :
    (closed.imageOf constants view).version = .ok closed.context.version := by
  have hwhole := Bytes.hasAt_self view.bytes
  rw [h.bytes] at hwhole
  obtain ⟨hpreamble, -⟩ := Bytes.hasAt_append.1 hwhole
  rw [← h.bytes, ClassDraft.preamble, Array.append_assoc] at hpreamble
  obtain ⟨-, hnumbers⟩ := Bytes.hasAt_append.1 hpreamble
  have hread := (PoolView.reads_indexPair closed.context.version.minor closed.context.version.major).runAt hnumbers
  change (PoolView.indexPair.runAt view.bytes 4 >>= _) = _
  rw [show PoolView.indexPair.runAt view.bytes 4 = _ from hread]
  rfl

/-- The header of a class file is read as the names of the class and its flags. -/
theorem Writer.Layout.header_says (h : closed.Layout pool constants attributes view.bytes) (hc : closed.Countable view.bytes)
    (hs : view.Reveals shown) {names : ClassNames} (hnames : names.Named shown closed.draft) :
    (closed.imageOf constants view).className = .ok names.name ∧
    (closed.imageOf constants view).superName = .ok names.superName ∧
    (closed.imageOf constants view).interfaces = .ok names.interfaces ∧
    (closed.imageOf constants view).accessBits =
      .ok (AccessFlags.inClassFile closed.draft.access closed.context.version.major).toUInt32 := by
  obtain ⟨-, hheader, -⟩ := h.hasAt
  obtain ⟨hinterfacesAt, -⟩ := h.hasAt_tables
  obtain ⟨hfront, hsuperAt⟩ := Bytes.hasAt_append.1 hheader
  obtain ⟨haccessAt, hnameAt⟩ := Bytes.hasAt_append.1 hfront
  obtain ⟨i, hthis, hname⟩ := hnames.thisClass
  rw [hthis] at hnameAt
  have hinterfaces := hnames.interfaces.ensured hs.built hs.fits (Ensures.mapM ensures_type _)
  refine ⟨?_, ?_, ?_, ?_⟩
  · exact Reads.runAt ((Reads.u16 i).bindEmpty (Reads.lift (hs.typeName (hname.holdsType hs.built hs.fits)))) hnameAt
  · exact Reads.runAt (hs.toShows.readsTypeName?
      (hnames.superClass.ensured hs.built hs.fits (Ensures.optionMapM ensures_type _))) hsuperAt
  · exact ((hs.toShows.typeNames hinterfaces (hinterfaces.length_eq ▸ hc.interfaces)).map Array.toList).runAt hinterfacesAt
  · exact ((Reads.u16 _).map UInt16.toUInt32).runAt haccessAt

/-- The fields stand behind the constants and the header. -/
theorem Writer.Layout.fieldsOffset_eq (closed : Writer) (constants : Bytes) :
    fieldsOffset closed constants = 8 + constants.size + 8 + 2 * closed.draft.interfaces.length := by
  have hpieces := Bytes.sum_size_ofUInt16 closed.draft.interfaces
  rw [fieldsOffset, tablesOffset, Bytes.counted_eq, Array.size_append, Bytes.size_concat, List.map_map, ← hpieces]
  simp
  omega

/-- A class file is read as what its parts tell. -/
theorem Writer.Layout.tells (h : closed.Layout pool constants attributes view.bytes) (hc : closed.Countable view.bytes)
    (hs : view.Reveals shown)
    (hcontent : List.Forall₂ (Attribute.Says shown)
      (closed.draft.contents closed.context.version.major ++ ClassDraft.bootstrapContents shown) attributes)
    {names : ClassNames} (hnames : names.Named shown closed.draft) (hmembers : names.nestMembers.length < 65536)
    (hinner : closed.draft.innerClasses.size < 65536) {annotations : List Event}
    (hnotes : closed.draft.annotations.Stands shown annotations) {fields methods : List (List Event)}
    (hfields : List.Forall₂ (WrittenField shown closed.context.version.major) closed.draft.fields.toList fields)
    {source : SourceId}
    (hmethods : List.Forall₂ (WrittenMethod shown closed.context.version.major source) closed.draft.methods.toList methods) :
    ((closed.imageOf constants view).narrate {} { copies := some source }).Tells
      (names.story closed.context.version closed.draft.access annotations fields.flatten methods.flatten) () := by
  obtain ⟨-, hfieldsAt, hmethodsAt, hattributesAt⟩ := h.hasAt_tables
  obtain ⟨hname, hsuper, hinterfaces, haccess⟩ := h.header_says hc hs hnames
  have hroom := hc.size
  have hfits : ∀ {piece : Bytes} {offset : Nat}, view.bytes.HasAt offset piece → piece.size < 4294967296 := by
    intro piece offset hat
    have := hat.le_size
    omega
  have hlength : (closed.draft.contents closed.context.version.major ++ ClassDraft.bootstrapContents shown).length <
    65536 := by
    have := ClassDraft.length_contents closed.draft closed.context.version.major
    have hboot : (ClassDraft.bootstrapContents shown).length ≤ 1 := by
      unfold ClassDraft.bootstrapContents
      split <;> simp
    rw [List.length_append]
    omega
  obtain ⟨raws, hfound, hraws⟩ := Image.exists_attributeTable hs.toShowsEntries hcontent hlength
    (hfits hattributesAt) hattributesAt
  obtain ⟨notes, inner, hgathered, hnotesAt, hinnerAt⟩ := classAttributes_says hs hnames hmembers hraws
  have hbits := FlagOwner.truncate_inClassFile .classes hnames.flags closed.context.version.major
  have hfieldTells : ∀ p es, WrittenField shown closed.context.version.major p es → ∀ at0, view.bytes.HasAt at0 p →
      (Image.narrateField view { copies := some source }).Tells ⟨view.bytes, at0⟩ es () ⟨view.bytes, at0 + p.size⟩ :=
    fun _ _ hp _ hat => hp.tells hs hat (hfits hat)
  have hmethodTells : ∀ p es, WrittenMethod shown closed.context.version.major source p es → ∀ at0, view.bytes.HasAt at0 p →
      (Image.narrateMethod view {} { copies := some source }).Tells ⟨view.bytes, at0⟩ es () ⟨view.bytes, at0 + p.size⟩ :=
    fun _ _ hp _ hat => hp.tells hs hat (hfits hat)
  have hfieldsTell := Walk.Tells.counted_forall₂ (hfields.imp hfieldTells) (by simpa using hc.fields) hfieldsAt
  have hmethodsTell := Walk.Tells.counted_forall₂ (hmethods.imp hmethodTells) (by simpa using hc.methods) hmethodsAt
  have hmembersTell : Narration.Tells (Walk.runAt (do
      Walk.counted (Image.narrateField view { copies := some source })
      Walk.counted (Image.narrateMethod view {} { copies := some source })) view.bytes (fieldsOffset closed constants))
      (fields.flatten ++ methods.flatten) () :=
    (hfieldsTell.bind hmethodsTell rfl).runAt
  have hoffset : 8 + constants.size + 8 + 2 * names.interfaces.length = fieldsOffset closed constants := by
    have hlisted := (hnames.interfaces.ensured hs.built hs.fits (Ensures.mapM ensures_type _)).length_eq
    rw [hlisted, fieldsOffset_eq]
  have hattributesTell : Narration.Tells (Image.narrateClassAttributes view {} { copies := some source } {
      common := {
        signature := names.signature, deprecated := AccessFlags.isDeprecated closed.draft.access
        synthetic := AccessFlags.hasSyntheticMarker closed.draft.access closed.context.version.major, annotations := notes }
      sourceFile := names.file, sourceDebug := names.debug, enclosing := names.enclosing, nestHost := names.nestHost
      nestMembers := names.nestMembers.toArray, innerClasses := inner })
      (names.events ++ (annotations ++ names.innerClasses.map InnerNames.event)) () := by
    rw [narrateClassAttributes_eq]
    refine (Narration.tells_forM _).bind ((hnotes.tells_at hs hnotesAt).bind ?_ rfl) rfl
    exact tells_innerClasses hs hnames.innerClasses (by simpa using hinner) hinnerAt
  refine Narration.Tells.known h.version_eq (Narration.Tells.known hname (Narration.Tells.known hsuper
    (Narration.Tells.known hinterfaces (Narration.Tells.known haccess (Narration.Tells.known hfound.runAt
    (Narration.Tells.known hgathered ?_))))))
  rw [← hoffset] at hmembersTell
  refine (Narration.Tells.report _).bind (hattributesTell.bind
    (hmembersTell.bind (Narration.Tells.report .classClose) rfl) rfl) ?_
  have hstart := congrArg (Event.header closed.context.version · names.name names.signature names.superName names.interfaces)
    hbits
  exact congrArg₂ List.cons hstart (by simp)

end Narrating

end ClassFile
