import ClassFile.Image.Reencode
import ClassFile.Proofs.ClassReplay
import ClassFile.Proofs.CopiedPools

/-!
# Class files that are copied

A class file that was written is read and written again with its constant pool kept, and its methods taken as they stand:
the same bytes come out (`Image.reencode_written`). What the class tells is known to the copy of its pool
(`Writer.Telling`), so a reader reports it, and the writer that takes the reports comes to the class that was written,
without a constant that was not in the pool.
-/

namespace ClassFile

open ConstantPool

/-! ## Pools that agree -/

section Agreement

variable {copy pool : ConstantPool} {view : PoolView}

/-- Pools that agree have the same entry at every index. -/
theorem ConstantPool.Agrees.entryAt_eq (h : Agrees copy pool) : copy.entryAt = pool.entryAt := by
  unfold entryAt
  rw [h.entries]

/-- Pools that agree are written as the same bytes. -/
theorem ConstantPool.Agrees.encode_eq (h : Agrees copy pool) : copy.encode = pool.encode := by
  unfold encode checkSize
  rw [h.nextIndex, h.entries]

/-- A pool that agrees with one that can be counted can be counted. -/
theorem ConstantPool.Agrees.fits (h : Agrees copy pool) (hf : pool.Fits) : copy.Fits := by
  rw [Fits, h.nextIndex]
  exact hf

/-- A pool that agrees with another one has all that the other one has. -/
theorem ConstantPool.Agrees.extends (h : Agrees copy pool) : pool.Extends copy :=
  ⟨h.entries ▸ List.prefix_refl _, h.bootstraps ▸ List.prefix_refl _⟩

/-- A view that shows a pool shows all that agree with it. -/
theorem PoolView.Shows.agrees (hs : view.Shows pool) (h : Agrees copy pool) : view.Shows copy where
  length := h.nextIndex ▸ hs.length
  entry := h.entryAt_eq ▸ hs.entry
  text := h.entryAt_eq ▸ hs.text
  bootstrap := h.bootstraps ▸ hs.bootstrap
  numbered := h.bootstraps ▸ hs.numbered

/-- What an attribute says with a pool it says with all that agree with it. -/
theorem Attribute.Says.agrees {content : AttributeContent} {a : Attribute} (hs : a.Says pool content)
    (h : Agrees copy pool) :
    a.Says copy content :=
  ⟨(congrFun h.entryAt_eq _).trans hs.1, hs.2⟩

/-- Pools that agree have the same attribute of bootstrap methods. -/
theorem ConstantPool.Agrees.bootstrapContents_eq (h : Agrees copy pool) :
    ClassDraft.bootstrapContents copy = ClassDraft.bootstrapContents pool := by
  unfold ClassDraft.bootstrapContents
  rw [h.bootstraps]

/-- The attributes of a class are known to every pool that the pool of its class file may grow to, if
no bootstrap method comes in. -/
theorem ClassDraft.attributes_known {c : ClassDraft} {major : UInt16} {before later : ConstantPool}
    {attributes : List Attribute} (h : c.attributes major before = (attributes, pool)) (hb : before.Built) (hl : later.Built)
    (hext : pool.Extends later) (hf : later.Fits)
    (hbootstraps : later.bootstraps = pool.bootstraps) : later.Knows (c.attributes major) attributes := by
  rw [attributes_eq] at h
  obtain ⟨hown, hown', hrecall⟩ := (interns_internAttributes (c.contents major)).recalls before hb
  have hkept := bootstraps_internAttributes (c.contents major) before
  generalize internAttributes (c.contents major) before = own at *
  obtain ⟨hboot, hboot', hrecall'⟩ := (interns_internAttributes (bootstrapContents own.2)).recalls own.2 hown
  have hkept' := bootstraps_internAttributes (bootstrapContents own.2) own.2
  generalize hr : internAttributes (bootstrapContents own.2) own.2 = boot at *
  obtain ⟨rfl, rfl⟩ := Prod.mk.inj h
  have hsame : bootstrapContents later = bootstrapContents own.2 := by
    unfold bootstrapContents
    rw [hbootstraps, hkept']
  have hfirst : internAttributes (c.contents major) later = (own.1, later) := hrecall later hl (hboot'.trans hext) hf
  have hsecond : internAttributes (bootstrapContents own.2) later = (boot.1, later) := hrecall' later hl hext hf
  change c.attributes major later = _
  rw [attributes_eq, hfirst]
  dsimp only
  rw [hsame, hsecond]

end Agreement

/-! ## Reading what was written, and writing it again -/

/-- Where everything in a list is related to something, there is a list of those. -/
theorem exists_forall₂ {α β : Type} {R : α → β → Prop} {as : List α} (h : ∀ a ∈ as, ∃ b, R a b) :
    ∃ bs, List.Forall₂ R as bs := by
  induction as with
  | nil => exact ⟨[], .nil⟩
  | cons a as ih =>
    obtain ⟨b, hb⟩ := h a List.mem_cons_self
    obtain ⟨bs, hbs⟩ := ih fun x hx => h x (List.mem_cons_of_mem a hx)
    exact ⟨b :: bs, .cons hb hbs⟩

section Copying

variable {closed : Writer} {pool copy : ConstantPool} {constants : Bytes} {attributes : List Attribute} {b : Bytes}

/-- What is counted in a class file fits into two bytes, in the class itself too. -/
structure Writer.Listable (closed : Writer) (b : Bytes) : Prop extends closed.Countable b where
  nestMembers : closed.draft.nestMembers.size < 65536
  innerClasses : closed.draft.innerClasses.size < 65536

/-- With its pool kept, a class file is written anew from what is reported of it. -/
theorem Image.reencode_of_contents {image : Image} {events : List Event} (hpool : image.pool.toPool = .ok copy)
    (hcontents : image.contents {} { copies := some 0 } = (.ok (), events)) (policy : FramePolicy) (hierarchy : Hierarchy) :
    image.reencode policy true hierarchy = ((Writer.withPool policy hierarchy copy (some 0)).play
      events).closeAll.toBytes := by
  have hplay : image.playTo {} (some 0) (Writer.withPool policy hierarchy copy (some 0)) =
      (.ok (), ((Writer.withPool policy hierarchy copy (some 0)).play events).closeAll) := by
    unfold Image.playTo
    rw [hcontents]
  change (image.pool.toPool >>= fun pool =>
    (image.playTo {} (some 0) (Writer.withPool policy hierarchy pool (some 0))).1 >>= fun _ =>
      (image.playTo {} (some 0) (Writer.withPool policy hierarchy pool (some 0))).2.toBytes) = _
  rw [hpool]
  simp only [bind, Except.bind]
  rw [hplay]

/-- The image of a class file that was written, and the copy of its pool. -/
theorem Writer.Layout.exists_image (h : closed.Layout pool constants attributes b) (hshaped : closed.Shaped)
    (hc : closed.Countable b) :
    ∃ (view : PoolView) (copy : ConstantPool), view.bytes = b ∧ Image.parse b = .ok (closed.imageOf constants view) ∧
      view.toPool = .ok copy ∧ Agrees copy pool ∧ view.Reveals copy := by
  have hp := h.sound.built
  obtain ⟨hfits, -, -⟩ := ConstantPool.encode_eq h.encoded
  have harguments : ∀ m ∈ pool.bootstraps, m.arguments.length < 65536 := h.bootstraps ▸ hc.arguments
  obtain ⟨offsets, hparse, hshows⟩ := h.exists_view
  obtain ⟨offsets', hparse', hlists⟩ := PoolView.parse_encode_lists hp h.encoded h.hasAt.1
  obtain rfl : offsets = offsets' := congrArg PoolView.offsets (Except.ok.inj (hparse.symm.trans hparse'))
  obtain ⟨copy, hcopy, hagrees⟩ := PoolView.exists_toPool hp (hlists (bootstrapOffsets pool b)).2
    (by simp [bootstrapOffsets]) hfits fun {k m} hm => hshows.rawBootstrap hm (harguments m (Array.mem_of_getElem? hm))
  refine ⟨{ bytes := b, offsets, stop := 8 + constants.size, bootstraps := bootstrapOffsets pool b }, copy, rfl,
    h.parse hshaped hc hparse hshows, hcopy, hagrees, { hshows.agrees hagrees with
    built := hagrees.left, fits := hagrees.fits hfits, arguments := ?_ }⟩
  rw [hagrees.bootstraps]
  exact harguments

/-- A class that can be told is read back, and written again to the same bytes. -/
theorem Writer.Written.reencode (h : closed.Written pool attributes b) (htelling : closed.Telling) (hshaped : closed.Shaped)
    (hc : closed.Listable b) :
    ∃ image, Image.parse b = .ok image ∧ ∀ (policy : FramePolicy) (hierarchy : Hierarchy),
      image.reencode policy true hierarchy = .ok b := by
  obtain ⟨constants, hlayout⟩ := h.layout htelling.sound
  obtain ⟨view, copy, rfl, hparse, hcopy, hagrees, hreveals⟩ := hlayout.exists_image hshaped hc.toCountable
  refine ⟨_, hparse, fun policy hierarchy => ?_⟩
  have hgrown := hlayout.grown.trans hagrees.extends
  obtain ⟨⟨⟨names, hnames⟩, ⟨annotations, hannotations⟩, hfields, hmethods, hdistinct⟩, -, -⟩ :=
    htelling.told copy hagrees.left hgrown hreveals.fits
  obtain ⟨fields, hfields⟩ := exists_forall₂ fun b hb => hfields b (Array.mem_toList_iff.1 hb)
  obtain ⟨methods, hmethods⟩ := exists_forall₂ fun b hb => hmethods b (Array.mem_toList_iff.1 hb) 0
  have hcontent := hlayout.content.imp fun _ _ ha => ha.agrees hagrees
  rw [← hagrees.bootstrapContents_eq] at hcontent
  have hmembers : names.nestMembers.length < 65536 := by
    rw [hnames.nestMembers.length_eq, Array.length_toList]
    exact hc.nestMembers
  have htells := hlayout.tells hc.toCountable hreveals hcontent hnames hmembers hc.innerClasses hannotations hfields hmethods
  obtain ⟨className, hierarchy', copies, hplay⟩ :=
    ClassNames.Named.play_story { pool := copy, hierarchy, policy, source := some 0 } hnames
    rfl hannotations hdistinct closed.context.version hfields hmethods
  have hcopied : Writer.Written ⟨{
      pool := copy, hierarchy := hierarchy', policy, source := some 0, version := closed.context.version, className },
      closed.draft, none, none, copies⟩ copy attributes view.bytes := {
    failure := rfl
    content :=
      ClassDraft.attributes_known h.content htelling.sound.built hagrees.left hagrees.extends hreveals.fits hagrees.bootstraps
    encoded := by
      have hencoded := h.encoded
      unfold ClassDraft.encode at hencoded ⊢
      rw [hagrees.encode_eq]
      exact hencoded }
  have hcontents : (closed.imageOf constants view).contents {} { copies := some 0 } =
      (.ok (), names.story closed.context.version closed.draft.access annotations fields.flatten methods.flatten) := by
    unfold Image.contents
    rw [show ((closed.imageOf constants view).narrate {} { copies := some 0 }).run.run #[] = _ from htells #[],
      Array.empty_append]
  rw [Image.reencode_of_contents hcopy hcontents]
  change (Writer.closeAll (Writer.play ⟨{ pool := copy, hierarchy, policy, source := some 0 }, {}, none, none, #[]⟩
    _)).toBytes = _
  rw [hplay]
  exact hcopied.toBytes rfl

end Copying

/-- A class that was written is copied to the same bytes: its class file is read, and written again from its reports with its
pool kept, whatever frames are asked for and whatever is known of other classes. -/
theorem Image.reencode_written {policy : FramePolicy} {hierarchy : Hierarchy} {version : Version} {access : UInt32}
    {name : String} {signature superName : Option String} {interfaces : List String} {events : List Event} {b : Bytes}
    (hflags : FlagOwner.classes.truncate access = access)
    (horderly : ((Writer.start policy hierarchy).step (.header version access name signature superName interfaces)).Orderly
      events)
    (hb : ((Writer.start policy hierarchy).play
      (.header version access name signature superName interfaces :: events)).toBytes = .ok b)
    (hc : ((Writer.start policy hierarchy).play
      (.header version access name signature superName interfaces :: events)).closeAll.Listable b) :
    ∃ image, Image.parse b = .ok image ∧
      ∀ (policy' : FramePolicy) (hierarchy' : Hierarchy), image.reencode policy' true hierarchy' = .ok b := by
  have htelling := Writer.telling_header (Writer.start policy hierarchy).context rfl sound_empty version
    hflags name signature superName interfaces
  have hshaped : ((Writer.start policy hierarchy).play
      (.header version access name signature superName interfaces :: events)).closeAll.Shaped :=
    ((Writer.later_play _ _).trans (Writer.later_closeAll _)).shaped (Writer.shaped_start policy hierarchy)
  obtain ⟨pool, attributes, hwritten⟩ := Writer.exists_written hb
  exact hwritten.reencode (htelling.play horderly) hshaped hc

/-! ### A class with an annotation -/

/-- The entries that the sample takes, in order. -/
def annotatedEntries : List Entry :=
  [.utf8 "A", .type 1, .utf8 "B", .utf8 "value", .integer 1, .integer 2, .utf8 "RuntimeVisibleAnnotations"]

/-- The pool with the first of them. -/
def annotatedPool (n : Nat) : ConstantPool :=
  (annotatedEntries.take n).foldl ConstantPool.append .empty

/-- The pool of the sample is made by appending. -/
theorem built_annotatedPool (n : Nat) : (annotatedPool n).Built :=
  (PoolView.built_foldl_append _ Built.empty).1

/-- An annotation with an array of two numbers. -/
def annotatedEvents : List Event :=
  [.annotationOpen "B", .elementArray none, .elementValue none (.primitive (.integer 1)),
    .elementValue none (.primitive (.integer 2)), .elementsClose, .elementsClose, .classClose]

namespace Writer

/-- The sample while it is written, with the first entries. -/
def annotated (n : Nat) (draft : ClassDraft) (notes : Option AnnotationDraft) : Writer where
  context := {
    pool := annotatedPool n, hierarchy := .empty, version := { major := 52, minor := 0 }, className := "A"
    policy := .maxStack, source := none }
  draft := draft
  notes := notes

/-- The head of the sample. -/
def annotatedHead : ClassDraft :=
  { access := 0x20, thisClass := some 2 }

/-- The annotation with the array open, in which there are elements. -/
def annotatedArray (count : UInt16) (body : Bytes) : AnnotationDraft :=
  ⟨.owner, { named := false, head := #[], count, body },
    [{ named := true, head := #[0, 3], count := 1, body := #[0, 4, 91] }]⟩

/-- The sample with its annotation. -/
def annotatedDraft : ClassDraft :=
  { annotatedHead with annotations := ⟨1, #[0, 3, 0, 1, 0, 4, 91, 0, 2, 73, 0, 5, 73, 0, 6]⟩ }

/-- What a step makes of the pool of a writer is all that it changes. -/
theorem intern_run {α : Type} {step : Interning α} {a : α} {later : ConstantPool} {w : Writer}
    (h : step w.context.pool = (a, later)) :
    w.intern step = (a, { w with context := { w.context with pool := later } }) := by
  change ((step w.context.pool).1, { w with context := { w.context with pool := (step w.context.pool).2 } }) = _
  rw [h]

/-- The header of the sample takes the first two entries. -/
theorem header_annotated : (Writer.start .maxStack .empty).step (.header { major := 52, minor := 0 } 0x20 "A" none none []) =
    annotated 2 annotatedHead none := by
  have hutf8 : utf8 "A" (annotatedPool 0) = (1, annotatedPool 1) := (built_annotatedPool 0).intern_eq _
  have htype : type "A" (annotatedPool 0) = (2, annotatedPool 2) :=
    (bind_run hutf8).trans ((built_annotatedPool 1).intern_eq _)
  have hparts : headerParts "A" none none [] (annotatedPool 0) = ((some 2, none, [], none), annotatedPool 2) :=
    (bind_run htype).trans rfl
  change Writer.header (Writer.start .maxStack .empty) { major := 52, minor := 0 } 0x20 "A" none none [] = _
  rw [header_eq, intern_run (w := Writer.start .maxStack .empty) hparts]
  rfl

/-- The annotation of the sample takes the third entry. -/
theorem open_annotated : (annotated 2 annotatedHead none).step (.annotationOpen "B") =
    annotated 3 annotatedHead (some ⟨.owner, { named := true, head := #[0, 3] }, []⟩) := by
  have hutf8 : utf8 "B" (annotatedPool 2) = (3, annotatedPool 3) := (built_annotatedPool 2).intern_eq _
  have hstart : AnnotationDraft.start .owner "B" (annotatedPool 2) =
    (⟨.owner, { named := true, head := #[0, 3] }, []⟩, annotatedPool 3) :=
    (bind_run hutf8).trans rfl
  change Writer.openNotes (annotated 2 annotatedHead none) .owner "B" = _
  unfold openNotes
  rw [intern_run (w := annotated 2 annotatedHead none) hstart]
  rfl

/-- What is made of the open annotation is all that changes of the sample. -/
theorem mapNotes_annotated {n n' : Nat} {draft : ClassDraft} {notes notes' : AnnotationDraft}
    {f : AnnotationDraft → Interning AnnotationDraft} (h : f notes (annotatedPool n) = (notes', annotatedPool n')) :
    (annotated n draft (some notes)).mapNotes f = annotated n' draft (some notes') := by
  change (match f notes (annotatedPool n) with
    | (notes, pool) =>
      ({ annotated n draft none with context := { (annotated n draft none).context with pool }, notes := some notes } :
      Writer)) = _
  rw [h]
  rfl

/-- The array of the sample takes the fourth entry, for its name. -/
theorem array_annotated :
    (annotated 3 annotatedHead (some ⟨.owner, { named := true, head := #[0, 3] }, []⟩)).step (.elementArray none) =
    annotated 4 annotatedHead (some (annotatedArray 0 #[])) := by
  have hutf8 : utf8 "value" (annotatedPool 3) = (4, annotatedPool 4) := (built_annotatedPool 3).intern_eq _
  have hname : ElementLevel.startElement { named := true, head := #[0, 3] } none (annotatedPool 3) =
      ({ named := true, head := #[0, 3], count := 1, body := #[0, 4] }, annotatedPool 4) := (bind_run hutf8).trans rfl
  have hopened : AnnotationDraft.openArray ⟨.owner, { named := true, head := #[0, 3] }, []⟩ none (annotatedPool 3) =
      (annotatedArray 0 #[], annotatedPool 4) := (bind_run hname).trans rfl
  exact mapNotes_annotated (f := (·.openArray none)) hopened

/-- A number more in the array takes its constant. -/
theorem value_annotated {n k : Nat} (count : UInt16) (body : Bytes) {v : Int32} {i : PoolIndex}
    (h : ConstantPool.intern (.integer v) (annotatedPool n) = (i, annotatedPool k)) :
    (annotated n annotatedHead (some (annotatedArray count body))).step (.elementValue none (.primitive (.integer v))) =
      annotated k annotatedHead (some (annotatedArray (count + 1) (body ++ (#[73] ++ Bytes.ofUInt16 i)))) := by
  have hencoded : Primitive.encode (.integer v) (annotatedPool n) = (#[73] ++ Bytes.ofUInt16 i, annotatedPool k) :=
    (bind_run h).trans rfl
  have hvalue : ElementLevel.value { named := false, head := #[], count, body }
    none (.primitive (.integer v)) (annotatedPool n) =
      ({ named := false, head := #[], count := count + 1, body := body ++ (#[73] ++ Bytes.ofUInt16 i) }, annotatedPool k) :=
    (bind_run rfl).trans ((bind_run hencoded).trans rfl)
  have hlevel : AnnotationDraft.mapLevel (annotatedArray count body)
    (·.value none (.primitive (.integer v))) (annotatedPool n) =
    (annotatedArray (count + 1) (body ++ (#[73] ++ Bytes.ofUInt16 i)), annotatedPool k) := (bind_run hvalue).trans rfl
  exact mapNotes_annotated (f := (·.mapLevel (·.value none (.primitive (.integer v))))) hlevel

/-- The first number takes the fifth entry. -/
theorem first_annotated :
    (annotated 4 annotatedHead (some (annotatedArray 0 #[]))).step (.elementValue none (.primitive (.integer 1))) =
    annotated 5 annotatedHead (some (annotatedArray 1 #[73, 0, 5])) :=
  value_annotated (k := 5) (i := 5) 0 #[] ((built_annotatedPool 4).intern_eq _)

/-- The second number takes the sixth entry. -/
theorem second_annotated :
    (annotated 5 annotatedHead (some (annotatedArray 1 #[73, 0, 5]))).step (.elementValue none (.primitive (.integer 2))) =
      annotated 6 annotatedHead (some (annotatedArray 2 #[73, 0, 5, 73, 0, 6])) :=
  value_annotated (k := 6) (i := 6) 1 #[73, 0, 5] ((built_annotatedPool 5).intern_eq _)

/-- Closing the array and the annotation puts the annotation into the class. -/
theorem close_annotated :
    ((annotated 6 annotatedHead (some (annotatedArray 2 #[73, 0, 5, 73, 0, 6]))).step .elementsClose).step
    .elementsClose = annotated 6 annotatedDraft none :=
  rfl

/-- Told of the annotation, the writer holds the sample. -/
theorem play_annotated : (annotated 2 annotatedHead none).play annotatedEvents = annotated 6 annotatedDraft none := by
  unfold annotatedEvents
  rw [play_cons, open_annotated, play_cons, array_annotated, play_cons, first_annotated, play_cons,
    second_annotated, play_cons, play_cons, close_annotated]
  rfl

/-- The events of the annotation go on with a class one after the other. -/
theorem orderly_annotated : (annotated 2 annotatedHead none).Orderly annotatedEvents := by
  refine ⟨trivial, ?_⟩
  rw [open_annotated]
  refine ⟨fun notes hnotes => ?_, ?_⟩
  · obtain rfl := Option.some.inj hnotes
    exact ⟨by decide, nofun⟩
  rw [array_annotated]
  refine ⟨⟨fun notes hnotes => ?_, nofun⟩, ?_⟩
  · obtain rfl := Option.some.inj hnotes
    exact ⟨by decide, fun _ h => absurd rfl h⟩
  rw [first_annotated]
  refine ⟨⟨fun notes hnotes => ?_, nofun⟩, ?_⟩
  · obtain rfl := Option.some.inj hnotes
    exact ⟨by decide, fun _ _ => rfl⟩
  rw [second_annotated]
  refine ⟨?_, ?_, trivial, ?_⟩
  · change (0 : UInt16) ≠ 65535
    decide
  · change (0 : UInt16) ≠ 65535
    decide
  · rw [close_annotated]
    exact nofun

/-- The attribute with the annotation. -/
def annotatedAttribute : Attribute :=
  ⟨7, #[0, 1, 0, 3, 0, 1, 0, 4, 91, 0, 2, 73, 0, 5, 73, 0, 6]⟩

/-- The attribute of the annotation takes the last entry, for its name. -/
theorem attributes_annotated : annotatedDraft.attributes 52 (annotatedPool 6) = ([annotatedAttribute], annotatedPool 7) := by
  have hname : utf8 "RuntimeVisibleAnnotations" (annotatedPool 6) = (7, annotatedPool 7) :=
    (built_annotatedPool 6).intern_eq _
  have hattribute : ConstantPool.attribute (.visibleAnnotations annotatedDraft.annotations) (annotatedPool 6) =
      (annotatedAttribute, annotatedPool 7) := (bind_run hname).trans rfl
  have hcontents : annotatedDraft.contents 52 = [.visibleAnnotations annotatedDraft.annotations] := by
    have hsynthetic : AccessFlags.hasSyntheticMarker 0x20 52 = false := by decide +kernel
    have hdeprecated : AccessFlags.isDeprecated 0x20 = false := by decide +kernel
    unfold ClassDraft.contents
    rw [show annotatedDraft.access = 0x20 from rfl, syntheticMarker, deprecatedMarker, hsynthetic, hdeprecated]
    rfl
  have hown : internAttributes [.visibleAnnotations annotatedDraft.annotations] (annotatedPool 6) =
      ([annotatedAttribute], annotatedPool 7) := (bind_run hattribute).trans rfl
  have hboot : ClassDraft.bootstrapContents (annotatedPool 7) = [] := rfl
  rw [ClassDraft.attributes_eq, hcontents, hown]
  dsimp only
  rw [hboot]
  rfl

/-- The constants of the sample are written. -/
theorem encode_annotatedPool : ∃ constants, (annotatedPool 7).encode = .ok constants ∧ constants.size < 100 := by
  have hentries : (annotatedPool 7).entries.toList = annotatedEntries := rfl
  obtain ⟨constants, hconstants⟩ : ∃ constants, (annotatedPool 7).encode = .ok constants := by
    refine exists_encode (by unfold Fits; decide) ?_
    rw [hentries]
    simp [annotatedEntries, Entry.TextFits, ModifiedUtf8.length, ModifiedUtf8.width]
  obtain ⟨-, hbytes, -⟩ := ConstantPool.encode_eq hconstants
  refine ⟨constants, hconstants, ?_⟩
  rw [hbytes, hentries]
  simp [annotatedEntries, Entry.encode, Entry.payload, ModifiedUtf8.size_encode, ModifiedUtf8.length, ModifiedUtf8.width]

/-- The sample is written, and what it counts fits. -/
theorem written_annotated : ∃ b, (annotated 6 annotatedDraft none).Written (annotatedPool 7) [annotatedAttribute] b ∧
    (annotated 6 annotatedDraft none).Listable b := by
  obtain ⟨constants, hconstants, hsize⟩ := encode_annotatedPool
  obtain ⟨b, hencoded⟩ : ∃ b, annotatedDraft.encode { major := 52, minor := 0 } (annotatedPool 7)
    [annotatedAttribute] = .ok b := by
    unfold ClassDraft.encode
    rw [hconstants]
    exact ⟨_, rfl⟩
  have hroom : b.size < 4294967296 := by
    obtain ⟨constants', hconstants', hbytes⟩ := ClassDraft.encode_eq hencoded
    obtain rfl : constants = constants' := Except.ok.inj (hconstants.symm.trans hconstants')
    have htables : (ClassDraft.tables annotatedDraft).size = 6 := rfl
    have hattributes : (Attribute.encodeTable [annotatedAttribute]).size = 25 := rfl
    rw [hbytes, Array.size_append, Array.size_append, Array.size_append, Array.size_append,
      ClassDraft.size_preamble, ClassDraft.size_header, htables, hattributes]
    omega
  have hlistable : (annotated 6 annotatedDraft none).Listable b := {
    interfaces := Nat.zero_lt_succ _, fields := Nat.zero_lt_succ _, methods := Nat.zero_lt_succ _, size := hroom
    arguments := fun m hm => absurd hm (Array.not_mem_empty m)
    nestMembers := Nat.zero_lt_succ _, innerClasses := Nat.zero_lt_succ _ }
  exact ⟨b, ⟨rfl, attributes_annotated, hencoded⟩, hlistable⟩

end Writer

/-- A class with an annotation that holds an array is copied to the same bytes. -/
theorem Image.reencode_written_annotated : ∃ b image,
    ((Writer.start .maxStack .empty).play
      (.header { major := 52, minor := 0 } 0x20 "A" none none [] :: annotatedEvents)).toBytes = .ok b ∧
      Image.parse b = .ok image ∧ image.reencode .maxStack true .empty = .ok b := by
  obtain ⟨b, hwritten, hlistable⟩ := Writer.written_annotated
  have hplay : (Writer.start .maxStack .empty).play
    (.header { major := 52, minor := 0 } 0x20 "A" none none [] :: annotatedEvents) =
      Writer.annotated 6 Writer.annotatedDraft none := by
    rw [Writer.play_cons, Writer.header_annotated, Writer.play_annotated]
  have hb := hwritten.toBytes rfl
  rw [← hplay] at hb
  obtain ⟨image, hparse, hcopied⟩ := Image.reencode_written (by decide)
    (Writer.header_annotated ▸ Writer.orderly_annotated) hb (by rw [hplay]; exact hlistable)
  exact ⟨b, image, hb, hparse, hcopied .maxStack .empty⟩

end ClassFile
