import ClassFile.Image.Basic
import ClassFile.Proofs.ClassLayout

/-!
# Finding the parts of a class file

A reader goes over the tables of a class file that a writer made: over the members, of whose attributes it needs only the
lengths, and over the attributes of the class, where it finds the bootstrap methods (`Writer.Layout.parse`). It does so
whenever all counts and lengths fit into the room that there is for them (`Writer.Layout.Countable`). The attributes of a
method are found under their names (`Writer.Layout.attributesOfMethod`).
-/

namespace ClassFile

open ConstantPool

namespace Decoder

variable {α β : Type} {d : Decoder α} {c c' c'' : Cursor} {a : α}

/-- A reader goes from a cursor to another one and comes with a value. -/
def Goes (d : Decoder α) (c : Cursor) (a : α) (c' : Cursor) : Prop :=
  d c = .ok (a, c')

/-- A reader that comes with a value at once stays where it is. -/
theorem Goes.pure (a : α) (c : Cursor) : Goes (Pure.pure a) c a c :=
  rfl

/-- Asked for its position, a reader stays there. -/
theorem Goes.position (c : Cursor) : Goes Decoder.position c c.position c :=
  rfl

/-- Two readers go one after the other. -/
theorem Goes.bind {f : α → Decoder β} {b : β} (h : d.Goes c a c') (hf : (f a).Goes c' b c'') : (d >>= f).Goes c b c'' := by
  change (d c >>= fun r => f r.1 r.2) = _
  rw [h]
  exact hf

/-- The value is then changed by a function. -/
theorem Goes.map (f : α → β) (h : d.Goes c a c') : Goes (d >>= fun a => Pure.pure (f a)) c (f a) c' :=
  h.bind (Goes.pure (f a) c')

/-- A value that is known, and then a reader. -/
theorem Goes.known {x : Except Error α} {f : α → Decoder β} {b : β} (h : x = .ok a) (hf : (f a).Goes c b c') :
    Goes ((x : Decoder α) >>= f) c b c' := by
  subst h
  exact hf

/-- A reader that goes from an offset comes with its value when it is run there. -/
theorem Goes.runAt {bytes : Bytes} {offset : Nat} (h : d.Goes ⟨bytes, offset⟩ a c') : d.runAt bytes offset = .ok a := by
  unfold Decoder.runAt
  change Except.map _ (d ⟨bytes, offset⟩) = _
  rw [h]
  rfl

/-- A reader that reads a piece goes over it wherever it stands. -/
theorem goes_of_reads {bytes piece : Bytes} {offset : Nat} (h : Reads d piece a) (hat : bytes.HasAt offset piece) :
    d.Goes ⟨bytes, offset⟩ a ⟨bytes, offset + piece.size⟩ :=
  h bytes offset hat

/-- Pieces are read one after the other, each for a value that hangs on where it stands. -/
theorem goes_manyFrom {γ : Type} {bytes : Bytes} {write : γ → Bytes} {value : Nat → γ → α} (xs : List γ) {offset : Nat}
    (hat : bytes.HasAt offset (Bytes.concat (xs.map write)))
    (h : ∀ x ∈ xs, ∀ at0, bytes.HasAt at0 (write x) → d.Goes ⟨bytes, at0⟩ (value at0 x) ⟨bytes, at0 + (write x).size⟩)
    (acc : Array α) :
    Goes (Decoder.manyFrom d xs.length acc) ⟨bytes, offset⟩
      (acc ++ (List.zipWith value (Bytes.offsets offset (xs.map write)) xs).toArray)
      ⟨bytes, offset + (Bytes.concat (xs.map write)).size⟩ := by
  induction xs generalizing offset acc with
  | nil => simpa [Decoder.manyFrom] using Goes.pure acc ⟨bytes, offset⟩
  | cons x rest ih =>
    rw [List.map_cons, Bytes.concat_cons] at hat
    obtain ⟨hx, hrest⟩ := Bytes.hasAt_append.1 hat
    have hfirst := h x List.mem_cons_self offset hx
    have hnext := ih hrest (fun y hy => h y (List.mem_cons_of_mem x hy)) (acc.push (value offset x))
    rw [List.map_cons, Bytes.concat_cons, Array.size_append, ← Nat.add_assoc]
    have := hfirst.bind (f := fun a => Decoder.manyFrom d rest.length (acc.push a)) hnext
    simpa [Decoder.manyFrom, Bytes.offsets] using this

/-- Pieces behind their number are read if that fits in two bytes. -/
theorem goes_counted {γ : Type} {bytes : Bytes} {write : γ → Bytes} {value : Nat → γ → α} (xs : List γ)
    (hl : xs.length < 65536) {offset : Nat} (hat : bytes.HasAt offset (Bytes.counted (xs.map write)))
    (h : ∀ x ∈ xs, ∀ at0, bytes.HasAt at0 (write x) → d.Goes ⟨bytes, at0⟩ (value at0 x) ⟨bytes, at0 + (write x).size⟩) :
    Goes (Decoder.counted d) ⟨bytes, offset⟩ (List.zipWith value (Bytes.offsets (offset + 2) (xs.map write)) xs).toArray
      ⟨bytes, offset + (Bytes.counted (xs.map write)).size⟩ := by
  have hn : xs.length.toUInt16.toNat = xs.length := by
    rw [UInt16.toNat_ofNat']
    omega
  rw [Bytes.counted_eq, List.length_map] at hat ⊢
  obtain ⟨hcount, hitems⟩ := Bytes.hasAt_append.1 hat
  rw [Array.size_append, ← Nat.add_assoc]
  refine (goes_of_reads (Reads.u16 xs.length.toUInt16) hcount).bind ?_
  rw [hn]
  have := goes_manyFrom xs hitems h #[]
  rwa [Array.empty_append] at this

end Decoder

open Decoder (Goes)

/-! ## Passing over -/

namespace Outline

/-- A reader that reads each of several pieces reads them one after the other. -/
theorem reads_repeatDecoder {d : Decoder Unit} {ps : List Bytes} (h : ∀ p ∈ ps, Reads d p ()) :
    Reads (repeatDecoder d ps.length) (Bytes.concat ps) () := by
  induction ps with
  | nil => exact Reads.pure ()
  | cons p rest ih =>
    rw [Bytes.concat_cons]
    exact (h p List.mem_cons_self).bind (ih fun q hq => h q (List.mem_cons_of_mem p hq))

/-- Pieces behind their number are passed over if that fits in two bytes. -/
theorem reads_countedDecoder {d : Decoder Unit} {ps : List Bytes} (hl : ps.length < 65536) (h : ∀ p ∈ ps, Reads d p ()) :
    Reads (do
      let count ← Decoder.u16
      repeatDecoder d count.toNat) (Bytes.counted ps) () := by
  have hn : ps.length.toUInt16.toNat = ps.length := by
    rw [UInt16.toNat_ofNat']
    omega
  rw [Bytes.counted_eq]
  refine (Reads.u16 ps.length.toUInt16).bind ?_
  rw [hn]
  exact reads_repeatDecoder h

/-- A length that fits in four bytes is what these say. -/
theorem toNat_size {a : Attribute} (h : a.info.size < 4294967296) : a.info.size.toUInt32.toNat = a.info.size := by
  rw [UInt32.toNat_ofNat']
  omega

/-- An attribute is passed over by its length. -/
theorem reads_skipAttribute {a : Attribute} (h : a.info.size < 4294967296) : Reads skipAttribute a.encode () := by
  rw [Attribute.encode, Array.append_assoc]
  refine (Reads.skip (Bytes.ofUInt16 a.name)).bind ((Reads.u32 _).bind ?_)
  rw [toNat_size h]
  exact Reads.skip a.info

/-- A table of attributes is passed over. -/
theorem reads_skipAttributes {as : List Attribute} (hl : as.length < 65536) (h : ∀ a ∈ as, a.info.size < 4294967296) :
    Reads skipAttributes (Attribute.encodeTable as) () := by
  refine reads_countedDecoder (by simpa using hl) fun p hp => ?_
  obtain ⟨a, ha, rfl⟩ := List.mem_map.1 hp
  exact reads_skipAttribute (h a ha)

/-- The interfaces are passed over. -/
theorem reads_skipInterfaces {is : List PoolIndex} (hl : is.length < 65536) :
    Reads skipInterfaces (Bytes.counted (is.map Bytes.ofUInt16)) () := by
  have hn : is.length.toUInt16.toNat = is.length := by
    rw [UInt16.toNat_ofNat']
    omega
  rw [Bytes.counted_eq, List.length_map]
  refine (Reads.u16 is.length.toUInt16).bind ?_
  rw [hn, ← Bytes.sum_size_ofUInt16, ← Bytes.size_concat]
  exact Reads.skip _

end Outline

/-- An attribute of a table is not longer than the table. -/
theorem Attribute.size_le_encodeTable {as : List Attribute} {a : Attribute} (h : a ∈ as) :
    a.info.size ≤ (Attribute.encodeTable as).size := by
  obtain ⟨before, after, rfl⟩ := List.append_of_mem h
  simp [encodeTable, size]
  omega

/-- A view shows the strings that a pool holds. -/
def PoolView.ShowsTexts (view : PoolView) (pool : ConstantPool) : Prop :=
  ∀ (i : PoolIndex) (text : String), pool.HoldsText i text → view.utf8 i = .ok text

namespace Image

/-- A field or a method is passed over. -/
theorem reads_skipMember {p : Bytes} (h : IsMember p) (hsize : p.size < 4294967296) : Reads skipMember p () := by
  obtain ⟨head, attributes, hhead, hlength, rfl⟩ := h
  rw [Array.size_append] at hsize
  have hskip := Reads.skip head
  rw [hhead] at hskip
  refine hskip.bind (Outline.reads_skipAttributes hlength fun a ha => ?_)
  have := Attribute.size_le_encodeTable ha
  omega

/-- The fields or the methods are passed over. -/
theorem reads_skipMembers {ps : List Bytes} (hl : ps.length < 65536) (h : ∀ p ∈ ps, IsMember p)
    (hsize : ∀ p ∈ ps, p.size < 4294967296) :
    Reads skipMembers (Bytes.counted ps) () :=
  Outline.reads_countedDecoder hl fun p hp => reads_skipMember (h p hp) (hsize p hp)

/-! ## Attributes -/

section Attributes

variable {view : PoolView} {pool : ConstantPool} {b : Bytes} {a : Attribute} {content : AttributeContent}

/-- An attribute is found under its name. -/
theorem goes_rawAttribute {name : String} (ha : view.utf8 a.name = .ok name) (hsize : a.info.size < 4294967296) {at0 : Nat}
    (hat : b.HasAt at0 a.encode) :
    (rawAttribute view).Goes ⟨b, at0⟩ ⟨name, at0 + 6, a.info.size⟩ ⟨b, at0 + a.encode.size⟩ := by
  rw [Attribute.encode, Array.append_assoc] at hat
  obtain ⟨hname, hrest⟩ := Bytes.hasAt_append.1 hat
  obtain ⟨hlength, hinfo⟩ := Bytes.hasAt_append.1 hrest
  unfold rawAttribute
  refine (Decoder.goes_of_reads (Reads.u16 _) hname).bind (Goes.known ha ?_)
  refine (Decoder.goes_of_reads (Reads.u32 _) hlength).bind ((Goes.position _).bind ?_)
  rw [Outline.toNat_size hsize]
  have hskip := (Decoder.goes_of_reads (Reads.skip a.info) hinfo).map
    fun _ => (⟨name, at0 + 6, a.info.size⟩ : RawAttribute)
  have hstop : at0 + a.encode.size = at0 + 2 + 4 + a.info.size := by
    rw [Attribute.size_encode, Attribute.size]
    omega
  rw [hstop]
  exact hskip

/-- The names and places of attributes whose contents are known, the first of which stands at an offset. -/
def located (start : Nat) (contents : List AttributeContent) (as : List Attribute) : List RawAttribute :=
  List.zipWith (fun offset x => ⟨x.1.name, offset + 6, x.2.info.size⟩)
    (Bytes.offsets start (as.map Attribute.encode)) (contents.zip as)

/-- The attributes of a table are found one after the other. -/
theorem goes_attributeTable (hs : view.ShowsTexts pool) {contents : List AttributeContent} {as : List Attribute}
    (h : List.Forall₂ (Attribute.Says pool) contents as) (hl : as.length < 65536)
    (hsize : ∀ a ∈ as, a.info.size < 4294967296) {at0 : Nat} (hat : b.HasAt at0 (Attribute.encodeTable as)) :
    (attributeTable view).Goes ⟨b, at0⟩ (located (at0 + 2) contents as) ⟨b, at0 + (Attribute.encodeTable as).size⟩ := by
  have hlength := h.length_eq
  have hpieces : (contents.zip as).map (fun x => x.2.encode) = as.map Attribute.encode := by
    have hsecond : (contents.zip as).map Prod.snd = as := List.map_snd_zip (by omega)
    conv_rhs => rw [← hsecond, List.map_map]
    rfl
  have htable := Decoder.goes_counted (d := rawAttribute view)
    (contents.zip as) (by rw [List.length_zip]; omega) (by rwa [hpieces]) fun x hx offset hx' =>
      goes_rawAttribute (hs _ _ (List.forall₂_iff_zip.1 h |>.2 hx).1) (hsize _ (List.of_mem_zip hx).2) hx'
  rw [hpieces] at htable
  exact htable.map Array.toList

/-! ## Bootstrap methods -/

/-- A bootstrap method is found where it starts. -/
theorem goes_bootstrapOffset {m : BootstrapMethod} (hl : m.arguments.length < 65536) {at0 : Nat}
    (hat : b.HasAt at0 m.encode) :
    bootstrapOffset.Goes ⟨b, at0⟩ at0 ⟨b, at0 + m.encode.size⟩ := by
  obtain ⟨hhandle, harguments⟩ := Bytes.hasAt_append.1 hat
  have hskip := (Outline.reads_skipInterfaces hl).map fun _ => at0
  unfold Outline.skipInterfaces at hskip
  rw [bind_assoc] at hskip
  unfold bootstrapOffset
  refine (Goes.position _).bind ((Decoder.goes_of_reads (Reads.skip (Bytes.ofUInt16 m.handle)) hhandle).bind ?_)
  rw [BootstrapMethod.encode, Array.size_append, ← Nat.add_assoc]
  exact Decoder.goes_of_reads hskip harguments

/-- The bootstrap methods are found behind the head of their attribute. -/
theorem goes_bootstraps {methods : List BootstrapMethod} (hl : methods.length < 65536)
    (h : ∀ m ∈ methods, m.arguments.length < 65536)
    {at0 : Nat} (hat : b.HasAt at0 (AttributeContent.bootstrapMethods methods).encode) :
    (Decoder.counted bootstrapOffset).Goes ⟨b, at0⟩ (Bytes.offsets (at0 + 2) (methods.map BootstrapMethod.encode)).toArray
      ⟨b, at0 + (AttributeContent.bootstrapMethods methods).encode.size⟩ := by
  have hfound := Decoder.goes_counted (d := bootstrapOffset) methods hl hat
    fun m hm offset hat => goes_bootstrapOffset (h m hm) hat
  have hoffsets : ∀ (ms : List BootstrapMethod) (start : Nat), List.zipWith (fun offset (_ : BootstrapMethod) => offset)
      (Bytes.offsets start (ms.map BootstrapMethod.encode)) ms = Bytes.offsets start (ms.map BootstrapMethod.encode) := by
    intro ms
    induction ms with
    | nil => exact fun _ => rfl
    | cons m rest ih => exact fun start => congrArg (start :: ·) (ih _)
  rwa [hoffsets] at hfound

/-- An attribute of the class is passed over, whatever is found in it. -/
theorem goes_indexBootstraps {name : String} (ha : view.utf8 a.name = .ok name)
    (hsize : a.info.size < 4294967296) {at0 : Nat} (hat : b.HasAt at0 a.encode) (found found' : Array Nat) (stop : Nat)
    (hinner : (if name == "BootstrapMethods" then Decoder.counted bootstrapOffset else pure found : Decoder (Array Nat)).Goes
      ⟨b, at0 + 6⟩ found' ⟨b, stop⟩) :
    (indexBootstraps view found).Goes ⟨b, at0⟩ found' ⟨b, at0 + a.encode.size⟩ := by
  rw [Attribute.encode, Array.append_assoc] at hat
  obtain ⟨hname, hrest⟩ := Bytes.hasAt_append.1 hat
  obtain ⟨hlength, hinfo⟩ := Bytes.hasAt_append.1 hrest
  have hstop : at0 + a.encode.size = at0 + 2 + 4 + a.info.size := by
    rw [Attribute.size_encode, Attribute.size]
    omega
  have hskip : ∀ d : Decoder (Array Nat), d.Goes ⟨b, at0 + 6⟩ found' ⟨b, stop⟩ → Goes (do
      let found ← d
      Decoder.seek (at0 + 6)
      Decoder.skip a.info.size
      return found) ⟨b, at0 + 6⟩ found' ⟨b, at0 + a.encode.size⟩ := by
    intro d hd
    rw [hstop]
    exact hd.bind ((Decoder.goes_of_reads (Reads.skip a.info) hinfo).map fun _ => found')
  unfold indexBootstraps
  refine (Decoder.goes_of_reads (Reads.u16 _) hname).bind (Goes.known ha ?_)
  refine (Decoder.goes_of_reads (Reads.u32 _) hlength).bind ((Goes.position _).bind ?_)
  rw [Outline.toNat_size hsize]
  dsimp only
  split at hinner
  · rename_i hname
    rw [if_pos hname]
    exact hskip _ hinner
  · rename_i hname
    rw [if_neg hname]
    exact hskip _ hinner

/-- Attributes among which there are no bootstrap methods change nothing. -/
theorem goes_indexAllBootstraps (hs : view.ShowsTexts pool) {contents : List AttributeContent} {as : List Attribute}
    (h : List.Forall₂ (Attribute.Says pool) contents as) (hnames : ∀ content ∈ contents, content.name ≠ "BootstrapMethods")
    (hsize : ∀ a ∈ as, a.info.size < 4294967296) {at0 : Nat} (hat : b.HasAt at0 (Bytes.concat (as.map Attribute.encode)))
    (found : Array Nat) (n : Nat) {found' : Array Nat} {c : Cursor}
    (hrest : (indexAllBootstraps view n found).Goes ⟨b, at0 + (Bytes.concat (as.map Attribute.encode)).size⟩ found' c) :
    (indexAllBootstraps view (as.length + n) found).Goes ⟨b, at0⟩ found' c := by
  induction h generalizing at0 with
  | nil => simpa using hrest
  | @cons content a contents as ha _ ih =>
    rw [List.map_cons, Bytes.concat_cons] at hat hrest
    obtain ⟨hfirst, hothers⟩ := Bytes.hasAt_append.1 hat
    rw [Array.size_append, ← Nat.add_assoc] at hrest
    rw [List.length_cons, Nat.add_right_comm]
    have hname : (content.name == "BootstrapMethods") = false := beq_false_of_ne (hnames content List.mem_cons_self)
    refine (goes_indexBootstraps (hs _ _ ha.1) (hsize a List.mem_cons_self) hfirst found found (at0 + 6) ?_).bind
      (ih (fun x hx => hnames x (List.mem_cons_of_mem _ hx)) (fun x hx => hsize x (List.mem_cons_of_mem _ hx)) hothers hrest)
    rw [hname]
    exact Goes.pure found _

end Attributes

/-- The image of a class file, from what its constants and its tables are read as. -/
theorem parse_of_goes {b : Bytes} {version : Version} {view : PoolView} {attributes : Nat} {found : Array Nat} {c : Cursor}
    (hpreamble : b.HasAt 0 (ClassDraft.preamble version)) (hview : PoolView.parse b 8 = .ok view)
    (htables : (tables view).Goes ⟨b, view.stop + 6⟩ (attributes, found) c) :
    Image.parse b = .ok { bytes := b, pool := { view with bootstraps := found }, header := view.stop, attributes } := by
  have hmagic : Decoder.runAt (do
      Outline.checkMagic
      Decoder.skip 4 : Decoder Unit) b 0 = .ok () := by
    rw [ClassDraft.preamble, Array.append_assoc] at hpreamble
    obtain ⟨hmagic, hversion⟩ := Bytes.hasAt_append.1 hpreamble
    have hcheck : Goes Outline.checkMagic ⟨b, 0⟩ () ⟨b, 0 + 4⟩ :=
      (Decoder.goes_of_reads (Reads.u32 _) hmagic).bind (by
        rw [if_neg (by simp)]
        exact Goes.pure () _)
    exact (hcheck.bind (Decoder.goes_of_reads (Reads.skip _) hversion)).runAt
  unfold Image.parse
  rw [hmagic, hview]
  change ((tables view).runAt b (view.stop + 6) >>= _) = _
  rw [htables.runAt]
  rfl

end Image

/-- All counts and lengths of a class file fit into the room that there is for them. -/
structure Writer.Countable (closed : Writer) (b : Bytes) : Prop where
  interfaces : closed.draft.interfaces.length < 65536
  fields : closed.draft.fields.size < 65536
  methods : closed.draft.methods.size < 65536
  arguments : ∀ m ∈ closed.context.pool.bootstraps, m.arguments.length < 65536
  size : b.size < 4294967296

/-- A piece of a counted list is not longer than the list. -/
theorem Bytes.size_le_counted {ps : List Bytes} {p : Bytes} (h : p ∈ ps) : p.size ≤ (Bytes.counted ps).size := by
  obtain ⟨before, after, rfl⟩ := List.append_of_mem h
  simp
  omega

/-- Only bootstrap methods stand in an attribute of that name. -/
theorem AttributeContent.name_bootstrapMethods {content : AttributeContent} (h : content.name = "BootstrapMethods") :
    ∃ methods, content = .bootstrapMethods methods := by
  cases content with
  | bootstrapMethods methods => exact ⟨methods, rfl⟩
  | _ => exact absurd h (by simp [AttributeContent.name])

namespace ClassDraft

/-- No attribute of a class but the last one holds bootstrap methods. -/
theorem mem_contents {c : ClassDraft} {major : UInt16} {content : AttributeContent} (h : content ∈ c.contents major) :
    content.name ≠ "BootstrapMethods" := by
  intro hname
  obtain ⟨methods, rfl⟩ := AttributeContent.name_bootstrapMethods hname
  simp [contents, syntheticMarker, deprecatedMarker, annotationsContent] at h

/-- A class has ten attributes at most before its bootstrap methods. -/
theorem length_contents (c : ClassDraft) (major : UInt16) : (c.contents major).length ≤ 10 := by
  have hoption : ∀ {α : Type} (x : Option α) (f : α → AttributeContent), (x.map f).toList.length ≤ 1 := by
    intro α x f
    cases x <;> simp
  have hinner : (if c.innerClasses.isEmpty then [] else [AttributeContent.innerClasses c.innerClasses.toList]).length ≤
    1 := by
    split <;> simp
  have hnest : (if c.nestMembers.isEmpty then [] else [AttributeContent.nestMembers c.nestMembers.toList]).length ≤ 1 := by
    split <;> simp
  have := length_syntheticMarker c.access major
  have := length_deprecatedMarker c.access
  have := length_annotationsContent c.annotations
  have := hoption c.enclosing fun x => AttributeContent.enclosingMethod x.1 x.2
  have := hoption c.signature AttributeContent.signature
  have := hoption c.sourceFile AttributeContent.sourceFile
  have := hoption c.sourceDebug AttributeContent.sourceDebugExtension
  have := hoption c.nestHost AttributeContent.nestHost
  unfold contents
  simp only [List.length_append]
  omega

end ClassDraft

namespace Writer.Layout

variable {closed : Writer} {pool : ConstantPool} {constants : Bytes} {attributes : List Attribute} {b : Bytes}

/-- The offset of the interfaces of a class. -/
def tablesOffset (constants : Bytes) : Nat :=
  8 + constants.size + 6

/-- The offset of the fields of a class, with their number. -/
def fieldsOffset (closed : Writer) (constants : Bytes) : Nat :=
  tablesOffset constants + (Bytes.counted (closed.draft.interfaces.map Bytes.ofUInt16)).size

/-- The offset of the methods of a class, with their number. -/
def methodsOffset (closed : Writer) (constants : Bytes) : Nat :=
  fieldsOffset closed constants + (Bytes.counted closed.draft.fields.toList).size

/-- The offset of the attributes of a class, with their number. -/
def attributesOffset (closed : Writer) (constants : Bytes) : Nat :=
  methodsOffset closed constants + (Bytes.counted closed.draft.methods.toList).size

section Tables

variable (h : closed.Layout pool constants attributes b)
include h

/-- The tables of a class file stand one behind the other. -/
theorem hasAt_tables : b.HasAt (tablesOffset constants) (Bytes.counted (closed.draft.interfaces.map Bytes.ofUInt16)) ∧
    b.HasAt (fieldsOffset closed constants) (Bytes.counted closed.draft.fields.toList) ∧
    b.HasAt (methodsOffset closed constants) (Bytes.counted closed.draft.methods.toList) ∧
    b.HasAt (attributesOffset closed constants) (Attribute.encodeTable attributes) := by
  obtain ⟨htables, hattributes⟩ := Bytes.hasAt_append.1 h.hasAt.2.2
  obtain ⟨hinterfaces, hmembers⟩ := Bytes.hasAt_append.1 htables
  obtain ⟨hfields, hmethods⟩ := Bytes.hasAt_append.1 hmembers
  refine ⟨hinterfaces, hfields, hmethods, ?_⟩
  have hoffset : attributesOffset closed constants = 8 + constants.size + 6 + closed.draft.tables.size := by
    simp [attributesOffset, methodsOffset, fieldsOffset, tablesOffset, ClassDraft.tables]
    omega
  rw [hoffset]
  exact hattributes

/-- The attributes come last. -/
theorem size_eq : b.size = attributesOffset closed constants + (Attribute.encodeTable attributes).size := by
  rw [h.bytes]
  simp [attributesOffset, methodsOffset, fieldsOffset, tablesOffset, ClassDraft.tables]
  omega

/-- The bootstrap methods are found in the last attribute, if there is one. -/
theorem goes_bootstrapContents (hc : closed.Countable b) {view : PoolView} (hs : view.ShowsTexts pool)
    {boot : List Attribute} (hboot : List.Forall₂ (Attribute.Says pool) (ClassDraft.bootstrapContents pool) boot)
    (hsize : ∀ a ∈ boot, a.info.size < 4294967296) {at0 : Nat} (hat : b.HasAt at0 (Bytes.concat (boot.map Attribute.encode)))
    (hend : at0 + (Bytes.concat (boot.map Attribute.encode)).size = b.size) :
    (Image.indexAllBootstraps view boot.length #[]).Goes ⟨b, at0⟩ (bootstrapOffsets pool b) ⟨b, b.size⟩ := by
  unfold ClassDraft.bootstrapContents at hboot
  split at hboot
  · rename_i hnone
    obtain rfl := List.forall₂_nil_left_iff.1 hboot
    obtain rfl : at0 = b.size := by simpa using hend
    have hempty : bootstrapOffsets pool b = #[] := by
      unfold bootstrapOffsets
      rw [Array.isEmpty_iff.1 hnone]
      rfl
    rw [hempty]
    exact Goes.pure #[] _
  · obtain ⟨a, as, ha, has, rfl⟩ := List.forall₂_cons_left_iff.1 hboot
    obtain rfl := List.forall₂_nil_left_iff.1 has
    have hencoded : Bytes.concat ([a].map Attribute.encode) = a.encode := by simp
    rw [hencoded] at hat hend
    have hcount := h.sound.bootstraps_le (ConstantPool.encode_eq h.encoded).1
    have hinfo : b.HasAt (at0 + 6) (AttributeContent.bootstrapMethods pool.bootstraps.toList).encode := by
      have hparts := hat
      rw [Attribute.encode, ha.2] at hparts
      exact (Bytes.hasAt_append.1 hparts).2
    have hmethods := Image.goes_bootstraps (by simp; omega)
      (fun m hm => hc.arguments m (h.bootstraps ▸ Array.mem_toList_iff.1 hm)) hinfo
    have hoffset : b.size - (Bytes.concat (pool.bootstraps.toList.map BootstrapMethod.encode)).size = at0 + 6 + 2 := by
      rw [← hend, Attribute.size_encode, Attribute.size, ha.2]
      simp only [AttributeContent.encode, Bytes.size_counted, Bytes.size_concat]
      omega
    have hfound : bootstrapOffsets pool b =
        (Bytes.offsets (at0 + 6 + 2) (pool.bootstraps.toList.map BootstrapMethod.encode)).toArray := by
      unfold bootstrapOffsets
      dsimp only
      rw [hoffset]
    rw [hfound, ← hend]
    exact (Image.goes_indexBootstraps (hs _ _ ha.1) (hsize a List.mem_cons_self) hat #[] _ _ hmethods).bind (Goes.pure _ _)

/-- A reader goes over the tables of a class file. -/
theorem goes_tables (hshaped : closed.Shaped) (hc : closed.Countable b) {view : PoolView} (hs : view.ShowsTexts pool) :
    (Image.tables view).Goes ⟨b, tablesOffset constants⟩
      (attributesOffset closed constants, bootstrapOffsets pool b) ⟨b, b.size⟩ := by
  obtain ⟨hinterfaces, hfields, hmethods, hattributes⟩ := h.hasAt_tables
  have hroom := hc.size
  have hfits : ∀ (ps : List Bytes) (offset : Nat), b.HasAt offset (Bytes.counted ps) → ∀ p ∈ ps, p.size < 4294967296 := by
    intro ps offset hat p hp
    have := hat.le_size
    have := Bytes.size_le_counted hp
    omega
  have hinfos : ∀ a ∈ attributes, a.info.size < 4294967296 := by
    intro a ha
    have := hattributes.le_size
    have := Attribute.size_le_encodeTable ha
    omega
  unfold Image.tables
  refine (Decoder.goes_of_reads (Outline.reads_skipInterfaces hc.interfaces) hinterfaces).bind ?_
  refine (Decoder.goes_of_reads (Image.reads_skipMembers (by simpa using hc.fields)
    (fun p hp => hshaped.fields p (Array.mem_toList_iff.1 hp)) (hfits _ _ hfields)) hfields).bind ?_
  refine (Decoder.goes_of_reads (Image.reads_skipMembers (by simpa using hc.methods)
    (fun p hp => hshaped.methods p (Array.mem_toList_iff.1 hp)) (hfits _ _ hmethods)) hmethods).bind ?_
  refine (Goes.position _).bind ?_
  -- The attributes of the class itself, and then that of the bootstrap methods.
  have hlength := h.content.length_eq
  have hown := List.forall₂_take (closed.draft.contents closed.context.version.major).length h.content
  have hboot := List.forall₂_drop (closed.draft.contents closed.context.version.major).length h.content
  rw [List.take_left] at hown
  rw [List.drop_left] at hboot
  have hsplit := List.take_append_drop (closed.draft.contents closed.context.version.major).length attributes
  generalize attributes.take (closed.draft.contents closed.context.version.major).length = own at *
  generalize attributes.drop (closed.draft.contents closed.context.version.major).length = boot at *
  subst hsplit
  have hend := h.size_eq
  rw [Attribute.encodeTable, Bytes.counted_eq, List.map_append, Bytes.concat_append] at hattributes hend
  obtain ⟨hcount, hpieces⟩ := Bytes.hasAt_append.1 hattributes
  obtain ⟨hownPieces, hbootPieces⟩ := Bytes.hasAt_append.1 hpieces
  have hn : (own.map Attribute.encode ++ boot.map Attribute.encode).length.toUInt16.toNat = own.length + boot.length := by
    have := ClassDraft.length_contents closed.draft closed.context.version.major
    have hbootLength : (ClassDraft.bootstrapContents pool).length ≤ 1 := by
      unfold ClassDraft.bootstrapContents
      split <;> simp
    have := hown.length_eq
    have := hboot.length_eq
    rw [UInt16.toNat_ofNat', List.length_append, List.length_map, List.length_map]
    omega
  refine (Decoder.goes_of_reads (Reads.u16 _) hcount).bind ?_
  rw [hn]
  refine Goes.map (fun found => (attributesOffset closed constants, found)) ?_
  refine Image.goes_indexAllBootstraps hs hown (fun content hcontent => ClassDraft.mem_contents hcontent)
    (fun a ha => hinfos a (List.mem_append_left _ ha)) hownPieces #[] boot.length ?_
  refine h.goes_bootstrapContents hc hs hboot (fun a ha => hinfos a (List.mem_append_right _ ha)) hbootPieces ?_
  rw [hend, Array.size_append, Array.size_append]
  omega

/-- A reader finds the constants and the tables of a class file. -/
theorem parse (hshaped : closed.Shaped) (hc : closed.Countable b) {offsets : Array Nat}
    (hparse : PoolView.parse b 8 = .ok { bytes := b, offsets, stop := 8 + constants.size })
    (hs : PoolView.Shows { bytes := b, offsets, stop := 8 + constants.size, bootstraps := bootstrapOffsets pool b } pool) :
    Image.parse b = .ok {
      bytes := b, header := 8 + constants.size, attributes := attributesOffset closed constants
      pool := { bytes := b, offsets, stop := 8 + constants.size, bootstraps := bootstrapOffsets pool b } } := by
  have htexts : PoolView.ShowsTexts { bytes := b, offsets, stop := 8 + constants.size } pool := fun i text ht => hs.utf8 ht
  have htables := h.goes_tables hshaped hc htexts
  have hpreamble : b.HasAt 0 (ClassDraft.preamble closed.context.version) := by
    have hwhole := Bytes.hasAt_self b
    rw [h.bytes] at hwhole
    exact h.bytes ▸ (Bytes.hasAt_append.1 hwhole).1
  exact Image.parse_of_goes hpreamble hparse htables

end Tables

end Writer.Layout

end ClassFile
