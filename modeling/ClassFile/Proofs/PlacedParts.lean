import ClassFile.Proofs.PlacedCode

/-!
# Members and classes where they stand

If a class can be told part by part, and no known name stands twice in a table, then the reader of class files tells the same
of the class file in which the parts stand one after the other (`ClassParts.goes_narrate`).
-/

namespace ClassFile

open Decoder (Goes)

/-- No known name stands twice in a table of attributes. -/
def Attribute.Distinct (view : PoolView) (known : List String) (table : List Attribute) : Prop :=
  table.Pairwise fun a a' => ∀ name ∈ known, view.utf8 a.name = .ok name → view.utf8 a'.name ≠ .ok name

/-- Where no name stands twice in a table, none does among its sections. -/
theorem Attribute.Distinct.sections {view : PoolView} {known : List String} {table : List Attribute}
    (h : Attribute.Distinct view known table) {s : Sections} (hs : Attribute.sections view table = .ok s) :
    s.Distinct known := by
  obtain ⟨hnames, rfl⟩ := Attribute.sections_eq_ok.1 hs
  refine List.pairwise_map.2 (h.imp_of_mem fun {a a'} ha ha' hdistinct heq hknown => ?_)
  exact hdistinct _ hknown (hnames a ha) (heq ▸ hnames a' ha')

section Members

variable {view view' : PoolView} (h : view.Mirrors view') {interest : Interest} {omitted : Omissions} {m : MemberParts}

/-- What is told behind an announcement if it is wanted is told by a walk that stands anywhere. -/
theorem Walk.goes_announce {e : Event} {wish : Wish} {x : Narration Unit} {w : Walk Unit} {c : Cursor}
    {told told' : Array Event} (hw : ∀ told, x.Goes told () told' → w.Goes c told () c told')
    (hgoes : (Narration.announce e wish x).Goes told () told') :
    Walk.Goes (do
      Walk.report e
      if ← Walk.wanted true wish then w) c told () c told' := by
  have htold : Narration.Goes (if wish.grants (told.push e) then x else pure ()) (told.push e) () told' := hgoes
  have hwanted : (Walk.wanted true wish).Goes c (told.push e) (wish.grants (told.push e)) c (told.push e) := rfl
  refine (Walk.Goes.report e c told).bind (hwanted.bind ?_)
  split at htold
  · rw [if_pos ‹_›]
    exact hw _ htold
  · rw [if_neg ‹_›]
    exact Walk.Goes.lift htold c

include h

/-- If a field can be told by itself, it is told where it stands. -/
theorem MemberParts.goes_narrateField (hfits : Attribute.TableFits m.attributes)
    (hd : Attribute.Distinct view Attribute.fieldNames m.attributes) {offset : Nat} (hat : view'.bytes.HasAt offset m.encode)
    {told told' : Array Event} (hgoes : (m.narrateField view interest).Goes told () told') :
    (Image.narrateField view' interest).Goes ⟨view'.bytes, offset⟩ told () ⟨view'.bytes, offset + m.encode.size⟩ told' := by
  simp only [MemberParts.encode, Array.append_assoc] at hat
  obtain ⟨haccess, hat⟩ := Bytes.hasAt_append.1 hat
  obtain ⟨hname, hat⟩ := Bytes.hasAt_append.1 hat
  obtain ⟨hdescriptor, htable⟩ := Bytes.hasAt_append.1 hat
  obtain ⟨name, hname₀, hgoes⟩ := Narration.Goes.of_known hgoes
  obtain ⟨descriptor, hdescriptor₀, hgoes⟩ := hgoes.of_known
  obtain ⟨s, hs, hgoes⟩ := hgoes.of_known
  obtain ⟨f₀, hf₀, hgoes⟩ := hgoes.of_known
  obtain ⟨raws, htable', hraws⟩ := Image.exists_goes_attributeTable h hs hfits htable
  obtain ⟨f, hf, hgathered⟩ := FieldAttributes.gathered h hraws (hd.sections hs) hf₀
  obtain rfl := hgathered.eq hf₀
  have hsize : offset + m.encode.size = offset + (Bytes.ofUInt16 m.access).size + (Bytes.ofUInt16 m.name).size +
      (Bytes.ofUInt16 m.descriptor).size + (Attribute.encodeTable m.attributes).size := by
    simp [MemberParts.encode]
    omega
  rw [hsize]
  unfold Image.narrateField
  refine (Walk.Goes.read (Decoder.goes_of_reads (Reads.u16 _) haccess) _).bind ?_
  refine (Walk.Goes.read ((Decoder.goes_of_reads (Reads.u16 _) hname).bind (Decoder.goes_lift (h.utf8 _ _ hname₀))) _).bind
    ?_
  refine (Walk.Goes.read ((Decoder.goes_of_reads (Reads.u16 _) hdescriptor).bind
    (Decoder.goes_lift (h.utf8 _ _ hdescriptor₀))) _).bind ?_
  refine (Walk.Goes.read htable' _).bind ((Walk.Goes.read (Decoder.goes_lift hf) _).bind ?_)
  refine Walk.goes_announce (fun told hgoes => ?_) hgoes
  obtain ⟨_, told₁, hwalk, hgoes⟩ := hgoes.of_bind
  have hannotations := Sections.goes_walkAt (Walk.mirrors_annotationList h interest) hgathered.common.annotations hwalk
  exact (Walk.Goes.lift hannotations _).bind (Narration.Goes.of_report hgoes ▸ Walk.Goes.report _ _ _)

/-- If the code of a method can be told by itself, it is told where it stands. -/
theorem MemberParts.goes_narrateCode {s : Sections} {code : Option Nat}
    (hd : ∀ info, s.lookup "Code" = some info → ∀ content, CodeContent.decode.runAt info 0 = .ok content →
      Attribute.Distinct view Attribute.codeNames content.attributes)
    (hat : view'.bytes.Located (s.lookup "Code") code) {told told' : Array Event}
    (hgoes : (MemberParts.narrateCode view omitted s).Goes told () told') :
    (Image.walkAt view' (if omitted.code then none else code) (Code.narrate view' omitted)).Goes told () told' := by
  unfold MemberParts.narrateCode at hgoes
  cases hskip : omitted.code with
  | true =>
    rw [hskip] at hgoes
    exact hgoes
  | false =>
    rw [hskip] at hgoes
    generalize hinfo : s.lookup "Code" = info at hd hat hgoes
    cases hat with
    | nothing => exact hgoes
    | @standing info offset hstands =>
      obtain ⟨content, hcontent, hgoes⟩ := Narration.Goes.of_known hgoes
      obtain ⟨_, hdecoded⟩ := Goes.of_runAt hcontent
      obtain ⟨_, ⟨hfits, rfl⟩, hencoded, -⟩ := CodeContent.spells_decode _ _ _ (Nat.zero_le _) hdecoded
      have hwhole := hstands.trans hencoded
      exact CodeContent.goes_narrate h hfits (fun s hs => (hd info rfl content hcontent).sections hs) hwhole hgoes

/-- If a method can be told by itself, it is told where it stands, unless it is taken as it stands. -/
theorem MemberParts.goes_narrateMethod (hcopies : interest.copies = none) (hfits : Attribute.TableFits m.attributes)
    (hd : Attribute.Distinct view Attribute.methodNames m.attributes)
    (hcode : ∀ a ∈ m.attributes, view.utf8 a.name = .ok "Code" → ∀ content, CodeContent.decode.runAt a.info 0 = .ok content →
      Attribute.Distinct view Attribute.codeNames content.attributes)
    {offset : Nat} (hat : view'.bytes.HasAt offset m.encode)
    {told told' : Array Event} (hgoes : (m.narrateMethod view omitted interest).Goes told () told') :
    (Image.narrateMethod view' omitted interest).Goes ⟨view'.bytes, offset⟩ told ()
      ⟨view'.bytes, offset + m.encode.size⟩ told' := by
  simp only [MemberParts.encode, Array.append_assoc] at hat
  obtain ⟨haccess, hat⟩ := Bytes.hasAt_append.1 hat
  obtain ⟨hname, hat⟩ := Bytes.hasAt_append.1 hat
  obtain ⟨hdescriptor, htable⟩ := Bytes.hasAt_append.1 hat
  obtain ⟨name, hname₀, hgoes⟩ := Narration.Goes.of_known hgoes
  obtain ⟨descriptor, hdescriptor₀, hgoes⟩ := hgoes.of_known
  obtain ⟨s, hs, hgoes⟩ := hgoes.of_known
  obtain ⟨m₀, hm₀, hgoes⟩ := hgoes.of_known
  obtain ⟨raws, htable', hraws⟩ := Image.exists_goes_attributeTable h hs hfits htable
  obtain ⟨f, hf, hgathered⟩ := MethodAttributes.gathered h hraws (hd.sections hs) hm₀
  obtain rfl := hgathered.eq hm₀
  have hsize : offset + m.encode.size = offset + (Bytes.ofUInt16 m.access).size + (Bytes.ofUInt16 m.name).size +
      (Bytes.ofUInt16 m.descriptor).size + (Attribute.encodeTable m.attributes).size := by
    simp [MemberParts.encode]
    omega
  have hcode' : ∀ info, s.lookup "Code" = some info → ∀ content, CodeContent.decode.runAt info 0 = .ok content →
      Attribute.Distinct view Attribute.codeNames content.attributes := by
    intro info hinfo
    obtain ⟨a, ha, hnamed, rfl⟩ := Attribute.exists_of_lookup hs hinfo
    exact hcode a ha hnamed
  rw [hsize]
  unfold Image.narrateMethod
  refine (Walk.Goes.read (Decoder.goes_of_reads (Reads.u16 _) haccess) _).bind ?_
  refine (Walk.Goes.read ((Decoder.goes_of_reads (Reads.u16 _) hname).bind (Decoder.goes_lift (h.utf8 _ _ hname₀))) _).bind
    ?_
  refine (Walk.Goes.read ((Decoder.goes_of_reads (Reads.u16 _) hdescriptor).bind
    (Decoder.goes_lift (h.utf8 _ _ hdescriptor₀))) _).bind ?_
  refine (Walk.Goes.read (Goes.position _) _).bind
    ((Walk.Goes.read htable' _).bind ((Walk.Goes.read (Goes.position _) _).bind ?_))
  refine (Walk.Goes.read (Decoder.goes_lift hf) _).bind (Walk.goes_announce (fun told hgoes => ?_) hgoes)
  rw [hcopies]
  obtain ⟨_, told₁, hannotations, hgoes⟩ := hgoes.of_bind
  obtain ⟨_, told₂, hparameters, hgoes⟩ := hgoes.of_bind
  obtain ⟨_, told₃, hbody, hgoes⟩ := hgoes.of_bind
  have hannotations' := Sections.goes_walkAt (Walk.mirrors_annotationList h interest)
    hgathered.common.annotations hannotations
  have hparameters' := Sections.goes_walkAt (Walk.mirrors_parameterAnnotations h interest)
    hgathered.parameterAnnotations hparameters
  have hbody' := goes_narrateCode h hcode' hgathered.code hbody
  exact Walk.Goes.lift (hannotations'.bind (hparameters'.bind (hbody'.bind hgoes))) _

end Members

/-! ## Classes -/

/-- What is told of each of some items by itself is told where they stand one behind the other. -/
theorem Walk.goes_times {β : Type} {b : Bytes} {write : β → Bytes} {x : β → Narration Unit} {w : Walk Unit} (items : List β)
    (hw : ∀ i ∈ items, ∀ (at0 : Nat) (told told' : Array Event), b.HasAt at0 (write i) → (x i).Goes told () told' →
      w.Goes ⟨b, at0⟩ told () ⟨b, at0 + (write i).size⟩ told') {offset : Nat}
    (hat : b.HasAt offset (Bytes.concat (items.map write)))
    {told told' : Array Event} (hgoes : (items.forM x).Goes told () told') :
    (times w items.length).Goes ⟨b, offset⟩ told () ⟨b, offset + (Bytes.concat (items.map write)).size⟩ told' := by
  induction items generalizing offset told with
  | nil =>
    obtain ⟨-, rfl⟩ := Narration.Goes.of_pure hgoes
    exact Goes.pure () _ _
  | cons i rest ih =>
    rw [List.map_cons, Bytes.concat_cons] at hat ⊢
    obtain ⟨hfirst, hrest⟩ := Bytes.hasAt_append.1 hat
    obtain ⟨_, told₁, hi, hgoes⟩ := Narration.Goes.of_bind hgoes
    obtain ⟨hwi, hothers⟩ := List.forall_mem_cons.1 hw
    rw [Array.size_append, ← Nat.add_assoc]
    exact (hwi offset _ _ hfirst hi).bind (ih hothers hrest hgoes)

/-- Pieces behind their number are told one after the other. -/
theorem Walk.goes_counted {β : Type} {b : Bytes} {write : β → Bytes} {x : β → Narration Unit} {w : Walk Unit}
    {items : List β}
    (hcount : items.length < 65536) (hw : ∀ i ∈ items, ∀ (at0 : Nat) (told told' : Array Event), b.HasAt at0 (write i) →
      (x i).Goes told () told' → w.Goes ⟨b, at0⟩ told () ⟨b, at0 + (write i).size⟩ told') {offset : Nat}
    (hat : b.HasAt offset (Bytes.counted (items.map write))) {told told' : Array Event}
    (hgoes : (items.forM x).Goes told () told') :
    (counted w).Goes ⟨b, offset⟩ told () ⟨b, offset + (Bytes.counted (items.map write)).size⟩ told' := by
  have hn : items.length.toUInt16.toNat = items.length := UInt16.toNat_ofNat_of_lt hcount
  rw [Bytes.counted_eq, List.length_map] at hat ⊢
  obtain ⟨hnumber, hitems⟩ := Bytes.hasAt_append.1 hat
  rw [Array.size_append, ← Nat.add_assoc]
  refine (Goes.read (Decoder.goes_of_reads (Reads.u16 _) hnumber) _).bind ?_
  rw [hn]
  exact goes_times items hw hitems hgoes

/-- Items that are looked up one by one are each found. -/
theorem forall₂_of_mapM {α β : Type} {f : α → Except Error β} {xs : List α} {ys : List β} (h : xs.mapM f = .ok ys) :
    List.Forall₂ (fun y x => f x = .ok y) ys xs := by
  induction xs generalizing ys with
  | nil =>
    obtain rfl := Except.ok.inj h
    exact .nil
  | cons x rest ih =>
    rw [List.mapM_cons] at h
    obtain ⟨y, hy, h⟩ := exists_of_bind_eq_ok h
    obtain ⟨others, hothers, h⟩ := exists_of_bind_eq_ok h
    obtain rfl := Except.ok.inj h
    exact .cons hy (ih hothers)

namespace Image

/-- Beside annotations and inner classes, what is told of the attributes of a class does not hang on where they stand. -/
theorem goes_narrateClassAttributes {view view' : PoolView} {omitted : Omissions} {interest : Interest} {c : ClassAttributes}
    {told told₁ told₂ told₃ : Array Event} (hplain : (narrateClassAttributes view omitted interest
      { c with common := { c.common with annotations := none }, innerClasses := none }).Goes told () told₁)
    (hannotations : (walkAt view' c.common.annotations (Walk.annotationList view' interest)).Goes told₁ () told₂)
    (hinner : (walkAt view' c.innerClasses (Walk.counted (innerClassItem view'))).Goes told₂ () told₃) :
    (narrateClassAttributes view' omitted interest c).Goes told () told₃ := by
  have hsplit : narrateClassAttributes view' omitted interest c = (do
      narrateClassAttributes view omitted interest
        { c with common := { c.common with annotations := none }, innerClasses := none }
      walkAt view' c.common.annotations (Walk.annotationList view' interest)
      walkAt view' c.innerClasses (Walk.counted (innerClassItem view'))) := by
    obtain ⟨common, file, debug, enclosing, host, members, inner⟩ := c
    unfold narrateClassAttributes
    cases omitted.debug <;> cases file <;> cases debug <;> cases enclosing <;> cases host <;> simp [walkAt]
  rw [hsplit]
  exact hplain.bind (hannotations.bind hinner)

end Image

/-- A class file has been found to be put together of some parts. -/
structure ClassParts.FoundBy (p : ClassParts) (image : Image) : Prop where
  bytes : image.bytes = p.encode
  pool : image.pool.bytes = p.encode
  header : image.header = p.front.size
  attributes : image.attributes = p.attributesOffset

/-- No known name stands twice in a table of a class. -/
structure ClassParts.Distinct (p : ClassParts) (view : PoolView) : Prop where
  attributes : Attribute.Distinct view Attribute.classNames p.attributes
  fields : ∀ m ∈ p.fields, Attribute.Distinct view Attribute.fieldNames m.attributes
  methods : ∀ m ∈ p.methods, Attribute.Distinct view Attribute.methodNames m.attributes
  code : ∀ m ∈ p.methods, ∀ a ∈ m.attributes, view.utf8 a.name = .ok "Code" → ∀ content,
    CodeContent.decode.runAt a.info 0 = .ok content → Attribute.Distinct view Attribute.codeNames content.attributes

namespace ClassParts

variable {p : ClassParts} {image : Image} {view : PoolView} {omitted : Omissions} {interest : Interest}

/-- If a class can be told part by part, the same is told of the class file in which the parts have been found. -/
theorem goes_narrate (hp : p.FoundBy image) (h : view.Mirrors image.pool) (hfits : p.Fits) (hd : p.Distinct view)
    (hcopies : interest.copies = none) {told told' : Array Event}
    (hgoes : (p.narrate view omitted interest).Goes told () told') :
    (image.narrate omitted interest).Goes told () told' := by
  obtain ⟨haccess, hthis, hsuper⟩ := p.hasAt_head
  obtain ⟨hinterfaces, hfields, hmethods, hattributes⟩ := p.hasAt_tables
  obtain ⟨⟨minor, major⟩, hversion, hgoes⟩ := Narration.Goes.of_known hgoes
  obtain ⟨name, hname, hgoes⟩ := hgoes.of_known
  obtain ⟨superName, hsuperName, hgoes⟩ := hgoes.of_known
  obtain ⟨interfaces, hnames, hgoes⟩ := hgoes.of_known
  obtain ⟨s, hs, hgoes⟩ := hgoes.of_known
  obtain ⟨c₀, hc₀, hgoes⟩ := hgoes.of_known
  obtain ⟨raws, htable, hraws⟩ := Image.exists_goes_attributeTable h hs hfits.attributes (hp.pool ▸ hattributes)
  obtain ⟨c, hc, hgathered⟩ := ClassAttributes.gathered h omitted hraws (hd.attributes.sections hs) hc₀
  obtain rfl := hgathered.eq hc₀
  have hversion' : image.version = .ok { major, minor } := by
    obtain ⟨_, hread⟩ := Goes.of_runAt hversion
    obtain ⟨_, _, hminor, -⟩ := hread.of_bind
    have hin : 4 ≤ p.front.size := Nat.le_trans (Nat.le_add_right 4 2) ((Decoder.passes_u16 _ _ _ hminor).2.1 (by decide))
    have hread' := PoolView.Mirrors.mirrors_indexPair.runAt
      ((Cursor.matches_of_hasAt p.hasAt_front).ahead (n := 4) (by simpa using hin)) (by simpa [Cursor.ahead] using hversion)
    have hindices : PoolView.indexPair.runAt image.bytes 4 = .ok (minor, major) := by
      rw [hp.bytes]
      simpa [Cursor.ahead] using hread'
    unfold Outline.version
    rw [hindices]
    rfl
  have hfound := forall₂_of_mapM hnames
  have hname' : image.className = .ok name := by
    unfold Outline.className Outline.atHeader
    rw [hp.bytes, hp.header]
    exact ((Reads.u16 p.thisClass).bindEmpty (Reads.lift (h.typeName _ _ hname))).runAt hthis
  have hsuperName' : image.superName = .ok superName := by
    unfold Outline.superName Outline.atHeader
    rw [hp.bytes, hp.header]
    exact ((Reads.u16 p.superClass).bindEmpty (Reads.lift (h.typeName? _ _ hsuperName))).runAt hsuper
  have hinterfaces' : image.interfaces = .ok interfaces := by
    unfold Outline.interfaces Outline.atHeader
    rw [hp.bytes, hp.header]
    have hread := Reads.counted_forall₂ (d := do image.pool.typeName (← Decoder.u16))
      (List.forall₂_map_right_iff.2 (hfound.imp fun name i hi => (Reads.u16 i).bindEmpty (Reads.lift (h.typeName _ _ hi))))
      (hfound.length_eq ▸ hfits.interfaces)
    exact (hread.map Array.toList).runAt hinterfaces
  have haccess' : image.accessBits = .ok p.access.toUInt32 := by
    unfold Outline.accessBits Outline.atHeader
    rw [hp.bytes, hp.header]
    exact ((Reads.u16 p.access).map UInt16.toUInt32).runAt haccess
  have htable' : (Image.attributeTable image.pool).runAt image.bytes image.attributes = .ok raws := by
    rw [hp.bytes, hp.attributes, ← hp.pool]
    exact htable.runAt
  have hstart : image.header + 8 + 2 * interfaces.length = p.fieldsOffset := by
    rw [hp.header, hfound.length_eq, fieldsOffset, Bytes.counted_eq, Array.size_append,
      Bytes.size_concat, Bytes.sum_size_ofUInt16, Bytes.size_ofUInt16]
    omega
  obtain ⟨_, told₁, hheader, hgoes⟩ := hgoes.of_bind
  obtain ⟨_, told₂, hplain, hgoes⟩ := hgoes.of_bind
  obtain ⟨_, told₃, hannotations, hgoes⟩ := hgoes.of_bind
  obtain ⟨_, told₄, hinner, hgoes⟩ := hgoes.of_bind
  obtain ⟨_, told₅, hfieldsTold, hgoes⟩ := hgoes.of_bind
  obtain ⟨_, told₆, hmethodsTold, hclose⟩ := hgoes.of_bind
  have hannotations' := Sections.goes_walkAt (Walk.mirrors_annotationList h interest)
    hgathered.common.annotations hannotations
  have hinner' := Sections.goes_walkAt (Walk.mirrors_innerClasses h) hgathered.innerClasses hinner
  have hplain' := Image.goes_narrateClassAttributes hplain hannotations' hinner'
  have hmembers : (Walk.runAt (do
      Walk.counted (Image.narrateField image.pool interest)
      Walk.counted (Image.narrateMethod image.pool omitted interest)) image.bytes p.fieldsOffset).Goes told₄ () told₆ := by
    rw [hp.bytes, ← hp.pool]
    rw [← hp.pool] at hfields hmethods
    refine ((Walk.goes_counted hfits.fields.count (fun m hm at0 told told' hat hgoes => ?_) hfields hfieldsTold).bind
      (Walk.goes_counted hfits.methods.count (fun m hm at0 told told' hat hgoes => ?_) hmethods hmethodsTold)).runAt
    · exact m.goes_narrateField h (hfits.fields.tables m hm) (hd.fields m hm) hat hgoes
    · exact m.goes_narrateMethod h hcopies (hfits.methods.tables m hm) (hd.methods m hm) (hd.code m hm) hat hgoes
  unfold Image.narrate
  refine Narration.Goes.known hversion' (Narration.Goes.known hname' (Narration.Goes.known hsuperName' ?_))
  refine Narration.Goes.known hinterfaces' (Narration.Goes.known haccess'
    (Narration.Goes.known htable' (Narration.Goes.known hc ?_)))
  rw [hstart]
  exact hheader.bind (hplain'.bind (hmembers.bind hclose))

end ClassParts

end ClassFile
