import ClassFile.Proofs.AttributeOrder
import ClassFile.Proofs.EventKinds
import ClassFile.Proofs.Markers
import ClassFile.Proofs.PartialContents

/-!
# Outlines and contents

An outline lists the members of a class and passes over their attributes, while the reader of the contents decodes these. If
the contents of a class file can be told, then all of its outline can be read, and both agree (`Image.exists_outline`): the
flags of a class or member are told with those of its markers, which an outline does not look at, and all else is the same.
-/

namespace ClassFile

open Decoder (Goes)

/-! ## Heads of members -/

/-- The head that an event gives of a member of some kind, if it opens one. -/
def Event.head? : FlagOwner → Event → Option MemberHead
  | .fields, .fieldOpen access name descriptor _ _ => some { access, name, descriptor }
  | .methods, .methodOpen access name descriptor _ _ => some { access, name, descriptor }
  | _, _ => none

/-- A head with further flags. -/
def MemberHead.marked (h : MemberHead) (bits : UInt32) : MemberHead :=
  { h with access := h.access ||| bits }

/-- The heads of members with the flags of their markers. -/
def MemberParts.markHeads (view : PoolView) (members : List MemberParts) (heads : List MemberHead) : List MemberHead :=
  List.zipWith (fun m h => h.marked (AccessFlags.markers (Attribute.names view m.attributes))) members heads

/-- The head of a member, as far as it stands in front of the attributes. -/
structure MemberParts.HasHead (view : PoolView) (owner : FlagOwner) (m : MemberParts) (h : MemberHead) : Prop where
  access : h.access = owner.truncate m.access.toUInt32
  name : view.utf8 m.name = .ok h.name
  descriptor : view.utf8 m.descriptor = .ok h.descriptor

/-- A member takes six bytes and what its attributes take. -/
theorem MemberParts.size_encode (m : MemberParts) : m.encode.size = 6 + (Attribute.encodeTable m.attributes).size := by
  simp [encode]
  omega

/-- The heads that are told of the members of each kind. -/
def Heads (heads : FlagOwner → List MemberHead) (told told' : Array Event) : Prop :=
  ∃ events : List Event, told' = told ++ events.toArray ∧ ∀ owner, events.filterMap (Event.head? owner) = heads owner

/-- An event opens no member. -/
def Event.IsInner (e : Event) : Prop :=
  ∀ owner, e.head? owner = none

/-- The heads of members of one kind. -/
def headsOf (owner : FlagOwner) (heads : List MemberHead) : FlagOwner → List MemberHead :=
  fun other => if other = owner then heads else []

section Heads

variable {told told' told'' : Array Event} {heads heads' : FlagOwner → List MemberHead} {e : Event}

/-- The heads that are told of members one behind the other are those of each. -/
theorem Heads.append (h : Heads heads told told') (h' : Heads heads' told' told'') :
    Heads (fun owner => heads owner ++ heads' owner) told told'' := by
  obtain ⟨events, rfl, hheads⟩ := h
  obtain ⟨events', rfl, hheads'⟩ := h'
  exact ⟨events ++ events', by simp, fun owner => by rw [List.filterMap_append, hheads, hheads']⟩

/-- Heads are told of each kind of member by itself. -/
theorem Heads.congr (h : Heads heads told told') (heq : ∀ owner, heads owner = heads' owner) : Heads heads' told told' :=
  funext heq ▸ h

/-- Heads of one kind stand one behind the other. -/
theorem headsOf_append (owner : FlagOwner) (hs hs' : List MemberHead) (other : FlagOwner) :
    headsOf owner hs other ++ headsOf owner hs' other = headsOf owner (hs ++ hs') other := by
  unfold headsOf
  split <;> rfl

theorem heads_nil (owner : FlagOwner) (told : Array Event) : Heads (headsOf owner []) told told := by
  refine ⟨[], by simp, fun other => ?_⟩
  unfold headsOf
  split <;> rfl

/-- Events that open no member tell no heads. -/
theorem heads_of_inner {events : List Event} (h : Says Event.IsInner events told told') : Heads (fun _ => []) told told' :=
  ⟨events, h.1, fun owner => List.filterMap_eq_nil_iff.2 fun e he => h.2 e he owner⟩

/-- What tells of annotations opens no member. -/
theorem Event.isInner_of_isNote (h : e.isNote = true) : e.IsInner := by
  intro owner
  cases e <;> first | (cases owner <;> rfl) | cases h

/-- What tells of code opens no member. -/
theorem Event.isInner_of_isCode (h : e.isCode = true) : e.IsInner := by
  intro owner
  cases e <;> first | (cases owner <;> rfl) | cases h

theorem Event.isInner_of_opens (h : e.opens = false) : e.IsInner := by
  intro owner
  cases e <;> first | (cases owner <;> rfl) | cases h

end Heads

/-! ## Members that are told -/

/-- A walk stays where it is and tells of no other member. -/
def Walk.Stays (w : Walk Unit) : Prop :=
  ∀ c told c' told', w.Goes c told () c' told' → c' = c ∧ ∃ events, Says Event.IsInner events told told'

namespace Walk

theorem stays_lift {x : Narration Unit} (h : x.TellsOnly Event.IsInner) : (liftM x : Walk Unit).Stays := by
  intro c told c' told' hgoes
  obtain ⟨_, told₁, hx, hpure⟩ := Narration.Goes.of_bind (x := x) (f := fun a => Pure.pure (a, c)) hgoes
  obtain ⟨hresult, rfl⟩ := Narration.Goes.of_pure hpure
  obtain ⟨-, rfl⟩ := Prod.mk.inj hresult
  exact ⟨rfl, h _ _ _ hx⟩

theorem stays_report {e : Event} (h : e.IsInner) : (report e).Stays := by
  intro c told c' told' hgoes
  obtain ⟨rfl, rfl⟩ := hgoes.of_report
  exact ⟨rfl, [e], says_singleton h told⟩

/-- Walks that stay where they are do so one after the other. -/
theorem Stays.bind {w w' : Walk Unit} (h : w.Stays) (h' : w'.Stays) : (do
      w
      w').Stays := by
  intro c told c' told' hgoes
  obtain ⟨_, c₁, told₁, hfirst, hsecond⟩ := hgoes.of_bind
  obtain ⟨rfl, events, hevents⟩ := h _ _ _ _ hfirst
  obtain ⟨rfl, events', hevents'⟩ := h' _ _ _ _ hsecond
  exact ⟨rfl, events ++ events', composes_says.append hevents hevents'⟩

/-- What is told behind an event that opens a member belongs to the member. -/
theorem Stays.heads {e : Event} {wish : Wish} {body : Walk Unit} (h : body.Stays) {c c' : Cursor} {told told' : Array Event}
    (hgoes : Goes (do
      report e
      if ← wanted true wish then body) c told () c' told') :
    c' = c ∧ Heads (fun owner => (e.head? owner).toList) told told' := by
  obtain ⟨_, c₁, told₁, hreport, hgoes⟩ := hgoes.of_bind
  obtain ⟨rfl, rfl⟩ := hreport.of_report
  obtain ⟨granted, c₂, told₂, hwanted, hgoes⟩ := hgoes.of_bind
  obtain ⟨hresult, rfl⟩ := Prod.mk.inj hwanted
  obtain ⟨rfl, rfl⟩ := Prod.mk.inj (Except.ok.inj hresult)
  have hopened : Heads (fun owner => (e.head? owner).toList) told (told.push e) :=
    ⟨[e], by simp, fun owner => by cases hhead : e.head? owner <;> simp [hhead]⟩
  split at hgoes
  · obtain ⟨rfl, events, hevents⟩ := h _ _ _ _ hgoes
    refine ⟨rfl, ?_⟩
    have hall := hopened.append (heads_of_inner hevents)
    simpa using hall
  · obtain ⟨-, rfl, rfl⟩ := Goes.of_pure hgoes
    exact ⟨rfl, hopened⟩

/-- A walk goes behind a member and tells one head of it, with the flags of its markers. -/
def TellsHead (view : PoolView) (owner : FlagOwner) (w : Walk Unit) : Prop :=
  ∀ (m : MemberParts) (b : Bytes) (offset : Nat) (c' : Cursor) (told told' : Array Event), Attribute.TableFits m.attributes →
    b.HasAt offset m.encode → w.Goes ⟨b, offset⟩ told () c' told' → c' = ⟨b, offset + m.encode.size⟩ ∧
      ∃ head, m.HasHead view owner head ∧
        Heads (headsOf owner [head.marked (AccessFlags.markers (Attribute.names view m.attributes))]) told told'

section Members

variable {view : PoolView} {owner : FlagOwner} {w : Walk Unit} {b : Bytes}

/-- The members of a table are told one after the other. -/
theorem TellsHead.times (h : w.TellsHead view owner) {members : List MemberParts}
    (hfits : ∀ m ∈ members, Attribute.TableFits m.attributes)
    {offset : Nat} (hat : b.HasAt offset (Bytes.concat (members.map MemberParts.encode))) {c' : Cursor}
    {told told' : Array Event} (hgoes : (times w members.length).Goes ⟨b, offset⟩ told () c' told') :
    c' = ⟨b, offset + (Bytes.concat (members.map MemberParts.encode)).size⟩ ∧ ∃ heads : List MemberHead,
      List.Forall₂ (MemberParts.HasHead view owner) members heads ∧
        Heads (headsOf owner (MemberParts.markHeads view members heads)) told told' := by
  induction members generalizing offset told with
  | nil =>
    obtain ⟨-, rfl, rfl⟩ := Goes.of_pure hgoes
    exact ⟨rfl, [], .nil, heads_nil owner told⟩
  | cons m rest ih =>
    rw [List.map_cons, Bytes.concat_cons] at hat ⊢
    obtain ⟨hm, hrest⟩ := Bytes.hasAt_append.1 hat
    obtain ⟨_, c₁, told₁, hfirst, hgoes⟩ := hgoes.of_bind
    obtain ⟨rfl, head, hhead, htold⟩ := h m b offset c₁ told told₁ (hfits m List.mem_cons_self) hm hfirst
    obtain ⟨rfl, heads, hheads, htold'⟩ := ih (fun m' hm' => hfits m' (List.mem_cons_of_mem m hm')) hrest hgoes
    refine ⟨by rw [Array.size_append, Nat.add_assoc], head :: heads, .cons hhead hheads, ?_⟩
    exact (htold.append htold').congr (headsOf_append owner [_] _)

/-- Members behind their number are told with a head each. -/
theorem TellsHead.counted (h : w.TellsHead view owner) {members : List MemberParts} (hfits : MemberParts.AllFit members)
    {offset : Nat}
    (hat : b.HasAt offset (Bytes.counted (members.map MemberParts.encode))) {c' : Cursor} {told told' : Array Event}
    (hgoes : (counted w).Goes ⟨b, offset⟩ told () c' told') :
    c' = ⟨b, offset + (Bytes.counted (members.map MemberParts.encode)).size⟩ ∧ ∃ heads : List MemberHead,
      List.Forall₂ (MemberParts.HasHead view owner) members heads ∧
        Heads (headsOf owner (MemberParts.markHeads view members heads)) told told' := by
  have hn : members.length.toUInt16.toNat = members.length := UInt16.toNat_ofNat_of_lt hfits.count
  rw [Bytes.counted_eq, List.length_map] at hat ⊢
  obtain ⟨hcount, hitems⟩ := Bytes.hasAt_append.1 hat
  obtain ⟨n, c₁, told₁, hnumber, hgoes⟩ := hgoes.of_bind
  obtain ⟨hread, rfl⟩ := hnumber.of_read
  obtain ⟨rfl, rfl⟩ := (Decoder.goes_of_reads (Reads.u16 _) hcount).unique hread
  rw [hn] at hgoes
  obtain ⟨rfl, hheads⟩ := h.times hfits.tables hitems hgoes
  exact ⟨by rw [Array.size_append, Nat.add_assoc], hheads⟩

/-- A walk that reads what stands in front of the attributes of a member reads its flags, its name and its descriptor. -/
theorem exists_front {β : Type} {m : MemberParts} {f : UInt16 → String → String → Walk β} {offset : Nat}
    (hat : b.HasAt offset m.encode) {c' : Cursor} {told told' : Array Event} {r : β} (hgoes : Goes (do
      let access ← read Decoder.u16
      let name ← read do view.utf8 (← Decoder.u16)
      let descriptor ← read do view.utf8 (← Decoder.u16)
      f access name descriptor) ⟨b, offset⟩ told r c' told') :
    ∃ name descriptor, view.utf8 m.name = .ok name ∧ view.utf8 m.descriptor = .ok descriptor ∧
      b.HasAt (offset + 6) (Attribute.encodeTable m.attributes) ∧
      (f m.access name descriptor).Goes ⟨b, offset + 6⟩ told r c' told' := by
  simp only [MemberParts.encode, Array.append_assoc] at hat
  obtain ⟨haccess, hat⟩ := Bytes.hasAt_append.1 hat
  obtain ⟨hname, hat⟩ := Bytes.hasAt_append.1 hat
  obtain ⟨hdescriptor, htable⟩ := Bytes.hasAt_append.1 hat
  obtain ⟨access, c₁, told₁, hread, hbehind⟩ := hgoes.of_bind
  obtain ⟨hbits, rfl⟩ := hread.of_read
  obtain ⟨rfl, rfl⟩ := (Decoder.goes_of_reads (Reads.u16 _) haccess).unique hbits
  have htext : ∀ {i : PoolIndex} {offset : Nat} {text : String} {c' : Cursor} {told told' : Array Event},
      b.HasAt offset (Bytes.ofUInt16 i) → (read do view.utf8 (← Decoder.u16)).Goes ⟨b, offset⟩ told text c' told' →
      view.utf8 i = .ok text ∧ c' = ⟨b, offset + (Bytes.ofUInt16 i).size⟩ ∧ told' = told := by
    intro i offset text c' told told' hi hgoes
    obtain ⟨htext, rfl⟩ := hgoes.of_read
    obtain ⟨j, c₁, hj, hlooked⟩ := htext.of_bind
    obtain ⟨rfl, rfl⟩ := (Decoder.goes_of_reads (Reads.u16 _) hi).unique hj
    obtain ⟨hfound, rfl⟩ := Decoder.Goes.of_lift hlooked
    exact ⟨hfound, rfl, rfl⟩
  obtain ⟨name, c₂, told₂, hread₁, hlast⟩ := hbehind.of_bind
  obtain ⟨hlooked, rfl, rfl⟩ := htext hname hread₁
  obtain ⟨descriptor, c₃, told₃, hread₂, hrest⟩ := hlast.of_bind
  obtain ⟨hlooked', rfl, rfl⟩ := htext hdescriptor hread₂
  exact ⟨name, descriptor, hlooked, hlooked', htable, hrest⟩

end Members

end Walk

namespace Image

variable (view : PoolView) (omitted : Omissions) (interest : Interest)

/-- What is told of annotations opens no member. -/
theorem isInner_annotations (start : Option Nat) :
    (walkAt view start (Walk.annotationList view interest)).TellsOnly Event.IsInner :=
  ((Walk.tellsOnly_annotationList view interest).walkAt view start).mono fun _ => Event.isInner_of_isNote

/-- A field is told with its head and the flags of its markers. -/
theorem tellsHead_narrateField : (narrateField view interest).TellsHead view .fields := by
  intro m b offset c' told told' hfits hat hgoes
  obtain ⟨name, descriptor, hname, hdescriptor, htable, hgoes⟩ := Walk.exists_front hat hgoes
  obtain ⟨raws, c₁, told₁, hread, hgoes⟩ := hgoes.of_bind
  obtain ⟨hraws, rfl⟩ := hread.of_read
  obtain ⟨rfl, hnames⟩ := Attribute.names_of_goes hfits htable hraws
  obtain ⟨f, c₂, told₂, hgather, hgoes⟩ := hgoes.of_bind
  obtain ⟨hlifted, rfl⟩ := hgather.of_read
  obtain ⟨hgathered, rfl⟩ := Goes.of_lift hlifted
  have hbody : (do
      liftM (walkAt view f.common.annotations (Walk.annotationList view interest))
      Walk.report .fieldClose : Walk Unit).Stays := by
    rw [Walk.lift_report]
    exact Walk.stays_lift ((isInner_annotations view interest _).bind fun _ =>
      Narration.tellsOnly_report (Event.isInner_of_opens rfl))
  obtain ⟨rfl, hheads⟩ := hbody.heads hgoes
  refine ⟨by rw [m.size_encode, Nat.add_assoc], ⟨_, name, descriptor⟩, ⟨rfl, hname, hdescriptor⟩, ?_⟩
  refine hheads.congr fun owner => ?_
  rw [(marked_fieldAttributes hgathered).accessBits, hnames, FlagOwner.truncate_markers (by decide)]
  cases owner <;> rfl

/-- What a method holds opens no member. -/
theorem isInner_narrateMethodBody (m : MethodAttributes) :
    (narrateMethodBody view omitted interest m).TellsOnly Event.IsInner := by
  have hcode := (Code.tellsOnly_narrate view omitted).walkAt view (if omitted.code then none else m.code)
  exact (isInner_annotations view interest _).bind fun _ =>
    (((Walk.tellsOnly_parameterAnnotations view interest).walkAt view _).mono fun _ => Event.isInner_of_isNote).bind fun _ =>
      (hcode.mono fun _ => Event.isInner_of_isCode).bind fun _ => Narration.tellsOnly_report (Event.isInner_of_opens rfl)

/-- A method is told with its head and the flags of its markers, whether it is read any further or taken as it stands. -/
theorem tellsHead_narrateMethod : (narrateMethod view omitted interest).TellsHead view .methods := by
  intro m b offset c' told told' hfits hat hgoes
  obtain ⟨name, descriptor, hname, hdescriptor, htable, hfront⟩ := Walk.exists_front hat hgoes
  obtain ⟨start, c₁, told₁, hposition, hbehind⟩ := hfront.of_bind
  obtain ⟨hstart, rfl⟩ := hposition.of_read
  obtain ⟨rfl, rfl⟩ := (Goes.position _).unique hstart
  obtain ⟨raws, c₂, told₂, hread, hbehind₁⟩ := hbehind.of_bind
  obtain ⟨hraws, rfl⟩ := hread.of_read
  obtain ⟨rfl, hnames⟩ := Attribute.names_of_goes hfits htable hraws
  obtain ⟨stop, c₃, told₃, hposition₁, hbehind₂⟩ := hbehind₁.of_bind
  obtain ⟨hstop, rfl⟩ := hposition₁.of_read
  obtain ⟨rfl, rfl⟩ := (Goes.position _).unique hstop
  obtain ⟨f, c₄, told₄, hgather, hrest⟩ := hbehind₂.of_bind
  obtain ⟨hlifted, rfl⟩ := hgather.of_read
  obtain ⟨hgathered, rfl⟩ := Goes.of_lift hlifted
  have hheads : c' = ⟨b, offset + 6 + (Attribute.encodeTable m.attributes).size⟩ ∧
    Heads (fun owner => (Event.head? owner (.methodOpen
      (FlagOwner.methods.truncate (m.access.toUInt32 ||| f.common.accessBits)) name descriptor f.common.signature
        f.exceptions.toList)).toList)
      told₄ told' := by
    cases hcopies : interest.copies with
    | none =>
      rw [hcopies] at hrest
      exact (Walk.stays_lift (isInner_narrateMethodBody view omitted interest f)).heads hrest
    | some source =>
      rw [hcopies] at hrest
      exact ((Walk.stays_report (Event.isInner_of_opens rfl)).bind (Walk.stays_report (Event.isInner_of_opens rfl))).heads
        hrest
  obtain ⟨rfl, hheads⟩ := hheads
  refine ⟨by rw [m.size_encode, Nat.add_assoc], ⟨_, name, descriptor⟩, ⟨rfl, hname, hdescriptor⟩, ?_⟩
  refine hheads.congr fun owner => ?_
  rw [(marked_methodAttributes hgathered).accessBits, hnames, FlagOwner.truncate_markers (by decide)]
  cases owner <;> rfl

/-- What is told of the attributes of a class opens no member. -/
theorem isInner_narrateClassAttributes {attributes : List RawAttribute} {c : ClassAttributes}
    (h : classAttributes view omitted attributes = .ok c) :
    (narrateClassAttributes view omitted interest c).TellsOnly Event.IsInner := by
  rw [classAttributes_without] at h
  obtain ⟨c₀, -, h⟩ := exists_of_bind_eq_ok
    (show (classAttributes view {} attributes >>= fun c => .ok (c.without omitted)) = .ok c by
    rw [← h]
    cases classAttributes view {} attributes <;> rfl)
  obtain rfl := Except.ok.inj h
  have hinner : (innerClassItem view).TellsOnly Event.IsInner :=
    (Walk.tellsOnly_read _).bind fun _ => (Walk.tellsOnly_read _).bind fun _ => (Walk.tellsOnly_read _).bind fun _ =>
      (Walk.tellsOnly_read _).bind fun _ => Walk.tellsOnly_report (Event.isInner_of_opens rfl)
  rw [narrateClassAttributes_without]
  refine ((Narration.tells_forM _).tellsOnly fun e he => ?_).bind fun _ =>
    (isInner_annotations view interest _).bind fun _ =>
    hinner.counted.walkAt view _
  exact Event.isInner_of_opens (class_of_mem_events omitted (List.mem_of_mem_filter he)).1.1

end Image

/-! ## Outlines that are read -/

namespace Outline

variable {o : Outline} {p : ClassParts} {owner : FlagOwner}

/-- The head of a member is read, and its attributes are passed over. -/
theorem reads_memberHead {m : MemberParts} {head : MemberHead} (hfits : Attribute.TableFits m.attributes)
    (h : m.HasHead o.pool owner head) :
    Reads (o.memberHead owner) m.encode head := by
  obtain ⟨access, name, descriptor⟩ := head
  obtain ⟨rfl, hnamed, hdescribed⟩ := h
  intro b offset hat
  have hsize : (⟨b, offset + m.encode.size⟩ : Cursor) =
    ⟨b, offset + 2 + 2 + 2 + (Attribute.encodeTable m.attributes).size⟩ := by
    rw [m.size_encode, ← Nat.add_assoc]
  simp only [MemberParts.encode, Array.append_assoc] at hat
  obtain ⟨haccess, hat⟩ := Bytes.hasAt_append.1 hat
  obtain ⟨hname, hat⟩ := Bytes.hasAt_append.1 hat
  obtain ⟨hdescriptor, htable⟩ := Bytes.hasAt_append.1 hat
  rw [hsize]
  refine (Decoder.goes_of_reads (Reads.u16 _) haccess).bind
    ((Decoder.goes_of_reads (Reads.u16 _) hname).bind (.known hnamed ?_))
  refine (Decoder.goes_of_reads (Reads.u16 _) hdescriptor).bind (.known hdescribed ?_)
  exact (Decoder.goes_of_reads (reads_skipAttributes hfits.count hfits.lengths) htable).map fun _ => _

/-- The heads of members are read behind their number. -/
theorem reads_memberHeads {members : List MemberParts} {heads : List MemberHead} (hfits : MemberParts.AllFit members)
    (h : List.Forall₂ (MemberParts.HasHead o.pool owner) members heads) :
    Reads (Decoder.counted (o.memberHead owner)) (Bytes.counted (members.map MemberParts.encode)) heads.toArray := by
  refine Reads.counted_forall₂ ?_ (h.length_eq ▸ hfits.count)
  have htables := hfits.tables
  clear hfits
  induction h with
  | nil => exact .nil
  | cons hhead _ ih =>
    obtain ⟨hm, hrest⟩ := List.forall_mem_cons.1 htables
    exact .cons (reads_memberHead hm hhead) (ih hrest)

/-- Where the parts of a class stand, the heads of its fields and methods are read. -/
theorem members_eq_ok (hbytes : o.bytes = p.encode) (hheader : o.header = p.front.size) (hfits : p.Fits)
    {fields methods : List MemberHead} (hfields : List.Forall₂ (MemberParts.HasHead o.pool .fields) p.fields fields)
    (hmethods : List.Forall₂ (MemberParts.HasHead o.pool .methods) p.methods methods) :
    o.fields = .ok fields ∧ o.methods = .ok methods := by
  obtain ⟨hinterfacesAt, hfieldsAt, hmethodsAt, -⟩ := p.hasAt_tables
  have hinterfaces := Decoder.goes_of_reads (reads_skipInterfaces hfits.interfaces) hinterfacesAt
  have hfieldsRead := Decoder.goes_of_reads (reads_memberHeads hfits.fields hfields) hfieldsAt
  have hmethodsRead := Decoder.goes_of_reads (reads_memberHeads hfits.methods hmethods) hmethodsAt
  unfold Outline.fields Outline.methods atHeader
  rw [hbytes, hheader]
  exact ⟨(hinterfaces.bind (hfieldsRead.map Array.toList)).runAt,
    (hinterfaces.bind (hfieldsRead.bind (hmethodsRead.map Array.toList))).runAt⟩

end Outline

/-- The tables of a class file that is put together of parts are found where the parts stand. -/
theorem ClassParts.attributes_of_tables {p : ClassParts} (hfits : p.Fits) {view : PoolView} {r : Nat × Array Nat}
    (h : (Image.tables view).runAt p.encode (p.front.size + 6) = .ok r) : r.1 = p.attributesOffset := by
  obtain ⟨c', h⟩ := Goes.of_runAt h
  obtain ⟨hinterfaces, hfields, hmethods, -⟩ := p.hasAt_tables
  obtain ⟨_, c₁, hskipped, h⟩ := h.of_bind
  obtain ⟨-, rfl⟩ := (Decoder.goes_of_reads (Outline.reads_skipInterfaces hfits.interfaces) hinterfaces).unique hskipped
  obtain ⟨_, c₂, hskipped₁, h⟩ := h.of_bind
  obtain ⟨-, rfl⟩ := (Decoder.goes_of_reads (MemberParts.reads_skipMembers hfits.fields) hfields).unique hskipped₁
  obtain ⟨_, c₃, hskipped₂, h⟩ := h.of_bind
  obtain ⟨-, rfl⟩ := (Decoder.goes_of_reads (MemberParts.reads_skipMembers hfits.methods) hmethods).unique hskipped₂
  obtain ⟨attributes, c₄, hposition, h⟩ := h.of_bind
  obtain ⟨rfl, rfl⟩ := (Goes.position _).unique hposition
  obtain ⟨n, c₅, -, h⟩ := h.of_bind
  obtain ⟨found, c₆, -, h⟩ := h.of_bind
  obtain ⟨rfl, -⟩ := Goes.of_pure h
  rfl

/-! ## Outlines that agree with contents -/

/-- All that an outline can be asked for. -/
structure Overview where
  version : Version
  access : UInt32
  className : String
  superName : Option String
  interfaces : List String
  fields : List MemberHead
  methods : List MemberHead

/-- All that an outline is asked for can be read. -/
structure Outline.Shows (o : Outline) (v : Overview) : Prop where
  version : o.version = .ok v.version
  access : o.access = .ok v.access
  className : o.className = .ok v.className
  superName : o.superName = .ok v.superName
  interfaces : o.interfaces = .ok v.interfaces
  fields : o.fields = .ok v.fields
  methods : o.methods = .ok v.methods

/-- What events tell of a class is what is seen of it from outside, where the class is put together of some parts: the flags
are told with those of the markers, and all else as it is. -/
structure Overview.ToldBy (v : Overview) (view : PoolView) (p : ClassParts) (events : List Event) : Prop where
  header : ∃ signature rest, events = .header v.version
    (v.access ||| AccessFlags.markers (Attribute.names view p.attributes)) v.className
    signature v.superName v.interfaces :: rest
  fieldCount : v.fields.length = p.fields.length
  fields : events.filterMap (Event.head? .fields) = MemberParts.markHeads view p.fields v.fields
  methodCount : v.methods.length = p.methods.length
  methods : events.filterMap (Event.head? .methods) = MemberParts.markHeads view p.methods v.methods

/-- The bootstrap methods do not matter to the head of a member. -/
theorem MemberParts.HasHead.without {view : PoolView} {bootstraps : Array Nat} {owner : FlagOwner} {m : MemberParts}
    {h : MemberHead} (hhead : m.HasHead { view with bootstraps } owner h) : m.HasHead view owner h :=
  ⟨hhead.access, hhead.name, hhead.descriptor⟩

namespace Image

/-- The tables of a class file are found by an outline too, as far as it looks at them, and stand
where the parts of the class do. -/
theorem exists_outline_of_parse {bytes : Bytes} {image : Image} (h : parse bytes = .ok image) :
    ∃ (o : Outline) (bootstraps : Array Nat) (p : ClassParts), Outline.parse bytes = .ok o ∧
      image = ⟨{ o with pool := { o.pool with bootstraps } }, p.attributesOffset⟩ ∧
        p.Fits ∧ p.encode = bytes ∧ o.bytes = p.encode ∧ o.header = p.front.size := by
  obtain ⟨p, hfits, hfront, rfl⟩ := ClassParts.exists_of_parse h
  unfold parse at h
  obtain ⟨_, hmagic, h⟩ := exists_of_bind_eq_ok h
  obtain ⟨view, hview, h⟩ := exists_of_bind_eq_ok h
  obtain ⟨⟨attributes, bootstraps⟩, htables, h⟩ := exists_of_bind_eq_ok h
  obtain rfl := Except.ok.inj h
  change p.front.size = view.stop at hfront
  rw [← hfront] at htables
  obtain rfl := ClassParts.attributes_of_tables hfits htables
  obtain ⟨_, hgoes⟩ := Goes.of_runAt hmagic
  obtain ⟨_, c₁, hcheck, -⟩ := hgoes.of_bind
  refine ⟨⟨p.encode, view, view.stop⟩, bootstraps, p, ?_, rfl, hfits, rfl, rfl, hfront.symm⟩
  unfold Outline.parse
  rw [hcheck.runAt, hview]
  rfl

end Image

/-- As many interfaces are read as the class has. -/
theorem Outline.length_interfaces {o : Outline} {p : ClassParts} (hbytes : o.bytes = p.encode)
    (hheader : o.header = p.front.size) (hfits : p.Fits) {interfaces : List String} (h : o.interfaces = .ok interfaces) :
    interfaces.length = p.interfaces.length := by
  obtain ⟨hinterfaces, -, -, -⟩ := p.hasAt_tables
  unfold Outline.interfaces atHeader at h
  rw [hbytes, hheader] at h
  obtain ⟨c', h⟩ := Goes.of_runAt h
  obtain ⟨r, c₁, hr, hpure⟩ := h.of_bind
  obtain ⟨rfl, -⟩ := Goes.of_pure hpure
  have hitem : ∀ i ∈ p.interfaces, Decoder.Finds (do o.pool.typeName (← Decoder.u16)) Bytes.ofUInt16
      (fun i name => o.pool.typeName i = .ok name) p.encode i := by
    intro i _ offset name c' hi h
    obtain ⟨j, c₁, hj, hlooked⟩ := h.of_bind
    obtain ⟨rfl, rfl⟩ := (Decoder.goes_of_reads (Reads.u16 _) hi).unique hj
    obtain ⟨hfound, rfl⟩ := Goes.of_lift hlooked
    exact ⟨rfl, hfound⟩
  exact (Decoder.forall₂_of_counted hitem hfits.interfaces hinterfaces hr).2.length_eq.symm

/-- If the contents of a class file can be told, whatever is left out and whatever is wanted, then an outline of it can be
read, with all that it can be asked for, and the events tell the same: only the flags of the class and of each member are
told with those that its markers stand for. -/
theorem Image.exists_outline {bytes : Bytes} {image : Image} (hparse : Image.parse bytes = .ok image) {omitted : Omissions}
    {interest : Interest} {events : List Event} (hcontents : image.contents omitted interest = (.ok (), events)) :
    ∃ (o : Outline) (v : Overview) (p : ClassParts), Outline.parse bytes = .ok o ∧ o.Shows v ∧
      p.Fits ∧ p.encode = bytes ∧ p.front.size = o.header ∧ v.ToldBy o.pool p events := by
  obtain ⟨o, bootstraps, p, hoparse, rfl, hfits, hencode, hbytes, hheader⟩ := exists_outline_of_parse hparse
  obtain ⟨hinterfacesAt, hfieldsAt, hmethodsAt, hattributesAt⟩ := p.hasAt_tables
  obtain ⟨hresult, htold⟩ := Prod.mk.inj hcontents
  have hgoes : (Image.narrate ⟨{ o with pool := { o.pool with bootstraps } }, p.attributesOffset⟩ omitted interest).Goes
    #[] () events.toArray := Prod.ext hresult (Array.toList_inj.1 htold)
  unfold narrate at hgoes
  obtain ⟨version, hversion, hgoes⟩ := hgoes.of_known
  obtain ⟨name, hname, hgoes⟩ := hgoes.of_known
  obtain ⟨superName, hsuperName, hgoes⟩ := hgoes.of_known
  obtain ⟨interfaces, hinterfaces, hgoes⟩ := hgoes.of_known
  obtain ⟨bits, hbits, hgoes⟩ := hgoes.of_known
  obtain ⟨raws, hraws, hgoes⟩ := hgoes.of_known
  obtain ⟨c, hc, hgoes⟩ := hgoes.of_known
  obtain ⟨_, told₁, hreport, hgoes⟩ := hgoes.of_bind
  obtain ⟨_, told₂, hclass, hgoes⟩ := hgoes.of_bind
  obtain ⟨_, told₃, hmembers, hclose⟩ := hgoes.of_bind
  obtain ⟨_, hrawsRead⟩ := Goes.of_runAt hraws
  obtain ⟨-, hnames⟩ := Attribute.names_of_goes hfits.attributes hattributesAt (hbytes ▸ hrawsRead)
  change raws.map RawAttribute.name = Attribute.names o.pool p.attributes at hnames
  -- the members stand behind the interfaces
  have hplace : o.header + 8 + 2 * interfaces.length = p.fieldsOffset := by
    rw [Outline.length_interfaces hbytes hheader hfits hinterfaces, hheader]
    simp [ClassParts.fieldsOffset, Bytes.counted_eq, ← Bytes.sum_size_ofUInt16]
    omega
  obtain ⟨c₁, hmembers⟩ := Walk.Goes.of_runAt hmembers
  obtain ⟨_, c₂, told₄, hfieldsTold, hmethodsTold⟩ := hmembers.of_bind
  rw [hplace, hbytes] at hfieldsTold
  obtain ⟨rfl, fields, hfields, hfieldsHeard⟩ :=
    (tellsHead_narrateField _ interest).counted hfits.fields hfieldsAt hfieldsTold
  obtain ⟨rfl, methods, hmethods, hmethodsHeard⟩ :=
    (tellsHead_narrateMethod _ omitted interest).counted hfits.methods hmethodsAt hmethodsTold
  obtain ⟨rest, hrest⟩ := isInner_narrateClassAttributes _ omitted interest hc _ _ _ hclass
  have hend : Says Event.IsInner [.classClose] told₃ _ := Narration.Goes.of_report hclose ▸
    says_singleton (Event.isInner_of_opens rfl) told₃
  obtain ⟨inner, hinner, hheads⟩ := (heads_of_inner hrest).append
    (hfieldsHeard.append (hmethodsHeard.append (heads_of_inner hend)))
  rw [Narration.Goes.of_report hreport, (marked_classAttributes hc).accessBits, hnames,
    FlagOwner.truncate_markers (by decide)] at hinner
  have hevents : events = .header version (FlagOwner.classes.truncate bits ||| AccessFlags.markers
    (Attribute.names o.pool p.attributes)) name
      c.common.signature superName interfaces :: inner := by simpa using hinner
  refine ⟨o, ⟨version, FlagOwner.classes.truncate bits, name, superName, interfaces, fields, methods⟩, p,
    hoparse, ?_, hfits, hencode, hheader.symm, ?_⟩
  · have hfields' := hfields.imp fun _ _ => MemberParts.HasHead.without
    have hmethods' := hmethods.imp fun _ _ => MemberParts.HasHead.without
    obtain ⟨hfieldsRead, hmethodsRead⟩ := Outline.members_eq_ok hbytes hheader hfits hfields' hmethods'
    exact ⟨hversion, congrArg (Except.map FlagOwner.classes.truncate) hbits, hname, hsuperName, hinterfaces,
      hfieldsRead, hmethodsRead⟩
  · refine ⟨⟨_, inner, hevents⟩, hfields.length_eq.symm, ?_, hmethods.length_eq.symm, ?_⟩
    · rw [hevents]
      exact (hheads .fields).trans (by simp [headsOf]; rfl)
    · rw [hevents]
      exact (hheads .methods).trans (by simp [headsOf]; rfl)

/-- A deprecated class with a field that is both deprecated and synthetic. The strings in its pool are `A`,
`Deprecated`, `Synthetic` and `I`. -/
def deprecatedClass : ClassParts where
  front := #[0xCA, 0xFE, 0xBA, 0xBE, 0, 0, 0, 48, 0, 6, 1, 0, 1, 65, 7, 0, 1, 1, 0, 10, 68, 101, 112, 114,
    101, 99, 97, 116, 101, 100, 1, 0, 9, 83, 121, 110, 116, 104, 101, 116, 105, 99, 1, 0, 1, 73]
  access := 0x21
  thisClass := 2
  superClass := 0
  interfaces := []
  fields := [⟨0x18, 1, 5, [⟨4, #[]⟩, ⟨3, #[]⟩]⟩]
  methods := []
  attributes := [⟨3, #[]⟩]

/-- The deprecated class is seen from outside as it is told, with the flags of its field's markers. -/
theorem Image.exists_outline_deprecatedClass :
    ∃ (image : Image) (events : List Event) (o : Outline) (v : Overview) (p : ClassParts),
      Image.parse deprecatedClass.encode = .ok image ∧ image.contents {} {} = (.ok (), events) ∧
        Outline.parse deprecatedClass.encode = .ok o ∧ o.Shows v ∧ p.Fits ∧ p.encode = deprecatedClass.encode ∧
        p.front.size = o.header ∧ v.ToldBy o.pool p events ∧ v.fields = [⟨0x18, "A", "I"⟩] ∧
        events.filterMap (Event.head? .fields) = [⟨0x21018, "A", "I"⟩] := by
  obtain ⟨image, hparse⟩ : ∃ image, Image.parse deprecatedClass.encode = .ok image := exists_of_isOk (by decide +kernel)
  have hcontents : (Image.parse deprecatedClass.encode >>= fun image => (image.contents {} {}).1) = .ok () := by
    decide +kernel
  have hheads : (Image.parse deprecatedClass.encode).map
    (fun image => (image.contents {} {}).2.filterMap (Event.head? .fields)) =
      .ok [⟨0x21018, "A", "I"⟩] := by decide +kernel
  have hfields : (Outline.parse deprecatedClass.encode >>= Outline.fields) = .ok [⟨0x18, "A", "I"⟩] := by decide +kernel
  rw [hparse] at hcontents hheads
  obtain ⟨o, v, p, hoparse, hshows, hfits, hencode, hheader, htold⟩ := exists_outline hparse (Prod.ext hcontents rfl)
  rw [hoparse] at hfields
  exact ⟨image, _, o, v, p, hparse, Prod.ext hcontents rfl, hoparse, hshows, hfits, hencode, hheader, htold,
    Except.ok.inj (hshows.fields.symm.trans hfields), Except.ok.inj hheads⟩

end ClassFile
