import ClassFile.Proofs.PlacedParts
import ClassFile.Proofs.PoolCopying

/-!
# Class files of which the parts are known

The tables of a class file that has been put together of parts are found where the parts stand, and the constants and
bootstrap methods that are found with them are those that the parts show by themselves (`ClassParts.exists_parse`). So a
class file is read as its parts are (`ClassParts.exists_contents`).
-/

namespace ClassFile

open Decoder (Goes)

/-! ## Constants -/

/-- What is left at a cursor is left if bytes are put in front. -/
theorem Cursor.Matches.behind {b : Bytes} {o : Nat} {c : Cursor} (h : Matches ⟨b, o⟩ c) (before : Bytes) :
    Matches ⟨before ++ b, before.size + o⟩ c := by
  refine ⟨by simpa using h.inside, ?_⟩
  have hfront : before.extract (before.size + o) (before.size + b.size) = #[] :=
    Array.extract_empty_of_size_le_start (Nat.le_add_right _ _)
  simpa [Array.extract_append, hfront] using h.stands

namespace PoolView

/-- How far an entry reaches is read alike, wherever the constants lie. -/
theorem mirrors_entryWidth (offset : Nat) : (entryWidth offset).Mirrors (entryWidth offset) := by
  refine Decoder.mirrors_u8.bind fun tag => Decoder.Mirrors.ite ?_ ?_
  · exact Decoder.mirrors_u16.bind fun length => (Decoder.mirrors_skip _).bind fun _ => Decoder.mirrors_pure _
  · split
    · exact (Decoder.mirrors_skip _).bind fun _ => Decoder.mirrors_pure _
    · exact Decoder.mirrors_throw _ _

/-- The entries of a pool are found at the same offsets in every byte string in which the same bytes stand there. -/
theorem exists_goes_scanEntries {count fuel index : Nat} {offsets found : Array Nat} {c c' c₁ : Cursor} (hc : c.Matches c')
    (hposition : c.position = c'.position)
    (h : (scanEntries count fuel index offsets).Goes c found c₁) : ∃ n, c₁ = c.ahead n ∧
      (scanEntries count fuel index offsets).Goes c' found (c'.ahead n) ∧ ∀ o ∈ found, o ∈ offsets ∨ o ≤ c.bytes.size := by
  induction fuel generalizing index offsets c c' with
  | zero =>
    obtain ⟨rfl, rfl⟩ := Goes.of_pure h
    exact ⟨0, rfl, Goes.pure _ _, fun o ho => .inl ho⟩
  | succ fuel ih =>
    unfold scanEntries at h ⊢
    split at h
    · obtain ⟨⟨offset, width⟩, c₂, hentry, h⟩ := h.of_bind
      obtain ⟨m, rfl, hm, hentry'⟩ := mirrors_entryWidth c.position c c' _ _ hc hentry
      obtain ⟨n, rfl, hrest, hfound⟩ := ih hm (congrArg (· + m) hposition) h
      rw [hposition] at hentry'
      rw [if_pos ‹_›]
      rw [Cursor.ahead_ahead] at hrest
      refine ⟨m + n, Cursor.ahead_ahead .., Goes.bind (show scanEntry.Goes c' _ _ from hentry') hrest, fun o ho => ?_⟩
      rcases hfound o ho with ho | ho
      · rcases Array.mem_or_eq_of_mem_setIfInBounds ho with ho | rfl
        · exact .inl ho
        · obtain ⟨rfl, -⟩ := exists_of_scanEntry hentry
          exact .inr hc.inside
      · exact .inr ho
    · obtain ⟨rfl, rfl⟩ := Goes.of_pure h
      rw [if_neg ‹_›]
      exact ⟨0, rfl, Goes.pure _ _, fun o ho => .inl ho⟩

/-- The constants that a byte string shows by itself are found in every byte string that starts with it. -/
theorem parse_elsewhere {front b : Bytes} (hat : b.HasAt 0 front) {constants : PoolView}
    (h : parse front 8 = .ok constants) :
    parse b 8 = .ok { constants with bytes := b } ∧ constants.bytes = front ∧ constants.bootstraps = #[] ∧
      ∀ o ∈ constants.offsets, o ≤ front.size := by
  obtain ⟨⟨offsets, stop⟩, hscan, h⟩ := exists_of_bind_eq_ok h
  obtain rfl := Except.ok.inj h
  obtain ⟨c₁, hscan⟩ := Goes.of_runAt hscan
  obtain ⟨count, c₂, hcount, hscan⟩ := hscan.of_bind
  obtain ⟨found, c₃, hentries, hscan⟩ := hscan.of_bind
  obtain ⟨position, c₄, hposition, hscan⟩ := hscan.of_bind
  obtain ⟨rfl, rfl⟩ := (Goes.position c₃).unique hposition
  obtain ⟨heq, rfl⟩ := Goes.of_pure hscan
  obtain ⟨rfl, rfl⟩ := Prod.mk.inj heq
  have hin : 8 + 2 ≤ front.size := (Decoder.passes_u16 _ _ _ hcount).2.1 (by decide)
  have hc : Cursor.Matches ⟨front, 8⟩ ⟨b, 8⟩ :=
    (Cursor.matches_of_hasAt hat).ahead (n := 8) (by simpa using Nat.le_of_add_right_le hin)
  obtain ⟨m, rfl, hm, hcount'⟩ := Decoder.mirrors_u16 _ _ _ _ hc hcount
  obtain ⟨n, rfl, hentries', hfound⟩ := exists_goes_scanEntries hm rfl hentries
  refine ⟨?_, rfl, rfl, fun o ho => ?_⟩
  · have hscan' : scan.Goes ⟨b, 8⟩ _ _ := hcount'.bind
      (hentries'.bind ((Goes.position _).map fun position => (found, position)))
    unfold parse
    rw [hscan'.runAt]
    rfl
  · rcases hfound o ho with ho | ho
    · rw [Array.eq_of_mem_replicate ho]
      exact Nat.zero_le _
    · exact ho

variable {view : PoolView} {b : Bytes}

/-- Behind other bytes, every entry lies as much further back. -/
theorem offset_behind (view : PoolView) (b : Bytes) (bootstraps : Array Nat) (i : PoolIndex) :
    (view.behind b bootstraps).offset i = (b.size + ·) <$> view.offset i := by
  unfold offset behind
  rw [Array.getElem?_map]
  cases view.offsets[i.toNat]? with
  | none => rfl
  | some o =>
    cases o with
    | zero => rfl
    | succ o => simp [← Nat.add_assoc]

/-- Bootstrap methods that have been found in one byte string are found in another one. -/
def SameMethods (b : Bytes) (found : Array Nat) (b' : Bytes) (found' : Array Nat) : Prop :=
  ∀ k offset : Nat, found[k]? = some offset → ∃ (m : BootstrapMethod) (offset' : Nat), m.arguments.length < 65536 ∧
    b.HasAt offset m.encode ∧ found'[k]? = some offset' ∧ b'.HasAt offset' m.encode

section Elsewhere

variable (hin : ∀ o ∈ view.offsets, o ≤ view.bytes.size)

include hin

/-- An entry starts within the bytes. -/
theorem offset_le {i : PoolIndex} {o : Nat} (h : view.offset i = .ok o) : o ≤ view.bytes.size := by
  unfold offset at h
  split at h
  · cases h
  · cases h
  · obtain rfl := Except.ok.inj h
    exact hin _ (Array.mem_of_getElem? ‹_›)

/-- A view still shows constants if bytes are put in front of them. -/
theorem mirrors_behind (hnothing : view.bootstraps = #[]) (b : Bytes) (bootstraps : Array Nat) :
    view.Mirrors (view.behind b bootstraps) := by
  refine ⟨?_, (Array.size_map ..).symm, fun i o ho => ⟨b.size + o, by rw [offset_behind, ho]; rfl, ?_⟩, ?_⟩
  · rw [behind, Array.size_append]
    exact Nat.le_add_left _ _
  · have hat := (Bytes.hasAt_append.1 (Bytes.hasAt_self (b ++ view.bytes))).2
    simpa [Cursor.ahead, behind] using (Cursor.matches_of_hasAt hat).ahead (n := o) (by simpa using offset_le hin ho)
  · intro k offset hk
    rw [hnothing] at hk
    cases hk

/-- A string that a view shows behind some bytes, it shows without them. -/
theorem confirms_utf8_behind (b : Bytes) (bootstraps : Array Nat) (i : PoolIndex) :
    Confirms ((view.behind b bootstraps).utf8 i) (view.utf8 i) := by
  intro text htext
  obtain ⟨offset, hoffset, hread⟩ := exists_of_bind_eq_ok htext
  rw [offset_behind] at hoffset
  cases ho : view.offset i with
  | error e =>
    rw [ho] at hoffset
    cases hoffset
  | ok o =>
    rw [ho] at hoffset
    obtain rfl := Except.ok.inj hoffset
    have hmatches := (Cursor.Matches.refl (c := ⟨view.bytes, o⟩) (offset_le hin ho)).behind b
    unfold utf8 entry
    rw [ho]
    exact (Decoder.mirrors_u8.bind fun _ => Decoder.mirrors_u16.bind fun n => (Decoder.mirrors_take n.toNat).bind fun _ =>
      Decoder.mirrors_pure _).runAt hmatches hread

/-- A view still shows constants if the byte string goes on behind them. -/
theorem mirrors_elsewhere (hnothing : view.bootstraps = #[]) (hat : b.HasAt 0 view.bytes) :
    view.Mirrors { view with bytes := b } := by
  refine ⟨by simpa using hat.le_size, rfl, fun i o ho => ⟨o, ho, ?_⟩, ?_⟩
  · simpa [Cursor.ahead] using (Cursor.matches_of_hasAt hat).ahead (n := o) (by simpa using offset_le hin ho)
  · intro k offset hk
    rw [hnothing] at hk
    cases hk

/-- A byte string that starts with the constants and in which the bootstrap methods stand shows what
the two show by themselves. -/
theorem behind_mirrors {info filling : Bytes} {found found' : Array Nat} (hat : b.HasAt 0 view.bytes)
    (hsize : (info ++ filling).size + view.bytes.size ≤ b.size) (hsame : SameMethods info found b found') :
    (view.behind (info ++ filling) found).Mirrors { view with bytes := b, bootstraps := found' } := by
  refine ⟨by rwa [behind, Array.size_append], Array.size_map .., fun i offset hoffset => ?_, fun k offset hk => ?_⟩
  · generalize info ++ filling = before at hoffset ⊢
    rw [offset_behind] at hoffset
    cases ho : view.offset i with
    | error e =>
      rw [ho] at hoffset
      cases hoffset
    | ok o =>
      rw [ho] at hoffset
      obtain rfl := Except.ok.inj hoffset
      have hle := offset_le hin ho
      have hmatches := (Cursor.matches_of_hasAt hat).ahead (n := o) (by simpa using hle)
      simp only [Cursor.ahead, Nat.zero_add] at hmatches
      exact ⟨o, ho, hmatches.behind before⟩
  · obtain ⟨m, offset', hl, hm, hk', hm'⟩ := hsame k offset hk
    have hinfo := (Bytes.hasAt_append.1 (Bytes.hasAt_append.1 (Bytes.hasAt_self (info ++ filling ++ view.bytes))).1).1.trans
      hm
    rw [Nat.zero_add] at hinfo
    exact ⟨m, offset', hl, hinfo, hk', hm'⟩

end Elsewhere

end PoolView

/-! ## Bootstrap methods -/

namespace Image

open Decoder

/-- Passing over a bootstrap method goes over one whose arguments can be counted. -/
theorem spells_bootstrapOffset : bootstrapOffset.Spells fun _ piece =>
    ∃ m : BootstrapMethod, m.arguments.length < 65536 ∧ piece = m.encode := by
  intro c offset c' hin hgoes
  obtain ⟨start, c₁, hstart, hgoes⟩ := hgoes.of_bind
  obtain ⟨rfl, rfl⟩ := (Goes.position c).unique hstart
  have hrest : (do
      Decoder.skip 2
      Outline.skipInterfaces : Decoder Unit).Goes c () c' := by
    obtain ⟨_, c₂, hhandle, hgoes⟩ := hgoes.of_bind
    obtain ⟨n, c₃, hn, hgoes⟩ := hgoes.of_bind
    obtain ⟨_, c₄, harguments, hgoes⟩ := hgoes.of_bind
    obtain ⟨-, rfl⟩ := Goes.of_pure hgoes
    exact hhandle.bind (hn.bind harguments)
  obtain ⟨piece, ⟨_, p, _, hp, ⟨arguments, hl, rfl⟩, rfl⟩, hat, hc'⟩ :=
    ((spells_skip 2).bind fun _ => Outline.spells_skipInterfaces) _ _ _ hin hrest
  obtain ⟨handle, rfl⟩ := Bytes.exists_ofUInt16 hp
  exact ⟨_, ⟨⟨handle, arguments⟩, hl, rfl⟩, hat, hc'⟩

/-- Bootstrap methods that are found in a byte string are found wherever it stands. -/
theorem goes_bootstraps_elsewhere {info : Bytes} {found : Array Nat}
    (h : (Decoder.counted bootstrapOffset).runAt info 0 = .ok found)
    {b : Bytes} {offset : Nat} (hat : b.HasAt offset info) : ∃ found' stop,
      (Decoder.counted bootstrapOffset).Goes ⟨b, offset⟩ found' ⟨b, stop⟩ ∧
      PoolView.SameMethods info found b found' := by
  obtain ⟨_, hgoes⟩ := Goes.of_runAt h
  obtain ⟨_, ⟨ps, hcount, hps, rfl⟩, hmethods, -⟩ := spells_bootstrapOffset.counted _ _ _ (Nat.zero_le _) hgoes
  have hfound : ∃ methods : List BootstrapMethod, methods.length = found.size ∧ (∀ m ∈ methods, m.arguments.length < 65536) ∧
      ps = methods.map BootstrapMethod.encode := by
    clear hcount hmethods hgoes h
    rw [← Array.length_toList]
    generalize found.toList = offsets at hps
    induction hps with
    | nil => exact ⟨[], rfl, fun _ hm => absurd hm List.not_mem_nil, rfl⟩
    | cons hm _ ih =>
      obtain ⟨m, hl, rfl⟩ := hm
      obtain ⟨methods, hlength, hls, rfl⟩ := ih
      exact ⟨m :: methods, congrArg Nat.succ hlength, List.forall_mem_cons.2 ⟨hl, hls⟩, rfl⟩
  obtain ⟨methods, hlength, hls, rfl⟩ := hfound
  rw [← hlength] at hcount
  have hthere := hat.trans hmethods
  rw [Nat.add_zero] at hthere
  have hgoes' := goes_bootstraps hcount hls hthere
  obtain ⟨rfl, -⟩ := hgoes.unique (goes_bootstraps hcount hls hmethods)
  refine ⟨_, _, hgoes', fun k offset₀ hk => ?_⟩
  have hconcat : ∀ {b : Bytes} {at0 : Nat}, b.HasAt at0 (Bytes.counted (methods.map BootstrapMethod.encode)) →
      b.HasAt (at0 + 2) (Bytes.concat (methods.map BootstrapMethod.encode)) := by
    intro b at0 hat
    rw [Bytes.counted_eq] at hat
    exact (Bytes.hasAt_append.1 hat).2
  rw [List.getElem?_toArray] at hk
  obtain ⟨hbound, -⟩ := List.getElem?_eq_some_iff.1 hk
  rw [Bytes.length_offsets] at hbound
  have hm := List.getElem?_eq_getElem hbound
  rw [List.getElem_map] at hm
  obtain ⟨offset₁, hk₁, hat₁⟩ := Bytes.hasAt_offsets (hconcat hmethods) hm
  obtain ⟨offset', hk', hat'⟩ := Bytes.hasAt_offsets (hconcat hthere) hm
  obtain rfl := Option.some.inj (hk₁.symm.trans hk)
  exact ⟨_, offset', hls _ (List.getElem_mem _), hat₁, by rw [List.getElem?_toArray, hk'], hat'⟩

/-- Bootstrap methods are found in the attribute of their name, if that stands only once among the
attributes of the class. -/
theorem exists_goes_indexAllBootstraps {view : PoolView} {table : List Attribute} {b : Bytes}
    (hnames : ∀ a ∈ table, view.utf8 a.name = .ok (a.titled view).1) (hlengths : ∀ a ∈ table, a.info.size < 4294967296)
    (hd : Sections.Distinct Attribute.classNames (table.map (Attribute.titled view))) {r : Option (Array Nat)}
    (hr : Sections.read (table.map (Attribute.titled view)) "BootstrapMethods" (Decoder.counted bootstrapOffset) = .ok r)
    {at0 : Nat} (hat : b.HasAt at0 (Bytes.concat (table.map Attribute.encode))) (found : Array Nat) : ∃ found',
      (indexAllBootstraps view table.length found).Goes ⟨b, at0⟩ found'
    ⟨b, at0 + (Bytes.concat (table.map Attribute.encode)).size⟩ ∧
        match (table.map (Attribute.titled view)).lookup "BootstrapMethods" with
        | some info => PoolView.SameMethods info (r.getD #[]) b found'
        | none => found' = found := by
  induction table generalizing at0 found r with
  | nil => exact ⟨found, Goes.pure found _, rfl⟩
  | cons a rest ih =>
    obtain ⟨hname, hothers⟩ := List.forall_mem_cons.1 hnames
    obtain ⟨hlength, hlengths⟩ := List.forall_mem_cons.1 hlengths
    rw [List.map_cons, Bytes.concat_cons] at hat ⊢
    obtain ⟨hfirst, hrest⟩ := Bytes.hasAt_append.1 hat
    have hinfo : b.HasAt (at0 + 6) a.info := (Bytes.hasAt_append.1 hfirst).2
    obtain ⟨hnew, hd⟩ := List.pairwise_cons.1 hd
    rw [Array.size_append, ← Nat.add_assoc]
    rw [List.map_cons] at hr ⊢
    unfold Sections.read at hr
    by_cases hx : (a.titled view).1 = "BootstrapMethods"
    · have hlast : (rest.map (Attribute.titled view)).lookup "BootstrapMethods" = none := by
        refine List.lookup_eq_none_iff.2 fun y hy => bne_iff_ne.2 fun heq => ?_
        exact hnew y hy (hx.trans heq) (hx ▸ by decide)
      have hlookup : (a.titled view :: rest.map (Attribute.titled view)).lookup "BootstrapMethods" = some a.info := by
        rw [List.lookup_cons, hx, BEq.rfl]
        rfl
      rw [hlookup] at hr ⊢
      obtain ⟨own, hown, hr⟩ : ∃ own, (Decoder.counted bootstrapOffset).runAt a.info 0 = .ok own ∧ r = some own := by
        cases hown : (Decoder.counted bootstrapOffset).runAt a.info 0 with
        | error e => simp [hown] at hr
        | ok own =>
          simp only [hown] at hr
          exact ⟨own, rfl, (Except.ok.inj hr).symm⟩
      obtain ⟨found₁, stop, hfound₁, hsame⟩ := goes_bootstraps_elsewhere hown hinfo
      have hnone : Sections.read (rest.map (Attribute.titled view)) "BootstrapMethods" (Decoder.counted bootstrapOffset) =
        .ok none := by
        rw [Sections.read, hlast]
      obtain ⟨found', hgoes, hfound⟩ := ih hothers hlengths hd hnone hrest found₁
      rw [hlast] at hfound
      obtain rfl : found' = found₁ := hfound
      refine ⟨found', (goes_indexBootstraps hname hlength hfirst found found' stop ?_).bind hgoes, ?_⟩
      · rw [hx]
        exact hfound₁
      · rw [hr]
        exact hsame
    · have hlookup : (a.titled view :: rest.map (Attribute.titled view)).lookup "BootstrapMethods" =
          (rest.map (Attribute.titled view)).lookup "BootstrapMethods" := by
        rw [List.lookup_cons, beq_false_of_ne (Ne.symm hx)]
      rw [hlookup] at hr ⊢
      obtain ⟨found', hgoes, hfound⟩ := ih hothers hlengths hd hr hrest found
      refine ⟨found', (goes_indexBootstraps hname hlength hfirst found found (at0 + 6) ?_).bind hgoes, hfound⟩
      rw [beq_false_of_ne hx]
      exact Goes.pure found _

end Image

/-! ## Classes -/

/-- A member whose attributes fit is passed over. -/
theorem MemberParts.reads_skip {m : MemberParts} (h : Attribute.TableFits m.attributes) :
    Reads Image.skipMember m.encode () := by
  have hskip := Reads.skip (Bytes.ofUInt16 m.access ++ Bytes.ofUInt16 m.name ++ Bytes.ofUInt16 m.descriptor)
  exact hskip.bind (Outline.reads_skipAttributes h.count h.lengths)

/-- Members whose attributes fit are passed over. -/
theorem MemberParts.reads_skipMembers {members : List MemberParts} (h : AllFit members) :
    Reads Image.skipMembers (Bytes.counted (members.map encode)) () := by
  refine Outline.reads_countedDecoder (by simpa using h.count) fun piece hpiece => ?_
  obtain ⟨m, hm, rfl⟩ := List.mem_map.1 hpiece
  exact reads_skip (h.tables m hm)

/-- The names of attributes can be looked up in each view that shows what one shows in which they can be. -/
theorem PoolView.Mirrors.sections {view view' : PoolView} (h : view.Mirrors view') (table : List Attribute) :
    Confirms (Attribute.sections view table) (Attribute.sections view' table) := by
  intro s hs
  obtain ⟨hnames, rfl⟩ := Attribute.sections_eq_ok.1 hs
  have htitled : ∀ a ∈ table, a.titled view' = a.titled view := fun a ha => Attribute.titled_eq (h.utf8 _ _ (hnames a ha))
  refine Attribute.sections_eq_ok.2 ⟨fun a ha => ?_, (List.map_congr_left htitled).symm⟩
  rw [htitled a ha]
  exact h.utf8 _ _ (hnames a ha)

namespace Image

/-- The first bytes of a class file are checked alike. -/
theorem mirrors_checkMagic : Outline.checkMagic.Mirrors Outline.checkMagic :=
  Decoder.mirrors_u32.bind fun _ => (Decoder.mirrors_throw _ _).ite (Decoder.mirrors_pure ())

end Image

namespace ClassParts

variable {p : ClassParts} {view constants : PoolView}

/-- A view shows the constants of a class, of which nothing stands behind the front, and the bootstrap methods, which stand
in their attribute. It is no larger than the class file. -/
def ShownBy (p : ClassParts) (view : PoolView) : Prop :=
  ∃ (constants : PoolView) (s : Sections) (bootstraps : Option (Array Nat)) (filling : Bytes),
    (do Outline.checkMagic; Decoder.skip 4 : Decoder Unit).runAt p.front 0 = .ok () ∧
    PoolView.parse p.front 8 = .ok constants ∧ constants.stop = p.front.size ∧
    Attribute.sections constants p.attributes = .ok s ∧
    s.read "BootstrapMethods" (Decoder.counted Image.bootstrapOffset) = .ok bootstraps ∧
    view = constants.behind ((s.lookup "BootstrapMethods").getD #[] ++ filling) (bootstraps.getD #[]) ∧
    view.bytes.size ≤ p.encode.size

/-- A view of a class taken apart shows its constants and its bootstrap methods. -/
theorem shownBy (hview : p.view = .ok view)
    (hfront : ∀ constants, PoolView.parse p.front 8 = .ok constants → constants.stop = p.front.size) : p.ShownBy view := by
  obtain ⟨_, hmagic, hview⟩ := exists_of_bind_eq_ok hview
  obtain ⟨constants, hconstants, hview⟩ := exists_of_bind_eq_ok hview
  obtain ⟨s, hs, hview⟩ := exists_of_bind_eq_ok hview
  obtain ⟨r, hr, hview⟩ := exists_of_bind_eq_ok hview
  obtain rfl := Except.ok.inj hview
  refine ⟨constants, s, r, _, hmagic, hconstants, hfront _ hconstants, hs, hr, rfl, ?_⟩
  obtain ⟨-, hbytes, -⟩ := PoolView.parse_elsewhere p.hasAt_front hconstants
  have hinfo : ((s.lookup "BootstrapMethods").getD #[]).size + p.front.size ≤ p.encode.size := by
    cases hinfo : s.lookup "BootstrapMethods" with
    | none => simpa using p.hasAt_front.le_size
    | some info =>
      obtain ⟨a, ha, -, rfl⟩ := Attribute.exists_of_lookup hs hinfo
      have hle := Attribute.size_le_encodeTable ha
      simp [encode, tables] at hle ⊢
      omega
  simp only [PoolView.behind, Array.size_append, Array.size_replicate, hbytes]
  omega

/-- The parts of a class file can be found if the class shows its constants and its bootstrap methods by itself. -/
theorem exists_parse (hfits : p.Fits) (hshown : p.ShownBy view) (hd : p.Distinct view) :
    ∃ image, Image.parse p.encode = .ok image ∧ p.FoundBy image ∧ view.Mirrors image.pool := by
  obtain ⟨constants, s, r, filling, hmagic, hconstants, hstop, hs, hr, rfl, hsize⟩ := hshown
  obtain ⟨hparse, hbytes, hnothing, hin⟩ := PoolView.parse_elsewhere p.hasAt_front hconstants
  rw [← hbytes] at hin
  have hat : p.encode.HasAt 0 constants.bytes := hbytes ▸ p.hasAt_front
  obtain ⟨hinterfaces, hfields, hmethods, hattributes⟩ := p.hasAt_tables
  have hpool : constants.Mirrors { constants with bytes := p.encode } := PoolView.mirrors_elsewhere hin hnothing hat
  have hdistinct := hd.attributes.sections ((PoolView.mirrors_behind hin hnothing _ _).sections _ _ hs)
  obtain ⟨hnames, rfl⟩ := Attribute.sections_eq_ok.1 (hpool.sections _ _ hs)
  have hn : p.attributes.length.toUInt16.toNat = p.attributes.length := UInt16.toNat_ofNat_of_lt hfits.attributes.count
  rw [Attribute.encodeTable, Bytes.counted_eq, List.length_map] at hattributes
  obtain ⟨hcount, hitems⟩ := Bytes.hasAt_append.1 hattributes
  obtain ⟨found, hindexed, hfound⟩ := Image.exists_goes_indexAllBootstraps hnames
    hfits.attributes.lengths hdistinct hr hitems #[]
  have htables : (Image.tables { constants with bytes := p.encode }).Goes ⟨p.encode, constants.stop + 6⟩
    (p.attributesOffset, found) ⟨p.encode, p.attributesOffset + 2 +
    (Bytes.concat (p.attributes.map Attribute.encode)).size⟩ := by
    rw [show constants.stop + 6 = p.front.size + 6 by rw [hstop]]
    refine (Decoder.goes_of_reads (Outline.reads_skipInterfaces hfits.interfaces) hinterfaces).bind ?_
    refine (Decoder.goes_of_reads (MemberParts.reads_skipMembers hfits.fields) hfields).bind ?_
    refine (Decoder.goes_of_reads (MemberParts.reads_skipMembers hfits.methods) hmethods).bind ?_
    refine (Goes.position _).bind ((Decoder.goes_of_reads (Reads.u16 _) hcount).bind ?_)
    rw [hn]
    exact hindexed.map fun found => (p.attributesOffset, found)
  have hmagic' : Decoder.runAt (do
      Outline.checkMagic
      Decoder.skip 4 : Decoder Unit) p.encode 0 = .ok () :=
    (Image.mirrors_checkMagic.bind fun _ => Decoder.mirrors_skip 4).runAt (Cursor.matches_of_hasAt p.hasAt_front) hmagic
  refine ⟨⟨⟨p.encode, { constants with bytes := p.encode, bootstraps := found }, constants.stop⟩, p.attributesOffset⟩, ?_,
    ⟨rfl, rfl, hstop, rfl⟩, PoolView.behind_mirrors hin hat ?_ ?_⟩
  · unfold Image.parse
    rw [hmagic', hparse]
    change ((Image.tables _).runAt p.encode (constants.stop + 6) >>= _) = _
    rw [htables.runAt]
    rfl
  · rwa [PoolView.behind, Array.size_append] at hsize
  · generalize hinfo : (p.attributes.map _).lookup "BootstrapMethods" = info at hfound ⊢
    cases info with
    | some info => exact hfound
    | none =>
      rw [Sections.read, hinfo] at hr
      obtain rfl := Except.ok.inj hr
      intro k offset hk
      cases hk

/-- A class is read part by part if its constants are shown by themselves and it is told with them. -/
theorem contents_eq_ok {omitted : Omissions} {interest : Interest} {events : List Event} :
    p.contents omitted interest = (.ok (), events) ↔
    ∃ view, p.view = .ok view ∧ (p.narrate view omitted interest).Goes #[] () events.toArray := by
  constructor
  · intro h
    obtain ⟨hresult, rfl⟩ := Prod.mk.inj h
    rw [Array.toArray_toList]
    exact Narration.Goes.of_known (Prod.ext hresult rfl)
  · rintro ⟨view, hview, hgoes⟩
    have hgoes' : Narration.Goes (do p.narrate (← p.view) omitted interest) #[] () _ := Narration.Goes.known hview hgoes
    exact congrArg (fun r : Except Error Unit × Array Event => (r.1, r.2.toList)) hgoes'

/-- A class file is read as its parts are. -/
theorem exists_contents {omitted : Omissions} {interest : Interest} (hfits : p.Fits) (hshown : p.ShownBy view)
    (hd : p.Distinct view) (hcopies : interest.copies = none) {events : List Event}
    (h : (p.narrate view omitted interest).Goes #[] () events.toArray) :
    ∃ image, Image.parse p.encode = .ok image ∧ image.contents omitted interest = (.ok (), events) := by
  obtain ⟨image, hparse, hfound, hmirrors⟩ := exists_parse hfits hshown hd
  have hgoes := goes_narrate hfound hmirrors hfits hd hcopies h
  exact ⟨image, hparse, congrArg (fun r : Except Error Unit × Array Event => (r.1, r.2.toList)) hgoes⟩

end ClassParts

end ClassFile
