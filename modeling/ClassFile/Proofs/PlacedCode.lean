import ClassFile.Proofs.GatheredAttributes
import ClassFile.Proofs.OmittedDebug

/-!
# Code where it stands

If the code of a method can be told by itself, with its debug tables looked up by their names, then the reader of class files
tells the same of it wherever it stands (`CodeContent.goes_narrate`).
-/

namespace ClassFile

open Decoder (Goes)

/-! ## Tables of attributes -/

section Tables

variable {view view' : PoolView} {table : List Attribute} {s : Sections}

variable (h : view.Mirrors view') {b : Bytes}

include h

/-- Attributes that stand somewhere are found under their names. -/
theorem Image.exists_goes_rawAttributes (hnames : ∀ a ∈ table, view.utf8 a.name = .ok (a.titled view).1)
    (hsize : ∀ a ∈ table, a.info.size < 4294967296) {at0 : Nat}
    (hat : b.HasAt at0 (Bytes.concat (table.map Attribute.encode))) (acc : Array RawAttribute) : ∃ raws : List RawAttribute,
      (Decoder.manyFrom (rawAttribute view') table.length acc).Goes ⟨b, at0⟩ (acc ++ raws.toArray)
        ⟨b, at0 + (Bytes.concat (table.map Attribute.encode)).size⟩ ∧
          List.Forall₂ (RawAttribute.Holds · b) raws (table.map (Attribute.titled view)) := by
  induction table generalizing at0 acc with
  | nil => exact ⟨[], by simpa [Decoder.manyFrom] using Goes.pure acc ⟨b, at0⟩, .nil⟩
  | cons a table ih =>
    obtain ⟨hname, hothers⟩ := List.forall_mem_cons.1 hnames
    obtain ⟨hlength, hlengths⟩ := List.forall_mem_cons.1 hsize
    rw [List.map_cons, Bytes.concat_cons] at hat
    obtain ⟨hfirst, hrest⟩ := Bytes.hasAt_append.1 hat
    obtain ⟨raws, hgoes, hraws⟩ := ih hothers hlengths hrest (acc.push ⟨(a.titled view).1, at0 + 6, a.info.size⟩)
    have hinfo : b.HasAt (at0 + 6) a.info := (Bytes.hasAt_append.1 hfirst).2
    refine ⟨⟨(a.titled view).1, at0 + 6, a.info.size⟩ :: raws, ?_, .cons ⟨rfl, rfl, hinfo⟩ hraws⟩
    have hboth := (goes_rawAttribute (h.utf8 _ _ hname) hlength hfirst).bind
      (f := fun raw => Decoder.manyFrom (rawAttribute view') table.length (acc.push raw)) hgoes
    rw [List.map_cons, Bytes.concat_cons, Array.size_append, ← Nat.add_assoc]
    simpa [Decoder.manyFrom] using hboth

/-- The attributes of a table are found under their names. -/
theorem Image.exists_goes_attributeTable (hs : Attribute.sections view table = .ok s) (hfits : Attribute.TableFits table)
    {at0 : Nat} (hat : b.HasAt at0 (Attribute.encodeTable table)) : ∃ raws,
      (attributeTable view').Goes ⟨b, at0⟩ raws ⟨b, at0 + (Attribute.encodeTable table).size⟩ ∧
        List.Forall₂ (RawAttribute.Holds · b) raws s := by
  have hn : table.length.toUInt16.toNat = table.length := UInt16.toNat_ofNat_of_lt hfits.count
  rw [Attribute.encodeTable, Bytes.counted_eq, List.length_map] at hat ⊢
  obtain ⟨hcount, hitems⟩ := Bytes.hasAt_append.1 hat
  obtain ⟨hnames, rfl⟩ := Attribute.sections_eq_ok.1 hs
  obtain ⟨raws, hgoes, hraws⟩ := exists_goes_rawAttributes h hnames hfits.lengths hitems #[]
  refine ⟨raws, ?_, hraws⟩
  rw [Array.empty_append] at hgoes
  have hcounted : (Decoder.counted (rawAttribute view')).Goes ⟨b, at0⟩ raws.toArray _ :=
    (Decoder.goes_of_reads (Reads.u16 table.length.toUInt16) hcount).bind (hn.symm ▸ hgoes)
  rw [Array.size_append, ← Nat.add_assoc]
  exact hcounted.map Array.toList

end Tables

/-! ## Debug tables -/

namespace Code

namespace DebugTables

/-- What debug tables say is what their payloads say by themselves. -/
def Gathered (view : PoolView) (b : Bytes) (base : CodeLabels) (s : Sections) (t : DebugTables) : Prop :=
  b.Located (s.lookup "LocalVariableTable") t.localTable ∧ ∃ ranges signatures lines,
    s.read "LocalVariableTable" (Decoder.counted rangeItem) = .ok ranges ∧
    s.read "LocalVariableTypeTable" (Decoder.counted (signatureItem view)) = .ok signatures ∧
    s.read "LineNumberTable" (Decoder.counted lineItem) = .ok lines ∧
    Noted base (ranges.getD #[]).toList (signatures.getD #[]).toList (lines.getD #[]).toList t

section Gathered

variable {view view' : PoolView} (h : view.Mirrors view') {s done rest : Sections} {x : String × Bytes} {a : RawAttribute}
  {base : CodeLabels} {t t₀ : DebugTables}

/-- What is taken down of the items of a table. -/
theorem runAt_counted {α : Type} {d : DebugTables → Decoder DebugTables} {item : Decoder α}
    {note : DebugTables → α → DebugTables}
    (hd : ∀ t, d t = (do return note t (← item))) {b : Bytes} {offset : Nat} {r : Array α}
    (hr : (Decoder.counted item).runAt b offset = .ok r) (t : DebugTables) :
    (counted d t).runAt b offset = .ok (r.toList.foldl note t) := by
  rw [counted_eq hd]
  obtain ⟨_, hgoes⟩ := Goes.of_runAt hr
  rw [Array.foldl_toList]
  exact (hgoes.map fun r => r.foldl note t).runAt

include h

/-- One more debug table adds what its payload says by itself. -/
theorem Gathered.add (hs : s = done ++ x :: rest) (ht₀ : s.debugTables view base = .ok t₀)
    (hfresh : x.1 ∈ Attribute.codeNames → done.lookup x.1 = none) (ha : a.Holds view'.bytes x)
    (ht : Gathered view view'.bytes base done t) :
    ∃ t', addAttribute view' t a = .ok t' ∧ Gathered view view'.bytes base (done ++ [x]) t' := by
  obtain ⟨ranges₀, hranges₀, ht₀⟩ := exists_of_bind_eq_ok ht₀
  obtain ⟨signatures₀, hsignatures₀, ht₀⟩ := exists_of_bind_eq_ok ht₀
  obtain ⟨lines₀, hlines₀, -⟩ := exists_of_bind_eq_ok ht₀
  obtain ⟨htable, ranges, signatures, lines, hranges, hsignatures, hlines, hnoted⟩ := ht
  have hfirst : ∀ name ∈ Attribute.codeNames,
    x.1 = name → done.lookup name = none := fun name hname hx => hx ▸ hfresh (hx ▸ hname)
  have hnothing : ∀ {α : Type} {d : Decoder α} {v : Option α} {name : String}, name ∈ Attribute.codeNames → x.1 = name →
      done.read name d = .ok v → v = none := by
    intro α d v name hname hx hv
    rw [Sections.read, hfirst name hname hx] at hv
    exact (Except.ok.inj hv).symm
  have hnew : ∀ {t' : DebugTables} ranges' signatures' lines',
      (if x.1 = "LocalVariableTable" then t'.localTable = some a.start else t'.localTable = t.localTable) →
      (if x.1 = "LocalVariableTable" then some <$> (Decoder.counted rangeItem).runAt x.2 0 = .ok ranges'
      else ranges' = ranges) → (if x.1 = "LocalVariableTypeTable" then
        some <$> (Decoder.counted (signatureItem view)).runAt x.2 0 = .ok signatures'
        else signatures' = signatures) →
      (if x.1 = "LineNumberTable" then some <$> (Decoder.counted lineItem).runAt x.2 0 = .ok lines' else lines' = lines) →
      Noted base (ranges'.getD #[]).toList (signatures'.getD #[]).toList (lines'.getD #[]).toList t' →
      Gathered view view'.bytes base (done ++ [x]) t' := by
    intro t' ranges' signatures' lines' htable' hranges' hsignatures' hlines' hnoted'
    exact ⟨Sections.located_snoc ha htable (hfirst _ (by decide)) htable', ranges', signatures', lines',
      Sections.read_snoc hranges (hfirst _ (by decide)) hranges',
      Sections.read_snoc hsignatures (hfirst _ (by decide)) hsignatures',
      Sections.read_snoc hlines (hfirst _ (by decide)) hlines', hnoted'⟩
  unfold addAttribute
  simp only [ha.name, beq_iff_eq]
  by_cases h₁ : x.1 = "LocalVariableTable"
  · obtain ⟨r, hr, hr'⟩ := Sections.exists_runAt mirrors_rangeItem.counted hs (hfresh (h₁ ▸ by decide)) ha (h₁ ▸ hranges₀)
    obtain rfl := hnothing (by decide) h₁ hranges
    rw [if_pos h₁, runAt_counted markVariable_eq hr']
    refine ⟨_, rfl, hnew (some r) signatures lines ?_ ?_ ?_ ?_ ?_⟩
    · rw [if_pos h₁, localTable_foldl noteRange fun _ _ => rfl]
    · rw [if_pos h₁, hr]
      rfl
    · simp [h₁]
    · simp [h₁]
    · have hplaced : Noted base [] (signatures.getD #[]).toList (lines.getD #[]).toList
        { t with localTable := some a.start } :=
        ⟨hnoted.labels, hnoted.lines, hnoted.signatures⟩
      exact hplaced.allRanges r.toList
  by_cases h₂ : x.1 = "LocalVariableTypeTable"
  · obtain ⟨r, hr, hr'⟩ := Sections.exists_runAt (mirrors_signatureItem h).counted hs
      (hfresh (h₂ ▸ by decide)) ha (h₂ ▸ hsignatures₀)
    obtain rfl := hnothing (by decide) h₂ hsignatures
    rw [if_neg h₁, if_pos h₂, runAt_counted (addSignature_eq view') hr']
    refine ⟨_, rfl, hnew ranges (some r) lines ?_ ?_ ?_ ?_ ?_⟩
    · rw [if_neg h₁, localTable_foldl noteSignature fun _ _ => rfl]
    · simp [h₁]
    · rw [if_pos h₂, hr]
      rfl
    · simp [h₂]
    · exact hnoted.allSignatures r.toList
  by_cases h₃ : x.1 = "LineNumberTable"
  · obtain ⟨r, hr, hr'⟩ := Sections.exists_runAt mirrors_lineItem.counted hs (hfresh (h₃ ▸ by decide)) ha (h₃ ▸ hlines₀)
    obtain rfl := hnothing (by decide) h₃ hlines
    rw [if_neg h₁, if_neg h₂, if_pos h₃, runAt_counted addLine_eq hr']
    refine ⟨_, rfl, hnew ranges signatures (some r) ?_ ?_ ?_ ?_ ?_⟩
    · rw [if_neg h₁, localTable_foldl noteLine fun _ _ => rfl]
    · simp [h₁]
    · simp [h₂]
    · rw [if_pos h₃, hr]
      rfl
    · exact hnoted.allLines r.toList
  refine ⟨t, by rw [if_neg h₁, if_neg h₂, if_neg h₃], hnew ranges signatures lines ?_ ?_ ?_ ?_ hnoted⟩ <;> simp [h₁, h₂, h₃]

/-- Debug tables that have been taken down one by one say of every offset and of every local variable
what they say by themselves. -/
theorem gathered {raws : List RawAttribute} (hraws : List.Forall₂ (RawAttribute.Holds · view'.bytes) raws s)
    (hd : s.Distinct Attribute.codeNames) (ht₀ : s.debugTables view base = .ok t₀) : ∃ t,
      addAttributes view' false { labels := base } raws = .ok t ∧
        view'.bytes.Located (s.lookup "LocalVariableTable") t.localTable ∧
        t₀.labels.Alike t.labels ∧ ∀ k : UInt16 × UInt16, t₀.signatures[k]? = t.signatures[k]? := by
  obtain ⟨t, ht, htable, ranges, signatures, lines, hranges, hsignatures, hlines, hnoted⟩ :=
    Sections.exists_foldlM hraws (fun _ _ _ hs _ _ ha ht => Gathered.add h hs ht₀ (hs ▸ hd).fresh ha ht)
      (show Gathered view view'.bytes base [] { labels := base } from
        ⟨.nothing, none, none, none, rfl, rfl, rfl, noted_nothing base⟩)
  refine ⟨t, ht, htable, Noted.alike ?_ hnoted⟩
  unfold Sections.debugTables at ht₀
  rw [hranges, hsignatures, hlines] at ht₀
  obtain rfl := Except.ok.inj ht₀
  rw [← Array.foldl_toList, ← Array.foldl_toList, ← Array.foldl_toList]
  exact (((noted_nothing base).allRanges _).allSignatures _).allLines _

end Gathered

end DebugTables

end Code

/-! ## Exception handlers -/

namespace Walk

variable {α β : Type}

/-- A walk goes over a number of bytes. -/
def Advances (w : Walk α) (n : Nat) : Prop :=
  ∀ c told a c' told', w.Goes c told a c' told' → c' = c.ahead n

/-- Walks go over as many bytes as each of them does. -/
theorem Advances.bind {w : Walk α} {f : α → Walk β} {m n : Nat} (h : w.Advances m) (hf : ∀ a, (f a).Advances n) :
    (w >>= f).Advances (m + n) := by
  intro c told b c'' told'' hgoes
  obtain ⟨a, c', told', hfirst, hsecond⟩ := hgoes.of_bind
  obtain rfl := h _ _ _ _ _ hfirst
  rw [hf a _ _ _ _ _ hsecond, Cursor.ahead_ahead]

/-- A walk that reads goes over what is read. -/
theorem advances_read {d : Decoder α} {n : Nat} {P : α → Prop} (h : d.Passes n P) : (read d).Advances n :=
  fun _ _ _ _ _ hgoes => (h _ _ _ hgoes.of_read.1).1

/-- A report goes over nothing. -/
theorem advances_report (e : Event) : (report e).Advances 0 :=
  fun _ _ _ _ _ hgoes => hgoes.of_report.1.symm

end Walk

namespace Code

open Decoder

/-- Telling of exception handlers goes over eight bytes for each. -/
theorem advances_handlers (view : PoolView) (count : Nat) (ls : CodeLabels) :
    (handlers view count ls).Advances (8 * count) := by
  induction count generalizing ls with
  | zero => exact fun _ _ _ _ _ hgoes => (Walk.Goes.of_pure hgoes).2.1.symm
  | succ count ih =>
    rw [show 8 * (count + 1) = 2 + (2 + (2 + (2 + 0 + (0 + 8 * count)))) by omega]
    refine (Walk.advances_read passes_u16).bind fun start => (Walk.advances_read passes_u16).bind fun stop => ?_
    refine (Walk.advances_read passes_u16).bind fun handler => ?_
    exact (Walk.advances_read (passes_u16.bind fun i _ => passes_lift (view.typeName? i))).bind fun type =>
      (Walk.advances_report _).bind fun _ => ih _

/-- Exception handlers are told wherever their table stands. -/
theorem mirrors_handlers {view view' : PoolView} (h : view.Mirrors view') (count : Nat) (ls : CodeLabels) :
    (handlers view count ls).Mirrors (handlers view' count ls) := by
  induction count generalizing ls with
  | zero => exact Walk.mirrors_pure ls
  | succ count ih =>
    refine (Walk.mirrors_read mirrors_u16).bind fun start => (Walk.mirrors_read mirrors_u16).bind fun stop => ?_
    refine (Walk.mirrors_read mirrors_u16).bind fun handler => ?_
    refine (Walk.mirrors_read (mirrors_u16.bind fun i => mirrors_lift (h.typeName? i))).bind fun type => ?_
    exact (Walk.mirrors_report _).bind fun _ => ih _

end Code

/-! ## Code -/

section Telling

variable {view view' : PoolView} (h : view.Mirrors view')

/-- What is told of the attribute of a name by itself is told where it stands. -/
theorem Sections.goes_walkAt {s : Sections} {name : String} {skip : Bool} {w w' : Walk Unit} (hw : w.Mirrors w')
    {offset : Option Nat}
    (hat : view'.bytes.Located (if skip then none else s.lookup name) offset) {told told' : Array Event}
    (hgoes : (s.walk name w skip).Goes told () told') : (Image.walkAt view' offset w').Goes told () told' := by
  unfold Sections.walk at hgoes
  generalize (if skip then none else s.lookup name) = info at hat hgoes
  cases hat with
  | nothing => exact hgoes
  | standing hstands => exact hw.runAt (Cursor.matches_of_hasAt hstands) told () told' hgoes

namespace CodeContent

variable {omitted : Omissions} {c : CodeContent} {s : Sections} {t t' : Code.DebugTables}

/-- Each entry of an exception table takes eight bytes. -/
theorem size_ranges (c : CodeContent) : c.ranges.size = 8 * c.exceptions.length := by
  unfold ranges
  induction c.exceptions with
  | nil => rfl
  | cons r rest ih =>
    rw [List.map_cons, Bytes.concat_cons, Array.size_append, ih, List.length_cons]
    simp [ExceptionRange.encode]
    omega

include h

/-- Debug tables that are looked up by their names are found one by one. -/
theorem exists_addAttributes {raws : List RawAttribute} {labels : CodeLabels} (hd : s.Distinct Attribute.codeNames)
    (hraws : List.Forall₂ (RawAttribute.Holds · view'.bytes) raws s) (ht : debugTables view omitted.debug s labels = .ok t) :
    ∃ t', Code.DebugTables.addAttributes view' omitted.debug { labels } raws = .ok t' ∧
      view'.bytes.Located (if omitted.debug then none else s.lookup "LocalVariableTable") t'.localTable ∧
        t.labels.Alike t'.labels ∧ ∀ k : UInt16 × UInt16, t.signatures[k]? = t'.signatures[k]? := by
  unfold debugTables at ht
  cases hskip : omitted.debug with
  | true =>
    rw [hskip] at ht
    obtain rfl := Except.ok.inj ht
    exact ⟨{ labels }, rfl, .nothing, ⟨fun _ => rfl, fun _ => rfl⟩, fun _ => rfl⟩
  | false =>
    rw [hskip] at ht
    exact Code.DebugTables.gathered h hraws hd ht

/-- Behind its exception handlers, code tells of the same where it stands. -/
theorem goes_narrateRest (hlabels : t.labels.Alike t'.labels)
    (hsignatures : ∀ k : UInt16 × UInt16, t.signatures[k]? = t'.signatures[k]?)
    (hat : view'.bytes.Located (if omitted.debug then none else s.lookup "LocalVariableTable") t'.localTable) {start : Nat}
    (hcode : view'.bytes.HasAt start c.code) {told told' : Array Event} (hgoes : Narration.Goes (do
      (Code.narrateFrom view t.labels 0 c.code.size c.code.size).runAt c.code 0
      c.narrateEnd t.labels
      s.walk "LocalVariableTable" (Walk.counted (Code.variableItem view t)) omitted.debug
      Narration.report (.maxStack c.maxStack)) told () told') (cursor : Cursor) :
    (Code.narrateRest view' t' start c.code.size c.maxStack).Goes cursor told () cursor told' := by
  obtain ⟨_, told₁, hfrom, hgoes⟩ := hgoes.of_bind
  obtain ⟨_, told₂, hend, hgoes⟩ := hgoes.of_bind
  obtain ⟨_, told₃, hvariables, hgoes⟩ := hgoes.of_bind
  obtain ⟨_, hfrom⟩ := Walk.Goes.of_runAt hfrom
  obtain ⟨_, hfrom'⟩ := Code.goes_narrateFrom h hlabels (Cursor.matches_of_hasAt hcode) rfl hfrom
  have hend' : (Code.reportEnd t'.labels c.code.size).Goes cursor told₁ () cursor told₂ := by
    unfold narrateEnd at hend
    unfold Code.reportEnd
    rw [hlabels.labels] at hend
    cases hl : t'.labels.labels[(c.code.size : Int)]? with
    | none =>
      rw [hl] at hend
      exact Walk.Goes.lift hend cursor
    | some l =>
      rw [hl] at hend
      rw [Narration.Goes.of_report hend]
      exact Walk.Goes.report _ _ _
  have hvariables' : (Code.reportVariables view' t').Goes cursor told₂ () cursor told₃ := by
    have hwalk := Sections.goes_walkAt (Walk.Mirrors.counted (Code.mirrors_variableItem h hlabels hsignatures))
      hat hvariables
    unfold Code.reportVariables
    cases ht' : t'.localTable with
    | none =>
      rw [ht'] at hwalk
      exact Walk.Goes.lift hwalk cursor
    | some offset =>
      rw [ht'] at hwalk
      exact Walk.Goes.lift hwalk cursor
  unfold Code.narrateRest
  exact (Walk.Goes.lift hfrom'.runAt cursor).bind
    (hend'.bind (hvariables'.bind (Narration.Goes.of_report hgoes ▸ Walk.Goes.report _ _ _)))

/-- If the code of a method can be told by itself, it is told wherever it stands. -/
theorem goes_narrate (hfits : c.Fits)
    (hd : ∀ s, Attribute.sections view c.attributes = .ok s → s.Distinct Attribute.codeNames)
    {offset : Nat} (hat : view'.bytes.HasAt offset c.encode) {told told' : Array Event}
    (hgoes : (c.narrate view omitted).Goes told () told') :
    ((Code.narrate view' omitted).runAt view'.bytes offset).Goes told () told' := by
  have hlength : c.code.size.toUInt32.toNat = c.code.size := by
    rw [UInt32.toNat_ofNat']
    exact Nat.mod_eq_of_lt hfits.length
  have hcount : c.exceptions.length.toUInt16.toNat = c.exceptions.length := UInt16.toNat_ofNat_of_lt hfits.count
  simp only [CodeContent.encode, Bytes.counted_eq (c.exceptions.map _), List.length_map, Array.append_assoc] at hat
  obtain ⟨hstack, hat⟩ := Bytes.hasAt_append.1 hat
  obtain ⟨hlocals, hat⟩ := Bytes.hasAt_append.1 hat
  obtain ⟨hsize, hat⟩ := Bytes.hasAt_append.1 hat
  obtain ⟨hcode, hat⟩ := Bytes.hasAt_append.1 hat
  obtain ⟨hnumber, hat⟩ := Bytes.hasAt_append.1 hat
  obtain ⟨hranges, htable⟩ := Bytes.hasAt_append.1 hat
  obtain ⟨labels, hlabels, hgoes⟩ := Narration.Goes.of_known hgoes
  obtain ⟨⟨caught, cursor⟩, told₁, hhandlers, hgoes⟩ := hgoes.of_bind
  obtain ⟨s, hs, hgoes⟩ := Narration.Goes.of_known hgoes
  obtain ⟨t, ht, hgoes⟩ := hgoes.of_known
  have hmirrored := Code.mirrors_handlers h c.exceptions.length labels _ _ _ _ _ _
    (Cursor.matches_of_hasAt hranges) hhandlers
  obtain ⟨n, hn, -, hhandlers'⟩ := hmirrored
  obtain rfl : n = c.ranges.size := by
    have hposition := congrArg Cursor.position (hn.symm.trans (Code.advances_handlers view _ _ _ _ _ _ _ hhandlers))
    rw [size_ranges]
    simpa [Cursor.ahead] using hposition
  obtain ⟨raws, htable', hraws⟩ := Image.exists_goes_attributeTable h hs hfits.attributes htable
  obtain ⟨t', ht', hlocated, halike, hsignatures⟩ := exists_addAttributes h (hd s hs) hraws ht
  have hrest := goes_narrateRest h halike hsignatures hlocated hcode hgoes
  refine Walk.Goes.runAt (c := ?_) ?_
  rotate_left
  rw [Code.narrate_eq]
  refine (Walk.Goes.read (Decoder.goes_of_reads (Reads.u16 _) hstack) _).bind ?_
  refine (Walk.Goes.read (Decoder.goes_of_reads (Reads.skip (Bytes.ofUInt16 c.maxLocals)) hlocals) _).bind ?_
  refine (Walk.Goes.read (Decoder.goes_of_reads (Reads.u32 _) hsize) _).bind ?_
  rw [hlength]
  refine (Walk.Goes.read (Goes.position _) _).bind
    ((Walk.Goes.read (Decoder.goes_of_reads (Reads.skip c.code) hcode) _).bind ?_)
  refine (Walk.Goes.read (Decoder.goes_lift (Code.findLabels_of_alone hcode hlabels)) _).bind ?_
  refine (Walk.Goes.read (Decoder.goes_of_reads (Reads.u16 _) hnumber) _).bind ?_
  rw [hcount]
  refine hhandlers'.bind ((Walk.Goes.read htable' _).bind ((Walk.Goes.read (Decoder.goes_lift ht') _).bind ?_))
  exact hrest _

end CodeContent

end Telling

end ClassFile
