import ClassFile.Image.Contents
import ClassFile.Proofs.AnnotationFormat
import Mathlib.Data.Nat.Bitwise

/-!
# What the attributes of a table say

A reader finds the attributes of a table by their names, each with the place where its content stands (`RawAttribute.Says`),
and gathers what they say one after the other. The attributes of a class, a field and a method that are of one kind are
gathered in one way (`Gathers`): whatever kinds come before, each kind changes its own part of what has been gathered.
-/

namespace ClassFile

open ConstantPool

open Decoder (Goes)

/-- What is related to two lists one behind the other falls into two parts as well. -/
theorem forall₂_append_left {α β : Type} {R : α → β → Prop} {as as' : List α} {bs : List β}
    (h : List.Forall₂ R (as ++ as') bs) :
    ∃ cs cs', List.Forall₂ R as cs ∧ List.Forall₂ R as' cs' ∧ bs = cs ++ cs' := by
  have htake := List.forall₂_take as.length h
  have hdrop := List.forall₂_drop as.length h
  rw [List.take_left] at htake
  rw [List.drop_left] at hdrop
  exact ⟨_, _, htake, hdrop, (List.take_append_drop as.length bs).symm⟩

/-! ## Narrations -/

/-- A narration reports events. -/
def Narration.Tells {α : Type} (n : Narration α) (events : List Event) (a : α) : Prop :=
  ∀ before : Array Event, n.run.run before = (.ok a, before ++ events.toArray)

namespace Narration.Tells

variable {α β : Type} {n : Narration α} {a : α} {b : β} {events events' : List Event}

/-- A result by itself tells of nothing. -/
theorem pure (a : α) : Narration.Tells (Pure.pure a) [] a :=
  fun _ => congrArg (Except.ok a, ·) Array.append_empty.symm

/-- A report tells of what it reports. -/
theorem report (e : Event) : (Narration.report e).Tells [e] () :=
  fun before => congrArg (Except.ok (), ·) (by simp)

/-- A narration and then another tell of what the one tells and then of what the other tells. -/
theorem bind {f : α → Narration β} {all : List Event} (h : n.Tells events a) (hf : (f a).Tells events' b)
    (he : events ++ events' = all) : (n >>= f).Tells all b := by
  subst he
  intro before
  change (match n.run.run before with
    | (r, s) => (ExceptT.bindCont f r : StateM (Array Event) _).run s) = _
  rw [h before]
  refine (hf (before ++ events.toArray)).trans ?_
  simp

/-- A value that is known, and then a narration. -/
theorem known {x : Except Error α} {f : α → Narration β} (h : x = .ok a) (hf : (f a).Tells events b) :
    Narration.Tells ((x : Narration α) >>= f) events b := by
  subst h
  exact hf

/-- A narration as part of a walk. -/
theorem lift (h : n.Tells events a) (c : Cursor) : Walk.Tells (n : Walk α) c events a c := by
  intro before
  change (match n.run.run before with
    | (r, s) => (ExceptT.bindCont (fun a => Pure.pure (a, c)) r : StateM (Array Event) _).run s) = _
  rw [h before]
  rfl

end Narration.Tells

/-- A walk that starts at an offset of its own is a narration. -/
theorem Walk.Tells.runAt {w : Walk Unit} {bytes : Bytes} {offset : Nat} {events : List Event} {c : Cursor}
    (h : w.Tells ⟨bytes, offset⟩ events () c) : (w.runAt bytes offset).Tells events () :=
  Narration.Tells.bind (n := w.run ⟨bytes, offset⟩) (a := ((), c)) h (Narration.Tells.pure ()) (List.append_nil events)

/-- Pieces that are told one after the other behind their number, if that fits in two bytes. -/
theorem Walk.Tells.counted_forall₂ {w : Walk Unit} {b : Bytes} {codes : List Bytes} {events : List (List Event)}
    (h : List.Forall₂ (fun code es => ∀ at0, b.HasAt at0 code → w.Tells ⟨b, at0⟩ es () ⟨b, at0 + code.size⟩) codes events)
    (hl : codes.length < 65536) {at0 : Nat} (hat : b.HasAt at0 (Bytes.counted codes)) :
    (Walk.counted w).Tells ⟨b, at0⟩ events.flatten () ⟨b, at0 + (Bytes.counted codes).size⟩ := by
  rw [Bytes.counted_eq] at hat ⊢
  obtain ⟨hcount, hcodes⟩ := Bytes.hasAt_append.1 hat
  rw [Array.size_append, ← Nat.add_assoc]
  refine Walk.Tells.counted hl hcount ?_
  change b.HasAt (at0 + 2) _ at hcodes
  change Walk.Tells _ _ _ _ ⟨b, at0 + 2 + _⟩
  generalize at0 + 2 = start at hcodes
  clear hcount hat hl
  induction h generalizing start with
  | nil => exact Walk.Tells.pure ()
  | @cons code es codes rest hcode _ ih =>
    rw [Bytes.concat_cons] at hcodes
    obtain ⟨hfirst, hothers⟩ := Bytes.hasAt_append.1 hcodes
    rw [Bytes.concat_cons, Array.size_append, ← Nat.add_assoc]
    exact (hcode start hfirst).bind (ih _ hothers) rfl

/-! ## Views -/

/-- A view shows all of a pool whose constants can be read. -/
structure PoolView.Reveals (view : PoolView) (pool : ConstantPool) : Prop extends view.Shows pool where
  built : pool.Built
  fits : pool.Fits
  arguments : ∀ b ∈ pool.bootstraps, b.arguments.length < 65536

/-! ## Attributes that are known -/

/-- Writing an attribute only asks the pool for constants. -/
theorem interns_attribute (content : AttributeContent) : Interns (ConstantPool.attribute content) :=
  (Interns.intern (.utf8 content.name)).bind fun _ => .pure _

/-- Writing a list of attributes only asks the pool for constants. -/
theorem interns_internAttributes (contents : List AttributeContent) : Interns (internAttributes contents) := by
  induction contents with
  | nil => exact .pure []
  | cons content rest ih => exact (interns_attribute content).bind fun a => ih.bind fun as => .pure (a :: as)

/-! ## Attributes where a reader finds them -/

/-- A reader finds an attribute with a content, under its name. -/
structure RawAttribute.Says (b : Bytes) (content : AttributeContent) (a : RawAttribute) : Prop where
  name : a.name = content.name
  stands : b.HasAt a.start content.encode
  length : a.length = content.encode.size

/-- Attributes that stand one behind the other in the bytes are found with their contents. -/
theorem Image.says_located {b : Bytes} {pool : ConstantPool} {contents : List AttributeContent} {as : List Attribute}
    (h : List.Forall₂ (Attribute.Says pool) contents as) {start : Nat}
    (hat : b.HasAt start (Bytes.concat (as.map Attribute.encode))) :
    List.Forall₂ (RawAttribute.Says b) contents (Image.located start contents as) := by
  induction h generalizing start with
  | nil => exact .nil
  | @cons content a contents as ha _ ih =>
    rw [List.map_cons, Bytes.concat_cons] at hat
    obtain ⟨hfirst, hrest⟩ := Bytes.hasAt_append.1 hat
    refine .cons ⟨rfl, ?_, congrArg Array.size ha.2⟩ (ih hrest)
    rw [Attribute.encode, ha.2] at hfirst
    exact (Bytes.hasAt_append.1 hfirst).2

/-- A reader finds all attributes of a table. -/
theorem Image.exists_attributeTable {view : PoolView} {b : Bytes} {pool : ConstantPool} (hs : view.ShowsEntries pool)
    {contents : List AttributeContent} {as : List Attribute} (h : List.Forall₂ (Attribute.Says pool) contents as)
    (hl : contents.length < 65536) (hsize : (Attribute.encodeTable as).size < 4294967296) {at0 : Nat}
    (hat : b.HasAt at0 (Attribute.encodeTable as)) :
    ∃ found, (attributeTable view).Goes ⟨b, at0⟩ found ⟨b, at0 + (Attribute.encodeTable as).size⟩ ∧
      List.Forall₂ (RawAttribute.Says b) contents found := by
  have hinfos : ∀ a ∈ as, a.info.size < 4294967296 := fun a ha => Nat.lt_of_le_of_lt (Attribute.size_le_encodeTable ha) hsize
  have hpieces : b.HasAt (at0 + 2) (Bytes.concat (as.map Attribute.encode)) := by
    rw [Attribute.encodeTable, Bytes.counted_eq] at hat
    exact (Bytes.hasAt_append.1 hat).2
  exact ⟨_, goes_attributeTable (fun _ _ => hs.utf8) h (h.length_eq ▸ hl) hinfos hat, says_located h hpieces⟩

/-! ## Flags and markers -/

namespace AccessFlags

variable (access : UInt32)

/-- Of bits that are joined, those of a mask are the mask's bits of each. -/
theorem and_or_distrib_left (a b c : UInt32) : a &&& (b ||| c) = a &&& b ||| a &&& c := by
  apply UInt32.toNat_inj.1
  simp only [UInt32.toNat_and, UInt32.toNat_or]
  exact Nat.and_or_distrib_left _ _ _

/-- A single flag is set as a whole or not at all. -/
theorem and_flag {flag : UInt32} {k : Nat} (hflag : flag.toNat = 2 ^ k) :
    access &&& flag = if access &&& flag != 0 then flag else 0 := by
  cases hset : access.toNat.testBit k with
  | false =>
    have hzero : access &&& flag = 0 := by
      apply UInt32.toNat_inj.1
      rw [UInt32.toNat_and, hflag, Nat.and_two_pow, hset]
      simp
    rw [hzero]
    rfl
  | true =>
    have hwhole : access &&& flag = flag := by
      apply UInt32.toNat_inj.1
      rw [UInt32.toNat_and, hflag, Nat.and_two_pow, hset]
      simp
    have hne : flag ≠ 0 := by
      rintro rfl
      exact absurd hflag.symm (Nat.two_pow_pos k).ne'
    rw [hwhole, if_pos (bne_iff_ne.2 hne)]

/-- Sixteen bits are not changed by being written. -/
theorem toUInt32_toUInt16 : (access &&& 0xFFFF).toUInt16.toUInt32 = access &&& 0xFFFF := by
  have hlow : access.toNat &&& 65535 = access.toNat % 65536 := Nat.and_two_pow_sub_one_eq_mod access.toNat 16
  apply UInt32.toNat_inj.1
  simp only [UInt16.toNat_toUInt32, UInt32.toNat_toUInt16, UInt32.toNat_and]
  change (access.toNat &&& 65535) % 65536 = access.toNat &&& 65535
  rw [hlow]
  exact Nat.mod_mod _ _

/-- Whether there is a marker for synthetic members depends on the lower sixteen flags. -/
theorem hasSyntheticMarker_low (major : UInt16) :
    hasSyntheticMarker (access &&& 0xFFFF) major = hasSyntheticMarker access major := by
  unfold hasSyntheticMarker
  rw [UInt32.and_assoc]
  rfl

/-- The flags that stand in the class file and those that stand for the markers are all flags together. -/
theorem inClassFile_or_markers (major : UInt16) : (inClassFile access major).toUInt32 ||| CommonAttributes.accessBits
    { deprecated := isDeprecated access, synthetic := hasSyntheticMarker access major } = access &&& 0x2FFFF := by
  have hdeprecated : (if isDeprecated access then deprecated else 0) = access &&& 0x20000 :=
    (and_flag access (k := 17) rfl).symm
  unfold CommonAttributes.accessBits inClassFile
  dsimp only
  rw [hdeprecated, hasSyntheticMarker_low]
  cases hmarker : hasSyntheticMarker access major with
  | false =>
    change (access &&& 0xFFFF).toUInt16.toUInt32 ||| (access &&& 0x20000 ||| 0) = _
    rw [toUInt32_toUInt16, UInt32.or_zero, ← and_or_distrib_left]
    rfl
  | true =>
    have hset : access &&& 0x1000 = 0x1000 :=
      (and_flag access (k := 12) rfl).trans (if_pos (Bool.and_eq_true_iff.1 hmarker).1)
    have hlow : (access &&& 0xFFFF &&& ~~~synthetic).toUInt16.toUInt32 = access &&& 0xFFFF &&& ~~~synthetic := by
      rw [UInt32.and_assoc, UInt32.and_comm 0xFFFF, ← UInt32.and_assoc]
      exact toUInt32_toUInt16 _
    change (access &&& 0xFFFF &&& ~~~synthetic).toUInt16.toUInt32 ||| (access &&& 0x20000 ||| 0x1000) = _
    rw [hlow, ← hset, UInt32.and_assoc, ← and_or_distrib_left, ← and_or_distrib_left]
    rfl

end AccessFlags

/-- Flags that their owner knows are read as they were. -/
theorem FlagOwner.truncate_inClassFile (owner : FlagOwner) {access : UInt32} (h : owner.truncate access = access)
    (major : UInt16) :
    owner.truncate ((AccessFlags.inClassFile access major).toUInt32 ||| CommonAttributes.accessBits
      { deprecated := AccessFlags.isDeprecated access, synthetic := AccessFlags.hasSyntheticMarker access major }) =
      access := by
  have hmask : 0x2FFFF &&& owner.mask = owner.mask := by cases owner <;> rfl
  rw [AccessFlags.inClassFile_or_markers, FlagOwner.truncate, UInt32.and_assoc, hmask]
  exact h

/-! ## Gathering -/

/-- Where annotations are found: nowhere if there are none. -/
def AnnotationList.FoundAt (list : AnnotationList) (b : Bytes) (found : Option Nat) : Prop :=
  match found with
  | some offset => b.HasAt offset list.encode
  | none => list.isEmpty = true

section Common

variable {view : PoolView} {c : CommonAttributes} {a : RawAttribute}

/-- A signature is gathered from its attribute. -/
theorem CommonAttributes.add_signature {i : PoolIndex} {text : String} (htext : view.utf8 i = .ok text)
    (h : a.Says view.bytes (.signature i)) : c.add view a = .ok (some { c with signature := some text }) := by
  have hread : (do view.utf8 (← Decoder.u16) : Decoder String).runAt view.bytes a.start = .ok text :=
    ((Reads.u16 i).bindEmpty (Reads.lift htext)).runAt h.stands
  unfold add
  rw [h.name, hread]
  rfl

/-- The marker of deprecated members is gathered. -/
theorem CommonAttributes.add_deprecated (h : a.Says view.bytes .deprecated) :
    c.add view a = .ok (some { c with deprecated := true }) := by
  unfold add
  rw [h.name]
  rfl

/-- The marker of synthetic members is gathered. -/
theorem CommonAttributes.add_synthetic (h : a.Says view.bytes .synthetic) :
    c.add view a = .ok (some { c with synthetic := true }) := by
  unfold add
  rw [h.name]
  rfl

theorem CommonAttributes.add_annotations {list : AnnotationList} (h : a.Says view.bytes (.visibleAnnotations list)) :
    c.add view a = .ok (some { c with annotations := some a.start }) := by
  unfold add
  rw [h.name]
  rfl

/-- An attribute of any other name is left to those who know it. -/
theorem CommonAttributes.add_other (h : a.name ∉ ["Signature", "Deprecated", "Synthetic", "RuntimeVisibleAnnotations"]) :
    c.add view a = .ok none := by
  simp only [List.mem_cons, List.not_mem_nil, or_false, not_or] at h
  unfold add
  simp [h]

end Common

/-- An attribute that is there if there is reason for it. -/
theorem forall₂_singleton {α β : Type} {R : α → β → Prop} {a : α} {bs : List β} (h : List.Forall₂ R [a] bs) :
    ∃ b, R a b ∧ bs = [b] := by
  obtain ⟨b, rest, hb, hrest, rfl⟩ := List.forall₂_cons_left_iff.1 h
  obtain rfl := List.forall₂_nil_left_iff.1 hrest
  exact ⟨b, hb, rfl⟩

/-- Strings that there may be are read. -/
theorem PoolView.ShowsEntries.texts {view : PoolView} {pool : ConstantPool} (hs : view.ShowsEntries pool)
    {i : Option PoolIndex} {text : Option String} (h : Option.Rel (fun text i => pool.HoldsText i text) text i) :
    Option.Rel (fun text i => view.utf8 i = .ok text) text i := by
  cases h with
  | none => exact .none
  | some h => exact .some (hs.utf8 h)

section Folding

variable {σ α : Type} {add : σ → α → Except Error σ} {s s' s'' : σ} {as bs : List α}

/-- One attribute is gathered in one step. -/
theorem foldlM_singleton {a : α} (h : add s a = .ok s') : [a].foldlM add s = .ok s' := by
  rw [List.foldlM_cons, h]
  rfl

/-- Attributes that stand behind others are gathered after them. -/
theorem foldlM_append (h : as.foldlM add s = .ok s') (h' : bs.foldlM add s' = .ok s'') :
    (as ++ bs).foldlM add s = .ok s'' := by
  rw [List.foldlM_append, h]
  exact h'

end Folding

section Pieces

variable {σ : Type} {b : Bytes} {add : σ → RawAttribute → Except Error σ} {as : List RawAttribute}

/-- An attribute that there may be changes one part of what is gathered. -/
theorem foldlM_option {α β : Type} {R : α → β → Prop} {value : Option α} {found : Option β} (h : Option.Rel R value found)
    {content : β → AttributeContent} (has : List.Forall₂ (RawAttribute.Says b) (found.map content).toList as) {s : σ}
    (set : Option α → σ) (hs : s = set none)
    (hset : ∀ {x : α} {y : β} {a : RawAttribute}, R x y → a.Says b (content y) → add s a = .ok (set (some x))) :
    as.foldlM add s = .ok (set value) := by
  cases h with
  | none =>
    obtain rfl := List.forall₂_nil_left_iff.1 has
    exact congrArg Except.ok hs
  | some h =>
    obtain ⟨a, ha, rfl⟩ := forall₂_singleton has
    exact foldlM_singleton (hset h ha)

/-- A marker that there may be changes one part of what is gathered. -/
theorem foldlM_marker {marked : Bool} {content : AttributeContent}
    (has : List.Forall₂ (RawAttribute.Says b) (if marked then [content] else []) as) {s : σ}
    (set : Bool → σ) (hs : s = set false)
    (hset : ∀ {a : RawAttribute}, a.Says b content → add s a = .ok (set true)) : as.foldlM add s = .ok (set marked) := by
  cases marked with
  | false =>
    obtain rfl := List.forall₂_nil_left_iff.1 has
    exact congrArg Except.ok hs
  | true =>
    obtain ⟨a, ha, rfl⟩ := forall₂_singleton has
    exact foldlM_singleton (hset ha)

end Pieces

/-- How the attributes that all owners can have are gathered among those of one owner. -/
structure Gathers {σ : Type} (view : PoolView) (add : σ → RawAttribute → Except Error σ) (common : σ → CommonAttributes)
    (update : σ → CommonAttributes → σ) : Prop where
  add : ∀ {s : σ} {a : RawAttribute} {c : CommonAttributes},
    (common s).add view a = .ok (some c) → add s a = .ok (update s c)
  same : ∀ s, update s (common s) = s

namespace Gathers

variable {σ : Type} {view : PoolView} {add : σ → RawAttribute → Except Error σ} {common : σ → CommonAttributes}
  {update : σ → CommonAttributes → σ} {as : List RawAttribute} {s : σ}

/-- A signature that there may be is gathered as the text that it names. -/
theorem signature (h : Gathers view add common update) {i : Option PoolIndex} {text : Option String}
    (htext : Option.Rel (fun text i => view.utf8 i = .ok text) text i)
    (has : List.Forall₂ (RawAttribute.Says view.bytes) (i.map AttributeContent.signature).toList as)
    (hs : (common s).signature = none) : as.foldlM add s = .ok (update s { common s with signature := text }) :=
  foldlM_option htext has (fun text => update s { common s with signature := text }) (by rw [← hs]; exact (h.same s).symm)
    fun htext ha => h.add (CommonAttributes.add_signature htext ha)

/-- The marker of synthetic members is gathered where the flags ask for it. -/
theorem synthetic (h : Gathers view add common update) {access : UInt32} {major : UInt16}
    (has : List.Forall₂ (RawAttribute.Says view.bytes) (syntheticMarker access major) as)
    (hs : (common s).synthetic = false) :
    as.foldlM add s = .ok (update s { common s with synthetic := AccessFlags.hasSyntheticMarker access major }) :=
  foldlM_marker has (fun marked => update s { common s with synthetic := marked }) (by rw [← hs]; exact (h.same s).symm)
    fun ha => h.add (CommonAttributes.add_synthetic ha)

/-- The marker of deprecated members is gathered where the flags ask for it. -/
theorem deprecated (h : Gathers view add common update) {access : UInt32}
    (has : List.Forall₂ (RawAttribute.Says view.bytes) (deprecatedMarker access) as) (hs : (common s).deprecated = false) :
    as.foldlM add s = .ok (update s { common s with deprecated := AccessFlags.isDeprecated access }) :=
  foldlM_marker has (fun marked => update s { common s with deprecated := marked }) (by rw [← hs]; exact (h.same s).symm)
    fun ha => h.add (CommonAttributes.add_deprecated ha)

/-- The offset of annotations, if there are any. -/
theorem annotations (h : Gathers view add common update) {list : AnnotationList}
    (has : List.Forall₂ (RawAttribute.Says view.bytes) (annotationsContent list) as) (hs : (common s).annotations = none) :
    ∃ found : Option Nat, as.foldlM add s = .ok (update s { common s with annotations := found }) ∧
      list.FoundAt view.bytes found := by
  unfold annotationsContent at has
  split at has
  · rename_i hempty
    obtain rfl := List.forall₂_nil_left_iff.1 has
    refine ⟨none, ?_, hempty⟩
    rw [← hs]
    exact congrArg Except.ok (h.same s).symm
  · obtain ⟨a, ha, rfl⟩ := forall₂_singleton has
    exact ⟨some a.start, foldlM_singleton (h.add (CommonAttributes.add_annotations ha)), ha.stands⟩

end Gathers

/-! ## Reading -/

section Reading

variable {view : PoolView} {pool : ConstantPool} {copies : Option SourceId}

/-- No annotations tell of nothing. -/
theorem Annotations.events_nil {n : Nat} {events : List Event} {bytes : Bytes} (h : Annotations pool n events bytes)
    (hn : n = 0) :
    events = [] := by
  cases h with
  | none => rfl
  | push => cases hn

/-- Annotations are read where they are found. -/
theorem AnnotationList.Stands.tells_at (hs : view.Reveals pool) {list : AnnotationList} {events : List Event}
    (h : list.Stands pool events) {found : Option Nat} (hfound : list.FoundAt view.bytes found) :
    (Image.walkAt view found (Walk.annotationList view { copies })).Tells events () := by
  cases found with
  | none =>
    have hcount : list.count.toNat = 0 := UInt16.toNat_inj.2 (beq_iff_eq.1 hfound)
    obtain rfl := h.events_nil hcount
    exact Narration.Tells.pure ()
  | some offset =>
    exact Walk.Tells.runAt (h.tells hs.toShowsEntries hs.built hs.fits rfl rfl rfl hfound)

/-- A name that is known is read. -/
theorem PoolView.Reveals.readsText (hs : view.Reveals pool) {i : PoolIndex} {text : String}
    (h : pool.Knows (ConstantPool.utf8 text) i) :
    Reads (do view.utf8 (← Decoder.u16) : Decoder String) (Bytes.ofUInt16 i) text :=
  (Reads.u16 i).bindEmpty (Reads.lift (hs.utf8 (h.holdsText hs.built hs.fits)))

/-- The flags, the name and the descriptor of a member, and what is told behind them. -/
theorem Walk.Tells.memberHead (hs : view.Reveals pool) {access : UInt16} {i j : PoolIndex} {name descriptor : String}
    (hi : pool.Knows (utf8 name) i) (hj : pool.Knows (utf8 descriptor) j) {b : Bytes} {at0 : Nat}
    (hat : b.HasAt at0 (Bytes.ofUInt16 access ++ Bytes.ofUInt16 i ++ Bytes.ofUInt16 j))
    {f : UInt16 → String → String → Walk Unit}
    {events : List Event} {c : Cursor} (hf : (f access name descriptor).Tells ⟨b, at0 + 6⟩ events () c) :
    Walk.Tells (do
      let access ← Walk.read Decoder.u16
      let name ← Walk.read do view.utf8 (← Decoder.u16)
      let descriptor ← Walk.read do view.utf8 (← Decoder.u16)
      f access name descriptor) ⟨b, at0⟩ events () c := by
  obtain ⟨hfront, hdescriptor⟩ := Bytes.hasAt_append.1 hat
  obtain ⟨haccess, hname⟩ := Bytes.hasAt_append.1 hfront
  refine Walk.Tells.after (Decoder.goes_of_reads (Reads.u16 access) haccess) ?_
  refine Walk.Tells.after (Decoder.goes_of_reads (hs.readsText hi) hname) ?_
  exact Walk.Tells.after (Decoder.goes_of_reads (hs.readsText hj) hdescriptor) hf

end Reading

end ClassFile
