import ClassFile.Proofs.FoundParts

/-!
# Attributes in another order and further attributes

A class is revised if attributes of its tables change their places, or if attributes come in that are not known by their
names (`ClassParts.Revised`). Read part by part, a revised class is what it was, since a name that is known is looked up as
before (`Sections.Agree`), and the same is told of it (`ClassParts.Revised.mirrors`).
-/

namespace ClassFile

open Decoder (Goes)

/-! ## Tables -/

/-- Each item of the second of two related lists goes with one of the first. -/
theorem exists_of_forall₂ {α β : Type} {R : α → β → Prop} {xs : List α} {ys : List β} (h : List.Forall₂ R xs ys) {y : β}
    (hy : y ∈ ys) :
    ∃ x ∈ xs, R x y := by
  induction h with
  | nil => exact absurd hy List.not_mem_nil
  | @cons x _ _ _ hxy _ ih =>
    rcases List.mem_cons.1 hy with rfl | hy
    · exact ⟨x, List.mem_cons_self, hxy⟩
    · obtain ⟨x, hx, hxy⟩ := ih hy
      exact ⟨x, List.mem_cons_of_mem _ hx, hxy⟩

namespace Attribute

/-- A table of attributes in any order and with further attributes, none of which has a known name. -/
def Revised (view : PoolView) (known : List String) (table table' : List Attribute) : Prop :=
  ∃ extra : List Attribute, (∀ a ∈ extra, ∃ name, view.utf8 a.name = .ok name ∧ name ∉ known) ∧ table'.Perm (extra ++ table)

variable {view : PoolView} {known : List String} {table table' : List Attribute}

/-- A table in another order is a revised one. -/
theorem revised_of_perm (h : table'.Perm table) : Revised view known table table' :=
  ⟨[], fun _ ha => absurd ha List.not_mem_nil, h⟩

/-- A table with an unknown attribute more is a revised one. -/
theorem revised_insert {a : Attribute} {name : String} (hlooked : view.utf8 a.name = .ok name) (hnew : name ∉ known)
    (before after : List Attribute) : Revised view known (before ++ after) (before ++ a :: after) :=
  ⟨[a], fun _ ha => List.mem_singleton.1 ha ▸ ⟨name, hlooked, hnew⟩, List.perm_middle⟩

namespace Revised

/-- In a revised table no known name stands twice if none did before. -/
theorem distinct (h : Revised view known table table') (hd : Distinct view known table) : Distinct view known table' := by
  obtain ⟨extra, hextra, hperm⟩ := h
  refine (hperm.pairwise_iff fun {a a'} hne name hname ha' ha => hne name hname ha ha').2 ?_
  have hnew : ∀ a ∈ extra, ∀ a' : Attribute, ∀ name ∈ known, view.utf8 a.name = .ok name → view.utf8 a'.name ≠ .ok name := by
    intro a ha a' name hname hlooked
    obtain ⟨name', hlooked', hnew⟩ := hextra a ha
    obtain rfl := Except.ok.inj (hlooked.symm.trans hlooked')
    exact absurd hname hnew
  exact List.pairwise_append.2 ⟨List.pairwise_of_forall_mem_list fun a ha a' _ => hnew a ha a',
    hd, fun a ha a' _ => hnew a ha a'⟩

/-- What is revised for one view is so for any that names the same. -/
theorem imp {view' : PoolView} (h : Revised view known table table') (hview : ∀ i, Confirms (view.utf8 i) (view'.utf8 i)) :
    Revised view' known table table' := by
  obtain ⟨extra, hextra, hperm⟩ := h
  refine ⟨extra, fun a ha => ?_, hperm⟩
  obtain ⟨name, hlooked, hnew⟩ := hextra a ha
  exact ⟨name, hview _ _ hlooked, hnew⟩

/-- All names of a revised table can be looked up. -/
theorem exists_sections (h : Revised view known table table') {s : Sections} (hs : sections view table = .ok s) :
    ∃ s', sections view table' = .ok s' := by
  obtain ⟨extra, hextra, hperm⟩ := h
  obtain ⟨hnames, -⟩ := sections_eq_ok.1 hs
  refine ⟨_, sections_eq_ok.2 ⟨fun a ha => ?_, rfl⟩⟩
  rcases List.mem_append.1 (hperm.subset ha) with ha | ha
  · obtain ⟨name, hlooked, -⟩ := hextra a ha
    rw [titled_eq hlooked]
    exact hlooked
  · exact hnames a ha

end Revised

end Attribute

/-! ## Sections -/

namespace Sections

variable {s s' : Sections} {known names : List String} {name : String}

/-- Attributes of known names are found as they are found elsewhere. -/
def Agree (known : List String) (s s' : Sections) : Prop :=
  ∀ name ∈ known, s'.lookup name = s.lookup name

/-- What is found under a known name is all that stands under it. -/
theorem Distinct.lookup_eq_some (h : s.Distinct known) (hname : name ∈ known) {info : Bytes} :
    s.lookup name = some info ↔ (name, info) ∈ s := by
  refine ⟨fun hinfo => ?_, fun hmem => ?_⟩
  · obtain ⟨before, after, rfl, -⟩ := List.lookup_eq_some_iff.1 hinfo
    exact List.mem_append_right before List.mem_cons_self
  · obtain ⟨before, after, rfl⟩ := List.append_of_mem hmem
    rw [List.lookup_append, h.fresh hname, Option.none_or, List.lookup_cons, BEq.rfl]

namespace Agree

variable (h : s.Agree known s')

include h

/-- Attributes of some names are found as they are found elsewhere if more of them are. -/
theorem mono (hnames : names ⊆ known) : s.Agree names s' :=
  fun name hname => h name (hnames hname)

/-- What is read of an attribute that is found alike is the same. -/
theorem read {α : Type} (hname : name ∈ known) (d : Decoder α) : s'.read name d = s.read name d := by
  rw [Sections.read, Sections.read, h name hname]

/-- What is told of an attribute that is found alike is the same. -/
theorem walk (hname : name ∈ known) (w : Walk Unit) (skip : Bool) : s'.walk name w skip = s.walk name w skip := by
  rw [Sections.walk, Sections.walk, h name hname]

end Agree

open Attribute (commonNames fieldNames classNames codeNames)

variable {view : PoolView}

/-- What a class has in common with members is found alike. -/
theorem Agree.common (h : s.Agree commonNames s') : s'.common view = s.common view := by
  unfold Sections.common
  rw [h.read (by decide), h _ (by decide), h _ (by decide)]

/-- What the attributes of a class say is found alike. -/
theorem Agree.classAttributes (h : s.Agree classNames s') : s'.classAttributes view = s.classAttributes view := by
  unfold Sections.classAttributes
  rw [(h.mono (List.subset_append_left _ _)).common, h.read (by decide), h _ (by decide),
    h.read (by decide), h.read (by decide), h.read (by decide)]

/-- What the attributes of a field say is found alike. -/
theorem Agree.fieldAttributes (h : s.Agree fieldNames s') : s'.fieldAttributes view = s.fieldAttributes view := by
  unfold Sections.fieldAttributes
  rw [(h.mono (List.subset_append_left _ _)).common, h.read (by decide)]

/-- What the attributes of a method say is found alike. -/
theorem Agree.methodAttributes (h : s.Agree (commonNames ++ ["Exceptions"]) s') :
    s'.methodAttributes view = s.methodAttributes view := by
  unfold Sections.methodAttributes
  rw [(h.mono (List.subset_append_left _ _)).common, h.read (by decide)]

/-- What the debug tables say is found alike. -/
theorem Agree.debugTables (h : s.Agree codeNames s') (labels : CodeLabels) :
    s'.debugTables view labels = s.debugTables view labels := by
  unfold Sections.debugTables
  rw [h.read (by decide), h.read (by decide), h.read (by decide)]

end Sections

/-- Of every known name, the attributes of a revised table say the same. -/
theorem Attribute.Revised.agree {view : PoolView} {known : List String} {table table' : List Attribute}
    (h : Attribute.Revised view known table table') (hd : Attribute.Distinct view known table) {s s' : Sections}
    (hs : Attribute.sections view table = .ok s) (hs' : Attribute.sections view table' = .ok s') : s.Agree known s' := by
  intro name hname
  refine Option.ext fun info => ?_
  rw [((h.distinct hd).sections hs').lookup_eq_some hname, (hd.sections hs).lookup_eq_some hname]
  obtain ⟨extra, hextra, hperm⟩ := h
  obtain ⟨-, rfl⟩ := Attribute.sections_eq_ok.1 hs
  obtain ⟨-, rfl⟩ := Attribute.sections_eq_ok.1 hs'
  rw [(hperm.map _).mem_iff, List.map_append, List.mem_append, or_iff_right]
  intro hmem
  obtain ⟨a, ha, heq⟩ := List.mem_map.1 hmem
  obtain ⟨name', hlooked, hnew⟩ := hextra a ha
  rw [Attribute.titled_eq hlooked] at heq
  obtain ⟨rfl, -⟩ := Prod.mk.inj heq
  exact hnew hname

/-- Where what is told behind an announcement can be told, the announcement tells the same. -/
theorem Narration.mirrors_announce {e : Event} {wish : Wish} {x x' : Narration Unit} (h : x.Mirrors x') :
    (announce e wish x).Mirrors (announce e wish x') := by
  intro told _ told' hgoes
  have htold : Goes (if wish.grants (told.push e) then x else pure ()) (told.push e) () told' := hgoes
  have htold' : Goes (if wish.grants (told.push e) then x' else pure ()) (told.push e) () told' := by
    split at htold
    · rw [if_pos ‹_›]
      exact h _ _ _ htold
    · rw [if_neg ‹_›]
      exact htold
  exact htold'

/-! ## Code -/

/-- The code of a method with a revised table of attributes. What stands behind the code stays. -/
def CodeContent.Revised (view : PoolView) (info info' : Bytes) : Prop :=
  ∃ (c : CodeContent) (attributes : List Attribute) (rest : Bytes), c.Fits ∧ Attribute.TableFits attributes ∧
    Attribute.Revised view Attribute.codeNames c.attributes attributes ∧ info = c.encode ++ rest ∧
      info' = { c with attributes }.encode ++ rest

namespace CodeContent

variable {view : PoolView} {info info' : Bytes}

/-- Code that fits is read as it was written, whatever stands behind it. -/
theorem runAt_decode {c : CodeContent} (h : c.Fits) (rest : Bytes) : decode.runAt (c.encode ++ rest) 0 = .ok c :=
  (reads_decode h).runAt (Bytes.hasAt_append.1 (Bytes.hasAt_self _)).1

/-- Revised code is taken apart into the same parts, but for its attributes. -/
theorem Revised.exists_decode (h : Revised view info info') : ∃ (c : CodeContent) (attributes : List Attribute),
    decode.runAt info 0 = .ok c ∧ decode.runAt info' 0 = .ok { c with attributes } ∧
      Attribute.Revised view Attribute.codeNames c.attributes attributes := by
  obtain ⟨c, attributes, rest, hfits, htable, hrevised, rfl, rfl⟩ := h
  exact ⟨c, attributes, runAt_decode hfits rest,
    runAt_decode (c := { c with attributes }) ⟨hfits.length, hfits.count, hfits.types, htable⟩ rest, hrevised⟩

/-- Of revised code the same is told. -/
theorem mirrors_narrate (omitted : Omissions) {c : CodeContent} {attributes : List Attribute}
    (h : Attribute.Revised view Attribute.codeNames c.attributes attributes)
    (hd : Attribute.Distinct view Attribute.codeNames c.attributes) :
    (c.narrate view omitted).Mirrors ({ c with attributes }.narrate view omitted) := by
  intro told _ told' hgoes
  obtain ⟨labels, hlabels, hgoes⟩ := Narration.Goes.of_known hgoes
  obtain ⟨⟨caught, cursor⟩, told₁, hhandlers, hgoes⟩ := hgoes.of_bind
  obtain ⟨s, hs, hgoes⟩ := Narration.Goes.of_known hgoes
  obtain ⟨t, ht, hgoes⟩ := hgoes.of_known
  obtain ⟨s', hs'⟩ := h.exists_sections hs
  have hagree := h.agree hd hs hs'
  have ht' : debugTables view omitted.debug s' caught = .ok t := by
    unfold debugTables at ht ⊢
    rwa [hagree.debugTables]
  rw [← hagree.walk (by decide)] at hgoes
  exact Narration.Goes.known hlabels (hhandlers.bind (Narration.Goes.known hs' (Narration.Goes.known ht' hgoes)))

end CodeContent

/-! ## Members -/

/-- An attribute of a method that is as it was, or code that has been revised. -/
inductive Attribute.Reworked (view : PoolView) : Attribute → Attribute → Prop where
  | same (a : Attribute) : Reworked view a a
  | code {name : PoolIndex} {info info' : Bytes} (hname : view.utf8 name = .ok "Code")
    (h : CodeContent.Revised view info info') : Reworked view ⟨name, info⟩ ⟨name, info'⟩

namespace Attribute.Reworked

variable {view : PoolView} {table table' : List Attribute} (h : List.Forall₂ (Reworked view) table table')

include h

/-- In a reworked table no known name stands twice if none did before. -/
theorem distinct {known : List String} (hd : Distinct view known table) : Distinct view known table' := by
  have hnames : table'.map Attribute.name = table.map Attribute.name := by
    induction h with
    | nil => rfl
    | cons ha _ ih =>
      have hrest := ih (List.Pairwise.of_cons hd)
      cases ha <;> rw [List.map_cons, List.map_cons, hrest]
  let R : PoolIndex → PoolIndex → Prop := fun i j => ∀ name ∈ known, view.utf8 i = .ok name → view.utf8 j ≠ .ok name
  have hmapped : (table'.map Attribute.name).Pairwise R := hnames ▸ List.pairwise_map.2 hd
  exact List.pairwise_map.1 hmapped

/-- Attributes that have been reworked have the same names, under which the same stands, or revised code. -/
theorem exists_sections {s : Sections} (hs : sections view table = .ok s) : ∃ s', sections view table' = .ok s' ∧ ∀ name,
    s'.lookup name = s.lookup name ∨ name = "Code" ∧ ∃ info info', s.lookup name = some info ∧ s'.lookup name = some info' ∧
      CodeContent.Revised view info info' := by
  induction h generalizing s with
  | nil => exact ⟨s, hs, fun name => .inl rfl⟩
  | @cons a a' table table' ha _ ih =>
    obtain ⟨hnames, rfl⟩ := sections_eq_ok.1 hs
    obtain ⟨hname, hothers⟩ := List.forall_mem_cons.1 hnames
    obtain ⟨s', hs', hlookup⟩ := ih (sections_eq_ok.2 ⟨hothers, rfl⟩)
    obtain ⟨hnames', rfl⟩ := sections_eq_ok.1 hs'
    cases ha with
    | same =>
      refine ⟨_, sections_eq_ok.2 ⟨List.forall_mem_cons.2 ⟨hname, hnames'⟩, rfl⟩, fun name => ?_⟩
      rw [List.map_cons, List.map_cons, List.lookup_cons, List.lookup_cons]
      cases name == (a.titled view).1 with
      | true => exact .inl rfl
      | false => exact hlookup name
    | @code index info info' hcode hrevised =>
      rw [titled_eq hcode] at hname
      refine ⟨_, sections_eq_ok.2 ⟨List.forall_mem_cons.2 ⟨by rwa [titled_eq hcode], hnames'⟩, rfl⟩, fun name => ?_⟩
      rw [List.map_cons, List.map_cons, titled_eq hcode, titled_eq hcode, List.lookup_cons, List.lookup_cons]
      cases hx : name == "Code" with
      | true => exact .inr ⟨eq_of_beq hx, info, info', rfl, rfl, hrevised⟩
      | false => exact hlookup name

end Attribute.Reworked

namespace MemberParts

/-- A field with a revised table of attributes. -/
def RevisedField (view : PoolView) (m m' : MemberParts) : Prop :=
  Attribute.Revised view Attribute.fieldNames m.attributes m'.attributes ∧ m' = { m with attributes := m'.attributes }

/-- A method with a revised table of attributes, among which the code may be revised. -/
def RevisedMethod (view : PoolView) (m m' : MemberParts) : Prop :=
  ∃ table, List.Forall₂ (Attribute.Reworked view) m.attributes table ∧
    Attribute.Revised view Attribute.methodNames table m'.attributes ∧ m' = { m with attributes := m'.attributes }

variable {view : PoolView} (omitted : Omissions) (interest : Interest) {m m' : MemberParts}

/-- Of a revised field the same is told. -/
theorem RevisedField.mirrors (h : RevisedField view m m') (hd : Attribute.Distinct view Attribute.fieldNames m.attributes) :
    (m.narrateField view interest).Mirrors (m'.narrateField view interest) := by
  intro told _ told' hgoes
  obtain ⟨hrevised, hm'⟩ := h
  obtain ⟨name, hname, hgoes⟩ := Narration.Goes.of_known hgoes
  obtain ⟨descriptor, hdescriptor, hgoes⟩ := hgoes.of_known
  obtain ⟨s, hs, hgoes⟩ := hgoes.of_known
  obtain ⟨f, hf, hgoes⟩ := hgoes.of_known
  obtain ⟨s', hs'⟩ := hrevised.exists_sections hs
  have hagree := hrevised.agree hd hs hs'
  rw [← hagree.walk (by decide)] at hgoes
  rw [hm']
  refine Narration.Goes.known hname (Narration.Goes.known hdescriptor
    (Narration.Goes.known hs' (Narration.Goes.known ?_ hgoes)))
  rwa [hagree.fieldAttributes]

/-- Of revised code of a method the same is told as of the code that it was. -/
theorem mirrors_narrateCode {s s' : Sections}
    (hlookup : s'.lookup "Code" = s.lookup "Code" ∨ ∃ info info', s.lookup "Code" = some info ∧
    s'.lookup "Code" = some info' ∧ CodeContent.Revised view info info')
    (hd : ∀ info, s.lookup "Code" = some info → ∀ content, CodeContent.decode.runAt info 0 = .ok content →
      Attribute.Distinct view Attribute.codeNames content.attributes) :
    (narrateCode view omitted s).Mirrors (narrateCode view omitted s') := by
  unfold narrateCode
  cases omitted.code with
  | true => exact fun _ _ _ hgoes => hgoes
  | false =>
    rcases hlookup with hsame | ⟨info, info', hinfo, hinfo', hrevised⟩
    · rw [hsame]
      exact fun _ _ _ hgoes => hgoes
    · obtain ⟨c, attributes, hc, hc', htable⟩ := hrevised.exists_decode
      rw [hinfo, hinfo']
      intro told _ told' hgoes
      obtain ⟨content, hcontent, hgoes⟩ := Narration.Goes.of_known hgoes
      obtain rfl := Except.ok.inj (hc.symm.trans hcontent)
      exact Narration.Goes.known hc' (CodeContent.mirrors_narrate omitted htable (hd info hinfo c hc) _ _ _ hgoes)

/-- Of a revised method the same is told. -/
theorem RevisedMethod.mirrors (h : RevisedMethod view m m') (hd : Attribute.Distinct view Attribute.methodNames m.attributes)
    (hcode : ∀ a ∈ m.attributes, view.utf8 a.name = .ok "Code" → ∀ content, CodeContent.decode.runAt a.info 0 = .ok content →
      Attribute.Distinct view Attribute.codeNames content.attributes) :
    (m.narrateMethod view omitted interest).Mirrors (m'.narrateMethod view omitted interest) := by
  intro told _ told' hgoes
  obtain ⟨table, hreworked, hrevised, hm'⟩ := h
  obtain ⟨name, hname, hgoes⟩ := Narration.Goes.of_known hgoes
  obtain ⟨descriptor, hdescriptor, hgoes⟩ := hgoes.of_known
  obtain ⟨s, hs, hgoes⟩ := hgoes.of_known
  obtain ⟨a, ha, hgoes⟩ := hgoes.of_known
  obtain ⟨s₁, hs₁, hlookup⟩ := Attribute.Reworked.exists_sections hreworked hs
  obtain ⟨s', hs'⟩ := hrevised.exists_sections hs₁
  have hagree := hrevised.agree (Attribute.Reworked.distinct hreworked hd) hs₁ hs'
  have hplain : s.Agree (Attribute.commonNames ++ ["Exceptions", "RuntimeVisibleParameterAnnotations"]) s' := by
    intro name hname
    rw [hagree name (List.mem_append.2 ((List.mem_append.1 hname).imp_right (List.mem_cons_of_mem _)))]
    exact (hlookup name).resolve_right fun hcode => absurd hname (hcode.1 ▸ by decide)
  have hcode' : s'.lookup "Code" = s.lookup "Code" ∨ ∃ info info', s.lookup "Code" = some info ∧
      s'.lookup "Code" = some info' ∧ CodeContent.Revised view info info' := by
    rw [hagree "Code" (by decide)]
    exact (hlookup "Code").imp_right And.right
  have hbody := mirrors_narrateCode omitted hcode' fun info hinfo content hcontent => by
    obtain ⟨a, ha, hnamed, rfl⟩ := Attribute.exists_of_lookup hs hinfo
    exact hcode a ha hnamed content hcontent
  have ha' : s'.methodAttributes view = .ok a := by rw [(hplain.mono (by decide)).methodAttributes, ha]
  rw [hm']
  refine Narration.Goes.known hname (Narration.Goes.known hdescriptor
    (Narration.Goes.known hs' (Narration.Goes.known ha' ?_)))
  refine Narration.mirrors_announce (fun told _ told' hgoes => ?_) _ _ _ hgoes
  rw [hplain.walk (by decide), hplain.walk (by decide)]
  obtain ⟨_, told₁, hannotations, hgoes⟩ := hgoes.of_bind
  obtain ⟨_, told₂, hparameters, hgoes⟩ := hgoes.of_bind
  obtain ⟨_, told₃, hcode, hclose⟩ := hgoes.of_bind
  exact hannotations.bind (hparameters.bind (Narration.Goes.bind (hbody _ _ _ hcode) hclose))

end MemberParts

/-! ## Sizes -/

section Sizes

variable {view : PoolView} {known : List String} {m m' : MemberParts}

/-- A revised table is no shorter. -/
theorem Attribute.Revised.size_le {table table' : List Attribute} (h : Attribute.Revised view known table table') :
    (Attribute.encodeTable table).size ≤ (Attribute.encodeTable table').size := by
  obtain ⟨extra, -, hperm⟩ := h
  have hsum := ((hperm.map Attribute.encode).map Array.size).sum_nat
  simp only [Attribute.encodeTable, Bytes.size_counted, hsum, List.map_append, List.sum_append]
  omega

/-- A reworked table is no shorter. -/
theorem Attribute.Reworked.size_le {table table' : List Attribute}
    (h : List.Forall₂ (Attribute.Reworked view) table table') :
    (Attribute.encodeTable table).size ≤ (Attribute.encodeTable table').size := by
  simp only [Attribute.encodeTable, Bytes.size_counted]
  refine Nat.add_le_add_left ?_ _
  induction h with
  | nil => exact Nat.le_refl _
  | cons ha _ ih =>
    simp only [List.map_cons, List.sum_cons]
    refine Nat.add_le_add ?_ ih
    cases ha with
    | same => exact Nat.le_refl _
    | code hname h =>
      obtain ⟨c, attributes, rest, -, -, hrevised, rfl, rfl⟩ := h
      have hle := hrevised.size_le
      simp [Attribute.size_encode, Attribute.size, CodeContent.encode] at hle ⊢
      omega

/-- Members are no shorter if each of them is not. -/
theorem MemberParts.size_le {R : MemberParts → MemberParts → Prop} {ms ms' : List MemberParts} (h : List.Forall₂ R ms ms')
    (hR : ∀ m m', R m m' → m.encode.size ≤ m'.encode.size) :
    (Bytes.counted (ms.map encode)).size ≤ (Bytes.counted (ms'.map encode)).size := by
  simp only [Bytes.size_counted]
  refine Nat.add_le_add_left ?_ _
  induction h with
  | nil => exact Nat.le_refl _
  | cons hm _ ih =>
    simp only [List.map_cons, List.sum_cons]
    exact Nat.add_le_add (hR _ _ hm) ih

/-- A revised field is no shorter. -/
theorem MemberParts.RevisedField.size_le (h : RevisedField view m m') : m.encode.size ≤ m'.encode.size := by
  have hle := h.1.size_le
  simp only [MemberParts.encode, Array.size_append, Bytes.size_ofUInt16]
  omega

/-- A revised method is no shorter. -/
theorem MemberParts.RevisedMethod.size_le (h : RevisedMethod view m m') : m.encode.size ≤ m'.encode.size := by
  obtain ⟨table, hreworked, hrevised, -⟩ := h
  have hle := Nat.le_trans (Attribute.Reworked.size_le hreworked) hrevised.size_le
  simp only [MemberParts.encode, Array.size_append, Bytes.size_ofUInt16]
  omega

end Sizes

/-! ## Classes -/

/-- A class with revised tables of attributes. -/
structure ClassParts.Revised (view : PoolView) (p p' : ClassParts) : Prop where
  fields : List.Forall₂ (MemberParts.RevisedField view) p.fields p'.fields
  methods : List.Forall₂ (MemberParts.RevisedMethod view) p.methods p'.methods
  attributes : Attribute.Revised view Attribute.classNames p.attributes p'.attributes
  same : p' = { p with fields := p'.fields, methods := p'.methods, attributes := p'.attributes }

/-- Of two lists of which the items tell the same, the same is told. -/
theorem Narration.mirrors_forM {α β : Type} {R : α → β → Prop} {f : α → Narration Unit} {g : β → Narration Unit}
    {xs : List α} {ys : List β} (h : List.Forall₂ R xs ys) (hfg : ∀ x ∈ xs, ∀ y, R x y → (f x).Mirrors (g y)) :
    Narration.Mirrors (xs.forM f) (ys.forM g) := by
  induction h with
  | nil => exact fun _ _ _ hgoes => hgoes
  | cons hxy _ ih =>
    intro told _ told' hgoes
    obtain ⟨_, told₁, hfirst, hrest⟩ := Narration.Goes.of_bind hgoes
    obtain ⟨hx, hothers⟩ := List.forall_mem_cons.1 hfg
    exact Narration.Goes.bind (hx _ hxy _ _ _ hfirst) (ih hothers _ _ _ hrest)

namespace ClassParts.Revised

variable {view : PoolView} (omitted : Omissions) (interest : Interest) {p p' : ClassParts} (h : p.Revised view p')

include h

/-- Of a revised class the same is told. -/
theorem mirrors (hd : p.Distinct view) : (p.narrate view omitted interest).Mirrors (p'.narrate view omitted interest) := by
  intro told _ told' hgoes
  obtain ⟨version, hversion, hgoes⟩ := Narration.Goes.of_known hgoes
  obtain ⟨name, hname, hgoes⟩ := hgoes.of_known
  obtain ⟨superName, hsuperName, hgoes⟩ := hgoes.of_known
  obtain ⟨interfaces, hinterfaces, hgoes⟩ := hgoes.of_known
  obtain ⟨s, hs, hgoes⟩ := hgoes.of_known
  obtain ⟨c, hc, hgoes⟩ := hgoes.of_known
  obtain ⟨s', hs'⟩ := h.attributes.exists_sections hs
  have hagree := h.attributes.agree hd.attributes hs hs'
  have hc' : s'.classAttributes view = .ok c := by rw [hagree.classAttributes, hc]
  have hfields := Narration.mirrors_forM h.fields fun m hm m' hrevised =>
    MemberParts.RevisedField.mirrors interest hrevised (hd.fields m hm)
  have hmethods := Narration.mirrors_forM h.methods fun m hm m' hrevised =>
    MemberParts.RevisedMethod.mirrors omitted interest hrevised (hd.methods m hm) (hd.code m hm)
  rw [h.same]
  refine Narration.Goes.known hversion (Narration.Goes.known hname
    (Narration.Goes.known hsuperName (Narration.Goes.known hinterfaces ?_)))
  refine Narration.Goes.known hs' (Narration.Goes.known hc' ?_)
  rw [hagree.walk (by decide), hagree.walk (by decide)]
  obtain ⟨_, told₁, hheader, hgoes⟩ := hgoes.of_bind
  obtain ⟨_, told₂, hplain, hgoes⟩ := hgoes.of_bind
  obtain ⟨_, told₃, hannotations, hgoes⟩ := hgoes.of_bind
  obtain ⟨_, told₄, hinner, hgoes⟩ := hgoes.of_bind
  obtain ⟨_, told₅, hfieldsTold, hgoes⟩ := hgoes.of_bind
  obtain ⟨_, told₆, hmethodsTold, hclose⟩ := hgoes.of_bind
  exact hheader.bind (hplain.bind (hannotations.bind (hinner.bind ((hfields _ _ _ hfieldsTold).bind
    ((hmethods _ _ _ hmethodsTold).bind hclose)))))

/-- In a revised class, still no known name stands twice in a table. -/
theorem distinct (hd : p.Distinct view) : p'.Distinct view where
  attributes := h.attributes.distinct hd.attributes
  fields m' hm' := by
    obtain ⟨m, hm, hrevised⟩ := exists_of_forall₂ h.fields hm'
    exact hrevised.1.distinct (hd.fields m hm)
  methods m' hm' := by
    obtain ⟨m, hm, table, hreworked, hrevised, -⟩ := exists_of_forall₂ h.methods hm'
    exact hrevised.distinct (Attribute.Reworked.distinct hreworked (hd.methods m hm))
  code m' hm' a' ha' hname content hcontent := by
    obtain ⟨m, hm, table, hreworked, ⟨extra, hextra, hperm⟩, -⟩ := exists_of_forall₂ h.methods hm'
    have htable : a' ∈ table := by
      refine (List.mem_append.1 (hperm.subset ha')).resolve_left fun hmem => ?_
      obtain ⟨name, hlooked, hnew⟩ := hextra a' hmem
      obtain rfl := Except.ok.inj (hname.symm.trans hlooked)
      exact hnew (by decide)
    obtain ⟨a, ha, hsame | ⟨hcode, hrevised⟩⟩ := exists_of_forall₂ hreworked htable
    · exact hd.code m hm _ ha hname content hcontent
    · obtain ⟨c, attributes, hc, hc', hattributes⟩ := hrevised.exists_decode
      obtain rfl := Except.ok.inj (hc'.symm.trans hcontent)
      exact hattributes.distinct (hd.code m hm _ ha hcode c hc)

/-- A revised class is no shorter. -/
theorem size_le : p.encode.size ≤ p'.encode.size := by
  have hfields := MemberParts.size_le h.fields fun _ _ hm => hm.size_le
  have hmethods := MemberParts.size_le h.methods fun _ _ hm => hm.size_le
  have hattributes := h.attributes.size_le
  rw [h.same]
  simp only [ClassParts.encode, ClassParts.head, ClassParts.tables, Array.size_append]
  omega

/-- What a class shows by itself, it shows when it is revised. -/
theorem shownBy (hd : p.Distinct view) (hshown : p.ShownBy view) : p'.ShownBy view := by
  obtain ⟨constants, s, r, filling, hmagic, hconstants, hstop, hs, hr, hview, hsize⟩ := hshown
  obtain ⟨-, hbytes, hnothing, hin⟩ := PoolView.parse_elsewhere p.hasAt_front hconstants
  rw [← hbytes] at hin
  have hmirrors := PoolView.mirrors_behind hin hnothing
  have hfront : p'.front = p.front := by rw [h.same]
  have hrevised : Attribute.Revised constants Attribute.classNames p.attributes p'.attributes :=
    h.attributes.imp fun i => hview ▸ PoolView.confirms_utf8_behind hin _ _ i
  obtain ⟨s', hs'⟩ := hrevised.exists_sections hs
  have hviewed := hmirrors ((s.lookup "BootstrapMethods").getD #[] ++ filling) (r.getD #[])
  rw [← hview] at hviewed
  have hagree := h.attributes.agree hd.attributes (hviewed.sections _ _ hs) (hviewed.sections _ _ hs')
  refine ⟨constants, s', r, filling, hfront ▸ hmagic, hfront ▸ hconstants, hfront ▸ hstop, hs', ?_, ?_,
    Nat.le_trans hsize h.size_le⟩
  · rw [hagree.read (by decide), hr]
  · rw [hagree _ (by decide), hview]

end ClassParts.Revised

end ClassFile
