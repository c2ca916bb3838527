import ClassFile.Proofs.PartReading

/-!
# What the attributes of a table say

The reader of class files notes the attributes of a table with their places and takes down one by one what they say, so that
an attribute may speak of another one. If every known name stands once and each attribute can be read by itself, then what
has been taken down in the end is what the payloads say by themselves (`ClassAttributes.gathered`,
`FieldAttributes.gathered`, `MethodAttributes.gathered`).
-/

namespace ClassFile

open Decoder (Goes)

/-! ## Attributes one after the other -/

/-- The name of an attribute is that of a section, and the payload stands where the attribute says. -/
structure RawAttribute.Holds (a : RawAttribute) (b : Bytes) (x : String × Bytes) : Prop where
  name : a.name = x.1
  length : a.length = x.2.size
  stands : b.HasAt a.start x.2

/-- A payload stands at an offset, or there is neither. -/
inductive Bytes.Located (b : Bytes) : Option Bytes → Option Nat → Prop where
  | nothing : Located b none none
  | standing {info : Bytes} {offset : Nat} (h : b.HasAt offset info) : Located b (some info) (some offset)

namespace Sections

variable {s done rest : Sections} {x : String × Bytes} {name : String} {known : List String}

/-- No known name stands twice. -/
def Distinct (known : List String) (s : Sections) : Prop :=
  s.Pairwise fun x y => x.1 = y.1 → x.1 ∉ known

/-- A known name is new where it stands. -/
theorem Distinct.fresh (h : Distinct known (done ++ x :: rest)) (hx : x.1 ∈ known) : done.lookup x.1 = none := by
  refine List.lookup_eq_none_iff.2 fun y hy => bne_iff_ne.2 fun heq => ?_
  exact (List.pairwise_append.1 h).2.2 y hy x List.mem_cons_self heq.symm (heq ▸ hx)

/-- Of a new name its attribute is found, and of other names what has been found before. -/
theorem lookup_snoc (P : Option Bytes → Prop) (hfresh : x.1 = name → done.lookup name = none)
    (h : if x.1 = name then P (some x.2) else P (done.lookup name)) : P ((done ++ [x]).lookup name) := by
  rw [List.lookup_append]
  by_cases hx : x.1 = name
  · rw [if_pos hx] at h
    rw [hfresh hx, Option.none_or, ← hx, List.lookup_cons, BEq.rfl]
    exact h
  · rw [if_neg hx] at h
    rw [show [x].lookup name = none from List.lookup_eq_none_iff.2 (by simpa using Ne.symm hx), Option.or_none]
    exact h

/-- What is read of one section is not changed by a section behind it, unless that is the first of its name. -/
theorem read_snoc {α : Type} {d : Decoder α} {v v' : Option α} (h : s.read name d = .ok v)
    (hfresh : x.1 = name → s.lookup name = none)
    (hnew : if x.1 = name then some <$> d.runAt x.2 0 = .ok v' else v' = v) : (s ++ [x]).read name d = .ok v' := by
  unfold read
  by_cases hx : x.1 = name
  · rw [if_pos hx] at hnew
    rw [lookup_snoc (· = some x.2) hfresh (by rw [if_pos hx])]
    exact hnew
  · rw [if_neg hx] at hnew
    rw [lookup_snoc (· = s.lookup name) hfresh (by rw [if_neg hx]), hnew]
    exact h

/-- A section is there once one of its name has come. -/
theorem isSome_snoc {found found' : Bool} (h : found = (s.lookup name).isSome) (hfresh : x.1 = name → s.lookup name = none)
    (hnew : if x.1 = name then found' = true else found' = found) : found' = ((s ++ [x]).lookup name).isSome := by
  refine lookup_snoc (fun info => found' = info.isSome) hfresh ?_
  split
  · rwa [if_pos ‹_›] at hnew
  · rw [if_neg ‹_›] at hnew
    rw [hnew]
    exact h

/-- The place of a section is not changed by a section behind it, unless that is the first of its name. -/
theorem located_snoc {a : RawAttribute} {b : Bytes} (ha : a.Holds b x) {o o' : Option Nat} (h : b.Located (s.lookup name) o)
    (hfresh : x.1 = name → s.lookup name = none) (hnew : if x.1 = name then o' = some a.start else o' = o) :
    b.Located ((s ++ [x]).lookup name) o' := by
  refine lookup_snoc (fun info => b.Located info o') hfresh ?_
  split
  · rw [if_pos ‹_›] at hnew
    rw [hnew]
    exact .standing ha.stands
  · rw [if_neg ‹_›] at hnew
    rw [hnew]
    exact h

/-- If something can be read of the attribute of a name, then of each one that is the first of the name. -/
theorem exists_of_read {α : Type} {d : Decoder α} {v : Option α} (hs : s = done ++ x :: rest)
    (hfresh : done.lookup x.1 = none) (h : s.read x.1 d = .ok v) : ∃ a, v = some a ∧ d.runAt x.2 0 = .ok a := by
  unfold read at h
  rw [hs, List.lookup_append, hfresh, Option.none_or, List.lookup_cons, BEq.rfl] at h
  dsimp only at h
  cases ha : d.runAt x.2 0 with
  | error e =>
    rw [ha] at h
    cases h
  | ok a =>
    rw [ha] at h
    exact ⟨a, (Except.ok.inj h).symm, rfl⟩

end Sections

/-- What holds of nothing, and holds on with each attribute of a table, holds of the whole table. -/
theorem Sections.exists_foldlM {σ : Type} {add : σ → RawAttribute → Except Error σ} {b : Bytes} {R : Sections → σ → Prop}
    {s : Sections} {raws : List RawAttribute} (h : List.Forall₂ (RawAttribute.Holds · b) raws s)
    (hadd : ∀ done x rest, s = done ++ x :: rest → ∀ a st,
      a.Holds b x → R done st → ∃ st', add st a = .ok st' ∧ R (done ++ [x]) st')
    {st : σ} (hst : R [] st) : ∃ st', raws.foldlM add st = .ok st' ∧ R s st' := by
  suffices hfrom : ∀ done rest, s = done ++ rest → ∀ raws,
    List.Forall₂ (RawAttribute.Holds · b) raws rest → ∀ st, R done st →
      ∃ st', raws.foldlM add st = .ok st' ∧ R s st' from hfrom [] s rfl raws h st hst
  intro done rest
  induction rest generalizing done with
  | nil =>
    intro hs raws hraws st hst
    cases hraws
    rw [List.append_nil] at hs
    exact ⟨st, rfl, hs ▸ hst⟩
  | cons x rest ih =>
    intro hs raws hraws st hst
    obtain ⟨a, raws, ha, htail, rfl⟩ := List.forall₂_cons_right_iff.1 hraws
    obtain ⟨st', hfirst, hst'⟩ := hadd done x rest hs a st ha hst
    obtain ⟨st'', hrest, hst''⟩ := ih (done ++ [x]) (by rw [hs, List.append_assoc]; rfl) raws htail st' hst'
    exact ⟨st'', by rw [List.foldlM_cons, hfirst]; exact hrest, hst''⟩

/-! ## What the attributes of a table say -/

/-- What attributes say is what their payloads say by themselves. -/
structure CommonAttributes.Gathered (view : PoolView) (b : Bytes) (s : Sections) (c : CommonAttributes) : Prop where
  signature : s.read "Signature" view.nextText = .ok c.signature
  deprecated : c.deprecated = (s.lookup "Deprecated").isSome
  synthetic : c.synthetic = (s.lookup "Synthetic").isSome
  annotations : b.Located (s.lookup "RuntimeVisibleAnnotations") c.annotations

/-- What the attributes of a class say is what their payloads say by themselves. -/
structure ClassAttributes.Gathered (view : PoolView) (omitted : Omissions) (b : Bytes) (s : Sections)
    (c : ClassAttributes) : Prop where
  common : c.common.Gathered view b s
  sourceFile : s.read "SourceFile" view.nextText = .ok c.sourceFile
  sourceDebug : c.sourceDebug = (s.lookup "SourceDebugExtension").map ModifiedUtf8.decode
  enclosing : s.read "EnclosingMethod" (Image.enclosingMethod view) = .ok c.enclosing
  nestHost : s.read "NestHost" (Image.nextTypeName view) = .ok c.nestHost
  nestMembers : ∃ v, s.read "NestMembers" (Decoder.counted (Image.nextTypeName view)) = .ok v ∧ c.nestMembers = v.getD #[]
  innerClasses : b.Located (if omitted.innerClasses then none else s.lookup "InnerClasses") c.innerClasses

/-- What the attributes of a field say is what their payloads say by themselves. -/
structure FieldAttributes.Gathered (view : PoolView) (b : Bytes) (s : Sections) (f : FieldAttributes) : Prop where
  common : f.common.Gathered view b s
  value : s.read "ConstantValue" (do view.constant (← Decoder.u16)) = .ok f.value

/-- What the attributes of a method say is what their payloads say by themselves. -/
structure MethodAttributes.Gathered (view : PoolView) (b : Bytes) (s : Sections) (m : MethodAttributes) : Prop where
  common : m.common.Gathered view b s
  code : b.Located (s.lookup "Code") m.code
  exceptions : ∃ v, s.read "Exceptions" (Decoder.counted (Image.nextTypeName view)) = .ok v ∧ m.exceptions = v.getD #[]
  parameterAnnotations : b.Located (s.lookup "RuntimeVisibleParameterAnnotations") m.parameterAnnotations

section Gathering

variable {view view' : PoolView} (h : view.Mirrors view') {s done rest : Sections} {x : String × Bytes} {a : RawAttribute}

/-- A value that is computed of what was read comes after something was read. -/
theorem Decoder.runAt_lift {α β : Type} {d : Decoder α} {f : α → Except Error β} {b : Bytes} {offset : Nat} {v : β}
    (hv : Decoder.runAt (do f (← d)) b offset = .ok v) : ∃ i, d.runAt b offset = .ok i ∧ f i = .ok v := by
  obtain ⟨_, hgoes⟩ := Goes.of_runAt hv
  obtain ⟨i, _, hi, hlift⟩ := hgoes.of_bind
  exact ⟨i, hi.runAt, (Goes.of_lift hlift).1⟩

/-- What is read of a payload by itself is read of it where it stands. -/
theorem RawAttribute.Holds.runAt {α : Type} {d d' : Decoder α} {b : Bytes} {v : α} (ha : a.Holds b x) (hd : d.Mirrors d')
    (hv : d.runAt x.2 0 = .ok v) : d'.runAt b a.start = .ok v :=
  hd.runAt (Cursor.matches_of_hasAt ha.stands) hv

/-- What the payload of an attribute says by itself, it says where it stands. -/
theorem Sections.exists_runAt {α : Type} {d d' : Decoder α} {b : Bytes} {v : Option α} (hd : d.Mirrors d')
    (hs : s = done ++ x :: rest) (hfresh : done.lookup x.1 = none) (ha : a.Holds b x) (hv : s.read x.1 d = .ok v) :
    ∃ v, d.runAt x.2 0 = .ok v ∧ d'.runAt b a.start = .ok v := by
  obtain ⟨v, -, hv⟩ := Sections.exists_of_read hs hfresh hv
  exact ⟨v, hv, ha.runAt hd hv⟩

open Attribute (commonNames fieldNames methodNames classNames)

/-- What the attributes of a class say goes on with one more attribute, which says one thing and leaves the others as
they are. -/
theorem ClassAttributes.Gathered.snoc {omitted : Omissions} {b : Bytes} {c c' : ClassAttributes}
    {v w : Option (Array String)} (hc : c.Gathered view omitted b done) (ha : a.Holds b x)
    (hfirst : ∀ name ∈ classNames, x.1 = name → done.lookup name = none)
    (hcommon : c'.common.Gathered view b (done ++ [x]))
    (hfile : if x.1 = "SourceFile" then some <$> view.nextText.runAt x.2 0 = .ok c'.sourceFile
      else c'.sourceFile = c.sourceFile)
    (hdebug : if x.1 = "SourceDebugExtension" then c'.sourceDebug = some (ModifiedUtf8.decode x.2)
      else c'.sourceDebug = c.sourceDebug)
    (henclosing : if x.1 = "EnclosingMethod" then some <$> (Image.enclosingMethod view).runAt x.2 0 = .ok c'.enclosing
      else c'.enclosing = c.enclosing)
    (hhost : if x.1 = "NestHost" then some <$> (Image.nextTypeName view).runAt x.2 0 = .ok c'.nestHost
      else c'.nestHost = c.nestHost)
    (hread : done.read "NestMembers" (Decoder.counted (Image.nextTypeName view)) = .ok v)
    (hmember : if x.1 = "NestMembers"
      then some <$> Decoder.runAt (Decoder.counted (Image.nextTypeName view)) x.2 0 = .ok w else w = v)
    (hmembers : c'.nestMembers = w.getD #[])
    (hinner : if x.1 = "InnerClasses" ∧ omitted.innerClasses = false then c'.innerClasses = some a.start
      else c'.innerClasses = c.innerClasses) :
    c'.Gathered view omitted b (done ++ [x]) := by
  refine ⟨hcommon, Sections.read_snoc hc.sourceFile (hfirst _ (by decide)) hfile, ?_,
    Sections.read_snoc hc.enclosing (hfirst _ (by decide)) henclosing,
    Sections.read_snoc hc.nestHost (hfirst _ (by decide)) hhost,
    ⟨w, Sections.read_snoc hread (hfirst _ (by decide)) hmember, hmembers⟩, ?_⟩
  · refine Sections.lookup_snoc (fun info => c'.sourceDebug = info.map ModifiedUtf8.decode) (hfirst _ (by decide)) ?_
    split
    · rwa [if_pos ‹_›] at hdebug
    · rw [if_neg ‹_›] at hdebug
      exact hdebug.trans hc.sourceDebug
  · have hbefore := hc.innerClasses
    cases hi : omitted.innerClasses with
    | true =>
      simp only [hi, if_true, Bool.true_eq_false, and_false, if_false] at hinner hbefore ⊢
      rwa [hinner]
    | false =>
      simp only [hi, Bool.false_eq_true, and_true, if_false] at hinner hbefore ⊢
      exact Sections.located_snoc ha hbefore (hfirst _ (by decide)) hinner

include h

/-- An attribute is taken down that a class, a field and a method can all have, or is left for others to take down. -/
theorem CommonAttributes.Gathered.add {c c₀ : CommonAttributes} (hs : s = done ++ x :: rest) (hc₀ : s.common view = .ok c₀)
    (hfresh : x.1 ∈ commonNames → done.lookup x.1 = none) (ha : a.Holds view'.bytes x)
    (hc : c.Gathered view view'.bytes done) :
    ∃ r, c.add view' a = .ok r ∧ (r.isSome ↔ x.1 ∈ commonNames) ∧ (r.getD c).Gathered view view'.bytes (done ++ [x]) := by
  have hfirst : ∀ name ∈ commonNames, x.1 = name → done.lookup name = none := fun name hname hx => hx ▸ hfresh (hx ▸ hname)
  have hnew : ∀ {c' : CommonAttributes},
      (if x.1 = "Signature" then some <$> view.nextText.runAt x.2 0 = .ok c'.signature else c'.signature = c.signature) →
      (if x.1 = "Deprecated" then c'.deprecated = true else c'.deprecated = c.deprecated) →
      (if x.1 = "Synthetic" then c'.synthetic = true else c'.synthetic = c.synthetic) →
      (if x.1 = "RuntimeVisibleAnnotations" then c'.annotations = some a.start else c'.annotations = c.annotations) →
      c'.Gathered view view'.bytes (done ++ [x]) := by
    intro c' hsignature hdeprecated hsynthetic hannotations
    exact ⟨Sections.read_snoc hc.signature (hfirst _ (by decide)) hsignature,
      Sections.isSome_snoc hc.deprecated (hfirst _ (by decide)) hdeprecated,
      Sections.isSome_snoc hc.synthetic (hfirst _ (by decide)) hsynthetic,
      Sections.located_snoc ha hc.annotations (hfirst _ (by decide)) hannotations⟩
  obtain ⟨signature, hsignature, -⟩ := exists_of_bind_eq_ok hc₀
  unfold CommonAttributes.add commonNames
  simp only [ha.name, beq_iff_eq]
  by_cases h₁ : x.1 = "Signature"
  · obtain ⟨v, hv, hv'⟩ := Sections.exists_runAt h.nextText hs (hfresh (h₁ ▸ by decide)) ha (h₁ ▸ hsignature)
    refine ⟨some { c with signature := some v }, ?_, ?_, hnew ?_ ?_ ?_ ?_⟩ <;>
      simp [h₁, hv', show view.nextText.runAt x.2 0 = _ from hv]
  by_cases h₂ : x.1 = "Deprecated"
  · refine ⟨some { c with deprecated := true }, ?_, ?_, hnew ?_ ?_ ?_ ?_⟩ <;> simp [h₂]
  by_cases h₃ : x.1 = "Synthetic"
  · refine ⟨some { c with synthetic := true }, ?_, ?_, hnew ?_ ?_ ?_ ?_⟩ <;> simp [h₃]
  by_cases h₄ : x.1 = "RuntimeVisibleAnnotations"
  · refine ⟨some { c with annotations := some a.start }, ?_, ?_, hnew ?_ ?_ ?_ ?_⟩ <;> simp [h₄]
  refine ⟨none, ?_, ?_, hnew ?_ ?_ ?_ ?_⟩ <;> simp [h₁, h₂, h₃, h₄]

/-- One more attribute of a field adds what its payload says by itself. -/
theorem FieldAttributes.Gathered.add {f f₀ : FieldAttributes} (hs : s = done ++ x :: rest)
    (hf₀ : s.fieldAttributes view = .ok f₀) (hfresh : x.1 ∈ fieldNames → done.lookup x.1 = none) (ha : a.Holds view'.bytes x)
    (hf : f.Gathered view view'.bytes done) :
    ∃ f', Image.addFieldAttribute view' f a = .ok f' ∧ f'.Gathered view view'.bytes (done ++ [x]) := by
  obtain ⟨c₀, hc₀, hf₀⟩ := exists_of_bind_eq_ok hf₀
  obtain ⟨value, hvalue, -⟩ := exists_of_bind_eq_ok hf₀
  obtain ⟨r, hr, hsome, hcommon⟩ := hf.common.add h hs hc₀ (fun hx => hfresh (List.mem_append_left _ hx)) ha
  have hnew : ∀ {f' : FieldAttributes}, f'.common = r.getD f.common →
      (if x.1 = "ConstantValue" then some <$> Decoder.runAt (do view.constant (← Decoder.u16)) x.2 0 = .ok f'.value
        else f'.value = f.value) → f'.Gathered view view'.bytes (done ++ [x]) := by
    intro f' hsame hvalue
    exact ⟨hsame ▸ hcommon, Sections.read_snoc hf.value (fun hx => hx ▸ hfresh (hx ▸ by decide)) hvalue⟩
  unfold Image.addFieldAttribute
  simp only [hr, ha.name, beq_iff_eq]
  cases r with
  | some common =>
    have hx : ∀ name ∉ commonNames, x.1 ≠ name := fun name hname heq => hname (heq ▸ hsome.1 rfl)
    exact ⟨{ f with common }, rfl, hnew rfl (by rw [if_neg (hx _ (by decide))])⟩
  | none =>
    by_cases hx : x.1 = "ConstantValue"
    · obtain ⟨v, hv, hv'⟩ := Sections.exists_runAt (Decoder.mirrors_u16.bind fun i => Decoder.mirrors_lift (h.constant i)) hs
        (hfresh (hx ▸ by decide)) ha (hx ▸ hvalue)
      obtain ⟨i, hi, hconstant⟩ := Decoder.runAt_lift hv'
      refine ⟨{ f with value := some v }, ?_, hnew rfl ?_⟩
      · rw [if_pos hx, hi]
        change ((view'.constant i) >>= _) = _
        rw [hconstant]
        rfl
      · rw [if_pos hx, hv]
        rfl
    · exact ⟨f, by simp [hx]; rfl, hnew rfl (by rw [if_neg hx])⟩

/-- One more attribute of a method adds what its payload says by itself. -/
theorem MethodAttributes.Gathered.add {m m₀ : MethodAttributes} (hs : s = done ++ x :: rest)
    (hm₀ : s.methodAttributes view = .ok m₀)
    (hfresh : x.1 ∈ methodNames → done.lookup x.1 = none) (ha : a.Holds view'.bytes x)
    (hm : m.Gathered view view'.bytes done) :
    ∃ m', Image.addMethodAttribute view' m a = .ok m' ∧ m'.Gathered view view'.bytes (done ++ [x]) := by
  obtain ⟨c₀, hc₀, hm₀⟩ := exists_of_bind_eq_ok hm₀
  obtain ⟨exceptions, hexceptions, -⟩ := exists_of_bind_eq_ok hm₀
  obtain ⟨r, hr, hsome, hcommon⟩ := hm.common.add h hs hc₀ (fun hx => hfresh (List.mem_append_left _ hx)) ha
  obtain ⟨v, hv, hsaid⟩ := hm.exceptions
  have hfirst : ∀ name ∈ methodNames, x.1 = name → done.lookup name = none := fun name hname hx => hx ▸ hfresh (hx ▸ hname)
  have hnew : ∀ {m' : MethodAttributes} (v' : Option (Array String)), m'.common = r.getD m.common →
      (if x.1 = "Code" then m'.code = some a.start else m'.code = m.code) →
      (if x.1 = "Exceptions"
        then some <$> Decoder.runAt (Decoder.counted (Image.nextTypeName view)) x.2 0 = .ok v' else v' = v) →
      m'.exceptions = v'.getD #[] →
      (if x.1 = "RuntimeVisibleParameterAnnotations" then m'.parameterAnnotations = some a.start
        else m'.parameterAnnotations = m.parameterAnnotations) → m'.Gathered view view'.bytes (done ++ [x]) := by
    intro m' v' hsame hcode hread hexceptions hparameters
    exact ⟨hsame ▸ hcommon, Sections.located_snoc ha hm.code (hfirst _ (by decide)) hcode,
      ⟨v', Sections.read_snoc hv (hfirst _ (by decide)) hread, hexceptions⟩,
      Sections.located_snoc ha hm.parameterAnnotations (hfirst _ (by decide)) hparameters⟩
  unfold Image.addMethodAttribute
  simp only [hr, ha.name, beq_iff_eq]
  cases r with
  | some common =>
    have hx : ∀ name ∉ commonNames, x.1 ≠ name := fun name hname heq => hname (heq ▸ hsome.1 rfl)
    refine ⟨{ m with common }, rfl, hnew v rfl ?_ ?_ hsaid ?_⟩ <;> rw [if_neg (hx _ (by decide))]
  | none =>
    by_cases h₁ : x.1 = "Code"
    · refine ⟨{ m with code := some a.start }, ?_, hnew v rfl ?_ ?_ hsaid ?_⟩
      · simp [h₁]
        rfl
      all_goals simp [h₁]
    by_cases h₂ : x.1 = "Exceptions"
    · obtain ⟨types, htypes, htypes'⟩ := Sections.exists_runAt h.nextTypeName.counted hs
        (hfresh (h₂ ▸ by decide)) ha (h₂ ▸ hexceptions)
      obtain rfl : v = none := by
        rw [Sections.read, hfirst _ (by decide) h₂] at hv
        exact (Except.ok.inj hv).symm
      refine ⟨{ m with exceptions := m.exceptions ++ types }, ?_, hnew (some types) rfl ?_ ?_ ?_ ?_⟩
      · simp [h₂, htypes']
        rfl
      all_goals simp [h₂, htypes, hsaid]
    by_cases h₃ : x.1 = "RuntimeVisibleParameterAnnotations"
    · refine ⟨{ m with parameterAnnotations := some a.start }, ?_, hnew v rfl ?_ ?_ hsaid ?_⟩
      · simp [h₃]
        rfl
      all_goals simp [h₃]
    refine ⟨m, ?_, hnew v rfl ?_ ?_ hsaid ?_⟩
    · simp [h₁, h₂, h₃]
      rfl
    all_goals simp [h₁, h₂, h₃]

/-- One more attribute of a class adds what its payload says by itself. -/
theorem ClassAttributes.Gathered.add {omitted : Omissions} {c c₀ : ClassAttributes} (hs : s = done ++ x :: rest)
    (hc₀ : s.classAttributes view = .ok c₀) (hfresh : x.1 ∈ classNames → done.lookup x.1 = none) (ha : a.Holds view'.bytes x)
    (hc : c.Gathered view omitted view'.bytes done) :
    ∃ c', Image.addClassAttribute view' omitted c a = .ok c' ∧ c'.Gathered view omitted view'.bytes (done ++ [x]) := by
  obtain ⟨common₀, hcommon₀, hc₀⟩ := exists_of_bind_eq_ok hc₀
  obtain ⟨file, hfile, hc₀⟩ := exists_of_bind_eq_ok hc₀
  obtain ⟨enclosing, henclosing, hc₀⟩ := exists_of_bind_eq_ok hc₀
  obtain ⟨host, hhost, hc₀⟩ := exists_of_bind_eq_ok hc₀
  obtain ⟨members, hmembers, -⟩ := exists_of_bind_eq_ok hc₀
  obtain ⟨r, hr, hsome, hcommon⟩ := hc.common.add h hs hcommon₀ (fun hx => hfresh (List.mem_append_left _ hx)) ha
  obtain ⟨v, hv, hsaid⟩ := hc.nestMembers
  have hfirst : ∀ name ∈ classNames, x.1 = name → done.lookup name = none := fun name hname hx => hx ▸ hfresh (hx ▸ hname)
  have hnew := fun {c' : ClassAttributes} {w : Option (Array String)} (hsame : c'.common = r.getD c.common) =>
    have hcommon' : c'.common.Gathered view view'.bytes (done ++ [x]) := hsame ▸ hcommon
    hc.snoc (v := v) (w := w) ha hfirst hcommon'
  unfold Image.addClassAttribute
  simp only [hr, ha.name, beq_iff_eq]
  cases r with
  | some common =>
    have hx : ∀ name ∉ commonNames, x.1 ≠ name := fun name hname heq => hname (heq ▸ hsome.1 rfl)
    refine ⟨{ c with common }, rfl, hnew rfl ?_ ?_ ?_ ?_ hv ?_ hsaid ?_⟩
    all_goals first | rw [if_neg (hx _ (by decide))] | rw [if_neg fun hboth => hx _ (by decide) hboth.1]
  | none =>
    by_cases h₁ : x.1 = "SourceFile"
    · obtain ⟨text, htext, htext'⟩ := Sections.exists_runAt h.nextText hs (hfresh (h₁ ▸ by decide)) ha (h₁ ▸ hfile)
      refine ⟨{ c with sourceFile := some text }, ?_, hnew rfl ?_ ?_ ?_ ?_ hv ?_ hsaid ?_⟩
      · simp [h₁, htext']
        rfl
      all_goals simp [h₁, show view.nextText.runAt x.2 0 = _ from htext]
    by_cases h₂ : x.1 = "SourceDebugExtension"
    · have hread : (Decoder.take a.length).runAt view'.bytes a.start = .ok x.2 :=
        ha.length ▸ (Reads.take x.2).runAt ha.stands
      refine ⟨{ c with sourceDebug := some (ModifiedUtf8.decode x.2) }, ?_, hnew rfl ?_ ?_ ?_ ?_ hv ?_ hsaid ?_⟩
      · simp [h₂, hread]
        rfl
      all_goals simp [h₂]
    by_cases h₃ : x.1 = "EnclosingMethod"
    · obtain ⟨owner, howner, howner'⟩ := Sections.exists_runAt h.enclosingMethod hs
        (hfresh (h₃ ▸ by decide)) ha (h₃ ▸ henclosing)
      refine ⟨{ c with enclosing := some owner }, ?_, hnew rfl ?_ ?_ ?_ ?_ hv ?_ hsaid ?_⟩
      · simp [h₃, howner']
        rfl
      all_goals simp [h₃, howner]
    by_cases h₄ : x.1 = "NestHost"
    · obtain ⟨name, hname, hname'⟩ := Sections.exists_runAt h.nextTypeName hs (hfresh (h₄ ▸ by decide)) ha (h₄ ▸ hhost)
      refine ⟨{ c with nestHost := some name }, ?_, hnew rfl ?_ ?_ ?_ ?_ hv ?_ hsaid ?_⟩
      · simp [h₄, hname']
        rfl
      all_goals simp [h₄, hname]
    by_cases h₅ : x.1 = "NestMembers"
    · obtain ⟨names, hnames, hnames'⟩ := Sections.exists_runAt h.nextTypeName.counted hs
        (hfresh (h₅ ▸ by decide)) ha (h₅ ▸ hmembers)
      obtain rfl : v = none := by
        rw [Sections.read, hfirst _ (by decide) h₅] at hv
        exact (Except.ok.inj hv).symm
      refine ⟨{ c with nestMembers := c.nestMembers ++ names }, ?_, hnew (w := some names) rfl ?_ ?_ ?_ ?_ hv ?_ ?_ ?_⟩
      · simp [h₅, hnames']
        rfl
      all_goals simp [h₅, hnames, hsaid]
    by_cases h₆ : x.1 = "InnerClasses" ∧ omitted.innerClasses = false
    · refine ⟨{ c with innerClasses := some a.start }, ?_, hnew rfl ?_ ?_ ?_ ?_ hv ?_ hsaid ?_⟩
      · simp [h₆.1, h₆.2]
        rfl
      all_goals simp [h₆.1, h₆.2]
    have hcondition : ¬(x.1 == "InnerClasses" && !omitted.innerClasses) = true := by simpa using h₆
    refine ⟨c, ?_, hnew rfl ?_ ?_ ?_ ?_ hv ?_ hsaid ?_⟩
    · simp [h₁, h₂, h₃, h₄, h₅, hcondition]
      rfl
    all_goals simp [h₁, h₂, h₃, h₄, h₅, h₆]

end Gathering

/-! ## What has been taken down in the end -/

section Gathered

variable {view view' : PoolView} (h : view.Mirrors view') {s : Sections} {raws : List RawAttribute}

include h

/-- All attributes of a class say what their payloads say by themselves. -/
theorem ClassAttributes.gathered (omitted : Omissions) {c₀ : ClassAttributes}
    (hraws : List.Forall₂ (RawAttribute.Holds · view'.bytes) raws s) (hd : s.Distinct Attribute.classNames)
    (hc₀ : s.classAttributes view = .ok c₀) :
    ∃ c, Image.classAttributes view' omitted raws = .ok c ∧ c.Gathered view omitted view'.bytes s :=
  Sections.exists_foldlM hraws (fun _ _ _ hs _ _ ha hc => hc.add h hs hc₀ (hs ▸ hd).fresh ha)
    ⟨⟨rfl, rfl, rfl, .nothing⟩, rfl, rfl, rfl, rfl, ⟨none, rfl, rfl⟩, by rw [List.lookup_nil, ite_self]; exact .nothing⟩

/-- All attributes of a field say what their payloads say by themselves. -/
theorem FieldAttributes.gathered {f₀ : FieldAttributes} (hraws : List.Forall₂ (RawAttribute.Holds · view'.bytes) raws s)
    (hd : s.Distinct Attribute.fieldNames) (hf₀ : s.fieldAttributes view = .ok f₀) :
    ∃ f, Image.fieldAttributes view' raws = .ok f ∧ f.Gathered view view'.bytes s :=
  Sections.exists_foldlM hraws (fun _ _ _ hs _ _ ha hf => hf.add h hs hf₀ (hs ▸ hd).fresh ha)
    ⟨⟨rfl, rfl, rfl, .nothing⟩, rfl⟩

/-- All attributes of a method say what their payloads say by themselves. -/
theorem MethodAttributes.gathered {m₀ : MethodAttributes} (hraws : List.Forall₂ (RawAttribute.Holds · view'.bytes) raws s)
    (hd : s.Distinct Attribute.methodNames) (hm₀ : s.methodAttributes view = .ok m₀) :
    ∃ m, Image.methodAttributes view' raws = .ok m ∧ m.Gathered view view'.bytes s :=
  Sections.exists_foldlM hraws (fun _ _ _ hs _ _ ha hm => hm.add h hs hm₀ (hs ▸ hd).fresh ha)
    ⟨⟨rfl, rfl, rfl, .nothing⟩, .nothing, ⟨none, rfl, rfl⟩, .nothing⟩

omit h

/-- Beside where annotations stand, attributes that have been taken down say what they say by themselves. -/
theorem CommonAttributes.Gathered.eq {b : Bytes} {c c₀ : CommonAttributes} (hc : c.Gathered view b s)
    (hc₀ : s.common view = .ok c₀) :
    c₀ = { c with annotations := none } := by
  unfold Sections.common at hc₀
  rw [hc.signature, ← hc.deprecated, ← hc.synthetic] at hc₀
  exact (Except.ok.inj hc₀).symm

/-- What payloads say by themselves is what the attributes of the class say, but for where they stand. -/
theorem ClassAttributes.Gathered.eq {omitted : Omissions} {b : Bytes} {c c₀ : ClassAttributes}
    (hc : c.Gathered view omitted b s) (hc₀ : s.classAttributes view = .ok c₀) :
    c₀ = { c with common := { c.common with annotations := none }, innerClasses := none } := by
  obtain ⟨common, hcommon, hc₀⟩ := exists_of_bind_eq_ok hc₀
  obtain ⟨v, hv, hmembers⟩ := hc.nestMembers
  rw [hc.sourceFile, ← hc.sourceDebug, hc.enclosing, hc.nestHost, hv, hc.common.eq hcommon] at hc₀
  rw [← Except.ok.inj hc₀, hmembers]

/-- What payloads say by themselves is what the attributes of the field say, but for where they stand. -/
theorem FieldAttributes.Gathered.eq {b : Bytes} {f f₀ : FieldAttributes} (hf : f.Gathered view b s)
    (hf₀ : s.fieldAttributes view = .ok f₀) : f₀ = { f with common := { f.common with annotations := none } } := by
  obtain ⟨common, hcommon, hf₀⟩ := exists_of_bind_eq_ok hf₀
  rw [hf.value, hf.common.eq hcommon] at hf₀
  exact (Except.ok.inj hf₀).symm

/-- What payloads say by themselves is what the attributes of the method say, but for where they stand. -/
theorem MethodAttributes.Gathered.eq {b : Bytes} {m m₀ : MethodAttributes} (hm : m.Gathered view b s)
    (hm₀ : s.methodAttributes view = .ok m₀) :
    m₀ = { m with common := { m.common with annotations := none }, code := none, parameterAnnotations := none } := by
  obtain ⟨common, hcommon, hm₀⟩ := exists_of_bind_eq_ok hm₀
  obtain ⟨v, hv, hexceptions⟩ := hm.exceptions
  rw [hv, hm.common.eq hcommon] at hm₀
  rw [← Except.ok.inj hm₀, hexceptions]

end Gathered

end ClassFile
