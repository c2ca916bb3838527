import ClassFile.Proofs.Mirroring

/-!
# Telling of the same bytes elsewhere

What a walk tells hangs on what is left of the byte string, as what a reader finds does. Where a walk succeeds, it tells
the same at every cursor at which the same bytes come next (`Walk.Mirrors`). Annotations may be nested deeper there,
since the byte string may be longer.
-/

namespace ClassFile

/-! ## Narrations and walks that succeed -/

/-- A narration tells more behind what has been told and comes with a value. -/
def Narration.Goes {α : Type} (x : Narration α) (told : Array Event) (a : α) (told' : Array Event) : Prop :=
  x.run.run told = (.ok a, told')

/-- A walk goes from a cursor to another one, tells more behind what has been told and comes with a value. -/
def Walk.Goes {α : Type} (w : Walk α) (c : Cursor) (told : Array Event) (a : α) (c' : Cursor) (told' : Array Event) : Prop :=
  Narration.Goes (w c) told (a, c') told'

namespace Narration

variable {α β : Type} {x : Narration α} {f : α → Narration β} {a : α} {b : β} {told told' told'' : Array Event}

theorem Goes.pure (a : α) (told : Array Event) : Goes (Pure.pure a) told a told :=
  rfl

/-- A narration that comes with a value at once has told nothing. -/
theorem Goes.of_pure {a' : α} (h : Goes (Pure.pure a) told a' told') : a = a' ∧ told = told' :=
  ⟨Except.ok.inj (Prod.mk.inj h).1, (Prod.mk.inj h).2⟩

/-- A report tells its event and nothing else. -/
theorem Goes.of_report {e : Event} (h : (Narration.report e).Goes told () told') : told' = told.push e :=
  (Prod.mk.inj h).2.symm

/-- Narrations go one after the other. -/
theorem Goes.bind (h : x.Goes told a told') (hf : (f a).Goes told' b told'') : (x >>= f).Goes told b told'' := by
  unfold Goes
  rw [run_bind, h]
  exact hf

/-- Narrations one after the other have each gone. -/
theorem Goes.of_bind (h : (x >>= f).Goes told b told'') : ∃ a told', x.Goes told a told' ∧ (f a).Goes told' b told'' :=
  exists_of_run_bind h

/-- What is computed without telling tells nothing. -/
theorem Goes.lift {r : Except Error α} (h : r = .ok a) (told : Array Event) : Goes (liftM r) told a told := by
  rw [h]
  rfl

/-- What was computed without telling has told nothing. -/
theorem Goes.of_lift {r : Except Error α} (h : Goes (liftM r) told a told') : r = .ok a ∧ told' = told := by
  cases r with
  | ok b =>
    obtain ⟨rfl, rfl⟩ := Goes.of_pure h
    exact ⟨rfl, rfl⟩
  | error e => cases h

/-- A value that is known, and then a narration. -/
theorem Goes.known {r : Except Error α} (h : r = .ok a) (hf : (f a).Goes told b told'') :
    Goes (liftM r >>= f) told b told'' :=
  (Goes.lift h told).bind hf

/-- A narration behind something that is computed has gone from what was told before. -/
theorem Goes.of_known {r : Except Error α} (h : Goes (liftM r >>= f) told b told'') :
    ∃ a, r = .ok a ∧ (f a).Goes told b told'' := by
  obtain ⟨a, told', hlooked, hf⟩ := h.of_bind
  obtain ⟨hr, rfl⟩ := Goes.of_lift hlooked
  exact ⟨a, hr, hf⟩

end Narration

namespace Walk

variable {α β : Type} {w : Walk α} {f : α → Walk β} {a : α} {b : β} {c c' c'' : Cursor} {told told' told'' : Array Event}

theorem Goes.pure (a : α) (c : Cursor) (told : Array Event) : Goes (Pure.pure a) c told a c told :=
  rfl

/-- A walk that comes with a value at once has gone nowhere. -/
theorem Goes.of_pure {a' : α} (h : Goes (Pure.pure a) c told a' c' told') : a = a' ∧ c = c' ∧ told = told' := by
  obtain ⟨hresult, rfl⟩ := Narration.Goes.of_pure h
  obtain ⟨rfl, rfl⟩ := Prod.mk.inj hresult
  exact ⟨rfl, rfl, rfl⟩

/-- Walks go one after the other. -/
theorem Goes.bind (h : w.Goes c told a c' told') (hf : (f a).Goes c' told' b c'' told'') :
    (w >>= f).Goes c told b c'' told'' :=
  Narration.Goes.bind (x := w c) (f := fun r => f r.1 r.2) h hf

/-- Walks one after the other have each gone. -/
theorem Goes.of_bind (h : (w >>= f).Goes c told b c'' told'') :
    ∃ a c' told', w.Goes c told a c' told' ∧ (f a).Goes c' told' b c'' told'' :=
  exists_of_run_bind h

/-- Reading goes where the reader goes and tells nothing. -/
theorem Goes.read {d : Decoder α} (h : d.Goes c a c') (told : Array Event) : (read d).Goes c told a c' told := by
  unfold Goes Walk.read
  rw [show d c = _ from h]
  rfl

/-- A walk that reads has gone where the reader went and has told nothing. -/
theorem Goes.of_read {d : Decoder α} (h : (Walk.read d).Goes c told a c' told') : d.Goes c a c' ∧ told' = told := by
  cases hd : d c with
  | error e =>
    unfold Goes Walk.read at h
    rw [hd] at h
    cases h
  | ok r =>
    unfold Goes Walk.read at h
    rw [hd] at h
    obtain ⟨rfl, rfl⟩ := Narration.Goes.of_pure h
    exact ⟨hd, rfl⟩

/-- A report stays where it is and tells its event. -/
theorem Goes.report (e : Event) (c : Cursor) (told : Array Event) : (report e).Goes c told () c (told.push e) :=
  rfl

/-- A report has stayed where it was and has told its event. -/
theorem Goes.of_report {e : Event} {u : Unit} (h : (Walk.report e).Goes c told u c' told') :
    c = c' ∧ told' = told.push e := by
  obtain ⟨hresult, rfl⟩ := Prod.mk.inj h
  exact ⟨(Prod.mk.inj (Except.ok.inj hresult)).2, rfl⟩

/-- A narration as part of a walk. -/
theorem Goes.lift {x : Narration α} (h : x.Goes told a told') (c : Cursor) : Goes (liftM x) c told a c told' :=
  Narration.Goes.bind (f := fun a => Pure.pure (a, c)) h (Narration.Goes.pure (a, c) told')

/-- A walk that goes from an offset is a narration. -/
theorem Goes.runAt {w : Walk Unit} {bytes : Bytes} {offset : Nat} (h : w.Goes ⟨bytes, offset⟩ told () c told') :
    (w.runAt bytes offset).Goes told () told' :=
  Narration.Goes.bind (x := w ⟨bytes, offset⟩) (f := fun _ => Pure.pure ()) h rfl

/-- A walk that was run at an offset has gone from there. -/
theorem Goes.of_runAt {w : Walk Unit} {bytes : Bytes} {offset : Nat} (h : (w.runAt bytes offset).Goes told () told') :
    ∃ c, w.Goes ⟨bytes, offset⟩ told () c told' := by
  obtain ⟨⟨_, c⟩, told₁, hwalk, hpure⟩ := Narration.Goes.of_bind (x := w ⟨bytes, offset⟩) (f := fun _ => Pure.pure ()) h
  obtain ⟨-, rfl⟩ := Narration.Goes.of_pure hpure
  exact ⟨c, hwalk⟩

end Walk

/-! ## Walks elsewhere -/

/-- Where a narration succeeds, another one tells the same and comes with the same. -/
def Narration.Mirrors {α : Type} (x x' : Narration α) : Prop :=
  ∀ told a told', x.Goes told a told' → x'.Goes told a told'

namespace Walk

variable {α β : Type}

/-- Where a walk succeeds, another one tells the same and comes with the same wherever the same bytes come next. -/
def Mirrors (w w' : Walk α) : Prop :=
  ∀ c c' told a c₁ told', c.Matches c' → w.Goes c told a c₁ told' →
    ∃ n, c₁ = c.ahead n ∧ (c.ahead n).Matches (c'.ahead n) ∧ w'.Goes c' told a (c'.ahead n) told'

/-- A walk that reads nothing. -/
theorem mirrors_of_stays {w : Walk α} (h : ∀ told, ∃ a told', ∀ c, w.Goes c told a c told') : w.Mirrors w := by
  intro c c' told a c₁ told' hc hgoes
  obtain ⟨b, told'', hsame⟩ := h told
  obtain ⟨hresult, rfl⟩ := Prod.mk.inj (hgoes.symm.trans (hsame c))
  obtain ⟨rfl, rfl⟩ := Prod.mk.inj (Except.ok.inj hresult)
  exact ⟨0, rfl, hc, hsame c'⟩

theorem mirrors_pure (a : α) : Mirrors (Pure.pure a) (Pure.pure a) :=
  mirrors_of_stays fun told => ⟨a, told, fun _ => rfl⟩

/-- A report is the same wherever it is made. -/
theorem mirrors_report (e : Event) : (report e).Mirrors (report e) :=
  mirrors_of_stays fun told => ⟨(), told.push e, fun _ => rfl⟩

/-- A report that may be left out is the same wherever it is made. -/
theorem mirrors_reportIf (heard : Bool) (e : Event) : (reportIf heard e).Mirrors (reportIf heard e) :=
  mirrors_of_stays fun told => ⟨(), tellIf heard told e, fun c => run_reportIf heard e c told⟩

/-- What is wanted is the same wherever it is asked. -/
theorem mirrors_wanted (heard : Bool) (wish : Wish) : (wanted heard wish).Mirrors (wanted heard wish) :=
  mirrors_of_stays fun told => ⟨heard && wish.grants told, told, fun _ => rfl⟩

/-- Walks that read alike do so one after the other. -/
theorem Mirrors.bind {w w' : Walk α} {f f' : α → Walk β} (h : w.Mirrors w') (hf : ∀ a, (f a).Mirrors (f' a)) :
    (w >>= f).Mirrors (w' >>= f') := by
  intro c c' told b c₂ told₂ hc hgoes
  obtain ⟨a, c₁, told₁, hfirst, hsecond⟩ := hgoes.of_bind
  obtain ⟨m, rfl, hm, hfirst'⟩ := h c c' told a c₁ told₁ hc hfirst
  obtain ⟨n, rfl, hn, hsecond'⟩ := hf a _ _ told₁ b c₂ told₂ hm hsecond
  rw [Cursor.ahead_ahead, Cursor.ahead_ahead] at hn
  rw [Cursor.ahead_ahead] at hsecond' ⊢
  exact ⟨m + n, rfl, hn, hfirst'.bind hsecond'⟩

/-- Walks that read alike do so whichever is chosen. -/
theorem Mirrors.ite {p : Prop} [Decidable p] {w w' v v' : Walk α} (h : w.Mirrors w') (hv : v.Mirrors v') :
    (if p then w else v).Mirrors (if p then w' else v') := by
  split
  · exact h
  · exact hv

/-- Walks read alike where their readers do. -/
theorem mirrors_read {d d' : Decoder α} (h : d.Mirrors d') : (read d).Mirrors (read d') := by
  intro c c' told a c₁ told' hc hgoes
  obtain ⟨hd, rfl⟩ := hgoes.of_read
  obtain ⟨n, hn, hahead, hd'⟩ := h c c' a c₁ hc hd
  exact ⟨n, hn, hahead, Goes.read hd' _⟩

/-- Walks that read alike do so however often they are repeated. -/
theorem Mirrors.times {w w' : Walk Unit} (h : w.Mirrors w') (n : Nat) : (times w n).Mirrors (times w' n) := by
  induction n with
  | zero => exact mirrors_pure ()
  | succ n ih => exact h.bind fun _ => ih

/-- Walks that read alike do so behind a number. -/
theorem Mirrors.counted {w w' : Walk Unit} (h : w.Mirrors w') : (counted w).Mirrors (counted w') :=
  (mirrors_read Decoder.mirrors_u16).bind fun n => h.times n.toNat

/-- What is told where the same bytes come next. -/
theorem Mirrors.runAt {w w' : Walk Unit} (h : w.Mirrors w') {b b' : Bytes} {offset offset' : Nat}
    (hc : Cursor.Matches ⟨b, offset⟩ ⟨b', offset'⟩) : (w.runAt b offset).Mirrors (w'.runAt b' offset') := by
  intro told a told' hgoes
  obtain ⟨c₁, hwalk⟩ := Goes.of_runAt hgoes
  obtain ⟨n, -, -, hwalk'⟩ := h _ _ told () c₁ told' hc hwalk
  exact hwalk'.runAt

/-! ## Annotations -/

section Annotations

variable {view view' : PoolView} (h : view.Mirrors view') (interest : Interest)

include h

/-- The constant of a plain value is looked up alike. -/
theorem mirrors_ofTag (tag : UInt8) (i : PoolIndex) :
    Confirms (Primitive.ofTag view tag i) (Primitive.ofTag view' tag i) := by
  have hinteger : Confirms (view.integer i) (view'.integer i) := h.entry i fun _ => Decoder.mirrors_i32
  have hlong : Confirms (view.long i) (view'.long i) := h.entry i fun _ => Decoder.mirrors_i64
  have hfloat : Confirms (view.float i) (view'.float i) := h.entry i fun _ => Decoder.mirrors_u32
  have hdouble : Confirms (view.double i) (view'.double i) := h.entry i fun _ => Decoder.mirrors_u64
  unfold Primitive.ofTag
  refine .ite (hinteger.map _) (.ite (hinteger.map _)
    (.ite (hinteger.map _) (.ite (hinteger.map _) (.ite (hinteger.map _) ?_))))
  exact .ite (hlong.map _) (.ite (hfloat.map _) (hdouble.map _))

/-- A plain value is read alike wherever it stands. -/
theorem mirrors_plain (tag : UInt8) : Decoder.Mirrors (do Primitive.ofTag view tag (← Decoder.u16)) (do
    Primitive.ofTag view' tag (← Decoder.u16)) :=
  Decoder.mirrors_u16.bind fun i => Decoder.mirrors_lift (mirrors_ofTag h tag i)

/-- Whether an array is one of plain values is found out without moving on. -/
theorem mirrors_primitiveArray? : (primitiveArray? view).Mirrors (primitiveArray? view') := by
  have hnext : ∀ count, (plainNext count).Mirrors (plainNext count) := fun count =>
    (Decoder.mirrors_peek.bind fun _ => Decoder.mirrors_pure _).ite (Decoder.mirrors_pure false)
  rw [primitiveArray?_eq, primitiveArray?_eq]
  intro c c' r c₁ hc hgoes
  obtain ⟨start, c₂, hstart, hgoes⟩ := hgoes.of_bind
  obtain ⟨rfl, rfl⟩ := (Decoder.Goes.position c).unique hstart
  obtain ⟨count, c₃, hread, hgoes⟩ := hgoes.of_bind
  obtain ⟨plain, c₄, hplain, hgoes⟩ := hgoes.of_bind
  obtain ⟨m, rfl, hm, hread'⟩ := Decoder.mirrors_u16 c c' _ _ hc hread
  obtain ⟨n, rfl, hn, hplain'⟩ := hnext count _ _ _ _ hm hplain
  rw [Cursor.ahead_ahead] at hgoes hplain'
  rw [Cursor.ahead_ahead, Cursor.ahead_ahead] at hn
  cases plain with
  | true =>
    have hvalues : Decoder.Mirrors (do
        let values ← Decoder.many count.toNat (Primitive.read view)
        return values[0]?.map fun kind => PrimitiveArray.ofKind kind values.toList) (do
        let values ← Decoder.many count.toNat (Primitive.read view')
        return values[0]?.map fun kind => .ofKind kind values.toList) :=
      (Decoder.Mirrors.many (Decoder.mirrors_u8.bind fun tag => mirrors_plain h tag) _).bind fun _ => Decoder.mirrors_pure _
    obtain ⟨k, rfl, hk, hvalues'⟩ := hvalues _ _ _ _ hn hgoes
    rw [Cursor.ahead_ahead, Cursor.ahead_ahead] at hk
    rw [Cursor.ahead_ahead] at hvalues' ⊢
    exact ⟨m + n + k, rfl, hk, (Decoder.Goes.position c').bind (hread'.bind (hplain'.bind hvalues'))⟩
  | false =>
    obtain ⟨_, c₅, hseek, hgoes⟩ := hgoes.of_bind
    obtain ⟨rfl, rfl⟩ := Decoder.Goes.of_pure hgoes
    obtain ⟨-, rfl⟩ := Prod.mk.inj (Except.ok.inj hseek)
    have hback : Decoder.Goes (Decoder.seek c'.position) (c'.ahead (m + n)) () c' := rfl
    exact ⟨0, rfl, hc, (Decoder.Goes.position c').bind (hread'.bind (hplain'.bind (hback.bind (Decoder.Goes.pure none c'))))⟩

/-- An element that holds no others is read alike wherever it stands. -/
theorem mirrors_simpleElement (name : Option String) (tag : UInt8) :
    (simpleElement view name tag).Mirrors (simpleElement view' name tag) := by
  have hvalue : ∀ {γ : Type} {x x' : PoolIndex → Except Error γ} {f f' : γ → Decoder Event}, (∀ i, Confirms (x i) (x' i)) →
      (∀ a, (f a).Mirrors (f' a)) → Decoder.Mirrors (do f (← x (← Decoder.u16))) (do f' (← x' (← Decoder.u16))) :=
    fun hx hf => Decoder.mirrors_u16.bind fun i => (Decoder.mirrors_lift (hx i)).bind hf
  unfold simpleElement
  refine .ite (hvalue (mirrors_ofTag h tag) fun _ => Decoder.mirrors_pure _) ?_
  refine .ite (hvalue h.utf8 fun _ => Decoder.mirrors_pure _) (.ite (hvalue h.utf8 fun _ => Decoder.mirrors_pure _) ?_)
  refine .ite (hvalue h.utf8 fun _ => hvalue h.utf8 fun _ => Decoder.mirrors_pure _) ?_
  exact fun _ _ _ _ _ hgoes => nomatch hgoes

omit h in
theorem mirrors_elementList (heard : Bool) {w w' : Walk Unit} (hw : w.Mirrors w') :
    (elementList heard w).Mirrors (elementList heard w') :=
  hw.counted.bind fun _ => mirrors_reportIf heard _

theorem mirrors_elementName (named : Bool) : (elementName view named).Mirrors (elementName view' named) :=
  ((mirrors_read h.nextText).bind fun _ => mirrors_pure _).ite (mirrors_pure none)

/-- An element that is read with some depth is read with any greater one. -/
theorem mirrors_element {depth depth' : Nat} (hdepth : depth ≤ depth') (named heard : Bool) :
    (element view interest depth named heard).Mirrors (element view' interest depth' named heard) := by
  induction depth generalizing depth' named heard with
  | zero => exact fun _ _ _ _ _ _ _ hgoes => nomatch hgoes
  | succ depth ih =>
    obtain ⟨depth', rfl⟩ := Nat.exists_eq_succ_of_ne_zero (Nat.ne_of_gt (Nat.lt_of_lt_of_le (Nat.succ_pos depth) hdepth))
    have hinner := fun named heard => ih (Nat.le_of_succ_le_succ hdepth) named heard
    rw [element_succ, element_succ]
    refine (mirrors_elementName h named).bind fun name => (mirrors_read Decoder.mirrors_u8).bind fun tag => ?_
    unfold elementBody
    refine .ite ?_ (.ite ?_ ?_)
    · exact (mirrors_read h.nextText).bind fun _ => (mirrors_reportIf heard _).bind fun _ =>
        (mirrors_wanted heard interest.nested).bind fun heard => mirrors_elementList heard (hinner true heard)
    · refine (mirrors_read (mirrors_primitiveArray? h)).bind fun values => ?_
      cases values with
      | some values => exact mirrors_reportIf heard _
      | none =>
        exact (mirrors_reportIf heard _).bind fun _ => (mirrors_wanted heard interest.arrays).bind fun heard =>
          mirrors_elementList heard (hinner false heard)
    · exact (mirrors_read (mirrors_simpleElement h name tag)).bind fun e => mirrors_reportIf heard e

theorem mirrors_annotationItem (opened : String → Event) :
    (annotationItem view interest opened).Mirrors (annotationItem view' interest opened) :=
  (mirrors_read h.nextText).bind fun _ => (mirrors_report _).bind fun _ => (mirrors_wanted true interest.annotations).bind
    fun heard => mirrors_elementList heard (mirrors_element h interest (Nat.succ_le_succ h.size) true heard)

theorem mirrors_annotationList : (annotationList view interest).Mirrors (annotationList view' interest) :=
  (mirrors_annotationItem h interest _).counted

theorem mirrors_parameterLists (count : Nat) (parameter : UInt8) :
    (parameterLists view interest count parameter).Mirrors (parameterLists view' interest count parameter) := by
  induction count generalizing parameter with
  | zero => exact mirrors_pure ()
  | succ count ih => exact (mirrors_annotationItem h interest _).counted.bind fun _ => ih (parameter + 1)

theorem mirrors_parameterAnnotations : (parameterAnnotations view interest).Mirrors (parameterAnnotations view' interest) :=
  (mirrors_read Decoder.mirrors_u8).bind fun count => mirrors_parameterLists h interest count.toNat 0

omit interest in
theorem mirrors_innerClasses : (counted (Image.innerClassItem view)).Mirrors (counted (Image.innerClassItem view')) := by
  refine Mirrors.counted ((mirrors_read h.nextTypeName).bind fun name => ?_)
  refine (mirrors_read (Decoder.mirrors_u16.bind fun i => Decoder.mirrors_lift (h.typeName? i))).bind fun outer => ?_
  refine (mirrors_read (Decoder.mirrors_u16.bind fun i => Decoder.mirrors_lift (h.utf8? i))).bind fun inner => ?_
  exact (mirrors_read Decoder.mirrors_u16).bind fun access => mirrors_report _

end Annotations

end Walk

end ClassFile
