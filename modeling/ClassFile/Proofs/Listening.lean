import ClassFile.Image.Contents
import ClassFile.Proofs.AnnotationFormat
import ClassFile.Proofs.AttributeFormat
import ClassFile.Proofs.ClassPools

/-!
# Listening to a part of what is told

One who does not want to hear of what an event opens hears nothing until it is closed (`Interest.hear`). A walk with any
interest tells of just what is left of the events of a walk to one who wants to hear of all, and goes to the same place
(`Walk.follows_annotationList`): a level that nobody listens to is read to its end all the same.
-/

namespace ClassFile

/-! ## One who listens -/

/-- An event opens what another one closes. -/
def Event.opens : Event → Bool
  | .annotationOpen _ | .parameterAnnotationOpen .. | .elementNested .. | .elementArray _ | .fieldOpen
    .. | .methodOpen .. => true
  | _ => false

/-- An event closes what another one has opened. -/
def Event.closes : Event → Bool
  | .elementsClose | .fieldClose | .methodClose => true
  | _ => false

/-- An event tells of an annotation or of its elements. -/
def Event.isNote : Event → Bool
  | .annotationOpen _ | .parameterAnnotationOpen .. | .elementValue .. | .elementEnum
    .. | .elementNested .. | .elementArray _
  | .elementsClose => true
  | _ => false

/-- What one who listens has been told, and how many levels are open of what is not wanted. -/
structure Listener where
  told : Array Event := #[]
  unwanted : Nat := 0

namespace Interest

/-- Whether one who has been told of it wants to hear of what an event opens. -/
def wants (interest : Interest) (told : Array Event) : Event → Bool
  | .annotationOpen _ | .parameterAnnotationOpen .. => interest.annotations.grants told
  | .elementNested .. => interest.nested.grants told
  | .elementArray _ => interest.arrays.grants told
  | .fieldOpen .. => interest.fields.grants told
  | .methodOpen .. => interest.methods.grants told
  | _ => true

/-- One who listens is told of another event, if it is not part of what is not wanted. -/
def hear (interest : Interest) : Listener → Event → Listener
  | ⟨told, 0⟩, e => ⟨told.push e, if interest.wants (told.push e) e then 0 else 1⟩
  | ⟨told, n + 1⟩, e => ⟨told, if e.opens then n + 2 else if e.closes then n else n + 1⟩

/-- One who listens is told of events. -/
def hearAll (interest : Interest) (listener : Listener) (events : List Event) : Listener :=
  events.foldl interest.hear listener

/-- What is told of events, without the parts that are not wanted. -/
def prune (interest : Interest) (events : List Event) : List Event :=
  (interest.hearAll {} events).told.toList

/-- Events are heard one behind the other. -/
theorem hearAll_append (interest : Interest) (listener : Listener) (events events' : List Event) :
    interest.hearAll listener (events ++ events') = interest.hearAll (interest.hearAll listener events) events' :=
  List.foldl_append

/-- One who listens is told some of the events, in their order. -/
theorem exists_heard (interest : Interest) (listener : Listener) (events : List Event) :
    ∃ heard : List Event, heard.Sublist events ∧ (interest.hearAll listener events).told =
      listener.told ++ heard.toArray := by
  induction events generalizing listener with
  | nil => exact ⟨[], List.Sublist.slnil, Array.append_empty.symm⟩
  | cons e rest ih =>
    obtain ⟨heard, hsub, htold⟩ := ih (interest.hear listener e)
    obtain ⟨told, unwanted⟩ := listener
    cases unwanted with
    | zero => exact ⟨e :: heard, hsub.cons_cons e, htold.trans (by simp [hear])⟩
    | succ n => exact ⟨heard, hsub.cons e, htold⟩

/-- What is left of events comes in the order in which they were told. -/
theorem prune_sublist (interest : Interest) (events : List Event) : (interest.prune events).Sublist events := by
  obtain ⟨heard, hsub, htold⟩ := interest.exists_heard {} events
  rw [prune, htold]
  simpa using hsub

end Interest

/-- Events leave the level at which one listens as it was: all that they open is closed. Whoever hears them is told what is
wanted of them, and whoever does not is told nothing. -/
structure Pruned (interest : Interest) (heard : Bool) (events : List Event) (told told' : Array Event) : Prop where
  level : ∀ (before : Array Event) (n : Nat), interest.hearAll ⟨before, n + 1⟩ events = ⟨before, n + 1⟩
  tells : if heard then interest.hearAll ⟨told, 0⟩ events = ⟨told', 0⟩ else told' = told

/-- Events close the level at which one listens. -/
structure Closed (interest : Interest) (heard : Bool) (events : List Event) (told told' : Array Event) : Prop where
  level : ∀ (before : Array Event) (n : Nat), interest.hearAll ⟨before, n + 1⟩ events = ⟨before, n⟩
  tells : if heard then interest.hearAll ⟨told, 0⟩ events = ⟨told', 0⟩ else told' = told

section Levels

variable {interest : Interest} {heard : Bool} {events events' : List Event} {e : Event} {told told' told'' : Array Event}

theorem pruned_nil (interest : Interest) (heard : Bool) (told : Array Event) : Pruned interest heard [] told told :=
  ⟨fun _ _ => rfl, by split <;> rfl⟩

/-- What is left of events one behind the other is what is left of each. -/
theorem Pruned.append (h : Pruned interest heard events told told') (h' : Pruned interest heard events' told' told'') :
    Pruned interest heard (events ++ events') told told'' := by
  refine ⟨fun before n => by rw [Interest.hearAll_append, h.level, h'.level], ?_⟩
  cases heard with
  | false => exact h'.tells.trans h.tells
  | true =>
    have hfirst : interest.hearAll ⟨told, 0⟩ events = ⟨told', 0⟩ := h.tells
    have hsecond : interest.hearAll ⟨told', 0⟩ events' = ⟨told'', 0⟩ := h'.tells
    rw [if_pos rfl, Interest.hearAll_append, hfirst, hsecond]

/-- What one hears of an event. -/
def tellIf (heard : Bool) (told : Array Event) (e : Event) : Array Event :=
  if heard then told.push e else told

/-- An event that neither opens nor closes anything. -/
theorem pruned_singleton (ho : e.opens = false) (hc : e.closes = false) (told : Array Event) :
    Pruned interest heard [e] told (tellIf heard told e) := by
  have hwants : ∀ told, interest.wants told e = true := by
    intro told
    cases e <;> first | rfl | cases ho
  refine ⟨fun before n => ?_, ?_⟩
  · change (⟨before, if e.opens then n + 2 else if e.closes then n else n + 1⟩ : Listener) = _
    rw [ho, hc]
    rfl
  · cases heard with
    | false => rfl
    | true =>
      change (⟨told.push e, if interest.wants (told.push e) e then 0 else 1⟩ : Listener) = _
      rw [hwants]
      rfl

/-- An event that closes its level. -/
theorem closed_singleton (ho : e.opens = false) (hc : e.closes = true) (told : Array Event) :
    Closed interest heard [e] told (tellIf heard told e) := by
  have hwants : interest.wants (told.push e) e = true := by cases e <;> first | rfl | cases ho
  refine ⟨fun before n => ?_, ?_⟩
  · change (⟨before, if e.opens then n + 2 else if e.closes then n else n + 1⟩ : Listener) = _
    rw [ho, hc]
    rfl
  · cases heard with
    | false => rfl
    | true =>
      change (⟨told.push e, if interest.wants (told.push e) e then 0 else 1⟩ : Listener) = _
      rw [hwants]
      rfl

/-- Events and then some that close their level. -/
theorem Pruned.out (h : Pruned interest heard events told told') (h' : Closed interest heard events' told' told'') :
    Closed interest heard (events ++ events') told told'' := by
  refine ⟨fun before n => by rw [Interest.hearAll_append, h.level, h'.level], ?_⟩
  cases heard with
  | false => exact h'.tells.trans h.tells
  | true =>
    have hfirst : interest.hearAll ⟨told, 0⟩ events = ⟨told', 0⟩ := h.tells
    have hsecond : interest.hearAll ⟨told', 0⟩ events' = ⟨told'', 0⟩ := h'.tells
    rw [if_pos rfl, Interest.hearAll_append, hfirst, hsecond]

/-- An event that opens a level, and events that close it, which are heard if they are wanted. -/
theorem Closed.open (h : Closed interest (heard && interest.wants (tellIf heard told e) e) events
      (tellIf heard told e) told')
    (ho : e.opens = true) : Pruned interest heard (e :: events) told told' := by
  refine ⟨fun before n => ?_, ?_⟩
  · change interest.hearAll ⟨before, if e.opens then n + 2 else if e.closes then n else n + 1⟩ events = _
    rw [ho]
    exact h.level before (n + 1)
  · cases heard with
    | false => exact h.tells
    | true =>
      change interest.hearAll ⟨told.push e, if interest.wants (told.push e) e then 0 else 1⟩ events = ⟨told', 0⟩
      have htells := h.tells
      have hlevel := h.level
      change (if interest.wants (told.push e) e then interest.hearAll ⟨told.push e, 0⟩ events = ⟨told', 0⟩
        else told' = told.push e) at htells
      split at htells
      · rw [if_pos ‹_›]
        exact htells
      · rw [if_neg ‹_›, hlevel, htells]

end Levels

/-! ## Narrations beside each other -/

namespace Narration

variable {α β : Type}

/-- Whenever a narration succeeds, another one does so too with the same result, whatever has been told before. A relation
holds between the result, the events of the first one and what has been told before and after the second one. -/
def Follows (x₀ x : Narration α) (R : α → List Event → Array Event → Array Event → Prop) : Prop :=
  ∀ (before after : Array Event) (a : α), x₀.run.run before = (.ok a, after) → ∃ events : List Event,
    after = before ++ events.toArray ∧ ∀ told, ∃ told', x.run.run told = (.ok a, told') ∧ R a events told told'

/-- A relation that holds of no events, and of events one after the other. -/
structure Composes (R : List Event → Array Event → Array Event → Prop) : Prop where
  nil : ∀ told, R [] told told
  append : ∀ {events events' : List Event} {told told' told'' : Array Event}, R events told told' → R events' told' told'' →
    R (events ++ events') told told''

variable {x₀ x : Narration α} {f₀ f : α → Narration β} {R R' : α → List Event → Array Event → Array Event → Prop}

/-- A narration goes on only if what came before it did not fail. -/
theorem run_bind (x : Narration α) (f : α → Narration β) (before : Array Event) : (x >>= f).run.run before =
    match x.run.run before with
    | (.ok a, told) => (f a).run.run told
    | (.error e, told) => (.error e, told) := by
  change (match x.run.run before with
    | (r, told) => (ExceptT.bindCont f r : StateM (Array Event) _).run told) = _
  rcases x.run.run before with ⟨_ | _, _⟩ <;> rfl

/-- A narration that succeeds in two steps succeeds in both. -/
theorem exists_of_run_bind {before after : Array Event} {b : β} (h : (x >>= f).run.run before = (.ok b, after)) :
    ∃ a told, x.run.run before = (.ok a, told) ∧ (f a).run.run told = (.ok b, after) := by
  rw [run_bind] at h
  split at h
  · exact ⟨_, _, ‹_›, h⟩
  · cases h

/-- What a narration leaves of another one may be said more loosely. -/
theorem Follows.mono (h : Follows x₀ x R) (hR : ∀ a events told told', R a events told told' → R' a events told told') :
    Follows x₀ x R' := by
  intro before after a hrun
  obtain ⟨events, hafter, htells⟩ := h before after a hrun
  exact ⟨events, hafter, fun told => (htells told).imp fun told' h => ⟨h.1, hR _ _ _ _ h.2⟩⟩

/-- Two steps; what is known of the events of the first one may be used for the second one. -/
theorem Follows.bind {S : β → List Event → Array Event → Array Event → Prop} (h : Follows x₀ x R)
    (hf : ∀ a events, (∀ told, ∃ told', R a events told told') → Follows (f₀ a) (f a) fun b events' told' told'' =>
      ∀ told, R a events told told' → S b (events ++ events') told told'') : Follows (x₀ >>= f₀) (x >>= f) S := by
  intro before after b hrun
  obtain ⟨a, middle, hfirst, hsecond⟩ := exists_of_run_bind hrun
  obtain ⟨events, rfl, htells⟩ := h before middle a hfirst
  obtain ⟨events', rfl, htells'⟩ := hf a events (fun told => (htells told).imp fun _ h => h.2) _ after b hsecond
  refine ⟨events ++ events', by simp, fun told => ?_⟩
  obtain ⟨told', hrun, hR⟩ := htells told
  obtain ⟨told'', hrun', hS⟩ := htells' told'
  refine ⟨told'', ?_, hS told hR⟩
  rw [run_bind, hrun]
  exact hrun'

/-- A value that is changed in one of two narrations. -/
theorem follows_map {S : β → List Event → Array Event → Array Event → Prop} {r : Except Error α} {g : α → α}
    (h : ∀ a, Follows (f₀ a) (f (g a)) S) : Follows (liftM r >>= f₀) (liftM (r.map g) >>= f) S := by
  cases r with
  | ok a => exact h a
  | error e => exact fun before after b hrun => nomatch hrun

section Uniform

variable {R : List Event → Array Event → Array Event → Prop}

/-- What comes of a narration may be changed. -/
theorem Follows.returning (h : Follows x₀ x fun _ => R) (g : α → β) :
    Follows (x₀ >>= fun a => Pure.pure (g a)) (x >>= fun a => Pure.pure (g a)) fun _ => R := by
  refine h.bind fun a events _ before after b hrun => ?_
  obtain ⟨hresult, rfl⟩ := Prod.mk.inj hrun
  exact ⟨[], by simp, fun told' => ⟨told', congrArg (·, told') hresult, fun told h => (List.append_nil events).symm ▸ h⟩⟩

/-- What is told may also be passed over. -/
theorem Follows.passOver {x₀ x : Narration Unit} (h : Follows x₀ x fun _ => R) :
    Follows x₀ (Pure.pure ()) fun _ events told told' => told' = told ∧ ∃ heard heard', R events heard heard' := by
  intro before after a hrun
  obtain ⟨events, hafter, htells⟩ := h before after a hrun
  obtain ⟨heard', -, hR⟩ := htells #[]
  exact ⟨events, hafter, fun told => ⟨told, rfl, rfl, #[], heard', hR⟩⟩

/-- Narrations whose events are known. -/
theorem Tells.follows {a : α} {events kept : List Event} (h₀ : x₀.Tells events a) (h : x.Tells kept a)
    (hR : ∀ told, R events told (told ++ kept.toArray)) : Follows x₀ x fun _ => R := by
  intro before after b hrun
  obtain ⟨hresult, rfl⟩ := Prod.mk.inj ((h₀ before).symm.trans hrun)
  obtain rfl := Except.ok.inj hresult
  exact ⟨events, rfl, fun told => ⟨_, h told, hR told⟩⟩

/-- Reporting one event follows itself, as far as that event is concerned. -/
theorem follows_report {e : Event} (h : ∀ told, R [e] told (told.push e)) : Follows (report e) (report e) fun _ => R :=
  (Tells.report e).follows (Tells.report e) fun told => by simpa using h told

/-- A narration that comes with a value follows itself. -/
theorem follows_pure {a : α} (h : ∀ told, R [] told told) : Follows (Pure.pure a) (Pure.pure a) fun _ => R := by
  intro before after b hrun
  obtain ⟨hresult, rfl⟩ := Prod.mk.inj hrun
  exact ⟨[], by simp, fun told => ⟨told, congrArg (·, told) hresult, h told⟩⟩

/-- A narration that comes with a value follows itself in any way that composes. -/
theorem Composes.pure (hR : Composes R) (a : α) : Follows (Pure.pure a) (Pure.pure a) fun _ => R :=
  follows_pure hR.nil

/-- Narrations that follow others do so one after the other. -/
theorem Composes.bind (hR : Composes R) (h : Follows x₀ x fun _ => R) (hf : ∀ a, Follows (f₀ a) (f a) fun _ => R) :
    Follows (x₀ >>= f₀) (x >>= f) fun _ => R :=
  h.bind fun a _ _ => (hf a).mono fun _ _ _ _ hsecond _ hfirst => hR.append hfirst hsecond

/-- A value that may be missing. -/
theorem Composes.lift (hR : Composes R) (r : Except Error α) : Follows (liftM r) (liftM r) fun _ => R := by
  cases r with
  | ok a => exact hR.pure a
  | error e =>
    intro before after a hrun
    cases hrun

end Uniform

end Narration

/-- All values with which a reader comes have a property. -/
def Decoder.Gives {α : Type} (d : Decoder α) (P : α → Prop) : Prop :=
  ∀ c a c', d.Goes c a c' → P a

namespace Decoder

variable {α β : Type} {P : β → Prop}

/-- A reader that comes with a value at once gives it. -/
theorem Gives.pure {b : β} (h : P b) : Gives (Pure.pure b) P := by
  intro c a c' hgoes
  obtain ⟨rfl, -⟩ := Goes.of_pure hgoes
  exact h

/-- A reader whose values have a property, and then another one. -/
theorem Gives.andThen {d : Decoder α} {f : α → Decoder β} {Q : α → Prop} (h : d.Gives Q) (hf : ∀ a, Q a → (f a).Gives P) :
    (d >>= f).Gives P := by
  intro c b c'' hgoes
  obtain ⟨a, c', hfirst, hnext⟩ := hgoes.of_bind
  exact hf a (h c a c' hfirst) c' b c'' hnext

/-- What all later readers give is given whatever comes first. -/
theorem Gives.bind {d : Decoder α} {f : α → Decoder β} (h : ∀ a, (f a).Gives P) : (d >>= f).Gives P :=
  Gives.andThen (Q := fun _ => True) (fun _ _ _ _ => trivial) fun a _ => h a

/-- What a reader gives has the property wherever it is run. -/
theorem Gives.runAt {d : Decoder β} (h : d.Gives P) {bytes : Bytes} {offset : Nat} {b : β}
    (hrun : d.runAt bytes offset = .ok b) : P b := by
  obtain ⟨c', hgoes⟩ := Goes.of_runAt hrun
  exact h _ b c' hgoes

end Decoder

namespace Walk

open Decoder (Goes)
open Narration (Composes)

variable {α β : Type}

/-- Whenever a walk succeeds, another one does so too with the same result and at the same place. -/
def Follows (w₀ w : Walk α) (R : List Event → Array Event → Array Event → Prop) : Prop :=
  ∀ c, Narration.Follows (w₀ c) (w c) fun _ => R

section Composed

variable {w₀ w : Walk α} {f₀ f : α → Walk β} {R R' : List Event → Array Event → Array Event → Prop} (hR : Composes R)

/-- What a walk leaves of another one may be said more loosely. -/
theorem Follows.mono (h : w₀.Follows w R) (hR : ∀ events told told', R events told told' → R' events told told') :
    w₀.Follows w R' :=
  fun c => (h c).mono fun _ => hR

/-- A reader, and then walks that may depend on what has been read. -/
theorem follows_readThen {d : Decoder α} {c : Cursor} {R : β × Cursor → List Event → Array Event → Array Event → Prop}
    (h : ∀ a c', d.Goes c a c' → Narration.Follows (f₀ a c') (f a c') R) :
    Narration.Follows ((read d >>= f₀) c) ((read d >>= f) c) R := by
  cases hd : d c with
  | error e =>
    intro before after b hrun
    change (read d c >>= fun r => f₀ r.1 r.2).run.run before = _ at hrun
    unfold read at hrun
    rw [hd] at hrun
    cases hrun
  | ok r =>
    have hread : ∀ f : α → Walk β, (read d >>= f) c = f r.1 r.2 := by
      intro f
      change (read d c >>= fun r => f r.1 r.2) = _
      unfold read
      rw [hd]
      rfl
    rw [hread, hread]
    exact h r.1 r.2 hd

/-- A walk that follows another one does so from any offset. -/
theorem Follows.runAt {w₀ w : Walk Unit} (h : w₀.Follows w R) (bytes : Bytes) (offset : Nat) :
    Narration.Follows (w₀.runAt bytes offset) (w.runAt bytes offset) fun _ => R :=
  (h ⟨bytes, offset⟩).returning fun _ => ()

/-- A narration as part of a walk. -/
theorem follows_lift {x₀ x : Narration α} (h : x₀.Follows x fun _ => R) : (liftM x₀ : Walk α).Follows (liftM x) R :=
  fun c => h.returning fun a => (a, c)

include hR

/-- A walk that comes with a value follows itself. -/
theorem follows_pure (a : α) : Follows (Pure.pure a) (Pure.pure a) R :=
  fun c => hR.pure (a, c)

/-- Walks that follow others do so one after the other. -/
theorem Follows.bind (h : w₀.Follows w R) (hf : ∀ a, (f₀ a).Follows (f a) R) : (w₀ >>= f₀).Follows (w >>= f) R :=
  fun c => hR.bind (h c) fun r => hf r.1 r.2

/-- A reader, and then walks. -/
theorem follows_read (d : Decoder α) : Follows (read d) (read d) R := by
  intro c
  have hread : read d c = liftM (d c) := by
    unfold read
    cases d c <;> rfl
  rw [hread]
  exact hR.lift (d c)

/-- A walk that follows another one does so however often they are repeated. -/
theorem follows_times {w₀ w : Walk Unit} (h : w₀.Follows w R) (n : Nat) : (times w₀ n).Follows (times w n) R := by
  induction n with
  | zero => exact follows_pure hR ()
  | succ n ih => exact h.bind hR fun _ => ih

/-- A walk that follows another one does so behind a number. -/
theorem follows_counted {w₀ w : Walk Unit} (h : w₀.Follows w R) : (counted w₀).Follows (counted w) R :=
  (follows_read hR Decoder.u16).bind hR fun n => follows_times hR h n.toNat

/-- A walk that follows another one does so at any offset. -/
theorem Follows.walkAt {w₀ w : Walk Unit} (h : w₀.Follows w R) (view : PoolView) (offset : Option Nat) :
    Narration.Follows (Image.walkAt view offset w₀) (Image.walkAt view offset w) fun _ => R := by
  cases offset with
  | none => exact hR.pure ()
  | some offset => exact h.runAt view.bytes offset

end Composed

end Walk

/-- All events of a kind are told. -/
def Says (P : Event → Prop) (events : List Event) (told told' : Array Event) : Prop :=
  told' = told ++ events.toArray ∧ ∀ e ∈ events, P e

section Says

variable {P : Event → Prop}

/-- Events of one kind may be told one behind the other. -/
theorem composes_says : Narration.Composes (Says P) where
  nil told := ⟨by simp, nofun⟩
  append := by
    rintro events events' told _ _ ⟨rfl, h⟩ ⟨rfl, h'⟩
    exact ⟨by simp, fun e he => (List.mem_append.1 he).elim (h e) (h' e)⟩

namespace Walk

/-- A walk that reports an event of a kind follows itself. -/
theorem follows_report {e : Event} (h : P e) : (report e).Follows (report e) (Says P) :=
  follows_lift (Narration.follows_report fun told => ⟨by simp, fun _ he => List.mem_singleton.1 he ▸ h⟩)

/-- A walk that tells all of its events tells them whatever has been told before. -/
theorem Follows.tells {α : Type} {w : Walk α} (h : w.Follows w (Says P)) {c c' : Cursor} {a : α} {before after : Array Event}
    (hrun : (w c).run.run before = (.ok (a, c'), after)) :
    ∃ events : List Event, after = before ++ events.toArray ∧ w.Tells c events a c' ∧ ∀ e ∈ events, P e := by
  obtain ⟨events, hafter, htells⟩ := h c before after (a, c') hrun
  refine ⟨events, hafter, fun told => ?_, (htells #[]).elim fun _ h => h.2.2⟩
  obtain ⟨_, hrun', rfl, -⟩ := htells told
  exact hrun'

end Walk

end Says

/-! ## Levels that are heard or not -/

/-- What one hears, of events that are left in place of others. -/
def Hears (interest : Interest) (P : List Event → List Event → Prop) (heard : Bool) (events : List Event)
    (told told' : Array Event) : Prop :=
  ∃ kept, P events kept ∧ Pruned interest heard kept told told'

/-- What one hears of events that close a level, of events that are left in place of others. -/
def HearsOut (interest : Interest) (P : List Event → List Event → Prop) (heard : Bool) (events : List Event)
    (told told' : Array Event) : Prop :=
  ∃ kept, P events kept ∧ Closed interest heard kept told told'

/-- Events may be left in place of others piece by piece. -/
structure Piecewise (P : List Event → List Event → Prop) : Prop where
  nil : P [] []
  append : ∀ {events events' kept kept' : List Event},
    P events kept → P events' kept' → P (events ++ events') (kept ++ kept')

/-- An event that is left as it is. -/
inductive Lone (e : Event) : List Event → List Event → Prop where
  | intro : Lone e [e] [e]

/-- Events of two kinds, one behind the other, each with what is left of them. -/
inductive InTurn (P Q : List Event → List Event → Prop) : List Event → List Event → Prop where
  | intro {events events' kept kept' : List Event} (hP : P events kept) (hQ : Q events' kept') :
    InTurn P Q (events ++ events') (kept ++ kept')

section Hearing

variable {interest : Interest} {P Q : List Event → List Event → Prop} {heard : Bool}

/-- What is heard piece by piece may be heard one behind the other. -/
theorem Piecewise.composes (hP : Piecewise P) : Narration.Composes (Hears interest P heard) where
  nil told := ⟨[], hP.nil, pruned_nil interest heard told⟩
  append := fun ⟨_, hfirst, hpruned⟩ ⟨_, hsecond, hpruned'⟩ => ⟨_, hP.append hfirst hsecond, hpruned.append hpruned'⟩

/-- An event that opens and closes nothing is heard where one listens. -/
theorem hears_event {e : Event} (ho : e.opens = false) (hc : e.closes = false) (hP : P [e] [e]) (told : Array Event) :
    Hears interest P heard [e] told (tellIf heard told e) :=
  ⟨[e], hP, pruned_singleton ho hc told⟩

/-- An event that closes a level is heard, and ends it. -/
theorem hearsOut_event {e : Event} (ho : e.opens = false) (hc : e.closes = true) (told : Array Event) :
    HearsOut interest (Lone e) heard [e] told (tellIf heard told e) :=
  ⟨[e], .intro, closed_singleton ho hc told⟩

/-- What a level holds is told, and then what closes it. -/
theorem Narration.Follows.out {α β : Type} {x₀ x : Narration α} {f₀ f : α → Narration β}
    (h : x₀.Follows x fun _ => Hears interest P heard) (hf : ∀ a, (f₀ a).Follows (f a) fun _ => HearsOut interest Q heard) :
    (x₀ >>= f₀).Follows (x >>= f) fun _ => HearsOut interest (InTurn P Q) heard :=
  h.bind fun a _ _ => (hf a).mono fun _ _ _ _ ⟨_, hQ, hclosed⟩ _ ⟨_, hP, hpruned⟩ => ⟨_, .intro hP hQ, hpruned.out hclosed⟩

namespace Walk

/-- A report that may be left out tells what is heard of its event. -/
theorem run_reportIf (heard : Bool) (e : Event) (c : Cursor) (told : Array Event) :
    (reportIf heard e c).run.run told = (.ok ((), c), tellIf heard told e) := by
  cases heard <;> rfl

/-- An event is reported if someone listens. -/
theorem follows_reportIf {e : Event} {R : List Event → Array Event → Array Event → Prop}
    (h : ∀ told, R [e] told (tellIf heard told e)) :
    (report e).Follows (reportIf heard e) R := by
  intro c before after a hrun
  obtain ⟨hresult, rfl⟩ := Prod.mk.inj hrun
  obtain rfl := Except.ok.inj hresult
  exact ⟨[e], by simp, fun told => ⟨_, run_reportIf heard e c told, h told⟩⟩

/-- What a level holds is read, and the event that closes it is reported if someone listens. -/
theorem Follows.close {w₀ w : Walk Unit} {e : Event} (h : w₀.Follows w (Hears interest P heard)) (ho : e.opens = false)
    (hc : e.closes = true) : (do
      w₀
      report e).Follows (do
        w
        reportIf heard e) (HearsOut interest (InTurn P (Lone e)) heard) :=
  fun c => (h c).out fun r => follows_reportIf (hearsOut_event ho hc) r.2

/-- A level that is passed over if nobody listens. -/
theorem follows_ifHeard {x₀ x : Narration Unit} (h : x₀.Follows x fun _ => HearsOut interest P true) (heard : Bool) :
    (liftM x₀ : Walk Unit).Follows (if heard then liftM x else Pure.pure ()) (HearsOut interest P heard) := by
  cases heard with
  | true => exact follows_lift h
  | false =>
    refine (follows_lift h.passOver).mono ?_
    rintro events told _ ⟨rfl, _, _, kept, hP, hclosed⟩
    exact ⟨kept, hP, hclosed.level, rfl⟩

/-- A report behind a narration is part of the narration. -/
theorem lift_report (x : Narration Unit) (e : Event) : (do
      liftM x
      report e : Walk Unit) = liftM (do
        x
        Narration.report e) := by
  funext c
  change ((x >>= fun a => Pure.pure (a, c)) >>= fun r => Narration.report e >>= fun _ => Pure.pure ((), r.2)) =
    (x >>= fun _ => Narration.report e) >>= fun a => Pure.pure (a, c)
  rw [bind_assoc, bind_assoc]
  refine bind_congr fun _ => ?_
  rw [pure_bind]

/-- A level is opened, and what it holds is heard if it is wanted. -/
theorem follows_open {e : Event} {wish : Wish} (ho : e.opens = true)
    (hwish : ∀ told, interest.wants told e = wish.grants told)
    {body₀ body : Bool → Walk Unit} (h : ∀ heard, (body₀ true).Follows (body heard) (HearsOut interest P heard)) : (do
      report e
      body₀ (← wanted true true)).Follows (do
        reportIf heard e
        body (← wanted heard wish)) (Hears interest (InTurn (Lone e) P) heard) := by
  intro c before after a hrun
  change ((body₀ true) c).run.run (before.push e) = _ at hrun
  have hopened : ∀ told, ((do
      reportIf heard e
      body (← wanted heard wish) : Walk Unit) c).run.run told =
      (body (heard && interest.wants (tellIf heard told e) e) c).run.run (tellIf heard told e) := by
    intro told
    rw [hwish]
    cases heard <;> rfl
  obtain ⟨inner, rfl, -⟩ := h true c _ _ _ hrun
  refine ⟨e :: inner, by simp, fun told => ?_⟩
  obtain ⟨events, hevents, htells⟩ := h (heard && interest.wants (tellIf heard told e) e) c _ _ _ hrun
  obtain rfl : inner = events := by
    rw [Array.append_right_inj] at hevents
    simpa using hevents
  obtain ⟨told', hrun', inner', hinner, hclosed⟩ := htells (tellIf heard told e)
  exact ⟨told', (hopened told).trans hrun', [e] ++ inner', InTurn.intro Lone.intro hinner, hclosed.open ho⟩

end Walk

end Hearing

/-! ## Annotations -/

/-- Events of annotations, all of which are left. -/
def Notes (events kept : List Event) : Prop :=
  kept = events ∧ ∀ e ∈ events, e.isNote = true

theorem piecewise_notes : Piecewise Notes where
  nil := ⟨rfl, fun _ h => absurd h List.not_mem_nil⟩
  append := by
    rintro events events' _ _ ⟨rfl, h⟩ ⟨rfl, h'⟩
    exact ⟨rfl, fun e he => (List.mem_append.1 he).elim (h e) (h' e)⟩

/-- One event of an annotation is one that is left. -/
theorem notes_singleton {e : Event} (h : e.isNote = true) : Notes [e] [e] :=
  ⟨rfl, fun _ he => List.mem_singleton.1 he ▸ h⟩

namespace Walk

section Annotations

variable (view : PoolView) (interest : Interest)

/-- Elements of a level of their own. -/
theorem follows_elementList {w₀ w : Walk Unit} {heard : Bool} (h : w₀.Follows w (Hears interest Notes heard)) :
    (elementList true w₀).Follows (elementList heard w) (HearsOut interest Notes heard) := by
  refine ((follows_counted piecewise_notes.composes h).close rfl rfl).mono ?_
  rintro _ told told' ⟨_, ⟨hinner, ⟨⟩⟩, hclosed⟩
  exact ⟨_, piecewise_notes.append hinner (notes_singleton rfl), hclosed⟩

/-- An annotation or an array that is opened. -/
theorem follows_opened {e : Event} {wish : Wish} {heard : Bool} (hnote : e.isNote = true) (ho : e.opens = true)
    (hwish : ∀ told, interest.wants told e = wish.grants told) {body₀ body : Bool → Walk Unit}
    (h : ∀ heard, (body₀ true).Follows (body heard) (HearsOut interest Notes heard)) : (do
      report e
      body₀ (← wanted true true)).Follows (do
        reportIf heard e
        body (← wanted heard wish)) (Hears interest Notes heard) := by
  refine (follows_open ho hwish h).mono ?_
  rintro _ told told' ⟨_, ⟨⟨⟩, hinner⟩, hpruned⟩
  exact ⟨_, piecewise_notes.append (notes_singleton hnote) hinner, hpruned⟩

/-- A plain element is told by an event of its own. -/
theorem gives_simpleElement (name : Option String) (tag : UInt8) :
    (simpleElement view name tag).Gives fun e => e.isNote = true ∧ e.opens = false ∧ e.closes = false := by
  unfold simpleElement
  split
  · exact .bind fun _ => .bind fun _ => .pure ⟨rfl, rfl, rfl⟩
  split
  · exact .bind fun _ => .bind fun _ => .pure ⟨rfl, rfl, rfl⟩
  split
  · exact .bind fun _ => .bind fun _ => .pure ⟨rfl, rfl, rfl⟩
  split
  · exact .bind fun _ => .bind fun _ => .bind fun _ => .bind fun _ => .pure ⟨rfl, rfl, rfl⟩
  · exact .bind fun _ c e c' h => nomatch h

/-- The name of an element is read alike by all who listen. -/
theorem follows_elementName (named : Bool) {R : List Event → Array Event → Array Event → Prop} (hR : Narration.Composes R) :
    (elementName view named).Follows (elementName view named) R := by
  cases named with
  | true => exact (follows_read hR _).bind hR fun name => follows_pure hR (some name)
  | false => exact follows_pure hR none

/-- An element is read to its end whether it is heard or not, and what is heard of it is what is wanted. -/
theorem follows_element (depth : Nat) (named heard : Bool) : (element view {} depth named true).Follows
    (element view interest depth named heard) (Hears interest Notes heard) := by
  have hR : ∀ heard, Narration.Composes (Hears interest Notes heard) := fun _ => piecewise_notes.composes
  induction depth generalizing named heard with
  | zero => exact (follows_read (hR heard) Decoder.position).bind (hR heard) fun _ c before after a hrun => nomatch hrun
  | succ depth ih =>
    rw [element_succ, element_succ]
    refine (follows_elementName view named (hR heard)).bind (hR heard) fun name =>
      (follows_read (hR heard) Decoder.u8).bind (hR heard) fun tag => ?_
    unfold elementBody
    split
    · refine (follows_read (hR heard) _).bind (hR heard) fun descriptor => ?_
      exact follows_opened interest rfl rfl (fun _ => rfl) fun heard => follows_elementList interest (ih true heard)
    split
    · refine (follows_read (hR heard) _).bind (hR heard) fun values => ?_
      cases values with
      | some values => exact follows_reportIf (hears_event rfl rfl (notes_singleton rfl))
      | none =>
        exact follows_opened interest rfl rfl (fun _ => rfl) fun heard => follows_elementList interest (ih false heard)
    · refine fun c => follows_readThen fun e c' hread => ?_
      obtain ⟨hnote, ho, hc⟩ := gives_simpleElement view name tag c e c' hread
      exact follows_reportIf (hears_event ho hc (notes_singleton hnote)) c'

/-- Annotations are heard as far as they are wanted, whatever event opens them. -/
theorem follows_annotationItem {opened : String → Event} (hnote : ∀ descriptor, (opened descriptor).isNote = true)
    (ho : ∀ descriptor, (opened descriptor).opens = true)
    (hwish : ∀ descriptor told, interest.wants told (opened descriptor) = interest.annotations.grants told) :
    (annotationItem view {} opened).Follows (annotationItem view interest opened) (Hears interest Notes true) :=
  (follows_read piecewise_notes.composes _).bind piecewise_notes.composes fun descriptor =>
    follows_opened interest (hnote descriptor) (ho descriptor) (hwish descriptor) fun heard =>
      follows_elementList interest (follows_element view interest _ true heard)

/-- Who listens to annotations hears them without the parts that are not wanted. -/
theorem follows_annotationList :
    (annotationList view {}).Follows (annotationList view interest) (Hears interest Notes true) :=
  follows_counted piecewise_notes.composes (follows_annotationItem view interest (fun _ => rfl)
    (fun _ => rfl) fun _ _ => rfl)

/-- Who listens to the annotations of parameters hears them without the parts that are not wanted. -/
theorem follows_parameterLists (count : Nat) (parameter : UInt8) :
    (parameterLists view {} count parameter).Follows (parameterLists view interest count parameter)
      (Hears interest Notes true) := by
  induction count generalizing parameter with
  | zero => exact follows_pure piecewise_notes.composes ()
  | succ count ih =>
    exact (follows_counted piecewise_notes.composes
      (follows_annotationItem view interest (fun _ => rfl) (fun _ => rfl) fun _ _ => rfl)).bind
      piecewise_notes.composes fun _ => ih (parameter + 1)

/-- Who listens to a table of annotations of parameters hears it without the parts that are not wanted. -/
theorem follows_parameterAnnotations :
    (parameterAnnotations view {}).Follows (parameterAnnotations view interest) (Hears interest Notes true) :=
  (follows_read piecewise_notes.composes Decoder.u8).bind piecewise_notes.composes fun count =>
    follows_parameterLists view interest count.toNat 0

end Annotations

end Walk

end ClassFile
