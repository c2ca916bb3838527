import ClassFile.Proofs.LabelledCode
import ClassFile.Proofs.RevisedAttributes

/-!
# Kinds of events

What a step tells if it succeeds may be of a kind (`Narration.TellsOnly`), whatever has been told before and whatever its
listener wants to hear of. Annotations are told by events of annotations, and code by events of code.
-/

namespace ClassFile

/-- All that a narration tells if it succeeds is of a kind. -/
def Narration.TellsOnly {α : Type} (P : Event → Prop) (x : Narration α) : Prop :=
  ∀ told a told', x.Goes told a told' → ∃ events, Says P events told told'

/-- All that a walk tells if it succeeds is of a kind. -/
def Walk.TellsOnly {α : Type} (P : Event → Prop) (w : Walk α) : Prop :=
  ∀ c, (w c).TellsOnly P

section Kinds

variable {α β : Type} {P Q : Event → Prop}

/-- One event that is told is one of its kind. -/
theorem says_singleton {e : Event} (h : P e) (told : Array Event) : Says P [e] told (told.push e) :=
  ⟨by simp, fun _ he => List.mem_singleton.1 he ▸ h⟩

namespace Narration

variable {x : Narration α} {f : α → Narration β}

/-- Events of one kind are events of any kind that takes it in. -/
theorem TellsOnly.mono (h : x.TellsOnly P) (hPQ : ∀ e, P e → Q e) : x.TellsOnly Q := by
  intro told a told' hgoes
  obtain ⟨events, htold, hkind⟩ := h told a told' hgoes
  exact ⟨events, htold, fun e he => hPQ e (hkind e he)⟩

/-- A narration that comes with a value at once tells nothing. -/
theorem tellsOnly_pure (a : α) : (pure a : Narration α).TellsOnly P := by
  intro told b told' hgoes
  obtain ⟨-, rfl⟩ := Goes.of_pure hgoes
  exact ⟨[], composes_says.nil told⟩

/-- A report of an event tells of its kind only. -/
theorem tellsOnly_report {e : Event} (h : P e) : (report e).TellsOnly P := by
  intro told a told' hgoes
  rw [Goes.of_report hgoes]
  exact ⟨[e], says_singleton h told⟩

/-- Two narrations one after the other tell of a kind only if both do. -/
theorem TellsOnly.bind (h : x.TellsOnly P) (hf : ∀ a, (f a).TellsOnly P) : (x >>= f).TellsOnly P := by
  intro told b told'' hgoes
  obtain ⟨a, told', hfirst, hsecond⟩ := hgoes.of_bind
  obtain ⟨events, hevents⟩ := h told a told' hfirst
  obtain ⟨events', hevents'⟩ := hf a told' b told'' hsecond
  exact ⟨events ++ events', composes_says.append hevents hevents'⟩

/-- A narration of which the events are known. -/
theorem Tells.tellsOnly {a : α} {events : List Event} (h : x.Tells events a) (hkind : ∀ e ∈ events, P e) :
    x.TellsOnly P := by
  intro told b told' hgoes
  obtain ⟨-, rfl⟩ := Prod.mk.inj ((h told).symm.trans hgoes)
  exact ⟨events, rfl, hkind⟩

end Narration

namespace Walk

variable {w : Walk α} {f : α → Walk β}

theorem tellsOnly_pure (a : α) : (pure a : Walk α).TellsOnly P :=
  fun c => Narration.tellsOnly_pure (a, c)

/-- Two walks one after the other tell of a kind only if both do. -/
theorem TellsOnly.bind (h : w.TellsOnly P) (hf : ∀ a, (f a).TellsOnly P) : (w >>= f).TellsOnly P :=
  fun c => Narration.TellsOnly.bind (x := w c) (f := fun r => f r.1 r.2) (h c) fun r => hf r.1 r.2

/-- A reader of which the values are known, and then a walk. -/
theorem tellsOnly_readThen {d : Decoder α} {R : α → Prop} (hd : d.Gives R) (hf : ∀ a, R a → (f a).TellsOnly P) :
    (read d >>= f).TellsOnly P := by
  intro c told b told' hgoes
  obtain ⟨a, c', told₁, hread, hrest⟩ := Goes.of_bind (w := read d) hgoes
  obtain ⟨hgives, rfl⟩ := hread.of_read
  exact hf a (hd c a c' hgives) c' told₁ b told' hrest

/-- Reading tells nothing. -/
theorem tellsOnly_read (d : Decoder α) : (read d).TellsOnly P := by
  rintro c told ⟨a, c'⟩ told' hgoes
  obtain ⟨-, rfl⟩ := Goes.of_read hgoes
  exact ⟨[], composes_says.nil told'⟩

/-- A walk that reports an event tells of its kind only. -/
theorem tellsOnly_report {e : Event} (h : P e) : (report e).TellsOnly P :=
  fun c => (Narration.tellsOnly_report h).bind fun _ => Narration.tellsOnly_pure ((), c)

/-- A report that may be left out tells of its event's kind only. -/
theorem tellsOnly_reportIf (heard : Bool) {e : Event} (h : P e) : (reportIf heard e).TellsOnly P := by
  cases heard with
  | true => exact tellsOnly_report h
  | false => exact tellsOnly_pure ()

/-- Asking whether something is wanted tells nothing. -/
theorem tellsOnly_wanted (heard : Bool) (wish : Wish) : (wanted heard wish).TellsOnly P := by
  intro c told r told' hgoes
  obtain ⟨-, rfl⟩ := Prod.mk.inj hgoes
  exact ⟨[], composes_says.nil told⟩

section Repeated

variable {w : Walk Unit}

/-- A walk that is repeated tells of no more than it does once. -/
theorem TellsOnly.times (h : w.TellsOnly P) (n : Nat) : (times w n).TellsOnly P := by
  induction n with
  | zero => exact tellsOnly_pure ()
  | succ n ih => exact h.bind fun _ => ih

/-- A walk behind a number tells of no more than it does once. -/
theorem TellsOnly.counted (h : w.TellsOnly P) : (counted w).TellsOnly P :=
  (tellsOnly_read Decoder.u16).bind fun n => h.times n.toNat

/-- A walk at an offset tells of no more than it does elsewhere. -/
theorem TellsOnly.walkAt (h : w.TellsOnly P) (view : PoolView) (offset : Option Nat) :
    (Image.walkAt view offset w).TellsOnly P := by
  cases offset with
  | none => exact Narration.tellsOnly_pure ()
  | some offset => exact (h ⟨view.bytes, offset⟩).bind fun _ => Narration.tellsOnly_pure ()

end Repeated

/-! ## Annotations -/

section Annotations

variable (view : PoolView) (interest : Interest)

/-- The elements of an annotation are told as parts of annotations only. -/
theorem tellsOnly_elementList {element : Walk Unit} (h : element.TellsOnly fun e => e.isNote = true) (heard : Bool) :
    (elementList heard element).TellsOnly fun e => e.isNote = true :=
  h.counted.bind fun _ => tellsOnly_reportIf heard rfl

/-- An element is told by events of annotations, at every depth. -/
theorem tellsOnly_element (depth : Nat) (named heard : Bool) :
    (element view interest depth named heard).TellsOnly fun e => e.isNote = true := by
  induction depth generalizing named heard with
  | zero =>
    refine (tellsOnly_read Decoder.position).bind fun position c told a told' hgoes => ?_
    cases hgoes
  | succ depth ih =>
    rw [element_succ]
    have hname : (elementName view named).TellsOnly fun e => e.isNote = true := by
      cases named with
      | true => exact (tellsOnly_read _).bind fun name => tellsOnly_pure (some name)
      | false => exact tellsOnly_pure none
    refine hname.bind fun name => (tellsOnly_read Decoder.u8).bind fun tag => ?_
    unfold elementBody
    split
    · exact .bind (tellsOnly_read _) fun descriptor => .bind (tellsOnly_reportIf heard rfl) fun _ =>
        .bind (tellsOnly_wanted heard _) fun heard =>
        tellsOnly_elementList (ih true heard) heard
    split
    · refine (tellsOnly_read _).bind fun values => ?_
      cases values with
      | some values => exact tellsOnly_reportIf heard rfl
      | none => exact .bind (tellsOnly_reportIf heard rfl) fun _ => .bind (tellsOnly_wanted heard _) fun heard =>
          tellsOnly_elementList (ih false heard) heard
    · exact tellsOnly_readThen (gives_simpleElement view name tag) fun e he => tellsOnly_reportIf heard he.1

/-- An annotation is told as parts of annotations only. -/
theorem tellsOnly_annotationItem {opened : String → Event} (hnote : ∀ descriptor, (opened descriptor).isNote = true) :
    (annotationItem view interest opened).TellsOnly fun e => e.isNote = true :=
  (tellsOnly_read _).bind fun descriptor => (tellsOnly_report (hnote descriptor)).bind fun _ =>
    (tellsOnly_wanted true _).bind fun heard =>
    tellsOnly_elementList (tellsOnly_element view interest _ true heard) heard

/-- Annotations are told as parts of annotations only. -/
theorem tellsOnly_annotationList : (annotationList view interest).TellsOnly fun e => e.isNote = true :=
  (tellsOnly_annotationItem view interest fun _ => rfl).counted

theorem tellsOnly_parameterLists (count : Nat) (parameter : UInt8) :
    (parameterLists view interest count parameter).TellsOnly fun e => e.isNote = true := by
  induction count generalizing parameter with
  | zero => exact tellsOnly_pure ()
  | succ count ih => exact (tellsOnly_annotationItem view interest fun _ => rfl).counted.bind fun _ => ih (parameter + 1)

/-- A table of annotations of parameters is told as parts of annotations only. -/
theorem tellsOnly_parameterAnnotations : (parameterAnnotations view interest).TellsOnly fun e => e.isNote = true :=
  (tellsOnly_read Decoder.u8).bind fun count => tellsOnly_parameterLists view interest count.toNat 0

end Annotations

end Walk

/-! ## Code -/

/-- Code is told by events of code, whatever is left out. -/
theorem Code.tellsOnly_narrate (view : PoolView) (omitted : Omissions) :
    (Code.narrate view omitted).TellsOnly fun e => e.isCode = true := by
  rintro c told ⟨⟨⟩, c'⟩ told' hgoes
  obtain ⟨code, t, scanned, items, caught, vs, -, -, hretold, rfl⟩ := exists_told hgoes
  refine ⟨_, rfl, isCode_narrate (fun e he => ?_) fun e he => ?_⟩
  · obtain ⟨range, -, hhandler⟩ := exists_of_forall₂ hretold.handlers he
    obtain ⟨⟨type, rfl⟩, -⟩ := hhandler
    exact ⟨_, _, _, type, rfl⟩
  · obtain ⟨v, -, rfl⟩ := List.mem_map.1 he
    exact ⟨_, _, _, _, _, _, rfl⟩

end Kinds

end ClassFile
