import ClassFile.Proofs.ClassFormat
import ClassFile.Proofs.Listening
import ClassFile.Proofs.OmittedDebug

/-!
# A part of the contents of a class

What a reader leaves out, and what its listener does not want to hear of, is left out of the events that it tells
of a class, and nothing else changes (`Image.contents_filtered`): neither moves the reader, adds an event or
changes the order of the others.
-/

namespace ClassFile

open Narration (Composes)

/-! ## What is left of the events of a class -/

def Event.opensMethod : Event → Bool
  | .methodOpen .. => true
  | _ => false

def Event.closesMethod : Event → Bool
  | .methodClose => true
  | _ => false

namespace Omissions

/-- The labels that the code of a method uses, of events from behind the opening of the method on. -/
def methodLabels (events : List Event) : List Label :=
  (events.takeWhile (!·.closesMethod)).flatMap Event.usedLabels

/-- The labels that the code of the method uses to which an event belongs, if it opens the method or else in one
whose code uses given labels. -/
def labelsAt (used : List Label) (e : Event) (rest : List Event) : List Label :=
  if e.opensMethod then methodLabels rest else used

/-- What is left of events, in a method whose code uses given labels. -/
def keepFrom (omitted : Omissions) : List Label → List Event → List Event
  | _, [] => []
  | used, e :: rest =>
    if omitted.drops (labelsAt used e rest) e then omitted.keepFrom (labelsAt used e rest) rest
    else e :: omitted.keepFrom (labelsAt used e rest) rest

/-- What is left of the events of a class. -/
def keep (omitted : Omissions) (events : List Event) : List Event :=
  omitted.keepFrom [] events

/-- What is left of events comes in the order in which they were told. -/
theorem keepFrom_sublist (omitted : Omissions) (used : List Label) (events : List Event) :
    (omitted.keepFrom used events).Sublist events := by
  induction events generalizing used with
  | nil => exact List.Sublist.slnil
  | cons e rest ih =>
    unfold keepFrom
    split
    · exact (ih _).cons e
    · exact (ih _).cons_cons e

/-- Where no method is opened, what is left is what is not dropped. -/
theorem keepFrom_append (omitted : Omissions) {events : List Event} (h : ∀ e ∈ events, e.opensMethod = false)
    (used : List Label) (rest : List Event) :
    omitted.keepFrom used (events ++ rest) = events.filter (fun e => !omitted.drops used e) ++
      omitted.keepFrom used rest := by
  induction events with
  | nil => rfl
  | cons e events ih =>
    have hlabels : labelsAt used e (events ++ rest) = used := by simp [labelsAt, h e List.mem_cons_self]
    rw [List.cons_append, keepFrom, hlabels, ih fun e he => h e (List.mem_cons_of_mem _ he)]
    cases hd : omitted.drops used e <;> simp [hd]

end Omissions

/-- Events are left in place of others, whatever follows. -/
def Kept (omitted : Omissions) (events kept : List Event) : Prop :=
  ∀ used, ∃ used', ∀ rest, omitted.keepFrom used (events ++ rest) = kept ++ omitted.keepFrom used' rest

section Kept

variable {omitted : Omissions} {events : List Event}

theorem piecewise_kept (omitted : Omissions) : Piecewise (Kept omitted) where
  nil used := ⟨used, fun _ => rfl⟩
  append := by
    intro events events' kept kept' h h' used
    obtain ⟨used', hfirst⟩ := h used
    obtain ⟨used'', hsecond⟩ := h' used'
    exact ⟨used'', fun rest => by rw [List.append_assoc, hfirst, hsecond, List.append_assoc]⟩

/-- Events that are left whatever follows are the ones that are kept. -/
theorem Kept.keep_eq {kept : List Event} (h : Kept omitted events kept) : omitted.keep events = kept := by
  obtain ⟨used', hkept⟩ := h []
  have hall := hkept []
  rwa [List.append_nil, Omissions.keepFrom, List.append_nil] at hall

/-- Where no method is opened, what is left does not depend on the labels that a method uses. -/
theorem kept_of_filter {kept : List Event} (h : ∀ e ∈ events, e.opensMethod = false)
    (hkept : ∀ used, events.filter (fun e => !omitted.drops used e) = kept) : Kept omitted events kept :=
  fun used => ⟨used, fun rest => by rw [omitted.keepFrom_append h, hkept]⟩

/-- Events that are never left out are all kept. -/
theorem kept_all (h : ∀ e ∈ events, e.opensMethod = false) (hd : ∀ e ∈ events, ∀ used, omitted.drops used e = false) :
    Kept omitted events events :=
  kept_of_filter h fun used => List.filter_eq_self.2 fun e he => congrArg (!·) (hd e he used)

/-- Events that are always left out are not kept. -/
theorem kept_none (h : ∀ e ∈ events, e.opensMethod = false) (hd : ∀ e ∈ events, ∀ used, omitted.drops used e = true) :
    Kept omitted events [] :=
  kept_of_filter h fun used => List.filter_eq_nil_iff.2 fun e he => by simp [hd e he used]

/-- What tells of annotations opens no method. -/
theorem opensMethod_of_isNote {e : Event} (h : e.isNote = true) : e.opensMethod = false := by
  cases e <;> first | rfl | cases h

/-- What tells of annotations is not left out. -/
theorem drops_of_isNote {e : Event} (h : e.isNote = true) (used : List Label) : omitted.drops used e = false := by
  cases e <;> first | rfl | cases h

/-- Annotations are left as they are. -/
theorem Notes.kept {kept : List Event} (h : Notes events kept) : Kept omitted events kept := by
  obtain ⟨rfl, hnotes⟩ := h
  exact kept_all (fun e he => opensMethod_of_isNote (hnotes e he)) fun e he => drops_of_isNote (hnotes e he)

/-- An event that is always left, and opens no method. -/
theorem kept_singleton {e : Event} (h : e.opensMethod = false) (hd : ∀ used, omitted.drops used e = false) :
    Kept omitted [e] [e] :=
  kept_all (fun _ he => List.mem_singleton.1 he ▸ h) fun _ he => List.mem_singleton.1 he ▸ hd

/-- A field is left as it is. -/
theorem kept_field {access : UInt32} {name descriptor : String} {signature : Option String} {value : Option ConstantValue}
    {kept : List Event} (h : InTurn (Lone (.fieldOpen access name descriptor signature value))
      (InTurn Notes (Lone .fieldClose)) events kept) : Kept omitted events kept := by
  obtain ⟨⟨⟩, ⟨hnotes, ⟨⟩⟩⟩ := h
  have hpiece := piecewise_kept omitted
  exact hpiece.append (kept_singleton rfl fun _ => rfl) (hpiece.append hnotes.kept (kept_singleton rfl fun _ => rfl))

/-! ## Methods -/

/-- What is left of the events of code. -/
def Coded (omitted : Omissions) (events kept : List Event) : Prop :=
  kept = omitted.keepCode events ∧ ∀ e ∈ events, e.isCode = true

/-- What tells of code opens no method. -/
theorem opensMethod_of_isCode {e : Event} (h : e.isCode = true) : e.opensMethod = false := by
  cases e <;> first | rfl | cases h

theorem closesMethod_of_isNote {e : Event} (h : e.isNote = true) : e.closesMethod = false := by
  cases e <;> first | rfl | cases h

theorem closesMethod_of_isCode {e : Event} (h : e.isCode = true) : e.closesMethod = false := by
  cases e <;> first | rfl | cases h

/-- What tells of annotations uses no label. -/
theorem usedLabels_of_isNote {e : Event} (h : e.isNote = true) : e.usedLabels = [] := by
  cases e <;> first | rfl | cases h

/-- The labels of a method are those that its code uses. -/
theorem methodLabels_of_code {notes code : List Event} (hnotes : ∀ e ∈ notes, e.isNote = true)
    (hcode : ∀ e ∈ code, e.isCode = true) (rest : List Event) :
    Omissions.methodLabels (notes ++ (code ++ .methodClose :: rest)) = code.flatMap Event.usedLabels := by
  have hclose : List.takeWhile (fun e => !e.closesMethod) (.methodClose :: rest) = [] := rfl
  unfold Omissions.methodLabels
  rw [List.takeWhile_append_of_pos fun e he => by rw [closesMethod_of_isNote (hnotes e he)]; rfl,
    List.takeWhile_append_of_pos fun e he => by rw [closesMethod_of_isCode (hcode e he)]; rfl, hclose, List.append_nil,
    List.flatMap_append, List.flatMap_eq_nil_iff.2 fun e he => usedLabels_of_isNote (hnotes e he), List.nil_append]

/-- A method is left with what is left of its code. -/
theorem kept_method {access : UInt32} {name descriptor : String} {signature : Option String} {exceptions : List String}
    {kept : List Event} (h : InTurn (Lone (.methodOpen access name descriptor signature exceptions))
      (InTurn Notes (InTurn (Coded omitted) (Lone .methodClose))) events kept) : Kept omitted events kept := by
  obtain ⟨⟨⟩, ⟨⟨rfl, hnotes⟩, ⟨⟨rfl, hcode⟩, ⟨⟩⟩⟩⟩ := h
  rename_i notes code
  refine fun used => ⟨code.flatMap Event.usedLabels, fun rest => ?_⟩
  have hopen : omitted.keepFrom used (.methodOpen access name descriptor signature exceptions ::
    (notes ++ (code ++ .methodClose :: rest))) = .methodOpen access name descriptor signature exceptions ::
        omitted.keepFrom (code.flatMap Event.usedLabels) (notes ++ (code ++ .methodClose :: rest)) := by
    rw [← methodLabels_of_code hnotes hcode rest]
    rfl
  have hnotesKept : notes.filter (fun e => !omitted.drops (code.flatMap Event.usedLabels) e) = notes :=
    List.filter_eq_self.2 fun e he => by rw [drops_of_isNote (hnotes e he)]; rfl
  have hclose : omitted.keepFrom (code.flatMap Event.usedLabels) (.methodClose :: rest) =
      .methodClose :: omitted.keepFrom (code.flatMap Event.usedLabels) rest := rfl
  calc omitted.keepFrom used ([.methodOpen access name descriptor signature exceptions] ++
    (notes ++ (code ++ [.methodClose])) ++ rest) =
    omitted.keepFrom used (.methodOpen access name descriptor signature exceptions ::
          (notes ++ (code ++ .methodClose :: rest))) := by simp
    _ = [.methodOpen access name descriptor signature exceptions] ++ (notes ++ (omitted.keepCode code ++ [.methodClose])) ++
          omitted.keepFrom (code.flatMap Event.usedLabels) rest := by
        rw [hopen, omitted.keepFrom_append (fun e he => opensMethod_of_isNote (hnotes e he)), hnotesKept,
          omitted.keepFrom_append (fun e he => opensMethod_of_isCode (hcode e he)), hclose, Omissions.keepCode]
        simp

end Kept

/-! ## What a reader tells -/

/-- Events none of which opens or closes anything are all heard. -/
theorem pruned_all {interest : Interest} {events : List Event} (ho : ∀ e ∈ events, e.opens = false)
    (hc : ∀ e ∈ events, e.closes = false)
    (told : Array Event) : Pruned interest true events told (told ++ events.toArray) := by
  induction events generalizing told with
  | nil => exact Array.append_empty.symm ▸ pruned_nil interest true told
  | cons e rest ih =>
    have hfirst : Pruned interest true [e] told (tellIf true told e) :=
      pruned_singleton (ho e List.mem_cons_self) (hc e List.mem_cons_self) told
    have hrest := ih (fun e he => ho e (List.mem_cons_of_mem _ he))
      (fun e he => hc e (List.mem_cons_of_mem _ he)) (told.push e)
    have hall := hfirst.append hrest
    simpa using hall

section Contents

variable (view : PoolView) (omitted : Omissions) (interest : Interest)

/-- Nothing is left of code that is left out. -/
theorem Omissions.keepCode_nil {omitted : Omissions} (h : omitted.code = true) {events : List Event}
    (hcode : ∀ e ∈ events, e.isCode = true) :
    omitted.keepCode events = [] := by
  have hdrops : ∀ used e, Event.isCode e = true → omitted.drops used e = true := by
    intro used e he
    cases e <;> first | simp [Omissions.drops, h]; done | cases he
  exact List.filter_eq_nil_iff.2 fun e he => by simp [hdrops _ e (hcode e he)]

/-- Who leaves out parts of code hears the others. -/
theorem follows_narrate {omitted : Omissions} (hcode : omitted.code = false) :
    (Code.narrate view {}).Follows (Code.narrate view omitted) (Hears interest (Coded omitted) true) := by
  rintro c before after ⟨_, c'⟩ hrun
  obtain ⟨events, hafter, hkind, htells⟩ := Code.exists_of_narrate hcode hrun
  refine ⟨events, hafter, fun told => ⟨_, htells told, _, ⟨rfl, hkind⟩, pruned_all (fun e he => ?_) (fun e he => ?_) told⟩⟩
  · have hevent := hkind e (List.mem_of_mem_filter he)
    cases e <;> first | rfl | cases hevent
  · have hevent := hkind e (List.mem_of_mem_filter he)
    cases e <;> first | rfl | cases hevent

/-- Code tells what is left of it, or nothing if it is left out. -/
theorem follows_code (code : Option Nat) : (Image.walkAt view code (Code.narrate view {})).Follows
    (Image.walkAt view (if omitted.code then none else code) (Code.narrate view omitted)) fun _ =>
      Hears interest (Coded omitted) true := by
  cases code with
  | none =>
    rw [ite_self]
    exact Narration.follows_pure fun told => ⟨[], ⟨rfl, nofun⟩, pruned_nil interest true told⟩
  | some offset =>
    cases hcode : omitted.code with
    | false => exact (follows_narrate view interest hcode).runAt view.bytes offset
    | true =>
      have hall : (Code.narrate view {}).Follows (Code.narrate view {}) (Hears interest (Coded {}) true) :=
        follows_narrate view interest rfl
      refine (hall.runAt view.bytes offset).passOver.mono ?_
      rintro _ events _ told ⟨rfl, _, _, _, ⟨-, hkind⟩, -⟩
      exact ⟨[], ⟨(Omissions.keepCode_nil hcode hkind).symm, hkind⟩, pruned_nil interest true told⟩

/-- Who leaves out parts of a field hears the others. -/
theorem follows_field :
    (Image.narrateField view {}).Follows (Image.narrateField view interest) (Hears interest (Kept omitted) true) := by
  have hR : Composes (Hears interest (Kept omitted) true) := (piecewise_kept omitted).composes
  refine (Walk.follows_read hR _).bind hR fun access => (Walk.follows_read hR _).bind hR fun name =>
    (Walk.follows_read hR _).bind hR fun descriptor => (Walk.follows_read hR _).bind hR fun attributes =>
      (Walk.follows_read hR _).bind hR fun f => ?_
  refine (Walk.follows_open (P := InTurn Notes (Lone .fieldClose)) rfl (fun _ => rfl) fun heard => ?_).mono
    fun events told told' ⟨kept, hkept, hpruned⟩ => ⟨kept, kept_field hkept, hpruned⟩
  rw [Walk.lift_report, Walk.lift_report]
  refine Walk.follows_ifHeard (Narration.Follows.out ?_ fun _ => Narration.follows_report (hearsOut_event rfl rfl)) heard
  exact (Walk.follows_annotationList view interest).walkAt piecewise_notes.composes view _

/-- What a method holds is told with what is left of its code. -/
theorem follows_methodBody (m : MethodAttributes) : (Image.narrateMethodBody view {} {} m).Follows
    (Image.narrateMethodBody view omitted interest m) fun _ =>
      HearsOut interest (InTurn Notes (InTurn (Coded omitted) (Lone .methodClose))) true := by
  have hR : Composes (Hears interest Notes true) := piecewise_notes.composes
  have hnotes := (Walk.follows_annotationList view interest).walkAt hR view m.common.annotations
  have hparameters := (Walk.follows_parameterAnnotations view interest).walkAt hR view m.parameterAnnotations
  have hend := (follows_code view omitted interest m.code).out fun _ =>
    Narration.follows_report (e := .methodClose) (hearsOut_event rfl rfl)
  have hbody := (hR.bind hnotes fun _ => hparameters).out fun _ => hend
  rwa [bind_assoc, bind_assoc] at hbody

/-- Who leaves out parts of a method hears the others. -/
theorem follows_method (hcopies : interest.copies = none) : (Image.narrateMethod view {} {}).Follows
    (Image.narrateMethod view omitted interest) (Hears interest (Kept omitted) true) := by
  have hR : Composes (Hears interest (Kept omitted) true) := (piecewise_kept omitted).composes
  unfold Image.narrateMethod
  rw [hcopies]
  refine (Walk.follows_read hR _).bind hR fun access => (Walk.follows_read hR _).bind hR fun name =>
    (Walk.follows_read hR _).bind hR fun descriptor => (Walk.follows_read hR _).bind hR fun start =>
      (Walk.follows_read hR _).bind hR fun attributes => (Walk.follows_read hR _).bind hR fun stop =>
        (Walk.follows_read hR _).bind hR fun m => ?_
  refine (Walk.follows_open (P := InTurn Notes (InTurn (Coded omitted) (Lone .methodClose))) rfl (fun _ => rfl)
    fun heard => ?_).mono fun events told told' ⟨kept, hkept, hpruned⟩ => ⟨kept, kept_method hkept, hpruned⟩
  exact Walk.follows_ifHeard (follows_methodBody view omitted interest m) heard

/-! ### The class itself -/

/-- What the attributes of a class say, without the inner classes if they are left out. -/
def ClassAttributes.without (c : ClassAttributes) (omitted : Omissions) : ClassAttributes :=
  { c with innerClasses := if omitted.innerClasses then none else c.innerClasses }

/-- One more attribute of a class says the same, but for inner classes if they are left out. -/
theorem addClassAttribute_without (c : ClassAttributes) (a : RawAttribute) :
    Image.addClassAttribute view omitted (c.without omitted) a =
    (Image.addClassAttribute view {} c a).map (·.without omitted) := by
  have hread : ∀ {α : Type} (r : Except Error α) (f : ClassAttributes → α → ClassAttributes),
      (∀ v, f (c.without omitted) v = (f c v).without omitted) →
      (r >>= fun v => Except.ok (f (c.without omitted) v)) = (r >>= fun v => Except.ok (f c v)).map (·.without omitted) := by
    intro α r f hf
    cases r with
    | error e => rfl
    | ok v => exact congrArg Except.ok (hf v)
  unfold Image.addClassAttribute
  change (c.common.add view a >>= _) = (c.common.add view a >>= _).map _
  cases c.common.add view a with
  | error e => rfl
  | ok added =>
    cases added with
    | some common => rfl
    | none =>
      change (if _ then _ else _) = (if _ then _ else _ : Except Error ClassAttributes).map _
      split
      · exact hread _ (fun c file => { c with sourceFile := some file }) fun _ => rfl
      split
      · exact hread _ (fun c debug => { c with sourceDebug := some (ModifiedUtf8.decode debug) }) fun _ => rfl
      split
      · exact hread _ (fun c enclosing => { c with enclosing := some enclosing }) fun _ => rfl
      split
      · exact hread _ (fun c host => { c with nestHost := some host }) fun _ => rfl
      split
      · exact hread _ (fun c members => { c with nestMembers := c.nestMembers ++ members }) fun _ => rfl
      cases a.name == "InnerClasses" <;> cases h : omitted.innerClasses <;>
        simp [ClassAttributes.without, h, Except.map, pure, Except.pure]

/-- The attributes of a class say the same, but for inner classes if they are left out. -/
theorem classAttributes_without (attributes : List RawAttribute) : Image.classAttributes view omitted attributes =
    (Image.classAttributes view {} attributes).map (·.without omitted) := by
  have hfold : ∀ c : ClassAttributes, attributes.foldlM (Image.addClassAttribute view omitted) (c.without omitted) =
      (attributes.foldlM (Image.addClassAttribute view {}) c).map (·.without omitted) := by
    induction attributes with
    | nil => exact fun c => rfl
    | cons a rest ih =>
      intro c
      rw [List.foldlM_cons, List.foldlM_cons, addClassAttribute_without]
      cases Image.addClassAttribute view {} c a with
      | error e => rfl
      | ok c' => exact ih c'
  have hempty : ({} : ClassAttributes).without omitted = {} := by simp [ClassAttributes.without]
  have hstart := hfold {}
  rwa [hempty] at hstart

/-- What is reported of the attributes of a class, less what is left out. -/
theorem narrateClassAttributes_without (c : ClassAttributes) :
    Image.narrateClassAttributes view omitted interest (c.without omitted) = (do
    (c.events.filter fun e => !omitted.drops [] e).forM Narration.report
    Image.walkAt view c.common.annotations (Walk.annotationList view interest)
    Image.walkAt view (if omitted.innerClasses then none else c.innerClasses)
      (Walk.counted (Image.innerClassItem view))) := by
  obtain ⟨common, file, debug, enclosing, host, members, inner⟩ := c
  have hmembers : (members.toList.map Event.nestMember).filter (fun e => !omitted.drops [] e) =
    members.toList.map Event.nestMember :=
    List.filter_eq_self.2 fun e he => by
      obtain ⟨name, -, rfl⟩ := List.mem_map.1 he
      rfl
  unfold Image.narrateClassAttributes ClassAttributes.events ClassAttributes.without
  rw [List.filter_append, hmembers]
  cases hdebug : omitted.debug <;> cases file <;> cases debug <;> cases enclosing <;> cases host <;>
    simp [Omissions.drops, hdebug]

/-- What is reported of the attributes of a class stands outside of methods. -/
theorem class_of_mem_events {c : ClassAttributes} {e : Event} (he : e ∈ c.events) :
    (e.opens = false ∧ e.closes = false ∧ e.opensMethod = false) ∧ ∀ used, omitted.drops used e = omitted.drops [] e := by
  unfold ClassAttributes.events at he
  rw [List.mem_append, List.mem_append, List.mem_append] at he
  rcases he with ((he | he) | he) | he
  · split at he
    · exact List.mem_singleton.1 he ▸ ⟨⟨rfl, rfl, rfl⟩, fun _ => rfl⟩
    · cases he
  · rw [Option.mem_toList, Option.map_eq_some_iff] at he
    obtain ⟨enclosing, -, rfl⟩ := he
    exact ⟨⟨rfl, rfl, rfl⟩, fun _ => rfl⟩
  · rw [Option.mem_toList, Option.map_eq_some_iff] at he
    obtain ⟨host, -, rfl⟩ := he
    exact ⟨⟨rfl, rfl, rfl⟩, fun _ => rfl⟩
  · obtain ⟨name, -, rfl⟩ := List.mem_map.1 he
    exact ⟨⟨rfl, rfl, rfl⟩, fun _ => rfl⟩

/-- An inner class is read alike by all who listen. -/
theorem follows_innerClassItem {R : List Event → Array Event → Array Event → Prop} (hR : Composes R)
    (h : ∀ name outer inner access told, R [.innerClass name outer inner access] told
      (told.push (.innerClass name outer inner access))) :
    (Image.innerClassItem view).Follows (Image.innerClassItem view) R :=
  (Walk.follows_read hR _).bind hR fun name => (Walk.follows_read hR _).bind hR fun outer =>
    (Walk.follows_read hR _).bind hR fun inner =>
    (Walk.follows_read hR _).bind hR fun _ => Walk.follows_lift (Narration.follows_report (h name outer inner _))

/-- Inner classes are told unless they are left out. -/
theorem follows_innerClasses (found : Option Nat) :
    (Image.walkAt view found (Walk.counted (Image.innerClassItem view))).Follows
    (Image.walkAt view (if omitted.innerClasses then none else found) (Walk.counted (Image.innerClassItem view)))
    fun _ => Hears interest (Kept omitted) true := by
  have hR : Composes (Hears interest (Kept omitted) true) := (piecewise_kept omitted).composes
  cases h : omitted.innerClasses with
  | false =>
    have hitem := follows_innerClassItem view hR fun _ _ _ _ => hears_event rfl rfl (kept_singleton rfl fun _ => h)
    exact (Walk.follows_counted hR hitem).walkAt hR view found
  | true =>
    have hS : Composes (Says fun e => ∃ name outer inner access, e = .innerClass name outer inner access) := composes_says
    have hitem := follows_innerClassItem view hS fun name outer inner access told =>
      ⟨by simp, fun e he => ⟨name, outer, inner, access, List.mem_singleton.1 he⟩⟩
    refine ((Walk.follows_counted hS hitem).walkAt hS view found).passOver.mono ?_
    rintro _ events _ told ⟨rfl, _, _, -, hinner⟩
    refine ⟨[], kept_none (fun e he => ?_) (fun e he => ?_), pruned_nil interest true told⟩
    · obtain ⟨name, outer, inner, access, rfl⟩ := hinner e he
      rfl
    · obtain ⟨name, outer, inner, access, rfl⟩ := hinner e he
      exact fun _ => h

/-- The attributes of a class are told as far as they are not left out. -/
theorem follows_classAttributes (c : ClassAttributes) : (Image.narrateClassAttributes view {} {} c).Follows
    (Image.narrateClassAttributes view omitted interest (c.without omitted)) fun _ =>
      Hears interest (Kept omitted) true := by
  have hR : Composes (Hears interest (Kept omitted) true) := (piecewise_kept omitted).composes
  have hevents : (c.events.forM Narration.report).Follows
    ((c.events.filter fun e => !omitted.drops [] e).forM Narration.report)
      fun _ => Hears interest (Kept omitted) true := by
    refine (Narration.tells_forM _).follows (Narration.tells_forM _) fun told =>
      ⟨_, kept_of_filter (fun e he => ?_) fun used => ?_, pruned_all (fun e he => ?_) (fun e he => ?_) told⟩
    · exact (class_of_mem_events omitted he).1.2.2
    · exact List.filter_congr fun e he => by rw [(class_of_mem_events omitted he).2 used]
    · exact (class_of_mem_events omitted (List.mem_of_mem_filter he)).1.1
    · exact (class_of_mem_events omitted (List.mem_of_mem_filter he)).1.2.1
  have hnotes := (Walk.follows_annotationList view interest).walkAt piecewise_notes.composes view c.common.annotations
  rw [narrateClassAttributes_eq, narrateClassAttributes_without]
  exact hR.bind hevents fun _ => hR.bind (hnotes.mono fun _ _ _ _ ⟨kept, hkept, hpruned⟩ => ⟨kept, hkept.kept, hpruned⟩)
    fun _ => follows_innerClasses view omitted interest c.innerClasses

end Contents

namespace Image

/-- A class is told as far as it is not left out. -/
theorem follows_narrate (image : Image) (omitted : Omissions) {interest : Interest} (hcopies : interest.copies = none) :
    (image.narrate {} {}).Follows (image.narrate omitted interest) fun _ => Hears interest (Kept omitted) true := by
  have hR : Composes (Hears interest (Kept omitted) true) := (piecewise_kept omitted).composes
  unfold narrate
  refine hR.bind (hR.lift _) fun version => hR.bind (hR.lift _) fun name => hR.bind (hR.lift _) fun superName =>
    hR.bind (hR.lift _) fun interfaces => hR.bind (hR.lift _) fun access => hR.bind (hR.lift _) fun attributes => ?_
  rw [classAttributes_without image.pool omitted]
  exact Narration.follows_map fun c =>
    hR.bind (Narration.follows_report (hears_event rfl rfl (kept_singleton rfl fun _ => rfl))) fun _ =>
      hR.bind (follows_classAttributes image.pool omitted interest c) fun _ =>
        hR.bind (((Walk.follows_counted hR (follows_field image.pool omitted interest)).bind hR fun _ =>
          Walk.follows_counted hR (follows_method image.pool omitted interest hcopies)).runAt image.bytes _) fun _ =>
          Narration.follows_report (hears_event rfl rfl (kept_singleton rfl fun _ => rfl))

/-- A class of which a reader that leaves nothing out tells all to one who wants to hear of all: whatever is left out, and
whatever one who listens does not want to hear of, just what is left of these events is told, in the same order. -/
theorem contents_filtered {image : Image} {events : List Event} (h : image.contents {} {} = (.ok (), events))
    (omitted : Omissions) {interest : Interest} (hcopies : interest.copies = none) :
    image.contents omitted interest = (.ok (), interest.prune (omitted.keep events)) ∧
      (interest.prune (omitted.keep events)).Sublist events := by
  have hrun : (image.narrate {} {}).run.run #[] = (.ok (), events.toArray) := by
    obtain ⟨hresult, hevents⟩ := Prod.mk.inj h
    exact Prod.ext hresult (by rw [← hevents]; rfl)
  obtain ⟨all, hall, htells⟩ := image.follows_narrate omitted hcopies #[] _ () hrun
  obtain rfl : events = all := by simpa using hall
  obtain ⟨told, htold, kept, hkept, hpruned⟩ := htells #[]
  have hheard : interest.hearAll {} kept = ⟨told, 0⟩ := hpruned.tells
  refine ⟨?_, (interest.prune_sublist _).trans (omitted.keepFrom_sublist [] events)⟩
  rw [hkept.keep_eq, Interest.prune, hheard, contents, htold]

end Image

/-! ### A class with a line number -/

/-- A class with a field, and with a method that returns at once, of which a line is known. -/
def linedClass : Bytes :=
  #[202, 254, 186, 190, 0, 0, 0, 52, 0, 7,
    1, 0, 1, 65, 7, 0, 1, 1, 0, 1, 109, 1, 0, 3, 40, 41, 86, 1, 0, 4, 67, 111, 100, 101,
    1, 0, 15, 76, 105, 110, 101, 78, 117, 109, 98, 101, 114, 84, 97, 98, 108, 101,
    0, 33, 0, 2, 0, 0, 0, 0, 0, 1, 0, 0, 0, 3, 0, 1, 0, 0,
    0, 1, 0, 9, 0, 3, 0, 4, 0, 1, 0, 5, 0, 0, 0, 25,
    0, 0, 0, 0, 0, 0, 0, 1, 177, 0, 0, 0, 1, 0, 6, 0, 0, 0, 6, 0, 1, 0, 0, 0, 7, 0, 0]

def linedImage : Image where
  bytes := linedClass
  pool := { bytes := linedClass, offsets := #[0, 10, 14, 17, 21, 27, 34], stop := 52 }
  header := 52
  attributes := 111

/-- The labels and lines of the method. -/
def linedLabels : CodeLabels where
  labels := (∅ : Std.HashMap Int Label).insertIfNew 0 ⟨0, true⟩
  lines := (∅ : Std.HashMap Int UInt16).insert 0 7

def linedCode : List Event :=
  [.label ⟨0, true⟩, .lineNumber 7 ⟨0, true⟩, .instruction (.bare 177), .maxStack 0]

def linedEvents : List Event :=
  .header { major := 52, minor := 0 } 33 "A" none none [] :: .fieldOpen 0 "m" "A" none none :: .fieldClose ::
    .methodOpen 9 "m" "()V" none [] :: (linedCode ++ [.methodClose, .classClose])

section Lined

set_option maxRecDepth 4000

open Code

/-- In front of the only instruction stand its label and its line. -/
theorem labelEvents_lined : labelEvents linedLabels 0 = [.label ⟨0, true⟩, .lineNumber 7 ⟨0, true⟩] := by
  have hlabel : linedLabels.labels[(0 : Int)]? = some ⟨0, true⟩ := by
    rw [linedLabels, Std.HashMap.getElem?_insertIfNew]
    simp
  have hline : linedLabels.lines[(0 : Int)]? = some 7 := by simp [linedLabels]
  rw [labelEvents, Int.ofNat_zero, hlabel, hline]

/-- What is told of the code behind its handlers is its line and its instruction. -/
theorem tells_linedRest (c : Cursor) :
    (narrateRest linedImage.pool { labels := linedLabels } 94 1 0).Tells c linedCode () c := by
  have hend : endEvents linedLabels 1 = [] := by simp [endEvents, linedLabels]
  have hread : readInstruction linedImage.pool linedLabels 0 ⟨linedClass, 94⟩ = .ok (.bare 177, ⟨linedClass, 95⟩) := rfl
  have hinstructions : (narrateFrom linedImage.pool linedLabels 94 1 1).Tells ⟨linedClass, 94⟩
      [.label ⟨0, true⟩, .lineNumber 7 ⟨0, true⟩, .instruction (.bare 177)] () ⟨linedClass, 95⟩ := by
    unfold Walk.Tells
    rw [narrateFrom_succ, if_pos (by decide)]
    refine (tells_reportLabel linedLabels 0 ⟨linedClass, 94⟩).bind ?_
      (congrArg (· ++ [.instruction (.bare 177)]) labelEvents_lined)
    exact (Walk.Tells.read hread).bind ((Walk.Tells.report _).bind (Walk.Tells.pure ()) rfl) rfl
  refine (hinstructions.runAt.lift c).bind ((tells_reportEnd linedLabels 1 c).bind ?_ (congrArg (· ++ [.maxStack 0]) hend))
    rfl
  exact (Walk.Tells.pure ()).bind (Walk.Tells.report _) rfl

/-- What is told of the code is all that stands in its attribute. -/
theorem tells_linedCode : (Code.narrate linedImage.pool {}).Tells ⟨linedClass, 86⟩ linedCode () ⟨linedClass, 111⟩ := by
  have hfound : findLabels linedClass 94 1 = .ok {} := rfl
  have hhandlers : (handlers linedImage.pool 0 {}).Tells ⟨linedClass, 97⟩ [] {} ⟨linedClass, 97⟩ :=
    Walk.Tells.pure ({} : CodeLabels)
  have hattributes : Image.attributeTable linedImage.pool ⟨linedClass, 97⟩ =
      .ok ([⟨"LineNumberTable", 105, 6⟩], ⟨linedClass, 111⟩) := rfl
  have htables : DebugTables.addAttributes linedImage.pool false { labels := {} } [⟨"LineNumberTable", 105, 6⟩] =
      .ok { labels := linedLabels } := rfl
  rw [narrate_eq]
  refine .after (a := 0) rfl (.after (a := ()) rfl (.after (a := 1) rfl (.after (a := 94) rfl
    (.after (show (Decoder.skip 1).Goes ⟨linedClass, 94⟩ () ⟨linedClass, 95⟩ from rfl) (.known hfound ?_)))))
  exact .after (show Decoder.u16.Goes ⟨linedClass, 95⟩ 0 ⟨linedClass, 97⟩ from rfl)
    (hhandlers.bind (.after hattributes (.known htables (tells_linedRest _))) rfl)

/-- What is told of the method is its head and its code. -/
theorem tells_linedMethod : (Image.narrateMethod linedImage.pool {} {}).Tells ⟨linedClass, 72⟩
    (.methodOpen 9 "m" "()V" none [] :: (linedCode ++ [.methodClose])) () ⟨linedClass, 111⟩ := by
  have hattributes : Image.attributeTable linedImage.pool ⟨linedClass, 78⟩ =
    .ok ([⟨"Code", 86, 25⟩], ⟨linedClass, 111⟩) := rfl
  have hgathered : Image.methodAttributes linedImage.pool [⟨"Code", 86, 25⟩] = .ok { code := some 86 } := rfl
  have hbody : (Image.narrateMethodBody linedImage.pool {} {} { code := some 86 }).Tells (linedCode ++ [.methodClose]) () :=
    (Narration.Tells.pure ()).bind ((Narration.Tells.pure ()).bind
      (tells_linedCode.runAt.bind (Narration.Tells.report _) rfl) rfl) rfl
  refine .after (a := 9) rfl (.after (a := "m") rfl (.after (a := "()V") rfl ?_))
  refine .after (show Decoder.position.Goes ⟨linedClass, 78⟩ 78 ⟨linedClass, 78⟩ from rfl) (.after hattributes ?_)
  refine .after (a := 111) rfl (.known hgathered ?_)
  exact (Walk.Tells.report _).bind ((Walk.tells_wanted rfl _).bind (hbody.lift _) rfl) rfl

/-- What is told of the field is its head. -/
theorem tells_linedField : (Image.narrateField linedImage.pool {}).Tells ⟨linedClass, 62⟩
    [.fieldOpen 0 "m" "A" none none, .fieldClose] () ⟨linedClass, 70⟩ := by
  have hattributes : Image.attributeTable linedImage.pool ⟨linedClass, 68⟩ = .ok ([], ⟨linedClass, 70⟩) := rfl
  have hgathered : Image.fieldAttributes linedImage.pool [] = .ok {} := rfl
  have hend : (do
      liftM (Image.walkAt linedImage.pool none (Walk.annotationList linedImage.pool {}))
      Walk.report .fieldClose : Walk Unit).Tells ⟨linedClass, 70⟩ [.fieldClose] () ⟨linedClass, 70⟩ :=
    ((Narration.Tells.pure ()).lift _).bind (Walk.Tells.report _) rfl
  refine .after (a := 0) rfl (.after (a := "m") rfl (.after (a := "A") rfl ?_))
  refine .after (show (Image.attributeTable linedImage.pool).Goes ⟨linedClass, 68⟩ [] ⟨linedClass, 70⟩ from hattributes)
    (.known hgathered ?_)
  exact (Walk.Tells.report _).bind ((Walk.tells_wanted rfl _).bind hend rfl) rfl

/-- What is told of the members is the field and the method. -/
theorem tells_linedMembers : (Walk.runAt (do
    Walk.counted (Image.narrateField linedImage.pool {})
    Walk.counted (Image.narrateMethod linedImage.pool {} {})) linedClass 60).Tells
    (.fieldOpen 0 "m" "A" none none :: .fieldClose :: .methodOpen 9 "m" "()V" none [] :: (linedCode ++ [.methodClose]))
      () := by
  have hfields : (Walk.counted (Image.narrateField linedImage.pool {})).Tells ⟨linedClass, 60⟩
      [.fieldOpen 0 "m" "A" none none, .fieldClose] () ⟨linedClass, 70⟩ := by
    refine .after (show Decoder.u16.Goes ⟨linedClass, 60⟩ 1 ⟨linedClass, 62⟩ from rfl) ?_
    exact tells_linedField.bind (Walk.Tells.pure ()) rfl
  have hmethods : (Walk.counted (Image.narrateMethod linedImage.pool {} {})).Tells ⟨linedClass, 70⟩
      (.methodOpen 9 "m" "()V" none [] :: (linedCode ++ [.methodClose])) () ⟨linedClass, 111⟩ := by
    refine .after (show Decoder.u16.Goes ⟨linedClass, 70⟩ 1 ⟨linedClass, 72⟩ from rfl) ?_
    exact tells_linedMethod.bind (Walk.Tells.pure ()) rfl
  have hmembers := hfields.bind (f := fun _ => Walk.counted (Image.narrateMethod linedImage.pool {} {})) hmethods rfl
  exact hmembers.runAt

/-- What is told of the class are its header and its members. -/
theorem contents_lined : linedImage.contents {} {} = (.ok (), linedEvents) := by
  have hclass : (Image.narrateClassAttributes linedImage.pool {} {} {}).Tells [] () := Narration.Tells.pure ()
  have hheader := Narration.Tells.report (.header { major := 52, minor := 0 } 33 "A" none none [])
  have htells : (linedImage.narrate {} {}).Tells linedEvents () := by
    refine Narration.Tells.known (a := { major := 52, minor := 0 }) rfl (Narration.Tells.known (a := "A") rfl
      (Narration.Tells.known (a := none) rfl (Narration.Tells.known (a := []) rfl (Narration.Tells.known (a := 33) rfl
      (Narration.Tells.known (a := []) rfl (Narration.Tells.known (a := {}) rfl ?_))))))
    exact hheader.bind (hclass.bind (tells_linedMembers.bind (Narration.Tells.report .classClose) rfl) rfl) rfl
  unfold Image.contents
  rw [htells #[]]
  simp

/-- Without debug information, and to one who does not want to hear of fields, neither the line and its label nor
the end of the field is told. -/
theorem contents_filtered_lined : linedImage.contents { debug := true } { fields := false } =
    (.ok (), [.header { major := 52, minor := 0 } 33 "A" none none [], .fieldOpen 0 "m" "A" none none,
    .methodOpen 9 "m" "()V" none [],
      .instruction (.bare 177), .maxStack 0, .methodClose, .classClose]) :=
  (Image.contents_filtered contents_lined { debug := true } rfl).1

end Lined

end ClassFile
