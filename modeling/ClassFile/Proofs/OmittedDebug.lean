import ClassFile.Proofs.AttributeFormat
import ClassFile.Proofs.CodeScanning

/-!
# Code without its debug information

A label belongs to the debug information alone if no instruction leads to it and no exception handler names it. When a reader
leaves out debug information, the code is told as it is with that information, less the lines and local variables and the
labels that belong to them alone (`Code.follows_narrate`).
-/

namespace ClassFile

open Decoder (Goes)

/-! ## What is left out -/

/-- An event tells of the code of a method. -/
def Event.isCode : Event → Bool
  | .instruction _ | .label _ | .tryCatch .. | .localVariable .. | .lineNumber .. | .maxStack _ => true
  | _ => false

/-- The labels to which code leads or which it names. -/
def Event.usedLabels : Event → List Label
  | .instruction i => i.labels
  | .tryCatch start stop handler _ => [start, stop, handler]
  | _ => []

/-- Whether an event is left out, in a method whose code uses given labels. -/
def Omissions.drops (omitted : Omissions) (used : List Label) : Event → Bool
  | .source .. => omitted.debug
  | .lineNumber .. | .localVariable .. => omitted.code || omitted.debug
  | .label l => omitted.code || (omitted.debug && !used.contains l)
  | .instruction _ | .tryCatch .. | .maxStack _ => omitted.code
  | .innerClass .. => omitted.innerClasses
  | _ => false

/-- What is left of the events of code. -/
def Omissions.keepCode (omitted : Omissions) (events : List Event) : List Event :=
  events.filter fun e => !omitted.drops (events.flatMap Event.usedLabels) e

/-! ## Labels -/

namespace CodeLabels

/-- Labels have grown by those that are used. -/
structure Uses (ls later : CodeLabels) (used : List Label) : Prop where
  keeps : ls.Keeps later
  marked : ∀ l ∈ used, later.labels[l.id]? = some l
  new : ∀ (offset : Int) (l : Label), later.labels[offset]? = some l → ls.labels[offset]? = some l ∨ l ∈ used
  lines : later.lines = ls.lines

variable {ls later last : CodeLabels} {used used' : List Label}

theorem Uses.refl (ls : CodeLabels) : ls.Uses ls [] :=
  ⟨Keeps.refl ls, nofun, fun _ _ h => .inl h, rfl⟩

/-- Which labels are used does not depend on how often they are named. -/
theorem Uses.congr (h : ls.Uses later used) (hused : ∀ l, l ∈ used ↔ l ∈ used') : ls.Uses later used' where
  keeps := h.keeps
  marked l hl := h.marked l ((hused l).2 hl)
  new offset l hl := (h.new offset l hl).imp_right (hused l).1
  lines := h.lines

/-- Labels that grow twice by those used have grown by all of them. -/
theorem Uses.trans (h : ls.Uses later used) (h' : later.Uses last used') : ls.Uses last (used ++ used') where
  keeps := h.keeps.trans h'.keeps
  marked l hl := by
    rcases List.mem_append.1 hl with hl | hl
    · exact h'.keeps _ _ (h.marked l hl)
    · exact h'.marked l hl
  new offset l hl := by
    rcases h'.new offset l hl with hold | hnew
    · exact (h.new offset l hold).imp_right (List.mem_append_left used')
    · exact .inr (List.mem_append_right used hnew)
  lines := h'.lines.trans h.lines

/-- A label that is there was there before or is the one that was made. -/
theorem getElem?_mark (ls : CodeLabels) (debug : Bool) (offset o : Int) {l : Label}
    (h : (ls.mark debug offset).labels[o]? = some l) : ls.labels[o]? = some l ∨ (o = offset ∧ l = ⟨offset, debug⟩) := by
  unfold mark at h
  rw [Std.HashMap.getElem?_insertIfNew] at h
  split at h
  · rename_i hc
    obtain rfl : offset = o := by simpa using hc.1
    exact .inr ⟨rfl, (Option.some.inj h).symm⟩
  · exact .inl h

/-- Where no label serves debug information, each offset has the label that a jump leads to. -/
theorem Plain.get (h : ls.Plain) (offset : Int) : ls.get offset = ⟨offset, false⟩ := by
  unfold CodeLabels.get
  rw [Std.HashMap.getD_eq_getD_getElem?]
  cases hl : ls.labels[offset]? with
  | none => rfl
  | some l => exact h offset l hl

/-- One more label that a jump leads to is one that is used. -/
theorem Plain.uses_mark (h : ls.Plain) (offset : Int) : ls.Uses (ls.mark false offset) [⟨offset, false⟩] where
  keeps := ls.keeps_mark false offset
  marked l hl := by
    obtain rfl := List.mem_singleton.1 hl
    obtain ⟨l, hl⟩ := Option.isSome_iff_exists.1 (ls.mem_mark false offset)
    rw [hl, h.mark offset offset l hl]
  new o l hl := (ls.getElem?_mark false offset o hl).imp_right fun h => List.mem_singleton.2 h.2
  lines := rfl

/-- Labels that jumps lead to are labels that are used. -/
theorem Plain.uses_markAll (h : ls.Plain) (offsets : List Int) :
    ls.Uses (ls.markAll false offsets) (offsets.map (⟨·, false⟩)) := by
  induction offsets generalizing ls with
  | nil => exact Uses.refl ls
  | cons offset rest ih => exact (h.uses_mark offset).trans (ih (h.mark offset))

/-- Labels have grown by some that serve debug information only. -/
structure Debugs (ls later : CodeLabels) : Prop where
  keeps : ls.Keeps later
  new : ∀ (offset : Int) (l : Label), later.labels[offset]? = some l → ls.labels[offset]? = some l ∨ l = ⟨offset, true⟩

theorem Debugs.refl (ls : CodeLabels) : ls.Debugs ls :=
  ⟨Keeps.refl ls, fun _ _ h => .inl h⟩

/-- A label that serves debug information only may be made. -/
theorem Debugs.mark (h : ls.Debugs later) (offset : Int) : ls.Debugs (later.mark true offset) where
  keeps := h.keeps.trans (later.keeps_mark true offset)
  new o l hl := by
    rcases later.getElem?_mark true offset o hl with hold | ⟨rfl, rfl⟩
    · exact h.new o l hold
    · exact .inr rfl

/-- Labels that serve debug information only may be made. -/
theorem Debugs.markAll (h : ls.Debugs later) (offsets : List Int) : ls.Debugs (later.markAll true offsets) := by
  induction offsets generalizing later with
  | nil => exact h
  | cons offset rest ih => exact ih (h.mark offset)

/-- With debug information, every offset has a label of its own. -/
theorem Debugs.honest (h : ls.Debugs later) (hls : ls.Plain) : later.Honest := by
  intro offset l hl
  rcases h.new offset l hl with hold | rfl
  · rw [hls offset l hold]
  · rfl

end CodeLabels

namespace Code

open CodeLabels (Uses Debugs Plain)

variable {view : PoolView}

/-- Instructions use the labels to which they lead. -/
theorem uses_markItems {ls : CodeLabels} (h : ls.Plain) {items : List (Nat × Instruction)}
    (hitems : ∀ item ∈ items, ∀ l ∈ item.2.labels, l = ⟨l.id, false⟩) :
    ls.Uses (markItems ls items) (items.flatMap (·.2.labels)) := by
  induction items generalizing ls with
  | nil => exact Uses.refl ls
  | cons item rest ih =>
    have hfirst := h.uses_markAll (item.2.labels.map Label.id)
    have hlabels : (item.2.labels.map Label.id).map (⟨·, false⟩) = item.2.labels := by
      rw [List.map_map]
      exact (List.map_congr_left fun l hl => (hitems item List.mem_cons_self l hl).symm).trans (List.map_id _)
    rw [hlabels] at hfirst
    exact hfirst.trans (ih (h.markAll _) fun item hitem => hitems item (List.mem_cons_of_mem _ hitem))

/-- Exception handlers that are told use the labels that they name. -/
theorem exists_of_handlers {count : Nat} {ls ls' : CodeLabels} (hls : ls.Plain) {c c' : Cursor} {before after : Array Event}
    (h : (handlers view count ls c).run.run before = (.ok (ls', c'), after)) : ∃ events : List Event,
      after = before ++ events.toArray ∧ (handlers view count ls).Tells c events ls' c' ∧
      (∀ e ∈ events, ∃ start stop handler type, e = .tryCatch start stop handler type) ∧ ls'.Plain ∧
      ls.Uses ls' (events.flatMap Event.usedLabels) := by
  induction count generalizing ls c before with
  | zero =>
    obtain ⟨hresult, rfl⟩ := Prod.mk.inj h
    obtain ⟨rfl, rfl⟩ := Prod.mk.inj (Except.ok.inj hresult)
    exact ⟨[], by simp, Walk.Tells.pure ls, nofun, hls, Uses.refl ls⟩
  | succ count ih =>
    unfold handlers at h
    obtain ⟨start, c₁, hstart, h⟩ := Walk.exists_of_run_read h
    obtain ⟨stop, c₂, hstop, h⟩ := Walk.exists_of_run_read h
    obtain ⟨handler, c₃, hhandler, h⟩ := Walk.exists_of_run_read h
    obtain ⟨type, c₄, htype, h⟩ := Walk.exists_of_run_read h
    rw [(Walk.Tells.report _).run_bind] at h
    have hmarked := hls.markAll [(start.toNat : Int), (stop.toNat : Int), (handler.toNat : Int)]
    have hfirst := hls.uses_markAll [(start.toNat : Int), (stop.toNat : Int), (handler.toNat : Int)]
    obtain ⟨events, hafter, htells, hkind, hplain, huses⟩ := ih hmarked h
    let marked := ls.markAll false [(start.toNat : Int), (stop.toNat : Int), (handler.toNat : Int)]
    refine ⟨.tryCatch (marked.get start.toNat) (marked.get stop.toNat) (marked.get handler.toNat) type :: events,
      hafter.trans (by simp [marked]), ?_, List.forall_mem_cons.2 ⟨⟨_, _, _, type, rfl⟩, hkind⟩, hplain, ?_⟩
    · unfold handlers
      exact .after hstart (.after hstop (.after hhandler (.after htype ((Walk.Tells.report _).bind htells rfl))))
    · rw [List.flatMap_cons, Event.usedLabels, hmarked.get, hmarked.get, hmarked.get]
      exact hfirst.trans huses

/-! ## Debug tables -/

namespace DebugTables

variable {ls : CodeLabels}

/-- What a step of reading tables keeps is kept however often it is taken. -/
theorem gives_times {d : DebugTables → Decoder DebugTables} {P : DebugTables → Prop} (hd : ∀ t, P t → (d t).Gives P)
    (n : Nat) {t : DebugTables} (ht : P t) : (times d n t).Gives P := by
  induction n generalizing t with
  | zero => exact .pure ht
  | succ n ih => exact (hd t ht).andThen fun t' ht' => ih ht'

/-- What a step of reading tables keeps is kept behind a number. -/
theorem gives_counted {d : DebugTables → Decoder DebugTables} {P : DebugTables → Prop} (hd : ∀ t, P t → (d t).Gives P)
    {t : DebugTables} (ht : P t) : (counted d t).Gives P :=
  .bind fun n => gives_times hd n.toNat ht

/-- What a debug table says adds labels that serve debug information only. -/
theorem debugs_addAttribute {t t' : DebugTables} {a : RawAttribute} (h : addAttribute view t a = .ok t')
    (ht : ls.Debugs t.labels) : ls.Debugs t'.labels := by
  unfold addAttribute at h
  split at h
  · have hmark : ∀ t : DebugTables, ls.Debugs t.labels → (markVariable t).Gives fun t => ls.Debugs t.labels := fun t ht =>
      .bind fun start => .bind fun length => .bind fun _ => .pure (ht.markAll _)
    exact (gives_counted hmark (t := { t with localTable := some a.start }) ht).runAt h
  split at h
  · have hsignature : ∀ t : DebugTables, ls.Debugs t.labels → (addSignature view t).Gives fun t =>
      ls.Debugs t.labels := fun t ht =>
      .bind fun start => .bind fun _ => .bind fun i => .bind fun text => .bind fun slot => .pure ht
    exact (gives_counted hsignature ht).runAt h
  split at h
  · have hline : ∀ t : DebugTables, ls.Debugs t.labels → (addLine t).Gives fun t => ls.Debugs t.labels := fun t ht =>
      .bind fun start => .bind fun line => .pure ⟨(ht.mark start.toNat).keeps, (ht.mark start.toNat).new⟩
    exact (gives_counted hline ht).runAt h
  · exact Except.ok.inj h ▸ ht

/-- The debug tables only add labels that serve debug information. -/
theorem debugs_addAttributes {attributes : List RawAttribute} {skip : Bool} {t t' : DebugTables}
    (h : addAttributes view skip t attributes = .ok t') (ht : ls.Debugs t.labels) : ls.Debugs t'.labels := by
  unfold addAttributes at h
  split at h
  · exact Except.ok.inj h ▸ ht
  induction attributes generalizing t with
  | nil => exact Except.ok.inj h ▸ ht
  | cons a rest ih =>
    rw [List.foldlM_cons] at h
    obtain ⟨t₁, hfirst, hrest⟩ := exists_of_bind_eq_ok h
    exact ih (debugs_addAttribute hfirst ht) hrest

end DebugTables

/-! ## Behind the exception handlers -/

/-- The label behind the last instruction. -/
def endEvents (ls : CodeLabels) (length : Nat) : List Event :=
  match ls.labels[(length : Int)]? with
  | some l => [.label l]
  | none => []

/-- Reports the label behind the last instruction. -/
def reportEnd (ls : CodeLabels) (length : Nat) : Walk Unit :=
  match ls.labels[(length : Int)]? with
  | some l => Walk.report (.label l)
  | none => pure ()

/-- Reports the local variables. -/
def reportVariables (view : PoolView) (t : DebugTables) : Walk Unit :=
  match t.localTable with
  | some offset => (Walk.counted (variableItem view t)).runAt view.bytes offset
  | none => pure ()

/-- Reports the code of a method behind its exception handlers. -/
def narrateRest (view : PoolView) (t : DebugTables) (start length : Nat) (maxStack : UInt16) : Walk Unit := do
  (narrateFrom view t.labels start length length).runAt view.bytes start
  reportEnd t.labels length
  reportVariables view t
  Walk.report (.maxStack maxStack)

/-- Telling of code is telling of its handlers, its instructions, its end and its variables. -/
theorem narrate_eq (view : PoolView) (omitted : Omissions) : narrate view omitted = (do
    let maxStack ← Walk.read Decoder.u16
    Walk.read (Decoder.skip 2)
    let length ← Walk.read Decoder.u32
    let start ← Walk.read Decoder.position
    Walk.read (Decoder.skip length.toNat)
    let labels ← Walk.read (findLabels view.bytes start length.toNat)
    let count ← Walk.read Decoder.u16
    let labels ← handlers view count.toNat labels
    let attributes ← Walk.read (Image.attributeTable view)
    let tables ← Walk.read (DebugTables.addAttributes view omitted.debug { labels } attributes)
    narrateRest view tables start length.toNat maxStack) := by
  unfold narrate narrateRest reportEnd reportVariables
  refine bind_congr fun maxStack => bind_congr fun _ => bind_congr fun length => bind_congr fun start => bind_congr fun _ =>
    bind_congr fun labels => bind_congr fun count => bind_congr fun labels => bind_congr fun attributes =>
      bind_congr fun tables => ?_
  refine bind_congr fun _ => ?_
  cases tables.labels.labels[(length.toNat : Int)]? <;> cases tables.localTable <;> rfl

/-- Behind the code its last label is told, if there is one. -/
theorem tells_reportEnd (ls : CodeLabels) (length : Nat) (c : Cursor) :
    (reportEnd ls length).Tells c (endEvents ls length) () c := by
  unfold reportEnd endEvents
  cases ls.labels[(length : Int)]? with
  | none => exact Walk.Tells.pure ()
  | some l => exact Walk.Tells.report (.label l)

/-- An event tells of a local variable. -/
def IsVariable (e : Event) : Prop :=
  ∃ name descriptor signature start stop slot, e = .localVariable name descriptor signature start stop slot

/-- All local variables are told. -/
theorem follows_variables (t : DebugTables) :
    (Walk.counted (variableItem view t)).Follows (Walk.counted (variableItem view t)) (Says IsVariable) := by
  have hread : ∀ {α : Type} (d : Decoder α), (Walk.read d).Follows (Walk.read d) (Says IsVariable) :=
    Walk.follows_read composes_says
  refine Walk.follows_counted composes_says ?_
  exact (hread _).bind composes_says fun start => (hread _).bind composes_says fun length =>
    (hread _).bind composes_says fun name =>
    (hread _).bind composes_says fun descriptor => (hread _).bind composes_says fun slot =>
      Walk.follows_report ⟨name, descriptor, _, _, _, slot, rfl⟩

/-- Local variables that are told do not depend on what has been told before. -/
theorem exists_of_reportVariables {t : DebugTables} {c c' : Cursor} {before after : Array Event}
    (h : (reportVariables view t c).run.run before = (.ok ((), c'), after)) : c' = c ∧ ∃ events : List Event,
      after = before ++ events.toArray ∧ (reportVariables view t).Tells c events () c ∧ ∀ e ∈ events, IsVariable e := by
  unfold reportVariables at h ⊢
  cases ht : t.localTable with
  | none =>
    rw [ht] at h
    obtain ⟨hresult, rfl⟩ := Prod.mk.inj h
    exact ⟨(congrArg Prod.snd (Except.ok.inj hresult)).symm, [], by simp, Walk.Tells.pure (), nofun⟩
  | some offset =>
    rw [ht] at h
    obtain ⟨rfl, c₁, hwalk⟩ := Walk.exists_of_run_runAt h
    obtain ⟨events, hafter, htells, hvariables⟩ := (follows_variables t).tells hwalk
    exact ⟨rfl, events, hafter, htells.runAt.lift _, hvariables⟩

/-- Behind its exception handlers, code tells of instructions, over which scanning goes as well, and of local variables. With
other tables that have the same labels for the offsets to which the instructions lead, it tells of the same instructions. -/
theorem exists_of_narrateRest {t : DebugTables} (ht : t.labels.Honest) {start length : Nat} {maxStack : UInt16}
    {c c' : Cursor}
    {before after : Array Event} (h : (narrateRest view t start length maxStack c).run.run before = (.ok ((), c'), after)) :
    c' = c ∧ ∃ (items : List (Nat × Instruction)) (locals : List Event), findLabels view.bytes start length =
    .ok (markItems {} items) ∧
      (∀ item ∈ items, ∀ l ∈ item.2.labels, t.labels.get l.id = l) ∧ (∀ e ∈ locals, IsVariable e) ∧
      after = before ++ (reports t.labels items ++
        (endEvents t.labels length ++ (locals ++ [Event.maxStack maxStack]))).toArray ∧
      (reportVariables view t).Tells c locals () c ∧
      ∀ t' : DebugTables, (∀ item ∈ items, ∀ l ∈ item.2.labels, t'.labels.get l.id = l) → ∀ told : List Event,
        (reportVariables view t').Tells c told () c → (narrateRest view t' start length maxStack).Tells c
          (reports t'.labels items ++ (endEvents t'.labels length ++ (told ++ [Event.maxStack maxStack]))) () c := by
  unfold narrateRest at h
  obtain ⟨_, c₁, told₁, hwalk, hrest⟩ := Walk.exists_of_run_bind h
  obtain ⟨rfl, c₂, hinstructions⟩ := Walk.exists_of_run_runAt hwalk
  rw [(tells_reportEnd t.labels length _).run_bind] at hrest
  obtain ⟨_, c₃, told₂, hvariables, hend⟩ := Walk.exists_of_run_bind hrest
  obtain ⟨rfl, locals, rfl, htold, hkind⟩ := exists_of_reportVariables hvariables
  obtain ⟨hresult, rfl⟩ := Prod.mk.inj hend
  obtain ⟨items, hscans, hitems, rfl, hother⟩ := exists_items ht hinstructions
  refine ⟨(congrArg Prod.snd (Except.ok.inj hresult)).symm, items, locals, ?_, hitems,
    hkind, by simp, htold, fun t' ht' told htold' => ?_⟩
  · exact (hscans {}).runAt
  · unfold narrateRest
    exact ((hother t'.labels ht').runAt.lift _).bind
      ((tells_reportEnd t'.labels length _).bind (htold'.bind (Walk.Tells.report _) rfl) rfl) rfl

/-- Scanning finds labels that serve more than debug information. -/
theorem plain_findLabels {bytes : Bytes} {start length : Nat} {ls : CodeLabels}
    (h : findLabels bytes start length = .ok ls) : ls.Plain := by
  have hscan : ∀ (fuel : Nat) (ls : CodeLabels), ls.Plain → (scanFrom start length fuel ls).Gives Plain := by
    intro fuel
    induction fuel with
    | zero => exact fun ls hls => .pure hls
    | succ fuel ih =>
      intro ls hls
      unfold scanFrom
      refine .bind fun position => ?_
      split
      · exact .bind fun distances => ih _ (hls.markAll _)
      · exact .pure hls
  have hempty : Plain {} := fun offset l hl => by simp at hl
  exact (hscan length {} hempty).runAt h

/-! ## What is left of code -/

section Kept

variable {ls later : CodeLabels} {used : List Label} {omitted : Omissions}

/-- What stands in front of an instruction uses no label. -/
theorem usedLabels_labelEvents (ls : CodeLabels) (offset : Nat) : (labelEvents ls offset).flatMap Event.usedLabels = [] := by
  unfold labelEvents
  cases ls.labels[(offset : Int)]? <;> cases ls.lines[(offset : Int)]? <;> rfl

/-- The instructions use the labels to which they lead. -/
theorem usedLabels_reports (ls : CodeLabels) (items : List (Nat × Instruction)) :
    (reports ls items).flatMap Event.usedLabels = items.flatMap (·.2.labels) := by
  induction items with
  | nil => rfl
  | cons item rest ih =>
    have hrest : (rest.flatMap fun item => labelEvents ls item.1 ++ [.instruction item.2]).flatMap Event.usedLabels =
        rest.flatMap (·.2.labels) := ih
    rw [reports, List.flatMap_cons, List.flatMap_append, List.flatMap_append, usedLabels_labelEvents, hrest]
    simp [Event.usedLabels]

/-- Labels that are used are the ones that are there without debug information, and there are no lines. -/
structure Sorts (ls later : CodeLabels) (used : List Label) : Prop where
  keeps : ls.Keeps later
  used_iff : ∀ (offset : Int) (l : Label), later.labels[offset]? = some l → (l ∈ used ↔ ls.labels[offset]? = some l)
  lines : ls.lines = ∅

/-- A label that is not used is not there without debug information. -/
theorem Sorts.unused (h : Sorts ls later used) {offset : Int} {l : Label} (hl : later.labels[offset]? = some l)
    (hused : l ∉ used) :
    ls.labels[offset]? = none := by
  cases hls : ls.labels[offset]? with
  | none => rfl
  | some l' =>
    obtain rfl : l' = l := Option.some.inj ((h.keeps offset l' hls).symm.trans hl)
    exact absurd ((h.used_iff offset l' hl).2 hls) hused

/-- An offset without a label has none without debug information. -/
theorem Sorts.missing (h : Sorts ls later used) {offset : Int} (hl : later.labels[offset]? = none) :
    ls.labels[offset]? = none := by
  cases hls : ls.labels[offset]? with
  | none => rfl
  | some l => exact nomatch hl.symm.trans (h.keeps offset l hls)

section Debug

variable (h : Sorts ls later used) (hdebug : omitted.debug = true) (hcode : omitted.code = false)

include hdebug hcode

/-- A label is left out unless it is used. -/
theorem drops_label (l : Label) : omitted.drops used (.label l) = !used.contains l := by
  simp [Omissions.drops, hdebug, hcode]

include h

/-- Without debug information, a label is told if it is used. -/
theorem Sorts.labelEvents (offset : Nat) :
    (Code.labelEvents later offset).filter (fun e => !omitted.drops used e) = Code.labelEvents ls offset := by
  unfold Code.labelEvents
  have hlines : ls.lines[(offset : Int)]? = none := by simp [h.lines]
  have hline : ∀ line l, omitted.drops used (.lineNumber line l) = true := by simp [Omissions.drops, hdebug]
  cases hl : later.labels[(offset : Int)]? with
  | none => rw [h.missing hl]; rfl
  | some l =>
    by_cases hused : l ∈ used
    · rw [(h.used_iff _ l hl).1 hused, hlines]
      have hkept : omitted.drops used (.label l) = false := by simp [drops_label hdebug hcode, hused]
      cases later.lines[(offset : Int)]? <;> simp [hkept, hline]
    · rw [h.unused hl hused]
      have hdropped : omitted.drops used (.label l) = true := by simp [drops_label hdebug hcode, hused]
      cases later.lines[(offset : Int)]? <;> simp [hdropped, hline]

/-- Behind the code what is left is told without debug information. -/
theorem Sorts.endEvents (length : Nat) :
    (Code.endEvents later length).filter (fun e => !omitted.drops used e) = Code.endEvents ls length := by
  unfold Code.endEvents
  cases hl : later.labels[(length : Int)]? with
  | none => rw [h.missing hl]; rfl
  | some l =>
    by_cases hused : l ∈ used
    · rw [(h.used_iff _ l hl).1 hused]
      simp [drops_label hdebug hcode, hused]
    · rw [h.unused hl hused]
      simp [drops_label hdebug hcode, hused]

/-- Without debug information, the instructions are told as they are with it. -/
theorem Sorts.reports (items : List (Nat × Instruction)) :
    (Code.reports later items).filter (fun e => !omitted.drops used e) = Code.reports ls items := by
  unfold Code.reports
  rw [List.filter_flatMap]
  refine List.flatMap_congr fun item _ => ?_
  have hinstruction : omitted.drops used (.instruction item.2) = false := hcode
  rw [List.filter_append, h.labelEvents hdebug hcode, List.filter_cons_of_pos (by rw [hinstruction]; rfl), List.filter_nil]

end Debug

end Kept

/-- Labels that code uses, with others that serve debug information only. -/
theorem sorts_of_uses {ls later : CodeLabels} {used : List Label} (huses : ({} : CodeLabels).Uses ls used)
    (hdebugs : ls.Debugs later) (hplain : ls.Plain) : Sorts ls later used where
  keeps := hdebugs.keeps
  used_iff offset l hl := by
    have hoffset : l.id = offset := hdebugs.honest hplain offset l hl
    refine ⟨fun hused => hoffset ▸ huses.marked l hused, fun hls => ?_⟩
    rcases huses.new offset l hls with hempty | hused
    · simp at hempty
    · exact hused
  lines := huses.lines

/-- What stands in front of an instruction tells of code. -/
theorem isCode_labelEvents {ls : CodeLabels} {offset : Nat} {e : Event} (he : e ∈ labelEvents ls offset) :
    e.isCode = true := by
  unfold labelEvents at he
  cases hl : ls.labels[(offset : Int)]? <;> cases hline : ls.lines[(offset : Int)]? <;> rw [hl] at he <;> simp [hline] at he
  · exact he ▸ rfl
  · rcases he with rfl | rfl <;> rfl

/-- The reports of instructions tell of code. -/
theorem isCode_reports {ls : CodeLabels} {items : List (Nat × Instruction)} {e : Event} (he : e ∈ reports ls items) :
    e.isCode = true := by
  obtain ⟨item, -, he⟩ := List.mem_flatMap.1 he
  rcases List.mem_append.1 he with he | he
  · exact isCode_labelEvents he
  · exact List.mem_singleton.1 he ▸ rfl

/-- What stands behind the code tells of it. -/
theorem isCode_endEvents {ls : CodeLabels} {length : Nat} {e : Event} (he : e ∈ endEvents ls length) : e.isCode = true := by
  unfold endEvents at he
  cases hl : ls.labels[(length : Int)]? <;> rw [hl] at he <;> simp at he
  exact he ▸ rfl

theorem isCode_narrate {ls : CodeLabels} {items : List (Nat × Instruction)} {caught locals : List Event} {length : Nat}
    {maxStack : UInt16} (hcaught : ∀ e ∈ caught, ∃ start stop handler type, e = .tryCatch start stop handler type)
    (hlocals : ∀ e ∈ locals, IsVariable e) :
    ∀ e ∈ caught ++ (reports ls items ++ (endEvents ls length ++ (locals ++ [Event.maxStack maxStack]))),
      e.isCode = true := by
  intro e he
  simp only [List.mem_append, List.mem_singleton] at he
  rcases he with he | he | he | he | rfl
  · obtain ⟨start, stop, handler, type, rfl⟩ := hcaught e he
    rfl
  · exact isCode_reports he
  · exact isCode_endEvents he
  · obtain ⟨name, descriptor, signature, start, stop, slot, rfl⟩ := hlocals e he
    rfl
  · rfl

/-- Local variables use no label. -/
theorem usedLabels_locals {locals : List Event} (h : ∀ e ∈ locals, IsVariable e) : locals.flatMap Event.usedLabels = [] := by
  refine List.flatMap_eq_nil_iff.2 fun e he => ?_
  obtain ⟨name, descriptor, signature, start, stop, slot, rfl⟩ := h e he
  rfl

/-- What stands behind the code uses no label. -/
theorem usedLabels_endEvents (ls : CodeLabels) (length : Nat) : (endEvents ls length).flatMap Event.usedLabels = [] := by
  unfold endEvents
  cases ls.labels[(length : Int)]? <;> rfl

/-- With debug information, all events of code that is left in are kept. -/
theorem keepCode_all {omitted : Omissions} (hcode : omitted.code = false) (hdebug : omitted.debug = false)
    {events : List Event} (h : ∀ e ∈ events, e.isCode = true) : omitted.keepCode events = events := by
  have hkept : ∀ used e, Event.isCode e = true → omitted.drops used e = false := by
    intro used e he
    cases e <;> first | simp [Omissions.drops, hcode, hdebug]; done | cases he
  exact List.filter_eq_self.2 fun e he => congrArg (!·) (hkept _ e (h e he))

/-- Without debug information, what is left of code is what it tells with the labels that are there without it. -/
theorem keepCode_sorted {omitted : Omissions} (hcode : omitted.code = false) (hdebug : omitted.debug = true)
    {ls later : CodeLabels}
    {items : List (Nat × Instruction)} {caught locals : List Event} (hcaught : ∀ e ∈ caught, ∃ start stop handler type,
      e = .tryCatch start stop handler type) (hlocals : ∀ e ∈ locals, IsVariable e)
    (h : Sorts ls later (caught.flatMap Event.usedLabels ++ items.flatMap (·.2.labels))) (length : Nat) (maxStack : UInt16) :
    omitted.keepCode (caught ++ (reports later items ++ (endEvents later length ++ (locals ++ [Event.maxStack maxStack])))) =
      caught ++ (reports ls items ++ (endEvents ls length ++ [Event.maxStack maxStack])) := by
  have hused : (caught ++ (reports later items ++ (endEvents later length ++ (locals ++ [Event.maxStack maxStack])))).flatMap
      Event.usedLabels = caught.flatMap Event.usedLabels ++ items.flatMap (·.2.labels) := by
    simp only [List.flatMap_append, usedLabels_reports, usedLabels_endEvents, usedLabels_locals hlocals, List.flatMap_cons,
      List.flatMap_nil, Event.usedLabels, List.append_nil]
  unfold Omissions.keepCode
  rw [hused]
  generalize caught.flatMap Event.usedLabels ++ items.flatMap (·.2.labels) = used at h
  have hkept : caught.filter (fun e => !omitted.drops used e) = caught := by
    refine List.filter_eq_self.2 fun e he => ?_
    obtain ⟨start, stop, handler, type, rfl⟩ := hcaught e he
    exact congrArg (!·) hcode
  have hdropped : locals.filter (fun e => !omitted.drops used e) = [] := by
    refine List.filter_eq_nil_iff.2 fun e he => ?_
    obtain ⟨name, descriptor, signature, start, stop, slot, rfl⟩ := hlocals e he
    simp [Omissions.drops, hdebug]
  have hlast : omitted.drops used (.maxStack maxStack) = false := hcode
  rw [List.filter_append, List.filter_append, List.filter_append, List.filter_append, hkept,
    hdropped, h.reports hdebug hcode, h.endEvents hdebug hcode, List.filter_cons_of_pos (by rw [hlast]; rfl),
    List.filter_nil, List.nil_append]

/-- Code that is left in tells, without debug information if that is left out, what is left of its events. -/
theorem exists_of_narrate {omitted : Omissions} (hcode : omitted.code = false) {c c' : Cursor} {before after : Array Event}
    (h : (narrate view {} c).run.run before = (.ok ((), c'), after)) :
    ∃ events : List Event, after = before ++ events.toArray ∧
      (∀ e ∈ events, e.isCode = true) ∧ (narrate view omitted).Tells c (omitted.keepCode events) () c' := by
  rw [narrate_eq] at h
  obtain ⟨maxStack, c₁, hmax, h⟩ := Walk.exists_of_run_read h
  obtain ⟨_, c₂, hmaxLocals, h⟩ := Walk.exists_of_run_read h
  obtain ⟨length, c₃, hlength, h⟩ := Walk.exists_of_run_read h
  obtain ⟨start, c₄, hstart, h⟩ := Walk.exists_of_run_read h
  obtain ⟨_, c₅, hskip, h⟩ := Walk.exists_of_run_read h
  obtain ⟨found, c₆, hfound, h⟩ := Walk.exists_of_run_read h
  obtain ⟨count, c₇, hcount, h⟩ := Walk.exists_of_run_read h
  obtain ⟨ls, c₈, told, hwalk, hbehind⟩ := Walk.exists_of_run_bind h
  obtain ⟨attributes, c₉, hattributes, hbehind⟩ := Walk.exists_of_run_read hbehind
  obtain ⟨tables, c₁₀, htables, hbody⟩ := Walk.exists_of_run_read hbehind
  obtain ⟨hlabels, rfl⟩ := Goes.of_lift hfound
  obtain ⟨hadded, rfl⟩ := Goes.of_lift htables
  obtain ⟨caught, rfl, hcaught, hkind, hplain, huses⟩ := exists_of_handlers (plain_findLabels hlabels) hwalk
  have hdebugs : ls.Debugs tables.labels := DebugTables.debugs_addAttributes hadded (Debugs.refl ls)
  obtain ⟨rfl, items, locals, hscanned, hitems, hlocals, rfl, htold, hrest⟩ :=
    exists_of_narrateRest (hdebugs.honest hplain) hbody
  obtain rfl : found = markItems {} items := Except.ok.inj (hlabels.symm.trans hscanned)
  -- the labels to which the instructions lead are there without debug information
  have hempty : Plain {} := fun offset l hl => by simp at hl
  have hmarked : ∀ item ∈ items, ∀ l ∈ item.2.labels, ls.labels[l.id]? = some ⟨l.id, false⟩ := fun item hitem l hl =>
    huses.keeps _ _ (markItems_marked hempty hitem hl)
  have hfalse : ∀ item ∈ items, ∀ l ∈ item.2.labels, l = ⟨l.id, false⟩ := fun item hitem l hl =>
    (hitems item hitem l hl).symm.trans (Std.HashMap.getD_eq_getD_getElem?.trans
      (by rw [hdebugs.keeps _ _ (hmarked item hitem l hl)]; rfl))
  have hsorts : Sorts ls tables.labels (caught.flatMap Event.usedLabels ++ items.flatMap (·.2.labels)) :=
    sorts_of_uses (((uses_markItems hempty hfalse).trans huses).congr
      fun l => by rw [List.mem_append, List.mem_append, or_comm]) hdebugs hplain
  have hnarrates : ∀ (t : DebugTables) (rest : List Event),
      DebugTables.addAttributes view omitted.debug { labels := ls } attributes = .ok t →
      (narrateRest view t start length.toNat maxStack).Tells c' rest () c' →
      (narrate view omitted).Tells c (caught ++ rest) () c' := by
    intro t rest ht htells
    rw [narrate_eq]
    refine .after hmax (.after hmaxLocals (.after hlength (.after hstart (.after hskip (.after hfound (.after hcount ?_))))))
    refine hcaught.bind (.after hattributes (.after ?_ htells)) rfl
    rw [ht]
    rfl
  refine ⟨caught ++ (reports tables.labels items ++
    (endEvents tables.labels length.toNat ++ (locals ++ [Event.maxStack maxStack]))),
    by simp, isCode_narrate hkind hlocals, ?_⟩
  cases hdebug : omitted.debug with
  | true =>
    rw [keepCode_sorted hcode hdebug hkind hlocals hsorts]
    refine hnarrates { labels := ls } _ (by rw [hdebug]; rfl)
      (hrest { labels := ls } (fun item hitem l hl => ?_) [] (Walk.Tells.pure ()))
    exact (hplain.get l.id).trans (hfalse item hitem l hl).symm
  | false =>
    rw [keepCode_all hcode hdebug (isCode_narrate hkind hlocals)]
    exact hnarrates tables _ (by rw [hdebug]; exact hadded) (hrest tables hitems locals htold)

end Code

end ClassFile
