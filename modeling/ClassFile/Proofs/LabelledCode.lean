import ClassFile.Proofs.CodePasses

/-!
# The labels of code

Every label that an event of code names is one that a reader has made for the offset to which the event leads. A label is
told once, in front of the instruction at its offset or behind all instructions, and it is told of no label at whose offset
no instruction starts (`Code.narrate_labelled`).
-/

namespace ClassFile

/-! ## Parts of what is told -/

namespace Event

/-- The label that an event places. -/
def placed? : Event → Option Label
  | .label l => some l
  | _ => none

/-- The instruction of which an event tells. -/
def instruction? : Event → Option Instruction
  | .instruction i => some i
  | _ => none

/-- An event tells of an exception handler. -/
def isHandler : Event → Bool
  | .tryCatch .. => true
  | _ => false

/-- An event tells of a local variable. -/
def isVariable : Event → Bool
  | .localVariable .. => true
  | _ => false

end Event

namespace Code

variable {view : PoolView} {c c' : Cursor} {before after : Array Event}

/-! ## Labels that are told -/

section Placed

variable {code : CodePlaces} {t : DebugTables} {items : List (Nat × Instruction)} {caught : List Event}
  {vs : List VariableEntry}

/-- The offsets at which labels may be told: those of the instructions and the end of the code. -/
def places (items : List (Nat × Instruction)) (length : Nat) : List Nat :=
  items.map Prod.fst ++ [length]

/-- What is told in front of the code are handlers. -/
theorem handler_of_mem {ls : CodeLabels} {ranges : List ExceptionRange} (h : List.Forall₂ (HandlerOf ls) ranges caught)
    {e : Event} (he : e ∈ caught) : ∃ start stop handler type, e = .tryCatch start stop handler type := by
  induction h with
  | nil => exact absurd he List.not_mem_nil
  | cons hfirst _ ih =>
    rcases List.mem_cons.1 he with rfl | he
    · exact ⟨_, _, _, hfirst.1⟩
    · exact ih he

/-- In front of an instruction at most the label of its offset is placed. -/
theorem placed_labelEvents (ls : CodeLabels) (offset : Nat) :
    (labelEvents ls offset).filterMap Event.placed? = ls.labels[(offset : Int)]?.toList := by
  unfold labelEvents
  cases ls.labels[(offset : Int)]? <;> cases ls.lines[(offset : Int)]? <;> rfl

/-- Behind the code at most the label of its end is placed. -/
theorem placed_endEvents (ls : CodeLabels) (length : Nat) :
    (endEvents ls length).filterMap Event.placed? = ls.labels[(length : Int)]?.toList := by
  unfold endEvents
  cases ls.labels[(length : Int)]? <;> rfl

/-- What is picked out of the reports is picked out for each instruction in turn. -/
theorem filterMap_reports {β : Type} (f : Event → Option β) (ls : CodeLabels) (items : List (Nat × Instruction)) :
    (reports ls items).filterMap f = items.flatMap fun item => (labelEvents ls item.1).filterMap f ++
      (f (.instruction item.2)).toList := by
  rw [reports, List.filterMap_flatMap]
  refine List.flatMap_congr fun item _ => ?_
  rw [List.filterMap_append]
  cases h : f (.instruction item.2) <;> simp [h]

/-- Among the instructions the labels of their offsets are placed. -/
theorem placed_reports (ls : CodeLabels) (items : List (Nat × Instruction)) :
    (reports ls items).filterMap Event.placed? = (items.map Prod.fst).filterMap fun offset :
    Nat => ls.labels[(offset : Int)]? := by
  rw [filterMap_reports, List.filterMap_map, List.filterMap_eq_flatMap_toList]
  refine List.flatMap_congr fun item _ => ?_
  rw [placed_labelEvents]
  exact List.append_nil _

/-- What is told of code neither of exception handlers nor of local variables nor of the stack is
told with the instructions. -/
theorem filterMap_told {β : Type} {f : Event → Option β}
    (hhandler : ∀ start stop handler type, f (.tryCatch start stop handler type) = none)
    (hlocal : ∀ v, f (VariableEntry.event t v) = none) (hstack : ∀ n, f (.maxStack n) = none)
    (hcaught : List.Forall₂ (HandlerOf t.labels) code.ranges caught) : (told code t items caught vs).filterMap f =
      (reports t.labels items).filterMap f ++ (endEvents t.labels code.length).filterMap f := by
  have hcaughtNone : caught.filterMap f = [] := by
    refine List.filterMap_eq_nil_iff.2 fun e he => ?_
    obtain ⟨start, stop, handler, type, rfl⟩ := handler_of_mem hcaught he
    exact hhandler start stop handler type
  have hlocals : (vs.map (VariableEntry.event t)).filterMap f = [] := by
    rw [List.filterMap_map]
    exact List.filterMap_eq_nil_iff.2 fun v _ => hlocal v
  simp [told, hcaughtNone, hlocals, hstack]

/-- All in all the labels are placed of the offsets of instructions and of the end. -/
theorem placed_told (hcaught : List.Forall₂ (HandlerOf t.labels) code.ranges caught) :
    (told code t items caught vs).filterMap Event.placed? =
      (places items code.length).filterMap fun offset : Nat => t.labels.labels[(offset : Int)]? := by
  rw [filterMap_told (fun _ _ _ _ => rfl) (fun _ => rfl) (fun _ => rfl) hcaught, placed_reports, placed_endEvents,
    places, List.filterMap_append]
  cases hl : t.labels.labels[(code.length : Int)]? <;> simp [hl]

/-- An item of a list that is not in the first of two pieces is in the second. -/
theorem exists_of_append_eq {xs ys front back : List Event} {e : Event} (h : xs ++ ys = front ++ e :: back) (he : e ∉ xs) :
    ∃ middle, front = xs ++ middle ∧ ys = middle ++ e :: back := by
  rcases List.append_eq_append_iff.1 h with ⟨middle, hfront, hys⟩ | ⟨middle, hxs, hback⟩
  · exact ⟨middle, hfront, hys⟩
  · cases middle with
    | nil => exact ⟨[], by simpa using hxs.symm, by simpa using hback.symm⟩
    | cons first rest =>
      obtain ⟨rfl, -⟩ := List.cons.inj hback
      exact absurd (hxs ▸ List.mem_append_right front List.mem_cons_self) he

/-- The instruction at the offset of a label is told next, or the line of the label and then the instruction. -/
def NextIs (l : Label) (i : Instruction) (back : List Event) : Prop :=
  ∃ rest, back = .instruction i :: rest ∨ ∃ line, back = .lineNumber line l :: .instruction i :: rest

/-- Behind a label in front of an instruction, the instruction is told. -/
theorem next_of_item {ls : CodeLabels} {offset : Nat} {i : Instruction} {more front back : List Event} {l : Label}
    (h : labelEvents ls offset ++ .instruction i :: more = front ++ .label l :: back) :
    (front = [] ∧ ls.labels[(offset : Int)]? = some l ∧ NextIs l i back) ∨
      ∃ middle, front = labelEvents ls offset ++ .instruction i :: middle ∧ more = middle ++ .label l :: back := by
  have hbehind : ∀ {events front : List Event},
    .label l ∉ events → events ++ .instruction i :: more = front ++ .label l :: back →
      ∃ middle, front = events ++ .instruction i :: middle ∧ more = middle ++ .label l :: back := by
    intro events front hevents h
    have hsplit : (events ++ [.instruction i]) ++ more = front ++ .label l :: back := by simpa using h
    obtain ⟨middle, hfront, hmore⟩ := exists_of_append_eq hsplit (by simpa using hevents)
    exact ⟨middle, by simpa using hfront, hmore⟩
  unfold labelEvents at h ⊢
  cases hl : ls.labels[(offset : Int)]? with
  | none =>
    rw [hl] at h
    exact .inr (hbehind List.not_mem_nil h)
  | some l' =>
    rw [hl] at h
    cases front with
    | nil =>
      obtain ⟨hlabel, rfl⟩ := List.cons.inj h
      obtain rfl := Event.label.inj hlabel
      refine .inl ⟨rfl, rfl, more, ?_⟩
      cases ls.lines[(offset : Int)]? with
      | none => exact .inl rfl
      | some line => exact .inr ⟨line, rfl⟩
    | cons first front =>
      obtain ⟨rfl, hrest⟩ := List.cons.inj h
      refine .inr ?_
      obtain ⟨middle, hfront, hmore⟩ := hbehind (by cases ls.lines[(offset : Int)]? <;> simp) hrest
      exact ⟨middle, congrArg (_ :: ·) hfront, hmore⟩

/-- What stands in front of an instruction is none. -/
theorem instructions_labelEvents (ls : CodeLabels) (offset : Nat) :
    (labelEvents ls offset).filterMap Event.instruction? = [] := by
  unfold labelEvents
  cases ls.labels[(offset : Int)]? <;> cases ls.lines[(offset : Int)]? <;> rfl

/-- The instructions are told as they were read. -/
theorem instructions_reports (ls : CodeLabels) (items : List (Nat × Instruction)) :
    (reports ls items).filterMap Event.instruction? = items.map Prod.snd := by
  rw [filterMap_reports, List.map_eq_flatMap]
  refine List.flatMap_congr fun item _ => ?_
  rw [instructions_labelEvents]
  rfl

/-- Neither labels nor lines nor instructions are of a kind. -/
theorem filter_steps {p : Event → Bool} (hlabel : ∀ l, p (.label l) = false)
    (hline : ∀ line l, p (.lineNumber line l) = false)
    (hinstruction : ∀ i, p (.instruction i) = false) (ls : CodeLabels) (items : List (Nat × Instruction)) (length : Nat) :
    (reports ls items).filter p = [] ∧ (endEvents ls length).filter p = [] := by
  have hevents : ∀ offset, (labelEvents ls offset).filter p = [] := by
    intro offset
    unfold labelEvents
    cases ls.labels[(offset : Int)]? <;> cases ls.lines[(offset : Int)]? <;> simp [hlabel, hline]
  refine ⟨?_, ?_⟩
  · rw [reports, List.filter_flatMap]
    refine List.flatMap_eq_nil_iff.2 fun item _ => ?_
    rw [List.filter_append, hevents, List.nil_append, List.filter_cons_of_neg (by simp [hinstruction]), List.filter_nil]
  · unfold endEvents
    cases ls.labels[(length : Int)]? <;> simp [hlabel]

/-- What is told of code neither with the instructions nor of the stack is told of exception handlers
or of local variables. -/
theorem filter_told {p : Event → Bool} (hlabel : ∀ l, p (.label l) = false)
    (hline : ∀ line l, p (.lineNumber line l) = false)
    (hinstruction : ∀ i, p (.instruction i) = false) (hstack : ∀ n, p (.maxStack n) = false) :
    (told code t items caught vs).filter p = caught.filter p ++ (vs.map (VariableEntry.event t)).filter p := by
  obtain ⟨hreports, hend⟩ := filter_steps hlabel hline hinstruction t.labels items code.length
  simp [told, hreports, hend, hstack]

/-- All in all the instructions are told as they were read. -/
theorem instructions_told (hcaught : List.Forall₂ (HandlerOf t.labels) code.ranges caught) :
    (told code t items caught vs).filterMap Event.instruction? = items.map Prod.snd := by
  have hend : (endEvents t.labels code.length).filterMap Event.instruction? = [] := by
    unfold endEvents
    cases t.labels.labels[(code.length : Int)]? <;> rfl
  rw [filterMap_told (fun _ _ _ _ => rfl) (fun _ => rfl) (fun _ => rfl) hcaught, instructions_reports, hend, List.append_nil]

/-- All in all the handlers are told that were read. -/
theorem handlers_told (hcaught : List.Forall₂ (HandlerOf t.labels) code.ranges caught) :
    (told code t items caught vs).filter Event.isHandler = caught := by
  have hall : caught.filter Event.isHandler = caught := by
    refine List.filter_eq_self.2 fun e he => ?_
    obtain ⟨start, stop, handler, type, rfl⟩ := handler_of_mem hcaught he
    rfl
  have hlocals : (vs.map (VariableEntry.event t)).filter Event.isHandler = [] := by
    rw [List.filter_map]
    exact List.map_eq_nil_iff.2 (List.filter_eq_nil_iff.2 fun _ _ => by simp [VariableEntry.event, Event.isHandler])
  rw [filter_told (fun _ => rfl) (fun _ _ => rfl) (fun _ => rfl) fun _ => rfl, hall, hlocals, List.append_nil]

/-- All in all the local variables are told that were read. -/
theorem variables_told (hcaught : List.Forall₂ (HandlerOf t.labels) code.ranges caught) :
    (told code t items caught vs).filter Event.isVariable = vs.map (VariableEntry.event t) := by
  have hnone : caught.filter Event.isVariable = [] := by
    refine List.filter_eq_nil_iff.2 fun e he => ?_
    obtain ⟨start, stop, handler, type, rfl⟩ := handler_of_mem hcaught he
    simp [Event.isVariable]
  have hall : (vs.map (VariableEntry.event t)).filter Event.isVariable = vs.map (VariableEntry.event t) := by
    refine List.filter_eq_self.2 fun e he => ?_
    obtain ⟨v, -, rfl⟩ := List.mem_map.1 he
    rfl
  rw [filter_told (fun _ => rfl) (fun _ _ => rfl) (fun _ => rfl) fun _ => rfl, hnone, hall, List.nil_append]

/-- A label among instructions stands in front of the one that is next, which is the one at its offset. -/
theorem next_of_reports {ls : CodeLabels} {tail front back : List Event} {l : Label}
    (h : reports ls items ++ tail = front ++ .label l :: back) :
    (∃ item, items[(front.filterMap Event.instruction?).length]? = some item ∧ ls.labels[(item.1 : Int)]? =
      some l ∧ NextIs l item.2 back) ∨ ∃ middle, front = reports ls items ++ middle ∧ tail = middle ++ .label l :: back := by
  induction items generalizing front with
  | nil => exact .inr ⟨front, rfl, h⟩
  | cons item rest ih =>
    have hreports : reports ls (item :: rest) = labelEvents ls item.1 ++ .instruction item.2 :: reports ls rest := by
      rw [reports, List.flatMap_cons, List.append_assoc]
      rfl
    rw [hreports, List.append_assoc, List.cons_append] at h
    rcases next_of_item h with ⟨rfl, hl, hnext⟩ | ⟨middle, rfl, hmore⟩
    · exact .inl ⟨item, rfl, hl, hnext⟩
    · rcases ih hmore with ⟨later, hlater, hl, hnext⟩ | ⟨middle', rfl, htail⟩
      · refine .inl ⟨later, ?_, hl, hnext⟩
        rw [List.filterMap_append, instructions_labelEvents]
        exact hlater
      · exact .inr ⟨middle', by rw [hreports, List.append_assoc, List.cons_append], htail⟩

/-- A label behind all instructions is that of the end of the code. -/
theorem end_of_tail {front back : List Event} {l : Label}
    (h : endEvents t.labels code.length ++ (vs.map (VariableEntry.event t) ++ [.maxStack code.maxStack]) =
      front ++ .label l :: back) :
    t.labels.labels[(code.length : Int)]? = some l ∧ back.filterMap Event.instruction? = [] := by
  have hbehind : ∀ {front : List Event}, vs.map (VariableEntry.event t) ++ [.maxStack code.maxStack] ≠ front ++
    .label l :: back := by
    intro front h
    obtain ⟨middle, -, hlast⟩ := exists_of_append_eq h (by simp [VariableEntry.event])
    cases middle <;> simp at hlast
  unfold endEvents at h
  cases hl : t.labels.labels[(code.length : Int)]? with
  | none =>
    rw [hl] at h
    exact absurd h hbehind
  | some l' =>
    rw [hl] at h
    cases front with
    | nil =>
      obtain ⟨hlabel, rfl⟩ := List.cons.inj h
      refine ⟨congrArg some (Event.label.inj hlabel), ?_⟩
      change (vs.map (VariableEntry.event t) ++ [Event.maxStack code.maxStack]).filterMap Event.instruction? = []
      rw [List.filterMap_append, List.filterMap_map]
      exact List.append_eq_nil_iff.2 ⟨List.filterMap_eq_nil_iff.2 fun _ _ => rfl, rfl⟩
    | cons first front =>
      obtain ⟨-, hrest⟩ := List.cons.inj h
      exact absurd hrest hbehind

end Placed

/-- An event tells of a local variable, with the labels of the ends of its range. -/
def VariableOf (ls : CodeLabels) (v : VariableEntry) (e : Event) : Prop :=
  (∃ signature, e = .localVariable v.name v.descriptor signature (ls.get v.start.toNat)
    (ls.get (v.start.toNat + v.length.toNat)) v.slot) ∧ ∀ offset ∈ DebugTables.ends v.range, ls.Has offset

/-- The labels that events name are those that have been made for the offsets which stand in the class file. -/
structure NamesMade (view : PoolView) (code : CodePlaces) (t : DebugTables) (scanned : List (Nat × List Int))
    (items : List (Nat × Instruction)) (events : List Event) : Prop where
  instructions : events.filterMap Event.instruction? = items.map Prod.snd
  jumps : List.Forall₂ (fun s item => item.2.labels.map some = s.2.map fun distance =>
    t.labels.labels[(s.1 : Int) + distance]?) scanned items
  handlers : List.Forall₂ (HandlerOf t.labels) code.ranges (events.filter Event.isHandler)
  locals : ∃ vs, CodePlaces.entries view t = .ok vs ∧ List.Forall₂ (VariableOf t.labels) vs (events.filter Event.isVariable)

/-- Labels are placed in the order of their offsets, each once in front of the instruction at its offset or behind all
instructions, and nowhere else. -/
structure PlacesMade (code : CodePlaces) (ls : CodeLabels) (items : List (Nat × Instruction))
    (events : List Event) : Prop where
  own : ls.Honest
  made : ∀ l ∈ events.filterMap Event.placed?, ls.labels[l.id]? = some l
  increasing : (events.filterMap Event.placed?).Pairwise (·.id < ·.id)
  once : ∀ (offset : Int) (l : Label), ls.labels[offset]? = some l →
    (events.filterMap Event.placed?).count l = if ∃ place ∈ places items code.length, (place : Int) = offset then 1 else 0
  next : ∀ (front : List Event) (l : Label) (back : List Event), events = front ++ .label l :: back →
    (∃ item, items[(front.filterMap Event.instruction?).length]? = some item ∧ (item.1 : Int) =
      l.id ∧ NextIs l item.2 back) ∨ (l.id = code.length ∧ back.filterMap Event.instruction? = [])

section Told

variable {code : CodePlaces} {t : DebugTables} {scanned : List (Nat × List Int)}
  {items : List (Nat × Instruction)} {caught : List Event} {vs : List VariableEntry}

/-- What is told names the labels that were made. -/
theorem Retold.namesMade (h : Retold view code t scanned items caught vs) :
    NamesMade view code t scanned items (told code t items caught vs) := by
  refine ⟨instructions_told h.handlers, ?_, ?_, vs, h.entries, ?_⟩
  · have hboth : List.Forall₂ (fun s item => (∀ d ∈ s.2, t.labels.Has ((s.1 : Int) + d)) ∧
      item.2.labels = s.2.map (target t.labels s.1))
        scanned items :=
      (List.forall₂_and_left _ _).2 ⟨fun s hs d hd => h.made _ (List.mem_flatMap.2 ⟨s, hs, List.mem_map_of_mem hd⟩), h.leads⟩
    refine hboth.imp fun s item hitem => ?_
    rw [hitem.2, List.map_map]
    exact List.map_congr_left fun d hd => (hitem.1 d hd).symm
  · rw [handlers_told h.handlers]
    exact h.handlers
  · rw [variables_told h.handlers, List.forall₂_map_right_iff, List.forall₂_same]
    exact fun v hv => ⟨⟨_, rfl⟩, h.covers vs h.entries v hv⟩

/-- What is told places each label where it was made. -/
theorem Retold.placesMade (h : Retold view code t scanned items caught vs) :
    PlacesMade code t.labels items (told code t items caught vs) := by
  obtain ⟨hown, hpasses, -, -, hcaught, -, -⟩ := h
  obtain ⟨c, hscanned, -⟩ := hpasses.strides
  obtain ⟨hincreasing, hinside⟩ := hscanned.offsets (Nat.le_refl _)
  rw [hpasses.offsets] at hincreasing hinside
  have hplaces : (places items code.length).Pairwise (· < ·) :=
    List.pairwise_append.2 ⟨hincreasing, List.pairwise_singleton _ _,
      fun o ho p hp => List.mem_singleton.1 hp ▸ (hinside o ho).2⟩
  have hmem : ∀ l, l ∈ (told code t items caught vs).filterMap Event.placed? ↔
      ∃ place ∈ places items code.length, t.labels.labels[(place : Int)]? = some l := by
    intro l
    rw [placed_told hcaught, List.mem_filterMap]
  have hpairwise : ((told code t items caught vs).filterMap Event.placed?).Pairwise (·.id < ·.id) := by
    rw [placed_told hcaught]
    refine hplaces.filterMap _ fun o p hlt l hl l' hl' => ?_
    rw [hown _ _ hl, hown _ _ hl']
    exact Int.ofNat_lt.2 hlt
  refine ⟨hown, fun l hl => ?_, hpairwise, fun offset l hl => ?_, fun front l back htold => ?_⟩
  · obtain ⟨place, -, hlabel⟩ := (hmem l).1 hl
    rw [hown _ _ hlabel, hlabel]
  · have hnodup : ((told code t items caught vs).filterMap Event.placed?).Nodup :=
      hpairwise.imp fun hlt heq => absurd (heq ▸ hlt) (Int.lt_irrefl _)
    rw [hnodup.count]
    refine if_congr ((hmem l).trans ⟨?_, ?_⟩) rfl rfl
    · rintro ⟨place, hplace, hlabel⟩
      exact ⟨place, hplace, (hown _ _ hlabel).symm.trans (hown _ _ hl)⟩
    · rintro ⟨place, hplace, rfl⟩
      exact ⟨place, hplace, hl⟩
  · obtain ⟨middle, rfl, hbehind⟩ := exists_of_append_eq htold fun hl => by
      obtain ⟨start, stop, handler, type, he⟩ := handler_of_mem hcaught hl
      cases he
    have hnone : caught.filterMap Event.instruction? = [] := by
      refine List.filterMap_eq_nil_iff.2 fun e he => ?_
      obtain ⟨start, stop, handler, type, rfl⟩ := handler_of_mem hcaught he
      rfl
    rcases next_of_reports hbehind with ⟨item, hitem, hl, hnext⟩ | ⟨middle', rfl, htail⟩
    · exact .inl ⟨item, by rw [List.filterMap_append, hnone]; exact hitem, (hown _ _ hl).symm, hnext⟩
    · obtain ⟨hl, hback⟩ := end_of_tail htail
      exact .inr ⟨hown _ _ hl, hback⟩

end Told

/-- Whenever the code of a method is told, both passes over it have stopped at the same offsets, every label that an event
names is the one that has been made for the offset to which it leads, and every label that has been made is told once, in
front of the instruction at its offset or at the end of the code, or nowhere if no instruction starts at its offset. -/
theorem narrate_labelled {omitted : Omissions} (h : (narrate view omitted c).run.run before = (.ok ((), c'), after)) :
    ∃ (code : CodePlaces) (t : DebugTables) (scanned : List (Nat × List Int)) (items : List (Nat × Instruction))
    (events : List Event),
      (CodePlaces.decode view).Goes c code c' ∧ code.tables view omitted = .ok t ∧ after = before ++ events.toArray ∧
      PassesAgree view code t.labels scanned items ∧ NamesMade view code t scanned items events ∧
      PlacesMade code t.labels items events := by
  obtain ⟨code, t, scanned, items, caught, vs, hcode, htables, hretold, hafter⟩ := exists_told h
  exact ⟨code, t, scanned, items, told code t items caught vs, hcode, htables, hafter, hretold.passes,
    hretold.namesMade, hretold.placesMade⟩

/-! ### A loop -/

/-- The names of the debug tables and of a local variable, and behind them code that sets a local to zero over and over, with
a handler over its first instruction, two lines, and the name of the local from where it is set. -/
def loopBytes : Bytes :=
  #[0, 5, 1, 0, 15, 76, 105, 110, 101, 78, 117, 109, 98, 101, 114, 84, 97, 98, 108, 101,
    1, 0, 18, 76, 111, 99, 97, 108, 86, 97, 114, 105, 97, 98, 108, 101, 84, 97, 98, 108, 101, 1, 0, 1, 105, 1, 0, 1, 73,
    0, 1, 0, 1, 0, 0, 0, 5, 3, 59, 167, 255, 254, 0, 1, 0, 0, 0, 1, 0, 2, 0, 0,
    0, 2, 0, 1, 0, 0, 0, 10, 0, 2, 0, 0, 0, 7, 0, 2, 0, 8, 0, 2, 0, 0, 0, 12, 0, 1, 0, 2, 0, 3, 0, 3, 0, 4, 0, 0]

def loopView : PoolView :=
  { bytes := loopBytes, offsets := #[0, 2, 20, 41, 45], stop := 49 }

/-- The labels of the jump and the handler. -/
def caughtLabels : CodeLabels :=
  (({} : CodeLabels).markAll false [0]).markAll false [0, 1, 2]

/-- All labels and lines. -/
def loopLabels : CodeLabels :=
  { caughtLabels.markAll true [0, 2, 2, 5] with lines := ((∅ : Std.HashMap Int UInt16).insert 0 7).insert 2 8 }

def loopTables : DebugTables :=
  { labels := loopLabels, localTable := some 96 }

def loopEvents : List Event :=
  [.tryCatch ⟨0, false⟩ ⟨1, false⟩ ⟨2, false⟩ none,
    .label ⟨0, false⟩, .lineNumber 7 ⟨0, false⟩, .instruction (.bare 3), .label ⟨1, false⟩,
    .instruction (.moveLocal Opcode.istore 0), .label ⟨2, false⟩, .lineNumber 8 ⟨2, false⟩,
    .instruction (.jump Opcode.goto ⟨0, false⟩), .label ⟨5, true⟩,
    .localVariable "i" "I" none ⟨2, false⟩ ⟨5, true⟩ 0, .maxStack 1]

section Loop

set_option maxRecDepth 4000

/-- The labels of the sample with a handler are those of its three offsets. -/
theorem labels_caught {offset : Int} (h : offset ∈ [0, 1, 2]) : caughtLabels.labels[offset]? = some ⟨offset, false⟩ := by
  have hplain : (({} : CodeLabels).markAll false [0]).Plain := CodeLabels.Plain.markAll (fun o l hl => by
    rw [Std.HashMap.getElem?_empty] at hl
    cases hl) _
  exact hplain.marked h

/-- The labels of the loop are those of its first three offsets. -/
theorem labels_loop {offset : Int} (h : offset ∈ [0, 1, 2]) : loopLabels.labels[offset]? = some ⟨offset, false⟩ :=
  CodeLabels.keeps_markAll caughtLabels true [0, 2, 2, 5] _ _ (labels_caught h)

/-- The label behind the loop serves debug information only. -/
theorem labels_loopEnd : loopLabels.labels[(5 : Int)]? = some ⟨5, true⟩ := by
  change (caughtLabels.markAll true [0, 2, 2, 5]).labels[(5 : Int)]? = _
  rw [CodeLabels.getElem?_markAll, if_pos (by decide), caughtLabels, CodeLabels.getElem?_markAll, if_neg (by decide),
    CodeLabels.getElem?_markAll, if_neg (by decide), Std.HashMap.getElem?_empty]
  rfl

/-- Two lines of the loop start in front of an instruction. -/
theorem lines_loop : loopLabels.lines[(0 : Int)]? = some 7 ∧ loopLabels.lines[(1 : Int)]? = none ∧
    loopLabels.lines[(2 : Int)]? = some 8 := by
  unfold loopLabels
  dsimp only
  refine ⟨?_, ?_, Std.HashMap.getElem?_insert_self⟩ <;>
    rw [Std.HashMap.getElem?_insert, if_neg (by decide), Std.HashMap.getElem?_insert]
  · rfl
  · rw [if_neg (by decide), Std.HashMap.getElem?_empty]

theorem get_loop {offset : Int} (h : offset ∈ [0, 1, 2]) : loopLabels.get offset = ⟨offset, false⟩ := by
  unfold CodeLabels.get
  rw [Std.HashMap.getD_eq_getD_getElem?, labels_loop h]
  rfl

/-- An instruction at an offset, with the label and the line that stand in front of it. -/
theorem tells_instruction {fuel offset n : Nat} {i : Instruction} {front events : List Event} (hlt : offset < 5)
    (hread : readInstruction loopView loopLabels offset ⟨loopBytes, 57 + offset⟩ = .ok (i, ⟨loopBytes, 57 + n⟩))
    (hfront : labelEvents loopLabels offset = front) {c : Cursor}
    (h : (narrateFrom loopView loopLabels 57 5 fuel).Tells ⟨loopBytes, 57 + n⟩ events () c) :
    (narrateFrom loopView loopLabels 57 5 (fuel + 1)).Tells ⟨loopBytes, 57 + offset⟩
      (front ++ .instruction i :: events) () c := by
  unfold Walk.Tells
  rw [narrateFrom_succ, if_pos (by dsimp only; omega)]
  dsimp only
  rw [Nat.add_sub_cancel_left]
  subst hfront
  exact (tells_reportLabel loopLabels offset ⟨loopBytes, 57 + offset⟩).bind
    ((Walk.Tells.read hread).bind ((Walk.Tells.report (.instruction i)).bind h rfl) rfl) rfl

/-- What is told in front of the instructions. -/
theorem labelEvents_loop : labelEvents loopLabels 0 = [.label ⟨0, false⟩, .lineNumber 7 ⟨0, false⟩] ∧
    labelEvents loopLabels 1 = [.label ⟨1, false⟩] ∧
    labelEvents loopLabels 2 = [.label ⟨2, false⟩, .lineNumber 8 ⟨2, false⟩] := by
  obtain ⟨hline, hnone, hline'⟩ := lines_loop
  unfold labelEvents
  rw [Int.ofNat_zero, Int.ofNat_one, show ((2 : Nat) : Int) = 2 from rfl, labels_loop (by decide : (0 : Int) ∈ [0, 1, 2]),
    labels_loop (by decide : (1 : Int) ∈ [0, 1, 2]), labels_loop (by decide : (2 : Int) ∈ [0, 1, 2]), hline, hnone, hline']
  exact ⟨rfl, rfl, rfl⟩

/-- What is told of the loop behind its handler are lines, labels, instructions and the variable. -/
theorem tells_loopRest (c : Cursor) : (narrateRest loopView loopTables 57 5 1).Tells c loopEvents.tail () c := by
  obtain ⟨hfirst, hsecond, hthird⟩ := labelEvents_loop
  have hend : endEvents loopLabels 5 = [.label ⟨5, true⟩] := by
    unfold endEvents
    rw [show ((5 : Nat) : Int) = 5 from rfl, labels_loopEnd]
  have hjump : readInstruction loopView loopLabels 2 ⟨loopBytes, 57 + 2⟩ =
    .ok (.jump Opcode.goto ⟨0, false⟩, ⟨loopBytes, 57 + 5⟩) := by
    have hlabel : target loopLabels 2 (-2) = ⟨0, false⟩ := get_loop (by decide)
    rw [← hlabel]
    rfl
  have hdone : (narrateFrom loopView loopLabels 57 5 2).Tells ⟨loopBytes, 57 + 5⟩ [] () ⟨loopBytes, 57 + 5⟩ := by
    unfold Walk.Tells
    rw [narrateFrom_succ, if_neg (by decide)]
    exact Walk.Tells.pure ()
  have hstored := tells_instruction (by omega) (n := 2) (i := .moveLocal Opcode.istore 0) rfl hsecond
    (tells_instruction (by omega) hjump hthird hdone)
  have hcode := tells_instruction (by omega) (n := 1) (i := .bare 3) rfl hfirst hstored
  have hvariable : (variableItem loopView loopTables).Tells ⟨loopBytes, 98⟩
      [.localVariable "i" "I" none ⟨2, false⟩ ⟨5, true⟩ 0] () ⟨loopBytes, 108⟩ := by
    have hstart : loopLabels.get 2 = ⟨2, false⟩ := get_loop (by decide)
    have hstop : loopLabels.get 5 = ⟨5, true⟩ := by
      rw [CodeLabels.get, Std.HashMap.getD_eq_getD_getElem?, labels_loopEnd]
      rfl
    have hsignature : loopTables.signatures[((2 : UInt16), (0 : UInt16))]? = none := Std.HashMap.getElem?_empty
    unfold variableItem
    refine .after (a := 2) rfl (.after (a := 3) rfl (.after (a := "i") rfl (.after (a := "I") rfl (.after (a := 0) rfl ?_))))
    rw [hsignature, ← hstart, ← hstop]
    exact Walk.Tells.report _
  have hvariables : (reportVariables loopView loopTables).Tells c
    [.localVariable "i" "I" none ⟨2, false⟩ ⟨5, true⟩ 0] () c := by
    have hcounted : (Walk.counted (variableItem loopView loopTables)).Tells ⟨loopBytes, 96⟩
        [.localVariable "i" "I" none ⟨2, false⟩ ⟨5, true⟩ 0] () ⟨loopBytes, 108⟩ :=
      .after (show Decoder.u16.Goes ⟨loopBytes, 96⟩ 1 ⟨loopBytes, 98⟩ from rfl)
        (Walk.Tells.times_succ (n := 0) (Walk.Tells.pure ()) hvariable)
    exact hcounted.runAt.lift c
  refine (hcode.runAt.lift c).bind ((tells_reportEnd loopLabels 5 c).bind (hvariables.bind (Walk.Tells.report _) rfl) rfl) ?_
  rw [hend]
  rfl

/-- What is told of the loop is all that stands in its attribute. -/
theorem tells_loopCode : (narrate loopView {}).Tells ⟨loopBytes, 49⟩ loopEvents () ⟨loopBytes, 108⟩ := by
  have hfound : findLabels loopBytes 57 5 = .ok (({} : CodeLabels).markAll false [0]) := rfl
  have hhandlers : (handlers loopView 1 (({} : CodeLabels).markAll false [0])).Tells ⟨loopBytes, 64⟩
      [.tryCatch ⟨0, false⟩ ⟨1, false⟩ ⟨2, false⟩ none] caughtLabels ⟨loopBytes, 72⟩ := by
    have hlabel : ∀ offset ∈ [(0 : Int), 1, 2], caughtLabels.get offset = ⟨offset, false⟩ := fun offset ho => by
      rw [CodeLabels.get, Std.HashMap.getD_eq_getD_getElem?, labels_caught ho]
      rfl
    rw [← hlabel 0 (by decide), ← hlabel 1 (by decide), ← hlabel 2 (by decide)]
    exact .after (a := 0) rfl (.after (a := 1) rfl (.after (a := 2) rfl (.after (a := none) rfl
      ((Walk.Tells.report _).bind (Walk.Tells.pure caughtLabels) rfl))))
  have hattributes : Image.attributeTable loopView ⟨loopBytes, 72⟩ =
      .ok ([⟨"LineNumberTable", 80, 10⟩, ⟨"LocalVariableTable", 96, 12⟩], ⟨loopBytes, 108⟩) := rfl
  have htables : DebugTables.addAttributes loopView false { labels := caughtLabels }
      [⟨"LineNumberTable", 80, 10⟩, ⟨"LocalVariableTable", 96, 12⟩] = .ok loopTables := rfl
  rw [narrate_eq]
  refine .after (a := 1) rfl (.after (a := ()) rfl (.after (a := 5) rfl (.after (a := 57) rfl
    (.after (show (Decoder.skip 5).Goes ⟨loopBytes, 57⟩ () ⟨loopBytes, 62⟩ from rfl) (.known hfound ?_)))))
  exact .after (show Decoder.u16.Goes ⟨loopBytes, 62⟩ 1 ⟨loopBytes, 64⟩ from rfl)
    (hhandlers.bind (.after hattributes (.known htables (tells_loopRest _))) rfl)

/-- The labels of a loop with a handler, lines and a local variable: each is told once, and the jump
leads back to the first one. -/
theorem narrate_labelled_loop :
    ∃ (code : CodePlaces) (t : DebugTables) (scanned : List (Nat × List Int)) (items : List (Nat × Instruction)),
    (CodePlaces.decode loopView).Goes ⟨loopBytes, 49⟩ code ⟨loopBytes, 108⟩ ∧ code.tables loopView {} = .ok t ∧
      PassesAgree loopView code t.labels scanned items ∧ NamesMade loopView code t scanned items loopEvents ∧
      PlacesMade code t.labels items loopEvents := by
  obtain ⟨code, t, scanned, items, events, hcode, htables, hevents, hpasses, hnames, hplaces⟩ :=
    narrate_labelled (tells_loopCode #[])
  obtain rfl : loopEvents = events := by simpa using hevents
  exact ⟨code, t, scanned, items, hcode, htables, hpasses, hnames, hplaces⟩

end Loop

end Code

end ClassFile
