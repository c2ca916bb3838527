import ClassFile.Proofs.LabelledCode

/-!
# Entries of debug tables

Of the lines that debug tables give for one offset the reader tells the last one, and of several tables of local variables it
tells the last one; every other entry is told (`Code.narrate_debug`). So nothing is lost of tables that give every offset one
line, and of local variables that stand in one table (`Code.EntriesTold.lineNumber_mem`, `Code.EntriesTold.entries_eq`).
-/

namespace ClassFile

open Decoder (Goes)

/-- The line that an event tells, with its label. -/
def Event.line? : Event → Option (UInt16 × Label)
  | .lineNumber line l => some (line, l)
  | _ => none

/-- What is found for a key after entries have been made one by one is the last of its entries. -/
theorem getElem?_foldl_insert {α κ β : Type} [BEq κ] [Hashable κ] [LawfulBEq κ] [LawfulHashable κ] (key : α → κ)
    (value : α → β) (xs : List α) (m : Std.HashMap κ β) (k : κ) :
    (xs.foldl (fun m x => m.insert (key x) (value x)) m)[k]? =
    ((xs.reverse.find? fun x => key x == k).map value).or m[k]? := by
  induction xs generalizing m with
  | nil => simp
  | cons x rest ih =>
    rw [List.foldl_cons, ih, Std.HashMap.getElem?_insert, List.reverse_cons, List.find?_append]
    cases rest.reverse.find? (fun x => key x == k) with
    | some y => rfl
    | none => by_cases h : key x == k <;> simp [h]

/-- Marking labels leaves the lines alone. -/
theorem CodeLabels.lines_markAll (ls : CodeLabels) (debug : Bool) (offsets : List Int) :
    (ls.markAll debug offsets).lines = ls.lines := by
  unfold markAll
  induction offsets generalizing ls with
  | nil => rfl
  | cons offset rest ih => exact (ih (ls.mark debug offset)).trans rfl

namespace Code

variable {view : PoolView} {c c' : Cursor} {before after : Array Event}

namespace DebugTables

/-- The line that the last entry for an offset gives. -/
def lineAt (lines : List (UInt16 × UInt16)) (offset : Nat) : Option UInt16 :=
  (lines.reverse.find? fun l => (l.1.toNat : Int) == offset).map Prod.snd

/-- The generic signature that the last entry for the start and the slot of a local variable gives. -/
def signatureAt (signatures : List ((UInt16 × UInt16) × String)) (v : VariableEntry) : Option String :=
  (signatures.reverse.find? fun s => s.1 == (v.start, v.slot)).map Prod.snd

/-- If every offset has one line, every entry is the last one for its offset. -/
theorem lineAt_of_nodup {lines : List (UInt16 × UInt16)} (h : (lines.map Prod.fst).Nodup) {l : UInt16 × UInt16}
    (hl : l ∈ lines) :
    lineAt lines l.1.toNat = some l.2 := by
  have hfound : (lines.reverse.find? fun l' => (l'.1.toNat : Int) == l.1.toNat).isSome :=
    List.find?_isSome.2 ⟨l, List.mem_reverse.2 hl, by simp⟩
  obtain ⟨l', hl'⟩ := Option.isSome_iff_exists.1 hfound
  have hkey : ((l'.1.toNat : Int) == l.1.toNat) = true :=
    List.find?_some (p := fun l' : UInt16 × UInt16 => (l'.1.toNat : Int) == l.1.toNat) hl'
  have hsame : l'.1 = l.1 := UInt16.toNat_inj.1 (Int.ofNat_inj.1 (eq_of_beq hkey))
  have hmem : l' ∈ lines := List.mem_reverse.1 (List.mem_of_find?_eq_some hl')
  rw [lineAt, hl', List.inj_on_of_nodup_map h hmem hl hsame]
  rfl

section Gather

variable {α : Type} {name : String} {d : Decoder α} {attributes : List RawAttribute}

/-- Where no attribute has the name, nothing is gathered. -/
theorem gather_of_forall_ne (h : ∀ a ∈ attributes, a.name ≠ name) : gather view name d attributes = .ok [] := by
  induction attributes with
  | nil => rfl
  | cons a rest ih =>
    obtain ⟨ha, hrest⟩ := List.forall_mem_cons.1 h
    exact gather_cons (if_neg ha) (ih hrest)

/-- Where no attribute has the name, the table that counts is the one that was known before. -/
theorem lastTable_of_forall_ne (h : ∀ a ∈ attributes, a.name ≠ "LocalVariableTable") (known : Option Nat) :
    lastTable known attributes = known := by
  induction attributes with
  | nil => rfl
  | cons a rest ih =>
    obtain ⟨ha, hrest⟩ := List.forall_mem_cons.1 h
    rw [lastTable, List.foldl_cons, if_neg ha]
    exact ih hrest

/-- If there is one table of local variables at most, its entries are those of all tables. -/
theorem gather_of_lastTable {es : List α} (hone : (attributes.filter fun a => a.name = "LocalVariableTable").length ≤ 1)
    (hsome : ∀ place, lastTable none attributes = some place → (Decoder.counted d).runAt view.bytes place = .ok es.toArray)
    (hnone : lastTable none attributes = none → es = []) : gather view "LocalVariableTable" d attributes = .ok es := by
  induction attributes with
  | nil =>
    obtain rfl := hnone rfl
    rfl
  | cons a rest ih =>
    by_cases ha : a.name = "LocalVariableTable"
    · rw [List.filter_cons_of_pos (by simpa using ha), List.length_cons] at hone
      have hothers : ∀ other ∈ rest, other.name ≠ "LocalVariableTable" := by
        have hempty := List.eq_nil_of_length_eq_zero (Nat.le_zero.1 (Nat.le_of_succ_le_succ hone))
        exact fun other ho => by simpa using List.filter_eq_nil_iff.1 hempty other ho
      have hlast : lastTable none (a :: rest) = some a.start := by
        rw [lastTable, List.foldl_cons, if_pos ha]
        exact lastTable_of_forall_ne hothers _
      have hown : entriesOf view "LocalVariableTable" d a = .ok es := (entriesOf_eq_ok ha).2 (hsome _ hlast)
      have hall := gather_cons hown (gather_of_forall_ne hothers)
      rwa [List.append_nil] at hall
    · have hlast : lastTable none (a :: rest) = lastTable none rest := by
        rw [lastTable, List.foldl_cons, if_neg ha]
        rfl
      rw [List.filter_cons_of_neg (by simpa using ha)] at hone
      rw [hlast] at hsome hnone
      exact gather_cons (if_neg ha) (ih hone hsome hnone)

end Gather

/-- Lines and generic signatures have been taken down so that those of the last entries are found, and there
are labels where lines start. -/
structure Kept (t : DebugTables) (signatures : List ((UInt16 × UInt16) × String))
    (lines : List (UInt16 × UInt16)) : Prop where
  line : ∀ offset : Nat, t.labels.lines[(offset : Int)]? = lineAt lines offset
  has : ∀ offset : Nat, (lineAt lines offset).isSome → t.labels.Has offset
  signature : ∀ v : VariableEntry, t.signatures[(v.start, v.slot)]? = signatureAt signatures v

/-- What was noted of the debug tables is kept so that the last entry for an offset is found. -/
theorem Noted.kept {base : CodeLabels} {ranges : List (UInt16 × UInt16)} {signatures : List ((UInt16 × UInt16) × String)}
    {lines : List (UInt16 × UInt16)} {t : DebugTables} (h : Noted base ranges signatures lines t) (hbase : base.lines = ∅) :
    t.Kept signatures lines where
  line offset := by
    rw [h.lines, getElem?_foldl_insert (fun l : UInt16 × UInt16 => (l.1.toNat : Int)) Prod.snd, hbase]
    simp [lineAt]
  has offset hline := by
    obtain ⟨line, hl⟩ := Option.isSome_iff_exists.1 hline
    obtain ⟨l, hfound, -⟩ := Option.map_eq_some_iff.1 hl
    have hkey := List.find?_some (p := fun l : UInt16 × UInt16 => (l.1.toNat : Int) == offset) hfound
    have hstart : (l.1.toNat : Int) = offset := eq_of_beq hkey
    have hmem : (offset : Int) ∈ ranges.flatMap ends ++ lines.map fun l => (l.1.toNat : Int) :=
      List.mem_append_right _ (List.mem_map.2 ⟨l, List.mem_reverse.1 (List.mem_of_find?_eq_some hfound), hstart⟩)
    refine CodeLabels.has_of_isSome ?_
    rw [h.labels, if_pos hmem]
    cases base.labels[(offset : Int)]? <;> rfl
  signature v := by
    rw [h.signatures, getElem?_foldl_insert (fun s : (UInt16 × UInt16) × String => s.1) Prod.snd]
    simp [signatureAt]

end DebugTables

/-! ## What is told of debug tables -/

section Told

variable {code : CodePlaces} {t : DebugTables} {scanned : List (Nat × List Int)}
  {items : List (Nat × Instruction)} {caught : List Event} {vs : List VariableEntry}
  {signatures : List ((UInt16 × UInt16) × String)} {lines : List (UInt16 × UInt16)}

/-- In front of an instruction stands the line that the last entry for its offset gives. -/
theorem lines_labelEvents (h : t.Kept signatures lines) (offset : Nat) :
    (labelEvents t.labels offset).filterMap Event.line? =
    ((DebugTables.lineAt lines offset).map fun line => (line, t.labels.get offset)).toList := by
  unfold labelEvents
  rw [h.line]
  cases hline : DebugTables.lineAt lines offset with
  | none => cases t.labels.labels[(offset : Int)]? <;> rfl
  | some line =>
    rw [show t.labels.labels[(offset : Int)]? = some (t.labels.get offset) from h.has offset (by rw [hline]; rfl)]
    rfl

/-- The lines that are told are the last ones for the offsets of the instructions. -/
theorem lines_told (h : t.Kept signatures lines) (hcaught : List.Forall₂ (HandlerOf t.labels) code.ranges caught) :
    (told code t items caught vs).filterMap Event.line? =
      items.filterMap fun item => (DebugTables.lineAt lines item.1).map fun line => (line, t.labels.get item.1) := by
  have hend : (endEvents t.labels code.length).filterMap Event.line? = [] := by
    unfold endEvents
    cases t.labels.labels[(code.length : Int)]? <;> rfl
  rw [filterMap_told (fun _ _ _ _ => rfl) (fun _ => rfl) (fun _ => rfl) hcaught, hend, List.append_nil, filterMap_reports,
    List.filterMap_eq_flatMap_toList]
  refine List.flatMap_congr fun item _ => ?_
  rw [lines_labelEvents h]
  exact List.append_nil _

end Told

/-- What is told of a local variable, with the generic signature of the last entry for its start and its slot. -/
def VariableEntry.told (ls : CodeLabels) (signatures : List ((UInt16 × UInt16) × String)) (v : VariableEntry) : Event :=
  .localVariable v.name v.descriptor (DebugTables.signatureAt signatures v) (ls.get v.start.toNat)
    (ls.get (v.start.toNat + v.length.toNat)) v.slot

/-- What is told of lines and local variables is what stands in the debug tables of the code: of the lines for one offset the
last one, and of the tables of local variables the last one. -/
structure EntriesTold (view : PoolView) (code : CodePlaces) (ls : CodeLabels) (items : List (Nat × Instruction))
    (lines : List (UInt16 × UInt16)) (signatures : List ((UInt16 × UInt16) × String)) (vs : List VariableEntry)
    (events : List Event) : Prop where
  instructions : events.filterMap Event.instruction? = items.map Prod.snd
  linesRead : DebugTables.gather view "LineNumberTable" DebugTables.lineItem code.attributes = .ok lines
  signaturesRead : DebugTables.gather view "LocalVariableTypeTable" (DebugTables.signatureItem view)
    code.attributes = .ok signatures
  lines : events.filterMap Event.line? =
    items.filterMap fun item => (DebugTables.lineAt lines item.1).map fun line => (line, ls.get item.1)
  entries : ∀ place, DebugTables.lastTable none code.attributes = some place →
    (Decoder.counted (VariableEntry.decode view)).runAt view.bytes place = .ok vs.toArray
  nothing : DebugTables.lastTable none code.attributes = none → vs = []
  locals : events.filter Event.isVariable = vs.map (VariableEntry.told ls signatures)

/-- What is told of the code of a method, with debug information, comes from its debug tables. -/
theorem exists_entriesTold {omitted : Omissions} (hdebug : omitted.debug = false)
    (h : (narrate view omitted c).run.run before = (.ok ((), c'), after)) :
    ∃ (code : CodePlaces) (t : DebugTables) (scanned : List (Nat × List Int)) (items : List (Nat × Instruction))
      (lines : List (UInt16 × UInt16)) (signatures : List ((UInt16 × UInt16) × String)) (vs :
        List VariableEntry) (events : List Event),
      (CodePlaces.decode view).Goes c code c' ∧ code.tables view omitted = .ok t ∧ after = before ++ events.toArray ∧
      PassesAgree view code t.labels scanned items ∧ EntriesTold view code t.labels items lines signatures vs events := by
  obtain ⟨code, t, scanned, items, caught, vs, hcode, htables, hretold, hafter⟩ := exists_told h
  have hadded := htables
  unfold CodePlaces.tables DebugTables.addAttributes at hadded
  rw [hretold.passes.found, hdebug] at hadded
  obtain ⟨ranges, signatures, lines, htaken⟩ := DebugTables.exists_taken _ hadded
  have hkept := (htaken.noted [] [] [] (DebugTables.noted_nothing _)).kept
    (by rw [CodeLabels.lines_markAll, CodeLabels.lines_markAll])
  rw [List.nil_append, List.nil_append] at hkept
  refine ⟨code, t, scanned, items, lines, signatures, vs, told code t items caught vs, hcode, htables,
    hafter, hretold.passes, ?_⟩
  have htable : t.localTable = DebugTables.lastTable none code.attributes := htaken.table
  exact {
    instructions := instructions_told hretold.handlers
    linesRead := htaken.lines_eq
    signaturesRead := htaken.signatures_eq
    lines := lines_told hkept hretold.handlers
    entries := fun place hplace => (CodePlaces.entries_eq_ok (htable.trans hplace)).1 hretold.entries
    nothing := fun hnone => by
      have hentries := hretold.entries
      rw [CodePlaces.entries, htable.trans hnone] at hentries
      exact (Except.ok.inj hentries).symm
    locals := by
      rw [variables_told hretold.handlers]
      refine List.map_congr_left fun v _ => ?_
      rw [VariableEntry.event, VariableEntry.told, hkept.signature] }

/-- No line is lost if the lines start at different offsets: each that starts where an instruction does
is told with the label there. -/
theorem EntriesTold.lineNumber_mem {code : CodePlaces} {ls : CodeLabels} {items : List (Nat × Instruction)}
    {lines : List (UInt16 × UInt16)}
    {signatures : List ((UInt16 × UInt16) × String)} {vs : List VariableEntry} {events : List Event}
    (h : EntriesTold view code ls items lines signatures vs events) (hdistinct : (lines.map Prod.fst).Nodup)
    {l : UInt16 × UInt16} (hl : l ∈ lines)
    (hstart : l.1.toNat ∈ items.map Prod.fst) : .lineNumber l.2 (ls.get l.1.toNat) ∈ events := by
  obtain ⟨item, hitem, hoffset⟩ := List.mem_map.1 hstart
  have htold : (l.2, ls.get l.1.toNat) ∈ events.filterMap Event.line? := by
    rw [h.lines]
    refine List.mem_filterMap.2 ⟨item, hitem, ?_⟩
    rw [hoffset, DebugTables.lineAt_of_nodup hdistinct hl]
    rfl
  obtain ⟨e, he, hline⟩ := List.mem_filterMap.1 htold
  cases e with
  | lineNumber line label =>
    obtain ⟨rfl, rfl⟩ := Prod.mk.inj (Option.some.inj hline)
    exact he
  | _ => cases hline

/-- No local variable is lost if there is one table of them at most: those that are told are the entries of all tables. -/
theorem EntriesTold.entries_eq {code : CodePlaces} {ls : CodeLabels} {items : List (Nat × Instruction)}
    {lines : List (UInt16 × UInt16)}
    {signatures : List ((UInt16 × UInt16) × String)} {vs : List VariableEntry} {events : List Event}
    (h : EntriesTold view code ls items lines signatures vs events)
    (hone : (code.attributes.filter fun a => a.name = "LocalVariableTable").length ≤ 1) :
    DebugTables.gather view "LocalVariableTable" (VariableEntry.decode view) code.attributes = .ok vs :=
  DebugTables.gather_of_lastTable hone h.entries h.nothing

/-- Whenever the code of a method is told with debug information, the last line for the offset of an instruction is told with
the label of the offset, and the local variables of the last table are told in their order, each with the labels of its range
and the last generic signature for its start and its slot. So no line is lost if the lines start at different offsets, and no
local variable if there is one table of them at most. -/
theorem narrate_debug {omitted : Omissions} (hdebug : omitted.debug = false)
    (h : (narrate view omitted c).run.run before = (.ok ((), c'), after)) :
    ∃ (code : CodePlaces) (t : DebugTables) (scanned : List (Nat × List Int)) (items : List (Nat × Instruction))
      (lines : List (UInt16 × UInt16)) (signatures : List ((UInt16 × UInt16) × String)) (vs : List VariableEntry)
      (events : List Event),
      (CodePlaces.decode view).Goes c code c' ∧ code.tables view omitted = .ok t ∧ after = before ++ events.toArray ∧
      PassesAgree view code t.labels scanned items ∧ EntriesTold view code t.labels items lines signatures vs events ∧
      ((lines.map Prod.fst).Nodup → ∀ l ∈ lines, l.1.toNat ∈ items.map Prod.fst →
        .lineNumber l.2 (t.labels.get l.1.toNat) ∈ events) ∧
      ((code.attributes.filter fun a => a.name = "LocalVariableTable").length ≤ 1 →
        DebugTables.gather view "LocalVariableTable" (VariableEntry.decode view) code.attributes = .ok vs) := by
  obtain ⟨code, t, scanned, items, lines, signatures, vs, events, hcode, htables, hafter, hpasses, htold⟩ :=
    exists_entriesTold hdebug h
  exact ⟨code, t, scanned, items, lines, signatures, vs, events, hcode, htables, hafter, hpasses, htold,
    fun hdistinct _ => htold.lineNumber_mem hdistinct, htold.entries_eq⟩

/-- The debug tables of the loop. -/
theorem narrate_debug_loop :
    ∃ (code : CodePlaces) (t : DebugTables) (scanned : List (Nat × List Int)) (items : List (Nat × Instruction))
    (lines : List (UInt16 × UInt16)) (signatures : List ((UInt16 × UInt16) × String)) (vs : List VariableEntry),
    (CodePlaces.decode loopView).Goes ⟨loopBytes, 49⟩ code ⟨loopBytes, 108⟩ ∧ code.tables loopView {} = .ok t ∧
      PassesAgree loopView code t.labels scanned items ∧
      EntriesTold loopView code t.labels items lines signatures vs loopEvents := by
  obtain ⟨code, t, scanned, items, lines, signatures, vs, events, hcode, htables, hevents, hpasses, htold, -⟩ :=
    narrate_debug rfl (tells_loopCode #[])
  obtain rfl : loopEvents = events := by simpa using hevents
  exact ⟨code, t, scanned, items, lines, signatures, vs, hcode, htables, hpasses, htold⟩

end Code

end ClassFile
