import ClassFile.Proofs.OmittedDebug
import ClassFile.Proofs.PartReading

/-!
# Passes over code

A reader goes over the code of a method twice: first it looks for the offsets to which instructions lead and makes labels for
them, then it tells of the instructions. Both passes stop at the same offsets (`Code.Strides.scans`). Whatever is told of the
code of a method, it is told of the entries of its tables one by one, with labels that have been made for the offsets which
stand there (`Code.exists_told`).
-/

namespace ClassFile

open Decoder (Goes Stays)

/-! ## Labels that are made -/

namespace CodeLabels

/-- There is a label for an offset. -/
def Has (ls : CodeLabels) (offset : Int) : Prop :=
  ls.labels[offset]? = some (ls.get offset)

variable {ls ls' : CodeLabels} {offset : Int}

/-- The label of an offset is the one that was made for it. -/
theorem get_of_getElem? {l : Label} (h : ls.labels[offset]? = some l) : ls.get offset = l := by
  unfold CodeLabels.get
  rw [Std.HashMap.getD_eq_getD_getElem?, h]
  rfl

/-- There is a label where one was made. -/
theorem has_of_isSome (h : ls.labels[offset]?.isSome) : ls.Has offset := by
  obtain ⟨l, hl⟩ := Option.isSome_iff_exists.1 h
  exact hl.trans (congrArg some (get_of_getElem? hl).symm)

/-- Where there is a label it stays. -/
theorem Has.keep (h : ls.Has offset) (hkeeps : ls.Keeps ls') : ls'.Has offset ∧ ls'.get offset = ls.get offset := by
  have hkept := hkeeps offset _ h
  have hget := get_of_getElem? hkept
  exact ⟨hkept.trans (congrArg some hget.symm), hget⟩

/-- Labels are made one after the other. -/
theorem markAll_append (ls : CodeLabels) (debug : Bool) (offsets more : List Int) :
    ls.markAll debug (offsets ++ more) = (ls.markAll debug offsets).markAll debug more :=
  List.foldl_append

/-- There is a label for each of the offsets. -/
theorem has_markAll (ls : CodeLabels) (debug : Bool) {offsets : List Int} (h : offset ∈ offsets) :
    (ls.markAll debug offsets).Has offset := by
  refine has_of_isSome ?_
  rw [getElem?_markAll, if_pos h]
  cases ls.labels[offset]? <;> rfl

end CodeLabels

/-! ## Passes over code -/

namespace Code

/-- A pass over code from one instruction to the next: the offsets at which it stops, with what it finds there. It ends where
no instruction starts inside of the code. -/
inductive Strides {α : Type} (step : Nat → Decoder α) (start length : Nat) : Cursor → List (Nat × α) → Cursor → Prop where
  | stop {c : Cursor} (houtside : start + length ≤ c.position) : Strides step start length c [] c
  | next {c c₁ c' : Cursor} {a : α} {rest : List (Nat × α)} (hinside : c.position < start + length)
      (hstep : (step (c.position - start)).Goes c a c₁) (hrest : Strides step start length c₁ rest c') :
      Strides step start length c ((c.position - start, a) :: rest) c'

section Strides

variable {view : PoolView} {ls : CodeLabels} {start length : Nat} {c c' : Cursor}

/-- Reading a distance of two bytes stays within the bytes. -/
theorem stays_distance16 : distance16.Stays :=
  (Decoder.stays_u16.bind fun _ => Decoder.stays_pure _).bind fun _ => Decoder.stays_pure _

/-- Reading a signed number stays within the bytes. -/
theorem stays_i32 : Decoder.i32.Stays :=
  Decoder.stays_u32.bind fun _ => Decoder.stays_pure _

theorem stays_distance32 : distance32.Stays :=
  stays_i32.bind fun _ => Decoder.stays_pure _

theorem stays_tableDistances (offset : Nat) : (tableDistances offset).Stays :=
  (Decoder.stays_skip _).bind fun _ => stays_distance32.bind fun _ => stays_i32.bind fun _ => stays_i32.bind fun _ =>
    (Decoder.stays_manyFrom stays_distance32 _ #[]).bind fun _ => Decoder.stays_pure _

theorem stays_lookupDistances (offset : Nat) : (lookupDistances offset).Stays :=
  (Decoder.stays_skip _).bind fun _ => stays_distance32.bind fun _ => stays_i32.bind fun _ =>
    (Decoder.stays_manyFrom ((Decoder.stays_skip 4).bind fun _ => stays_distance32) _ #[]).bind fun _ => Decoder.stays_pure _

/-- An instruction takes at least the byte of its opcode. -/
theorem lt_of_scanInstruction {offset : Nat} {distances : List Int} (h : (scanInstruction offset).Goes c distances c') :
    c.position < c'.position := by
  unfold scanInstruction at h
  obtain ⟨op, c₁, hop, hoperands⟩ := h.of_bind
  obtain ⟨rfl, -, -⟩ := Decoder.passes_u8 _ _ _ hop
  have hmoves : ∀ {d : Decoder (List Int)},
    d.Stays → d.Goes ⟨c.bytes, c.position + 1⟩ distances c' → c.position < c'.position :=
    fun hd hgoes => (hd _ _ _ hgoes).2
  have hskip : ∀ n, Stays (do Decoder.skip n; return ([] : List Int)) := fun n =>
    (Decoder.stays_skip n).bind fun _ => Decoder.stays_pure []
  cases hl : Opcode.layout op <;> rw [hl] at hoperands
  case bare | impliedIndex => exact hmoves (Decoder.stays_pure []) hoperands
  case localIndex | signedByte | constant => exact hmoves (hskip 1) hoperands
  case signedShort | wideConstant | type | member | increment => exact hmoves (hskip 2) hoperands
  case multiArray => exact hmoves (hskip 3) hoperands
  case interfaceMethod | callSite => exact hmoves (hskip 4) hoperands
  case jump => exact hmoves (stays_distance16.bind fun _ => Decoder.stays_pure _) hoperands
  case wideJump => exact hmoves (stays_distance32.bind fun _ => Decoder.stays_pure _) hoperands
  case wide => exact hmoves (Decoder.stays_u8.bind fun _ => hskip _) hoperands
  case tableSwitch => exact hmoves (stays_tableDistances offset) hoperands
  case lookupSwitch => exact hmoves (stays_lookupDistances offset) hoperands

/-- Where instructions are read one after the other, the first pass goes over the same offsets and finds
the distances of their labels. -/
theorem Strides.scans {items : List (Nat × Instruction)} (h : Strides (readInstruction view ls) start length c items c') :
    ∃ scanned : List (Nat × List Int), Strides scanInstruction start length c scanned c' ∧
      scanned.map Prod.fst = items.map Prod.fst ∧
      List.Forall₂ (fun s item => item.2.labels = s.2.map (target ls s.1)) scanned items := by
  induction h with
  | stop houtside => exact ⟨[], .stop houtside, rfl, .nil⟩
  | next hinside hread _ ih =>
    obtain ⟨distances, hscan, hlabels, -⟩ := scans_instruction view _ ls _ _ _ hread
    obtain ⟨scanned, hscanned, hoffsets, hitems⟩ := ih
    exact ⟨_, .next hinside hscan hscanned, congrArg (_ :: ·) hoffsets, .cons hlabels hitems⟩

/-- The offsets to which the instructions lead over which the first pass goes. -/
def targets (scanned : List (Nat × List Int)) : List Int :=
  scanned.flatMap fun s => s.2.map ((s.1 : Int) + ·)

/-- The first pass makes labels for what is found at the offsets at which it stops. -/
theorem Strides.goes_scanFrom {scanned : List (Nat × List Int)} (h : Strides scanInstruction start length c scanned c')
    {fuel : Nat} (hfuel : start + length ≤ c.position + fuel) (ls : CodeLabels) :
    (scanFrom start length fuel ls).Goes c (ls.markAll false (targets scanned)) c' := by
  induction h generalizing fuel ls with
  | stop houtside =>
    cases fuel with
    | zero => exact Goes.pure _ _
    | succ fuel =>
      rw [Goes, scanFrom_succ, if_neg (by omega)]
      rfl
  | next hinside hscan _ ih =>
    have hmoved := lt_of_scanInstruction hscan
    cases fuel with
    | zero => omega
    | succ fuel =>
      rw [Goes, scanFrom_succ, if_pos hinside, show scanInstruction _ _ = .ok _ from hscan, targets, List.flatMap_cons,
        CodeLabels.markAll_append]
      exact ih (by omega) _

/-- The second pass tells of the instructions at the offsets at which it stops. -/
theorem exists_strides {fuel : Nat} {before after : Array Event}
    (h : (narrateFrom view ls start length fuel c).run.run before = (.ok ((), c'), after))
    (hfuel : start + length ≤ c.position + fuel) :
    ∃ items : List (Nat × Instruction), Strides (readInstruction view ls) start length c items c' ∧
      after = before ++ (reports ls items).toArray := by
  induction fuel generalizing c before with
  | zero =>
    obtain ⟨hresult, rfl⟩ := Prod.mk.inj h
    obtain rfl : c = c' := congrArg Prod.snd (Except.ok.inj hresult)
    exact ⟨[], .stop hfuel, by simp [reports]⟩
  | succ fuel ih =>
    rw [narrateFrom_succ] at h
    by_cases hinside : c.position < start + length
    · rw [if_pos hinside, (tells_reportLabel ls (c.position - start) c).run_bind] at h
      obtain ⟨i, c₁, hread, h⟩ := Walk.exists_of_run_read h
      rw [(Walk.Tells.report (.instruction i)).run_bind] at h
      obtain ⟨distances, hscan, -, -⟩ := scans_instruction view _ ls _ _ _ hread
      have hmoved := lt_of_scanInstruction hscan
      obtain ⟨items, hitems, rfl⟩ := ih h (by omega)
      exact ⟨_, .next hinside hread hitems, by simp [reports]⟩
    · rw [if_neg hinside] at h
      obtain ⟨hresult, rfl⟩ := Prod.mk.inj h
      obtain rfl : c = c' := congrArg Prod.snd (Except.ok.inj hresult)
      exact ⟨[], .stop (by omega), by simp [reports]⟩

/-- A pass stops at offsets inside of the code, each further on than the one before. -/
theorem Strides.offsets {scanned : List (Nat × List Int)} (h : Strides scanInstruction start length c scanned c')
    (hstart : start ≤ c.position) : (scanned.map Prod.fst).Pairwise (· < ·) ∧
      ∀ offset ∈ scanned.map Prod.fst, c.position - start ≤ offset ∧ offset < length := by
  induction h with
  | stop => exact ⟨.nil, fun _ h => absurd h List.not_mem_nil⟩
  | next hinside hscan _ ih =>
    have hmoved := lt_of_scanInstruction hscan
    obtain ⟨hincreasing, hwithin⟩ := ih (by omega)
    refine ⟨List.pairwise_cons.2 ⟨fun offset ho => ?_, hincreasing⟩,
      List.forall_mem_cons.2 ⟨⟨Nat.le_refl _, by omega⟩, fun offset ho => ?_⟩⟩
    · have := (hwithin offset ho).1
      omega
    · have := hwithin offset ho
      omega

end Strides

end Code

/-! ## What stands where -/

/-- An entry of a table of local variables. -/
structure VariableEntry where
  start : UInt16
  length : UInt16
  name : String
  descriptor : String
  slot : UInt16
  deriving DecidableEq, Repr, Inhabited

namespace VariableEntry

/-- Reads an entry of a table of local variables. -/
def decode (view : PoolView) : Decoder VariableEntry := do
  let start ← Decoder.u16
  let length ← Decoder.u16
  let name ← view.nextText
  let descriptor ← view.nextText
  let slot ← Decoder.u16
  return { start, length, name, descriptor, slot }

/-- Where the variable starts to live, and for how long. -/
def range (v : VariableEntry) : UInt16 × UInt16 :=
  (v.start, v.length)

/-- What is told of a local variable. -/
def event (t : Code.DebugTables) (v : VariableEntry) : Event :=
  .localVariable v.name v.descriptor t.signatures[(v.start, v.slot)]? (t.labels.get v.start.toNat)
    (t.labels.get (v.start.toNat + v.length.toNat)) v.slot

end VariableEntry

/-- A reader of an array comes with a list if it comes with the array of that list. -/
theorem toList_map_eq_ok {α : Type} {x : Except Error (Array α)} {xs : List α} :
    Array.toList <$> x = .ok xs ↔ x = .ok xs.toArray := by
  cases x with
  | error e => exact ⟨fun h => (by cases h), fun h => (by cases h)⟩
  | ok r =>
    exact ⟨fun h => congrArg Except.ok (by rw [← Except.ok.inj h]), fun h => congrArg Except.ok (by rw [Except.ok.inj h])⟩

/-- The offsets that an entry of an exception table names. -/
def ExceptionRange.offsets (r : ExceptionRange) : List Int :=
  [(r.start.toNat : Int), (r.stop.toNat : Int), (r.handler.toNat : Int)]

/-- The code of a method with the place where its instructions stand, and with the places of its attributes. -/
structure CodePlaces where
  maxStack : UInt16
  start : Nat
  length : Nat
  ranges : List ExceptionRange
  attributes : List RawAttribute
  deriving Repr, Inhabited

namespace CodePlaces

/-- Goes over the code of a method for its places. -/
def decode (view : PoolView) : Decoder CodePlaces := do
  let maxStack ← Decoder.u16
  Decoder.skip 2
  let length ← Decoder.u32
  let start ← Decoder.position
  Decoder.skip length.toNat
  let ranges ← Decoder.counted ExceptionRange.decode
  let attributes ← Image.attributeTable view
  return { maxStack, start, length := length.toNat, ranges := ranges.toList, attributes }

/-- The labels that are made for the code of a method, with what its debug tables say. -/
def tables (code : CodePlaces) (view : PoolView) (omitted : Omissions) : Except Error Code.DebugTables := do
  let found ← Code.findLabels view.bytes code.start code.length
  Code.DebugTables.addAttributes view omitted.debug
    { labels := found.markAll false (code.ranges.flatMap ExceptionRange.offsets) } code.attributes

/-- The entries of the table of local variables that counts. -/
def entries (view : PoolView) (t : Code.DebugTables) : Except Error (List VariableEntry) :=
  match t.localTable with
  | some offset => Array.toList <$> (Decoder.counted (VariableEntry.decode view)).runAt view.bytes offset
  | none => .ok []

/-- The entries of a table are read where the table stands. -/
theorem entries_eq_ok {view : PoolView} {t : Code.DebugTables} {offset : Nat} (ht : t.localTable = some offset)
    {vs : List VariableEntry} :
    entries view t = .ok vs ↔ (Decoder.counted (VariableEntry.decode view)).runAt view.bytes offset = .ok vs.toArray := by
  rw [entries, ht]
  exact toList_map_eq_ok

end CodePlaces

/-! ## Telling what is read -/

namespace Walk

open Decoder (manyFrom)

variable {α : Type} {d : Decoder α} {f : α → Event} {c c' : Cursor} {before after : Array Event}

/-- Two readers one after the other, as one. -/
theorem read_bind {β : Type} (d : Decoder α) (g : α → Decoder β) :
    read (d >>= g) = (read d >>= fun a => read (g a) : Walk β) := by
  funext c
  change read (d >>= g) c = read d c >>= fun r => read (g r.1) r.2
  unfold read
  rw [show (d >>= g) c = (d c >>= fun r => g r.1 r.2) from rfl]
  cases d c <;> rfl

/-- Values that are read and told one after the other. -/
theorem exists_of_times {n : Nat} (h : (times (do report (f (← read d))) n c).run.run before = (.ok ((), c'), after))
    (acc : Array α) :
    ∃ xs : List α, (manyFrom d n acc).Goes c (acc ++ xs.toArray) c' ∧ after = before ++ (xs.map f).toArray := by
  induction n generalizing c before acc with
  | zero =>
    obtain ⟨hresult, rfl⟩ := Prod.mk.inj h
    obtain rfl : c = c' := congrArg Prod.snd (Except.ok.inj hresult)
    exact ⟨[], by simpa [manyFrom] using Decoder.Goes.pure acc c, by simp⟩
  | succ n ih =>
    unfold times at h
    obtain ⟨_, c₁, told, hfirst, hrest⟩ := exists_of_run_bind h
    obtain ⟨a, c₂, hread, hreport⟩ := exists_of_run_read hfirst
    obtain ⟨hresult, rfl⟩ := Prod.mk.inj hreport
    obtain rfl : c₂ = c₁ := congrArg Prod.snd (Except.ok.inj hresult)
    obtain ⟨xs, hxs, rfl⟩ := ih hrest (acc.push a)
    refine ⟨a :: xs, ?_, by simp⟩
    have hboth := hread.bind (f := fun a => manyFrom d n (acc.push a)) hxs
    simpa [manyFrom] using hboth

/-- Values that are read behind their number and told. -/
theorem exists_of_counted (h : (counted (do report (f (← read d))) c).run.run before = (.ok ((), c'), after)) :
    ∃ xs : List α, (Decoder.counted d).Goes c xs.toArray c' ∧ after = before ++ (xs.map f).toArray := by
  unfold counted at h
  obtain ⟨n, c₁, hn, h⟩ := exists_of_run_read h
  obtain ⟨xs, hxs, hafter⟩ := exists_of_times h #[]
  rw [Array.empty_append] at hxs
  exact ⟨xs, hn.bind hxs, hafter⟩

end Walk

namespace Code

open CodeLabels (Keeps Has)

variable {view : PoolView} {ls ls' : CodeLabels} {c c' : Cursor} {before after : Array Event}

/-- An event tells of an exception handler, with the labels of its offsets. -/
def HandlerOf (ls : CodeLabels) (r : ExceptionRange) (e : Event) : Prop :=
  (∃ type, e = .tryCatch (ls.get r.start.toNat) (ls.get r.stop.toNat) (ls.get r.handler.toNat) type) ∧
    ∀ offset ∈ r.offsets, ls.Has offset

/-- What is told of a handler does not change with labels that are made later. -/
theorem HandlerOf.keep {r : ExceptionRange} {e : Event} (h : HandlerOf ls r e) (hkeeps : ls.Keeps ls') :
    HandlerOf ls' r e := by
  obtain ⟨⟨type, rfl⟩, hhas⟩ := h
  have hget : ∀ offset ∈ r.offsets, ls'.get offset = ls.get offset := fun offset ho => ((hhas offset ho).keep hkeeps).2
  refine ⟨⟨type, ?_⟩, fun offset ho => ((hhas offset ho).keep hkeeps).1⟩
  rw [hget r.start.toNat (by simp [ExceptionRange.offsets]), hget r.stop.toNat (by simp [ExceptionRange.offsets]),
    hget r.handler.toNat (by simp [ExceptionRange.offsets])]

/-- Exception handlers are told as they stand in their table, and labels are made for their offsets. -/
theorem exists_ranges {count : Nat} (h : (handlers view count ls c).run.run before = (.ok (ls', c'), after))
    (acc : Array ExceptionRange) :
    ∃ (ranges : List ExceptionRange) (events : List Event),
      (Decoder.manyFrom ExceptionRange.decode count acc).Goes c (acc ++ ranges.toArray) c' ∧
      ls' = ls.markAll false (ranges.flatMap ExceptionRange.offsets) ∧ after = before ++ events.toArray ∧
        List.Forall₂ (HandlerOf ls') ranges events := by
  induction count generalizing ls c before acc with
  | zero =>
    obtain ⟨hresult, rfl⟩ := Prod.mk.inj h
    obtain ⟨rfl, rfl⟩ := Prod.mk.inj (Except.ok.inj hresult)
    exact ⟨[], [], by simpa [Decoder.manyFrom] using Goes.pure acc c, rfl, by simp, .nil⟩
  | succ count ih =>
    unfold handlers at h
    obtain ⟨start, c₁, hstart, h⟩ := Walk.exists_of_run_read h
    obtain ⟨stop, c₂, hstop, h⟩ := Walk.exists_of_run_read h
    obtain ⟨handler, c₃, hhandler, h⟩ := Walk.exists_of_run_read h
    obtain ⟨type, c₄, htype, h⟩ := Walk.exists_of_run_read h
    rw [(Walk.Tells.report _).run_bind] at h
    obtain ⟨i, c₅, hi, hname⟩ := htype.of_bind
    obtain ⟨-, rfl⟩ := Goes.of_lift hname
    let r : ExceptionRange := ⟨start, stop, handler, if i == 0 then none else some i⟩
    have hread : ExceptionRange.decode.Goes c r c₄ := hstart.bind (hstop.bind (hhandler.bind (hi.bind (Goes.pure _ _))))
    obtain ⟨ranges, events, hranges, rfl, rfl, hevents⟩ := ih h (acc.push r)
    have hfirst : HandlerOf (ls.markAll false r.offsets) r _ := ⟨⟨type, rfl⟩, fun offset ho => ls.has_markAll false ho⟩
    refine ⟨r :: ranges, _ :: events, ?_, ?_, ?_, .cons (hfirst.keep (CodeLabels.keeps_markAll _ false _)) hevents⟩
    · simpa [Decoder.manyFrom] using hread.bind
        (f := fun r => Decoder.manyFrom ExceptionRange.decode count (acc.push r)) hranges
    · rw [List.flatMap_cons, CodeLabels.markAll_append]
      rfl
    · rw [Array.append_assoc]
      simp [ExceptionRange.offsets, r]

/-- A local variable is read, and then told. -/
theorem variableItem_eq (view : PoolView) (t : DebugTables) : variableItem view t = (do
    Walk.report ((← Walk.read (VariableEntry.decode view)).event t)) := by
  unfold variableItem VariableEntry.decode PoolView.nextText
  simp only [Walk.read_bind, bind_assoc]
  rfl

namespace DebugTables

variable {t t' : DebugTables} {base : CodeLabels} {attributes : List RawAttribute} {a : RawAttribute}

section Gather

variable {α : Type} {name : String} {d : Decoder α} {es : List α}

/-- The entries of an attribute, if it has the name. -/
def entriesOf (view : PoolView) (name : String) (d : Decoder α) (a : RawAttribute) : Except Error (List α) :=
  if a.name = name then Array.toList <$> (Decoder.counted d).runAt view.bytes a.start else .ok []

/-- The entries of the attributes of a name, one table after the other. -/
def gather (view : PoolView) (name : String) (d : Decoder α) : List RawAttribute → Except Error (List α)
  | [] => .ok []
  | a :: rest => do
    let es ← entriesOf view name d a
    return es ++ (← gather view name d rest)

/-- Entries of several attributes are gathered one attribute after the other. -/
theorem gather_cons {more : List α} (h : entriesOf view name d a = .ok es)
    (hrest : gather view name d attributes = .ok more) :
    gather view name d (a :: attributes) = .ok (es ++ more) := by
  rw [gather, h, hrest]
  rfl

/-- The entries of an attribute are read where the attribute starts. -/
theorem entriesOf_eq_ok (hname : a.name = name) :
    entriesOf view name d a = .ok es ↔ (Decoder.counted d).runAt view.bytes a.start = .ok es.toArray := by
  rw [entriesOf, if_pos hname]
  exact toList_map_eq_ok

/-- Every entry of one of the attributes is among those that are gathered. -/
theorem exists_of_gather (h : gather view name d attributes = .ok es) (ha : a ∈ attributes) :
    ∃ own, entriesOf view name d a = .ok own ∧ ∀ x ∈ own, x ∈ es := by
  induction attributes generalizing es with
  | nil => exact absurd ha List.not_mem_nil
  | cons first rest ih =>
    obtain ⟨own, hown, h⟩ := exists_of_bind_eq_ok h
    obtain ⟨more, hmore, h⟩ := exists_of_bind_eq_ok h
    obtain rfl := Except.ok.inj h
    rcases List.mem_cons.1 ha with rfl | ha
    · exact ⟨own, hown, fun x hx => List.mem_append_left _ hx⟩
    · obtain ⟨r, hr, hmem⟩ := ih hmore ha
      exact ⟨r, hr, fun x hx => List.mem_append_right _ (hmem x hx)⟩

end Gather

/-- The place of the last table of local variables, or the one that was known before. -/
def lastTable (known : Option Nat) (attributes : List RawAttribute) : Option Nat :=
  attributes.foldl (fun known a => if a.name = "LocalVariableTable" then some a.start else known) known

/-- The table that counts is an attribute of that name. -/
theorem mem_of_lastTable {offset : Nat} (h : lastTable none attributes = some offset) :
    ∃ a ∈ attributes, a.name = "LocalVariableTable" ∧ a.start = offset := by
  suffices hknown : ∀ known, lastTable known attributes = some offset →
      known = some offset ∨ ∃ a ∈ attributes, a.name = "LocalVariableTable" ∧ a.start = offset from
    (hknown none h).resolve_left (fun h => by cases h)
  clear h
  induction attributes with
  | nil => exact fun known h => .inl h
  | cons first rest ih =>
    intro known h
    rcases ih _ h with hfirst | ⟨a, ha, hname⟩
    · dsimp only at hfirst
      split at hfirst
      · exact .inr ⟨first, List.mem_cons_self, ‹_›, Option.some.inj hfirst⟩
      · exact .inl hfirst
    · exact .inr ⟨a, List.mem_cons_of_mem _ ha, hname⟩

section Taken

variable {ranges : List (UInt16 × UInt16)} {signatures : List ((UInt16 × UInt16) × String)} {lines : List (UInt16 × UInt16)}

/-- What the debug tables among some attributes say, one table after the other, has been taken down behind what was known. -/
structure Taken (view : PoolView) (base : CodeLabels) (known : DebugTables) (attributes : List RawAttribute)
    (ranges : List (UInt16 × UInt16))
    (signatures : List ((UInt16 × UInt16) × String)) (lines : List (UInt16 × UInt16)) (t : DebugTables) : Prop where
  ranges_eq : gather view "LocalVariableTable" rangeItem attributes = .ok ranges
  signatures_eq : gather view "LocalVariableTypeTable" (signatureItem view) attributes = .ok signatures
  lines_eq : gather view "LineNumberTable" lineItem attributes = .ok lines
  noted : ∀ ranges₀ signatures₀ lines₀, Noted base ranges₀ signatures₀ lines₀ known →
    Noted base (ranges₀ ++ ranges) (signatures₀ ++ signatures) (lines₀ ++ lines) t
  table : t.localTable = lastTable known.localTable attributes

/-- Entries that are taken down one by one come from the table that is read. -/
theorem exists_of_counted {α : Type} {d : DebugTables → Decoder DebugTables} {item : Decoder α}
    {note : DebugTables → α → DebugTables}
    (hd : ∀ t, d t = (do return note t (← item))) {offset : Nat} (h : (counted d t).runAt view.bytes offset = .ok t') :
    ∃ r, (Decoder.counted item).runAt view.bytes offset = .ok r ∧ t' = r.toList.foldl note t := by
  rw [counted_eq hd] at h
  obtain ⟨c₁, hgoes⟩ := Goes.of_runAt h
  obtain ⟨r, c₂, hr, hnoted⟩ := hgoes.of_bind
  obtain ⟨rfl, rfl⟩ := Goes.of_pure hnoted
  exact ⟨r, hr.runAt, (Array.foldl_toList ..).symm⟩

/-- What one attribute says is taken down. -/
theorem exists_of_addAttribute (base : CodeLabels) (h : addAttribute view t a = .ok t') : ∃ ranges signatures lines,
    entriesOf view "LocalVariableTable" rangeItem a = .ok ranges ∧
    entriesOf view "LocalVariableTypeTable" (signatureItem view) a = .ok signatures ∧
    entriesOf view "LineNumberTable" lineItem a = .ok lines ∧
    (∀ ranges₀ signatures₀ lines₀, Noted base ranges₀ signatures₀ lines₀ t →
      Noted base (ranges₀ ++ ranges) (signatures₀ ++ signatures) (lines₀ ++ lines) t') ∧
    t'.localTable = if a.name = "LocalVariableTable" then some a.start else t.localTable := by
  have hother : ∀ {α : Type} {name : String} (d : Decoder α), a.name ≠ name → entriesOf view name d a = .ok [] :=
    fun d hname => if_neg hname
  unfold addAttribute at h
  simp only [beq_iff_eq] at h
  by_cases hlocal : a.name = "LocalVariableTable"
  · rw [if_pos hlocal] at h
    obtain ⟨r, hr, rfl⟩ := exists_of_counted markVariable_eq h
    refine ⟨r.toList, [], [], (entriesOf_eq_ok hlocal).2 hr, hother _ (by rw [hlocal]; decide),
      hother _ (by rw [hlocal]; decide), ?_, ?_⟩
    · intro ranges signatures lines hnoted
      have hplaced : Noted base ranges signatures lines { t with localTable := some a.start } :=
        ⟨hnoted.labels, hnoted.lines, hnoted.signatures⟩
      simpa using hplaced.allRanges r.toList
    · rw [if_pos hlocal, localTable_foldl noteRange fun _ _ => rfl]
  rw [if_neg hlocal] at h
  by_cases htype : a.name = "LocalVariableTypeTable"
  · rw [if_pos htype] at h
    obtain ⟨r, hr, rfl⟩ := exists_of_counted (addSignature_eq view) h
    refine ⟨[], r.toList, [], hother _ hlocal, (entriesOf_eq_ok htype).2 hr,
      hother _ (by rw [htype]; decide), fun _ _ _ hnoted => ?_, ?_⟩
    · simpa using hnoted.allSignatures r.toList
    · rw [if_neg hlocal, localTable_foldl noteSignature fun _ _ => rfl]
  rw [if_neg htype] at h
  by_cases hline : a.name = "LineNumberTable"
  · rw [if_pos hline] at h
    obtain ⟨r, hr, rfl⟩ := exists_of_counted addLine_eq h
    refine ⟨[], [], r.toList, hother _ hlocal, hother _ htype, (entriesOf_eq_ok hline).2 hr, fun _ _ _ hnoted => ?_, ?_⟩
    · simpa using hnoted.allLines r.toList
    · rw [if_neg hlocal, localTable_foldl noteLine fun _ _ => rfl]
  · rw [if_neg hline] at h
    obtain rfl := Except.ok.inj h
    exact ⟨[], [], [], hother _ hlocal, hother _ htype,
      hother _ hline, fun _ _ _ hnoted => by simpa using hnoted, (if_neg hlocal).symm⟩

/-- What all debug tables say is taken down, one table after the other. -/
theorem exists_taken (base : CodeLabels) {known : DebugTables} (h : attributes.foldlM (addAttribute view) known = .ok t) :
    ∃ ranges signatures lines, Taken view base known attributes ranges signatures lines t := by
  induction attributes generalizing known with
  | nil =>
    obtain rfl := Except.ok.inj h
    exact ⟨[], [], [], rfl, rfl, rfl, fun _ _ _ hnoted => by simpa using hnoted, rfl⟩
  | cons a rest ih =>
    rw [List.foldlM_cons] at h
    obtain ⟨t₁, hfirst, hrest⟩ := exists_of_bind_eq_ok h
    obtain ⟨ranges, signatures, lines, hranges, hsignatures, hlines, hnoted, htable⟩ := exists_of_addAttribute base hfirst
    obtain ⟨ranges', signatures', lines', hrest⟩ := ih hrest
    refine ⟨ranges ++ ranges', signatures ++ signatures', lines ++ lines', gather_cons hranges hrest.ranges_eq,
      gather_cons hsignatures hrest.signatures_eq, gather_cons hlines hrest.lines_eq, fun _ _ _ hknown => ?_, ?_⟩
    · simpa using hrest.noted _ _ _ (hnoted _ _ _ hknown)
    · rw [hrest.table, htable]
      rfl

end Taken

/-- An entry of a table of local variables stands where its range is read. -/
theorem goes_rangeItem {v : VariableEntry} (h : (VariableEntry.decode view).Goes c v c') : rangeItem.Goes c v.range c' := by
  unfold VariableEntry.decode at h
  obtain ⟨start, c₁, hstart, h⟩ := h.of_bind
  obtain ⟨length, c₂, hlength, h⟩ := h.of_bind
  have htext : view.nextText.Passes 2 fun _ => True :=
    Decoder.Passes.bind (n := 0) Decoder.passes_u16 fun i _ => Decoder.passes_lift _
  have hrest : Decoder.Passes (do
      let name ← view.nextText
      let descriptor ← view.nextText
      let slot ← Decoder.u16
      return ({ start, length, name, descriptor, slot } : VariableEntry)) 6 fun v => v.range = (start, length) :=
    Decoder.Passes.bind (n := 4) htext fun name _ => Decoder.Passes.bind (n := 2) htext fun descriptor _ =>
      Decoder.Passes.bind (n := 0) Decoder.passes_u16 fun slot _ => .pure rfl
  have hskip := hrest.goes_skip (by decide) h
  rw [(hrest _ _ _ h).2.2]
  exact hstart.bind (hlength.bind (hskip.bind (Goes.pure _ _)))

/-- The ranges of a table of local variables are those of its entries. -/
theorem ranges_of_entries {vs : Array VariableEntry} {ranges : Array (UInt16 × UInt16)} {c₁ c₂ : Cursor}
    (h : (Decoder.counted (VariableEntry.decode view)).Goes c vs c₁) (h' : (Decoder.counted rangeItem).Goes c ranges c₂) :
    ranges = vs.map VariableEntry.range := by
  unfold Decoder.counted at h h'
  obtain ⟨n, c₃, hn, hvs⟩ := h.of_bind
  obtain ⟨m, c₄, hm, hranges⟩ := h'.of_bind
  obtain ⟨rfl, rfl⟩ := hn.unique hm
  exact (hranges.unique (hvs.many_map fun _ _ _ => goes_rangeItem)).1

/-- There are labels for the ends of all local variables in the table that counts. -/
def Covers (view : PoolView) (t : DebugTables) : Prop :=
  ∀ vs, CodePlaces.entries view t = .ok vs → ∀ v ∈ vs, ∀ offset ∈ ends v.range, t.labels.Has offset

/-- Labels are made for the ends of all local variables of each of the tables. -/
theorem covers_addAttributes {skip : Bool} (h : addAttributes view skip { labels := base } attributes = .ok t) :
    t.Covers view := by
  intro vs hvs v hv offset ho
  unfold addAttributes at h
  split at h
  · obtain rfl := Except.ok.inj h
    obtain rfl := Except.ok.inj hvs
    exact absurd hv List.not_mem_nil
  obtain ⟨ranges, signatures, lines, htaken⟩ := exists_taken base h
  cases htable : t.localTable with
  | none =>
    rw [CodePlaces.entries, htable] at hvs
    obtain rfl := Except.ok.inj hvs
    exact absurd hv List.not_mem_nil
  | some place =>
    obtain ⟨a, ha, hname, rfl⟩ := mem_of_lastTable (htaken.table.symm.trans htable)
    obtain ⟨own, hown, hmem⟩ := exists_of_gather htaken.ranges_eq ha
    obtain ⟨c₁, hentries⟩ := Goes.of_runAt ((CodePlaces.entries_eq_ok htable).1 hvs)
    obtain ⟨c₂, hranges⟩ := Goes.of_runAt ((entriesOf_eq_ok hname).1 hown)
    have hown : own = vs.map VariableEntry.range := by simpa using ranges_of_entries hentries hranges
    have hrange : v.range ∈ ranges := hmem _ (hown ▸ List.mem_map_of_mem hv)
    have hends : offset ∈ ranges.flatMap ends ++ lines.map fun l => (l.1.toNat : Int) :=
      List.mem_append_left _ (List.mem_flatMap.2 ⟨v.range, hrange, ho⟩)
    refine CodeLabels.has_of_isSome ?_
    have hlabels := (htaken.noted [] [] [] (noted_nothing base)).labels offset
    rw [List.nil_append, List.nil_append, if_pos hends] at hlabels
    rw [hlabels]
    cases base.labels[offset]? <;> rfl

end DebugTables

/-- Local variables are told as they stand in the table that counts. -/
theorem exists_variables {t : DebugTables} {c c' : Cursor}
    (h : (reportVariables view t c).run.run before = (.ok ((), c'), after)) :
    c' = c ∧ ∃ vs, CodePlaces.entries view t = .ok vs ∧ after = before ++ (vs.map (VariableEntry.event t)).toArray := by
  unfold reportVariables at h
  cases ht : t.localTable with
  | none =>
    rw [ht] at h
    obtain ⟨hresult, rfl⟩ := Prod.mk.inj h
    exact ⟨(congrArg Prod.snd (Except.ok.inj hresult)).symm, [], by rw [CodePlaces.entries, ht], by simp⟩
  | some offset =>
    rw [ht] at h
    obtain ⟨rfl, c₁, hwalk⟩ := Walk.exists_of_run_runAt h
    rw [variableItem_eq] at hwalk
    obtain ⟨vs, hvs, hafter⟩ := Walk.exists_of_counted hwalk
    exact ⟨rfl, vs, (CodePlaces.entries_eq_ok ht).2 hvs.runAt, hafter⟩

/-! ## What is told of code -/

/-- What a reader tells of the code of a method: the exception handlers, the instructions behind their
labels, and the local variables. -/
def told (code : CodePlaces) (t : DebugTables) (items : List (Nat × Instruction)) (caught : List Event)
    (vs : List VariableEntry) : List Event :=
  caught ++ (reports t.labels items ++ (endEvents t.labels code.length ++
    (vs.map (VariableEntry.event t) ++ [.maxStack code.maxStack])))

/-- Both passes over code stop at the same offsets; the first one makes labels for all to which instructions lead. -/
structure PassesAgree (view : PoolView) (code : CodePlaces) (ls : CodeLabels) (scanned : List (Nat × List Int))
    (items : List (Nat × Instruction)) : Prop where
  found : findLabels view.bytes code.start code.length = .ok (({} : CodeLabels).markAll false (targets scanned))
  strides : ∃ c, Strides scanInstruction code.start code.length ⟨view.bytes, code.start⟩ scanned c ∧
    Strides (readInstruction view ls) code.start code.length ⟨view.bytes, code.start⟩ items c
  offsets : scanned.map Prod.fst = items.map Prod.fst

/-- How the pieces of which code is told come of what stands in the class file, with the labels that are made for it. -/
structure Retold (view : PoolView) (code : CodePlaces) (t : DebugTables) (scanned : List (Nat × List Int))
    (items : List (Nat × Instruction)) (caught : List Event) (vs : List VariableEntry) : Prop where
  own : t.labels.Honest
  passes : PassesAgree view code t.labels scanned items
  leads : List.Forall₂ (fun s item => item.2.labels = s.2.map (target t.labels s.1)) scanned items
  made : ∀ offset ∈ targets scanned, t.labels.Has offset
  handlers : List.Forall₂ (HandlerOf t.labels) code.ranges caught
  entries : CodePlaces.entries view t = .ok vs
  covers : t.Covers view

/-- Code that is told is told piece by piece. -/
theorem exists_told {omitted : Omissions} (h : (narrate view omitted c).run.run before = (.ok ((), c'), after)) :
    ∃ (code : CodePlaces) (t : DebugTables) (scanned : List (Nat × List Int))
    (items : List (Nat × Instruction)) (caught : List Event)
      (vs : List VariableEntry), (CodePlaces.decode view).Goes c code c' ∧ code.tables view omitted = .ok t ∧
      Retold view code t scanned items caught vs ∧ after = before ++ (told code t items caught vs).toArray := by
  rw [narrate_eq] at h
  obtain ⟨maxStack, c₁, hmax, h⟩ := Walk.exists_of_run_read h
  obtain ⟨_, c₂, hmaxLocals, h⟩ := Walk.exists_of_run_read h
  obtain ⟨length, c₃, hlength, h⟩ := Walk.exists_of_run_read h
  obtain ⟨start, c₄, hstart, h⟩ := Walk.exists_of_run_read h
  obtain ⟨_, c₅, hskip, h⟩ := Walk.exists_of_run_read h
  obtain ⟨found, c₆, hfound, h⟩ := Walk.exists_of_run_read h
  obtain ⟨count, c₇, hcount, h⟩ := Walk.exists_of_run_read h
  obtain ⟨ls, c₈, told₁, hwalk, hbehind⟩ := Walk.exists_of_run_bind h
  obtain ⟨attributes, c₉, hattributes, hbehind⟩ := Walk.exists_of_run_read hbehind
  obtain ⟨t, c₁₀, htables, hbody⟩ := Walk.exists_of_run_read hbehind
  obtain ⟨hlabels, rfl⟩ := Goes.of_lift hfound
  obtain ⟨hadded, rfl⟩ := Goes.of_lift htables
  obtain ⟨ranges, caught, hranges, rfl, rfl, hcaught⟩ := exists_ranges hwalk #[]
  rw [Array.empty_append] at hranges
  -- behind the exception handlers the cursor stays
  unfold narrateRest at hbody
  obtain ⟨_, c₁₁, told₂, hfrom, hrest⟩ := Walk.exists_of_run_bind hbody
  obtain ⟨rfl, c₁₂, hinstructions⟩ := Walk.exists_of_run_runAt hfrom
  rw [(tells_reportEnd t.labels length.toNat _).run_bind] at hrest
  obtain ⟨_, c₁₃, told₃, hvariables, hend⟩ := Walk.exists_of_run_bind hrest
  obtain ⟨rfl, vs, hvs, rfl⟩ := exists_variables hvariables
  obtain ⟨hresult, rfl⟩ := Prod.mk.inj hend
  obtain rfl := congrArg Prod.snd (Except.ok.inj hresult)
  obtain ⟨items, hitems, rfl⟩ := exists_strides hinstructions (Nat.le_refl _)
  obtain ⟨scanned, hscanned, hoffsets, htargets⟩ := hitems.scans
  obtain rfl : found = ({} : CodeLabels).markAll false (targets scanned) :=
    Except.ok.inj (hlabels.symm.trans (hscanned.goes_scanFrom (Nat.le_refl _) {}).runAt)
  have hdebugs := DebugTables.debugs_addAttributes hadded (CodeLabels.Debugs.refl _)
  let code : CodePlaces := ⟨maxStack, start, length.toNat, ranges, attributes⟩
  refine ⟨code, t, scanned, items, caught, vs, ?_, ?_, ?_, by simp [told, code]⟩
  · have hcounted : (Decoder.counted ExceptionRange.decode).Goes _ ranges.toArray _ := hcount.bind hranges
    exact hmax.bind (hmaxLocals.bind (hlength.bind
      (hstart.bind (hskip.bind (hcounted.bind (hattributes.bind (Goes.pure _ _)))))))
  · change (findLabels view.bytes start length.toNat >>= _) = _
    rw [hlabels]
    exact hadded
  · exact {
      own := hdebugs.honest ((plain_findLabels hlabels).markAll _)
      passes := ⟨hlabels, ⟨c₁₂, hscanned, hitems⟩, hoffsets⟩
      leads := htargets
      made := fun offset ho =>
        ((CodeLabels.has_markAll {} false ho).keep ((CodeLabels.keeps_markAll _ false _).trans hdebugs.keeps)).1
      handlers := hcaught.imp fun r e he => he.keep hdebugs.keeps
      entries := hvs
      covers := DebugTables.covers_addAttributes hadded }

end Code

end ClassFile
