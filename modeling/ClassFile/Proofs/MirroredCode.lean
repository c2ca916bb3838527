import ClassFile.Proofs.MirroredWalks

/-!
# Telling of the same code elsewhere

Offsets of instructions count from the start of their code, so code is scanned and told in the same way wherever it stands
(`Code.goes_scanFrom`, `Code.goes_narrateFrom`). It does not matter in which order labels have been made, as long as each
offset has the same one (`CodeLabels.Alike`).
-/

namespace ClassFile

/-! ## Labels -/

/-- Labels and line numbers are the same for every offset. -/
structure CodeLabels.Alike (ls ls' : CodeLabels) : Prop where
  labels : ∀ offset : Int, ls.labels[offset]? = ls'.labels[offset]?
  lines : ∀ offset : Int, ls.lines[offset]? = ls'.lines[offset]?

/-- Labels that are alike are the same at every offset. -/
theorem CodeLabels.Alike.get {ls ls' : CodeLabels} (h : ls.Alike ls') (offset : Int) : ls.get offset = ls'.get offset := by
  unfold CodeLabels.get
  rw [Std.HashMap.getD_eq_getD_getElem?, Std.HashMap.getD_eq_getD_getElem?, h.labels]

/-- Marking offsets makes labels only where there were none. -/
theorem CodeLabels.getElem?_markAll (ls : CodeLabels) (debug : Bool) (offsets : List Int) (o : Int) :
    (ls.markAll debug offsets).labels[o]? = ls.labels[o]?.or (if o ∈ offsets then some ⟨o, debug⟩ else none) := by
  induction offsets generalizing ls with
  | nil => simp [markAll]
  | cons offset rest ih =>
    change ((ls.mark debug offset).markAll debug rest).labels[o]? = _
    have hmark : (ls.mark debug offset).labels[o]? = ls.labels[o]?.or (if o = offset then some ⟨o, debug⟩ else none) := by
      unfold mark
      rw [Std.HashMap.getElem?_insertIfNew]
      by_cases ho : o = offset
      · subst ho
        by_cases hmarked : o ∈ ls.labels
        · simp [hmarked]
        · simp [hmarked]
      · have hne : (offset == o) = false := beq_false_of_ne (Ne.symm ho)
        simp [hne, ho]
    rw [ih, hmark, Option.or_assoc]
    by_cases ho : o = offset
    · simp [ho]
    · simp [ho]

namespace Code

open Decoder

/-! ## Scanning -/

/-- A distance of two bytes is read alike wherever it stands. -/
theorem mirrors_distance16 : distance16.Mirrors distance16 :=
  mirrors_i16.bind fun _ => mirrors_pure _

/-- A distance of four bytes is read alike wherever it stands. -/
theorem mirrors_distance32 : distance32.Mirrors distance32 :=
  mirrors_i32.bind fun _ => mirrors_pure _

theorem mirrors_scanInstruction (offset : Nat) : (scanInstruction offset).Mirrors (scanInstruction offset) := by
  have hskip : ∀ n, Decoder.Mirrors (do skip n; return ([] : List Int)) (do skip n; return []) :=
    fun n => (mirrors_skip n).bind fun _ => mirrors_pure _
  refine mirrors_u8.bind fun op => ?_
  cases Opcode.layout op with
  | bare | impliedIndex => exact mirrors_pure _
  | localIndex | signedByte | constant | signedShort | wideConstant | type | member | increment
    | multiArray | interfaceMethod
  | callSite => exact hskip _
  | jump => exact mirrors_distance16.bind fun _ => mirrors_pure _
  | wideJump => exact mirrors_distance32.bind fun _ => mirrors_pure _
  | wide => exact mirrors_u8.bind fun _ => hskip _
  | tableSwitch =>
    exact (mirrors_skip _).bind fun _ => mirrors_distance32.bind fun _ => mirrors_i32.bind fun _ => mirrors_i32.bind fun _ =>
      (mirrors_distance32.many _).bind fun _ => mirrors_pure _
  | lookupSwitch =>
    exact (mirrors_skip _).bind fun _ => mirrors_distance32.bind fun _ => mirrors_i32.bind fun _ =>
      (Mirrors.many ((mirrors_skip 4).bind fun _ => mirrors_distance32) _).bind fun _ => mirrors_pure _

/-- Code that is scanned by itself is scanned wherever it stands. -/
theorem goes_scanFrom {start length fuel : Nat} {ls r : CodeLabels} {c c' c₁ : Cursor} (hc : c.Matches c')
    (hposition : c'.position = start + c.position) (h : (scanFrom 0 length fuel ls).Goes c r c₁) :
    ∃ c₁', (scanFrom start length fuel ls).Goes c' r c₁' := by
  induction fuel generalizing ls c c' with
  | zero =>
    obtain ⟨rfl, -⟩ := Goes.of_pure h
    exact ⟨c', Goes.pure _ _⟩
  | succ fuel ih =>
    unfold Goes at h ⊢
    rw [scanFrom_succ] at h ⊢
    have hoffset : c'.position - start = c.position - 0 := by omega
    by_cases hinside : c.position < 0 + length
    · rw [if_pos hinside] at h
      obtain ⟨⟨distances, c₂⟩, hscan, hrest⟩ := exists_of_bind_eq_ok h
      obtain ⟨n, rfl, hn, hscan'⟩ := mirrors_scanInstruction (c.position - 0) c c' distances c₂ hc hscan
      obtain ⟨c₁', hrest'⟩ := ih hn (show c'.position + n = start + (c.position + n) by omega) hrest
      refine ⟨c₁', ?_⟩
      rw [if_pos (by omega), hoffset, show scanInstruction (c.position - 0) c' = _ from hscan']
      exact hrest'
    · rw [if_neg hinside] at h
      obtain ⟨rfl, -⟩ := Goes.of_pure h
      exact ⟨c', by rw [if_neg (by omega)]⟩

/-- The labels of code are found wherever it stands. -/
theorem findLabels_of_alone {b code : Bytes} {start : Nat} (hat : b.HasAt start code) {ls : CodeLabels}
    (h : findLabels code 0 code.size = .ok ls) : findLabels b start code.size = .ok ls := by
  obtain ⟨_, hgoes⟩ := Goes.of_runAt h
  obtain ⟨_, hgoes'⟩ := goes_scanFrom (Cursor.matches_of_hasAt hat) rfl hgoes
  exact hgoes'.runAt

/-! ## Instructions -/

section Instructions

variable {view view' : PoolView} (h : view.Mirrors view') {ls ls' : CodeLabels} (hls : ls.Alike ls')

include hls

/-- A distance leads to the same label among labels that are alike. -/
theorem target_alike (offset : Nat) (distance : Int) : target ls offset distance = target ls' offset distance :=
  hls.get _

theorem mirrors_tableSwitch (offset : Nat) : (tableSwitch ls offset).Mirrors (tableSwitch ls' offset) := by
  have htarget : target ls offset = target ls' offset := funext (target_alike hls offset)
  unfold tableSwitch
  rw [htarget]
  exact (mirrors_skip _).bind fun _ => mirrors_distance32.bind fun _ => mirrors_i32.bind fun _ => mirrors_i32.bind fun _ =>
    (mirrors_distance32.many _).bind fun _ => mirrors_pure _

theorem mirrors_lookupSwitch (offset : Nat) : (lookupSwitch ls offset).Mirrors (lookupSwitch ls' offset) := by
  have htarget : target ls offset = target ls' offset := funext (target_alike hls offset)
  unfold lookupSwitch
  rw [htarget]
  exact (mirrors_skip _).bind fun _ => mirrors_distance32.bind fun _ => mirrors_i32.bind fun _ =>
    (Mirrors.many (mirrors_i32.bind fun _ => mirrors_distance32.bind fun _ => mirrors_pure _) _).bind fun _ => mirrors_pure _

include h

theorem mirrors_readInstruction (offset : Nat) :
    (readInstruction view ls offset).Mirrors (readInstruction view' ls' offset) := by
  have hvalue : ∀ {α β : Type} {d : Decoder PoolIndex} {x x' : PoolIndex → Except Error α} {f f' : α → Decoder β},
    d.Mirrors d →
      (∀ i, Confirms (x i) (x' i)) → (∀ a, (f a).Mirrors (f' a)) → Decoder.Mirrors (do f (← x (← d))) (do f' (← x' (← d))) :=
    fun hd hx hf => hd.bind fun i => (mirrors_lift (hx i)).bind hf
  refine mirrors_u8.bind fun op => ?_
  cases Opcode.layout op with
  | bare | impliedIndex => exact mirrors_pure _
  | localIndex => exact mirrors_u8.bind fun _ => mirrors_pure _
  | signedByte => exact mirrors_i8.bind fun _ => mirrors_pure _
  | signedShort => exact mirrors_i16.bind fun _ => mirrors_pure _
  | constant => exact mirrors_u8.bind fun i => (mirrors_lift (h.constant i.toUInt16)).bind fun _ => mirrors_pure _
  | wideConstant => exact hvalue mirrors_u16 h.constant fun _ => mirrors_pure _
  | increment => exact mirrors_u8.bind fun _ => mirrors_i8.bind fun _ => mirrors_pure _
  | wide =>
    exact mirrors_u8.bind fun op => mirrors_u16.bind fun _ => (mirrors_i16.bind fun _ => mirrors_pure _).ite (mirrors_pure _)
  | type => exact hvalue mirrors_u16 h.typeName fun _ => mirrors_pure _
  | member | interfaceMethod =>
    exact hvalue mirrors_u16 h.memberRef fun _ => ((mirrors_skip 2).bind fun _ => mirrors_pure _).ite (mirrors_pure _)
  | callSite =>
    exact mirrors_u16.bind fun i => (mirrors_skip 2).bind fun _ => (mirrors_lift (h.callSite i)).bind fun _ => mirrors_pure _
  | jump =>
    exact mirrors_distance16.bind fun distance => target_alike hls offset distance ▸ mirrors_pure _
  | wideJump =>
    exact mirrors_distance32.bind fun distance => target_alike hls offset distance ▸ mirrors_pure _
  | tableSwitch => exact mirrors_tableSwitch hls offset
  | lookupSwitch => exact mirrors_lookupSwitch hls offset
  | multiArray => exact hvalue mirrors_u16 h.typeName fun _ => mirrors_u8.bind fun _ => mirrors_pure _

/-- Code that is told by itself is told wherever it stands. -/
theorem goes_narrateFrom {start length fuel : Nat} {c c' c₁ : Cursor} {told told' : Array Event} (hc : c.Matches c')
    (hposition : c'.position = start + c.position) (hgoes : (narrateFrom view ls 0 length fuel).Goes c told () c₁ told') :
    ∃ c₁', (narrateFrom view' ls' start length fuel).Goes c' told () c₁' told' := by
  induction fuel generalizing c c' told with
  | zero =>
    obtain ⟨-, -, rfl⟩ := Walk.Goes.of_pure hgoes
    exact ⟨c', Walk.Goes.pure _ _ _⟩
  | succ fuel ih =>
    unfold Walk.Goes at hgoes ⊢
    rw [narrateFrom_succ] at hgoes ⊢
    have hoffset : c'.position - start = c.position - 0 := by omega
    have hlabel : reportLabel ls' (c.position - 0) = reportLabel ls (c.position - 0) := by
      unfold reportLabel
      rw [hls.labels, hls.lines]
    have hreport : (reportLabel ls (c.position - 0)).Mirrors (reportLabel ls (c.position - 0)) :=
      Walk.mirrors_of_stays fun told => ⟨(), _, fun c => tells_reportLabel ls _ c told⟩
    by_cases hinside : c.position < 0 + length
    · rw [if_pos hinside] at hgoes
      rw [if_pos (by omega), hoffset, hlabel]
      obtain ⟨_, c₂, told₂, hlabelled, hgoes⟩ := Walk.Goes.of_bind hgoes
      obtain ⟨i, c₃, told₃, hread, hgoes⟩ := hgoes.of_bind
      obtain ⟨_, c₄, told₄, htold, hgoes⟩ := hgoes.of_bind
      obtain ⟨rfl, rfl⟩ := htold.of_report
      obtain ⟨m, rfl, hm, hlabelled'⟩ := hreport c c' _ _ _ _ hc hlabelled
      obtain ⟨n, rfl, hn, hread'⟩ := Walk.mirrors_read (mirrors_readInstruction h hls _) _ _ _ _ _ _ hm hread
      rw [Cursor.ahead_ahead, Cursor.ahead_ahead] at hn
      rw [Cursor.ahead_ahead] at hread' hgoes
      obtain ⟨c₁', hrest⟩ := ih hn (show c'.position + _ = start + (c.position + _) by omega) hgoes
      exact ⟨c₁', Walk.Goes.bind hlabelled' (Walk.Goes.bind hread' (Walk.Goes.bind (Walk.Goes.report _ _ _) hrest))⟩
    · rw [if_neg hinside] at hgoes
      rw [if_neg (by omega)]
      obtain ⟨-, -, rfl⟩ := Walk.Goes.of_pure hgoes
      exact ⟨c', Walk.Goes.pure _ _ _⟩

end Instructions

/-! ## Debug tables -/

namespace DebugTables

/-- Where a local variable starts to live, and for how long. -/
def rangeItem : Decoder (UInt16 × UInt16) := do
  let start ← u16
  let length ← u16
  skip 6
  return (start, length)

/-- The generic signature of a local variable, behind where it starts to live and its slot. -/
def signatureItem (view : PoolView) : Decoder ((UInt16 × UInt16) × String) := do
  let start ← u16
  skip 4
  let signature ← view.utf8 (← u16)
  let slot ← u16
  return ((start, slot), signature)

/-- Where a line starts, and its number. -/
def lineItem : Decoder (UInt16 × UInt16) := do
  let start ← u16
  let line ← u16
  return (start, line)

/-- The offsets of the labels of a range. -/
def ends (range : UInt16 × UInt16) : List Int :=
  [range.1.toNat, range.1.toNat + range.2.toNat]

def noteRange (t : DebugTables) (range : UInt16 × UInt16) : DebugTables :=
  { t with labels := t.labels.markAll true (ends range) }

def noteSignature (t : DebugTables) (s : (UInt16 × UInt16) × String) : DebugTables :=
  { t with signatures := t.signatures.insert s.1 s.2 }

def noteLine (t : DebugTables) (l : UInt16 × UInt16) : DebugTables :=
  let ls := t.labels.mark true l.1.toNat
  { t with labels := { ls with lines := ls.lines.insert (l.1.toNat : Int) l.2 } }

/-- Changing the tables as often as a count says is taking down one by one what is read behind the count. -/
theorem counted_eq {α : Type} {d : DebugTables → Decoder DebugTables} {item : Decoder α}
    {note : DebugTables → α → DebugTables} (h : ∀ t, d t = (do return note t (← item))) (t : DebugTables) :
    counted d t = (do return (← Decoder.counted item).foldl note t) := by
  have htimes : ∀ n (acc : Array α), times d n (acc.foldl note t) = (do return (← manyFrom item n acc).foldl note t) := by
    intro n
    induction n with
    | zero =>
      intro acc
      unfold times manyFrom
      rw [pure_bind]
    | succ n ih =>
      intro acc
      unfold times manyFrom
      rw [h, bind_assoc, bind_assoc]
      refine bind_congr fun a => ?_
      rw [pure_bind, ← ih, Array.foldl_push]
  unfold counted Decoder.counted
  rw [bind_assoc]
  exact bind_congr fun n => htimes n.toNat #[]

/-- Taking down items changes no place of a table. -/
theorem localTable_foldl {α : Type} (note : DebugTables → α → DebugTables)
    (hnote : ∀ t x, (note t x).localTable = t.localTable)
    (xs : List α) (t : DebugTables) : (xs.foldl note t).localTable = t.localTable := by
  induction xs generalizing t with
  | nil => rfl
  | cons x rest ih => rw [List.foldl_cons, ih, hnote]

/-- A local variable is marked once its range has been read. -/
theorem markVariable_eq (t : DebugTables) : markVariable t = (do return t.noteRange (← rangeItem)) := by
  unfold markVariable rangeItem
  simp only [bind_assoc, pure_bind]
  rfl

/-- A generic signature is noted once it has been read. -/
theorem addSignature_eq (view : PoolView) (t : DebugTables) :
    addSignature view t = (do return t.noteSignature (← signatureItem view)) := by
  unfold addSignature signatureItem
  simp only [bind_assoc, pure_bind]
  rfl

/-- A line is noted once it has been read. -/
theorem addLine_eq (t : DebugTables) : addLine t = (do return t.noteLine (← lineItem)) := by
  unfold addLine lineItem
  simp only [bind_assoc, pure_bind]
  rfl

theorem mirrors_rangeItem : rangeItem.Mirrors rangeItem :=
  mirrors_u16.bind fun _ => mirrors_u16.bind fun _ => (mirrors_skip 6).bind fun _ => mirrors_pure _

theorem mirrors_signatureItem {view view' : PoolView} (h : view.Mirrors view') :
    (signatureItem view).Mirrors (signatureItem view') :=
  mirrors_u16.bind fun _ => (mirrors_skip 4).bind fun _ => mirrors_u16.bind fun i => (mirrors_lift (h.utf8 i)).bind fun _ =>
    mirrors_u16.bind fun _ => mirrors_pure _

theorem mirrors_lineItem : lineItem.Mirrors lineItem :=
  mirrors_u16.bind fun _ => mirrors_u16.bind fun _ => mirrors_pure _

/-- What has been taken down beside the labels of the code. -/
structure Noted (base : CodeLabels) (ranges : List (UInt16 × UInt16)) (signatures : List ((UInt16 × UInt16) × String))
    (lines : List (UInt16 × UInt16)) (t : DebugTables) : Prop where
  labels : ∀ offset : Int, t.labels.labels[offset]? = base.labels[offset]?.or
    (if offset ∈ ranges.flatMap ends ++ lines.map (fun l => (l.1.toNat : Int)) then some ⟨offset, true⟩ else none)
  lines : ∀ offset : Int, t.labels.lines[offset]? =
    (lines.foldl (fun m l => m.insert (l.1.toNat : Int) l.2) base.lines)[offset]?
  signatures : ∀ k : UInt16 × UInt16, t.signatures[k]? =
    (signatures.foldl (fun m s => m.insert s.1 s.2) (∅ : Std.HashMap (UInt16 × UInt16) String))[k]?

section Noted

variable {base : CodeLabels} {ranges : List (UInt16 × UInt16)} {signatures : List ((UInt16 × UInt16) × String)}
  {lines : List (UInt16 × UInt16)} {t : DebugTables}

/-- Before any table was read nothing has been noted. -/
theorem noted_nothing (base : CodeLabels) : Noted base [] [] [] { labels := base } :=
  ⟨fun offset => by simp, fun _ => rfl, fun _ => rfl⟩

/-- One after the other of two ways to have marked an offset. -/
theorem or_marked {first second all : List Int} (h : ∀ o, o ∈ all ↔ o ∈ first ∨ o ∈ second) (l : Option Label) (o : Int)
    (mark : Label) :
    (l.or (if o ∈ first then some mark else none)).or (if o ∈ second then some mark else none) =
      l.or (if o ∈ all then some mark else none) := by
  rw [Option.or_assoc]
  by_cases hfirst : o ∈ first
  · rw [if_pos hfirst, if_pos ((h o).2 (.inl hfirst))]
    rfl
  · by_cases hsecond : o ∈ second
    · rw [if_neg hfirst, if_pos hsecond, if_pos ((h o).2 (.inr hsecond))]
      rfl
    · rw [if_neg hfirst, if_neg hsecond, if_neg fun ho => ((h o).1 ho).elim hfirst hsecond]
      rfl

/-- One more local variable adds the labels of its ends. -/
theorem Noted.range (h : Noted base ranges signatures lines t) (range : UInt16 × UInt16) :
    Noted base (ranges ++ [range]) signatures lines (t.noteRange range) where
  labels o := by
    change (t.labels.markAll true (ends range)).labels[o]? = _
    rw [CodeLabels.getElem?_markAll, h.labels]
    refine or_marked (fun o => ?_) _ o _
    simp only [List.flatMap_append, List.mem_append, List.flatMap_cons, List.flatMap_nil, List.append_nil]
    tauto
  lines o := h.lines o
  signatures k := h.signatures k

/-- One more generic signature is noted for its start and its slot. -/
theorem Noted.signature (h : Noted base ranges signatures lines t) (s : (UInt16 × UInt16) × String) :
    Noted base ranges (signatures ++ [s]) lines (t.noteSignature s) where
  labels o := h.labels o
  lines o := h.lines o
  signatures k := by
    change (t.signatures.insert s.1 s.2)[k]? = _
    rw [List.foldl_append, List.foldl_cons, List.foldl_nil, Std.HashMap.getElem?_insert,
      Std.HashMap.getElem?_insert, h.signatures]

/-- One more line is noted for its offset. -/
theorem Noted.line (h : Noted base ranges signatures lines t) (l : UInt16 × UInt16) :
    Noted base ranges signatures (lines ++ [l]) (t.noteLine l) where
  labels o := by
    change (t.labels.markAll true [(l.1.toNat : Int)]).labels[o]? = _
    rw [CodeLabels.getElem?_markAll, h.labels]
    refine or_marked (fun o => ?_) _ o _
    simp only [List.map_append, List.mem_append, List.map_cons, List.map_nil]
    tauto
  lines o := by
    change (t.labels.lines.insert (l.1.toNat : Int) l.2)[o]? = _
    rw [List.foldl_append, List.foldl_cons, List.foldl_nil, Std.HashMap.getElem?_insert,
      Std.HashMap.getElem?_insert, h.lines]
  signatures k := h.signatures k

/-- What is taken down one by one is taken down in all. -/
theorem noted_foldl {α : Type} {note : DebugTables → α → DebugTables} (P : List α → DebugTables → Prop)
    (h : ∀ xs x t, P xs t → P (xs ++ [x]) (note t x)) {xs : List α} {t : DebugTables} (ht : P xs t) (more : List α) :
    P (xs ++ more) (more.foldl note t) := by
  induction more generalizing xs t with
  | nil => rwa [List.append_nil]
  | cons x rest ih =>
    have := ih (h xs x t ht)
    rwa [List.append_assoc] at this

/-- Local variables are noted one after the other. -/
theorem Noted.allRanges (h : Noted base ranges signatures lines t) (more : List (UInt16 × UInt16)) :
    Noted base (ranges ++ more) signatures lines (more.foldl noteRange t) :=
  noted_foldl (fun ranges t => Noted base ranges signatures lines t) (fun _ x _ h => h.range x) h more

/-- Generic signatures are noted one after the other. -/
theorem Noted.allSignatures (h : Noted base ranges signatures lines t) (more : List ((UInt16 × UInt16) × String)) :
    Noted base ranges (signatures ++ more) lines (more.foldl noteSignature t) :=
  noted_foldl (fun signatures t => Noted base ranges signatures lines t) (fun _ x _ h => h.signature x) h more

/-- Lines are noted one after the other. -/
theorem Noted.allLines (h : Noted base ranges signatures lines t) (more : List (UInt16 × UInt16)) :
    Noted base ranges signatures (lines ++ more) (more.foldl noteLine t) :=
  noted_foldl (fun lines t => Noted base ranges signatures lines t) (fun _ x _ h => h.line x) h more

/-- Tables in which the same has been taken down say the same of every offset and of every local variable. -/
theorem Noted.alike (h : Noted base ranges signatures lines t) {t' : DebugTables}
    (h' : Noted base ranges signatures lines t') :
    t.labels.Alike t'.labels ∧ ∀ k : UInt16 × UInt16, t.signatures[k]? = t'.signatures[k]? :=
  ⟨⟨fun o => (h.labels o).trans (h'.labels o).symm, fun o => (h.lines o).trans (h'.lines o).symm⟩,
    fun k => (h.signatures k).trans (h'.signatures k).symm⟩

end Noted

end DebugTables

/-- Local variables are told wherever their table stands. -/
theorem mirrors_variableItem {view view' : PoolView} (h : view.Mirrors view') {t t' : DebugTables}
    (hlabels : t.labels.Alike t'.labels) (hsignatures : ∀ k : UInt16 × UInt16, t.signatures[k]? = t'.signatures[k]?) :
    (variableItem view t).Mirrors (variableItem view' t') := by
  refine (Walk.mirrors_read mirrors_u16).bind fun start => (Walk.mirrors_read mirrors_u16).bind fun length => ?_
  refine (Walk.mirrors_read h.nextText).bind fun name => (Walk.mirrors_read h.nextText).bind fun descriptor => ?_
  refine (Walk.mirrors_read mirrors_u16).bind fun slot => ?_
  dsimp only
  rw [hsignatures, hlabels.get, hlabels.get]
  exact Walk.mirrors_report _

end Code

end ClassFile
