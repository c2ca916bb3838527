import ClassFile.Proofs.Listening

/-!
# Scanning code and reading it

Whatever bytes stand at an offset: if an instruction is read there, then scanning goes over the same bytes, and the
distances that it finds are those of the labels of the instruction (`Code.scans_instruction`). Nothing else of the
labels matters, so code that is read with some labels is read with others, as long as the offsets that it leads to
have the same ones (`Code.exists_items`).
-/

namespace ClassFile

open Decoder (Goes)

namespace Decoder

variable {α β : Type} {c c' : Cursor}

/-- A reader passes over a number of bytes, and all values with which it comes have a property. -/
def Passes (d : Decoder α) (n : Nat) (P : α → Prop) : Prop :=
  ∀ c a c', d.Goes c a c' → c' = ⟨c.bytes, c.position + n⟩ ∧ (0 < n → c.position + n ≤ c.bytes.size) ∧ P a

/-- A reader that comes with a value at once passes over nothing. -/
theorem Passes.pure {a : α} {P : α → Prop} (h : P a) : Passes (Pure.pure a) 0 P := by
  intro c b c' hgoes
  obtain ⟨rfl, rfl⟩ := Goes.of_pure hgoes
  exact ⟨rfl, fun h => absurd h (Nat.lt_irrefl 0), h⟩

/-- Two readers one after the other pass over the bytes of both. -/
theorem Passes.bind {d : Decoder α} {f : α → Decoder β} {m n : Nat} {P : α → Prop} {Q : β → Prop} (h : d.Passes m P)
    (hf : ∀ a, P a → (f a).Passes n Q) : (d >>= f).Passes (m + n) Q := by
  intro c b c'' hgoes
  obtain ⟨a, c', hfirst, hsecond⟩ := hgoes.of_bind
  obtain ⟨rfl, hroom, ha⟩ := h c a c' hfirst
  obtain ⟨rfl, hroom', hb⟩ := hf a ha _ b c'' hsecond
  refine ⟨by rw [Nat.add_assoc], fun hpos => ?_, hb⟩
  dsimp only at hroom'
  by_cases hn : 0 < n
  · rw [← Nat.add_assoc]
    exact hroom' hn
  · obtain rfl : n = 0 := by omega
    exact hroom hpos

/-- A value that may be missing, and then a reader. -/
theorem Passes.lift {x : Except Error α} {f : α → Decoder β} {n : Nat} {P : β → Prop} (h : ∀ a, (f a).Passes n P) :
    ((liftM x : Decoder α) >>= f).Passes n P := by
  cases x with
  | ok a => exact h a
  | error e => exact fun c a c' h => nomatch h

/-- A reader that only takes what stands in the bytes over which it goes ahead passes over that many. -/
theorem passes_of_advance {d : Decoder α} {n : Nat} {value : Cursor → α}
    (h : ∀ c, d c = (c.advance n >>= fun c' => .ok (value c, c'))) : d.Passes n fun _ => True := by
  intro c a c' hgoes
  rw [Goes, h c] at hgoes
  obtain ⟨c₁, hadvance, hgoes⟩ := exists_of_bind_eq_ok hgoes
  obtain ⟨-, rfl⟩ := Prod.mk.inj (Except.ok.inj hgoes)
  unfold Cursor.advance at hadvance
  split at hadvance
  · obtain rfl := Except.ok.inj hadvance
    exact ⟨rfl, fun _ => ‹_›, trivial⟩
  · cases hadvance

/-- Passing over bytes passes over that many. -/
theorem passes_skip (n : Nat) : (skip n).Passes n fun _ => True :=
  passes_of_advance fun _ => rfl

theorem passes_u8 : u8.Passes 1 fun _ => True :=
  passes_of_advance fun _ => rfl

theorem passes_u16 : u16.Passes 2 fun _ => True :=
  passes_of_advance fun _ => rfl

theorem passes_i32 : i32.Passes 4 fun _ => True :=
  (passes_of_advance fun _ => rfl : u32.Passes 4 fun _ => True).bind fun _ _ => Passes.pure trivial

theorem passes_i8 : i8.Passes 1 fun _ => True :=
  passes_u8.bind fun _ _ => Passes.pure trivial

theorem passes_i16 : i16.Passes 2 fun _ => True :=
  passes_u16.bind fun _ _ => Passes.pure trivial

/-- A value that is known moves nothing. -/
theorem Goes.of_lift {x : Except Error α} {a : α} (h : (liftM x : Decoder α).Goes c a c') : x = .ok a ∧ c' = c := by
  cases x with
  | ok b =>
    obtain ⟨rfl, rfl⟩ := Goes.of_pure h
    exact ⟨rfl, rfl⟩
  | error e => cases h

/-- What is computed without reading passes over nothing. -/
theorem passes_lift (x : Except Error α) : Passes (liftM x : Decoder α) 0 fun _ => True :=
  fun _ _ _ hgoes => ⟨(Goes.of_lift hgoes).2, fun hpos => absurd hpos (Nat.lt_irrefl 0), trivial⟩

/-- Skipping goes where a reader goes that passes over some bytes. -/
theorem Passes.goes_skip {d : Decoder α} {n : Nat} {P : α → Prop} {a : α} (h : d.Passes n P) (hn : 0 < n)
    (hgoes : d.Goes c a c') :
    (skip n).Goes c () c' := by
  obtain ⟨rfl, hroom, -⟩ := h c a c' hgoes
  have hadvance : c.advance n = .ok ⟨c.bytes, c.position + n⟩ := by
    unfold Cursor.advance
    rw [if_pos (hroom hn)]
  unfold Goes skip
  rw [hadvance]
  rfl

/-- Values that are changed by a function one by one. -/
theorem many_map (d : Decoder α) (f : α → β) (n : Nat) : many n (do return f (← d)) = (do return (← many n d).map f) := by
  suffices hfrom : ∀ acc : Array α, manyFrom (do return f (← d)) n (acc.map f) = (do return (← manyFrom d n acc).map f) by
    have := hfrom #[]
    rwa [Array.map_empty] at this
  induction n with
  | zero => exact fun acc => (pure_bind acc fun acc => Pure.pure (acc.map f)).symm
  | succ n ih =>
    intro acc
    unfold manyFrom
    simp only [bind_assoc, pure_bind]
    exact bind_congr fun a => by rw [← Array.map_push, ih]

/-- Reading values goes where another reader goes whose values say what they are. -/
theorem Goes.many_map {d : Decoder α} {d' : Decoder β} {g : α → β} (h : ∀ c a c', d.Goes c a c' → d'.Goes c (g a) c')
    {n : Nat} {r : Array α} (hgoes : (many n d).Goes c r c') : (many n d').Goes c (r.map g) c' := by
  suffices hfrom : ∀ (acc : Array α) (c : Cursor),
    (manyFrom d n acc).Goes c r c' → (manyFrom d' n (acc.map g)).Goes c (r.map g) c' by
    have := hfrom #[] c hgoes
    rwa [Array.map_empty] at this
  clear hgoes
  induction n with
  | zero =>
    intro acc c hgoes
    obtain ⟨rfl, rfl⟩ := Goes.of_pure hgoes
    exact Goes.pure _ _
  | succ n ih =>
    intro acc c hgoes
    obtain ⟨a, c₁, hfirst, hrest⟩ := hgoes.of_bind
    have hnext := ih (acc.push a) c₁ hrest
    rw [Array.map_push] at hnext
    exact (h c a c₁ hfirst).bind hnext

end Decoder

namespace Code

section Instructions

variable {view : PoolView} {offset : Nat}

/-- Where an instruction is read, scanning goes to the same place, and the distances that it finds are those of the labels.
With other labels of the same offsets the instruction is the same. -/
def Scans (offset : Nat) (scan : Decoder (List Int)) (read : CodeLabels → Decoder Instruction) : Prop :=
  ∀ ls c i c', (read ls).Goes c i c' → ∃ distances, scan.Goes c distances c' ∧ i.labels = distances.map (target ls offset) ∧
    ∀ ls', (∀ d ∈ distances, target ls' offset d = target ls offset d) → (read ls').Goes c i c'

/-- A scan that goes along with a reader does so behind any step that both take. -/
theorem Scans.bind {α : Type} {d : Decoder α} {scan : α → Decoder (List Int)} {read : α → CodeLabels → Decoder Instruction}
    (h : ∀ a, Scans offset (scan a) (read a)) : Scans offset (d >>= scan) (fun ls => d >>= fun a => read a ls) := by
  intro ls c i c'' hgoes
  obtain ⟨a, c', hfirst, hsecond⟩ := hgoes.of_bind
  obtain ⟨distances, hscan, hlabels, hread⟩ := h a ls c' i c'' hsecond
  exact ⟨distances, hfirst.bind hscan, hlabels, fun ls' hls => hfirst.bind (hread ls' hls)⟩

/-- An instruction that is made of distances. -/
theorem Scans.pure {distances : List Int} {f : CodeLabels → Instruction}
    (hlabels : ∀ ls, (f ls).labels = distances.map (target ls offset))
    (hf : ∀ ls ls', (∀ d ∈ distances, target ls' offset d = target ls offset d) → f ls' = f ls) :
    Scans offset (Pure.pure distances) (fun ls => Pure.pure (f ls)) := by
  intro ls c i c' hgoes
  obtain ⟨rfl, rfl⟩ := Goes.of_pure hgoes
  exact ⟨distances, Goes.pure _ _, hlabels ls, fun ls' hls => hf ls ls' hls ▸ Goes.pure _ _⟩

/-- An instruction that takes no bytes behind its opcode. -/
theorem scans_pure {i : Instruction} (hlabels : i.labels = []) : Scans offset (Pure.pure []) fun _ => Pure.pure i :=
  Scans.pure (fun _ => hlabels) fun _ _ _ => rfl

/-- An instruction without labels, whose operands take some bytes. -/
theorem scans_skip {n : Nat} {read : CodeLabels → Decoder Instruction} (h : ∀ ls, (read ls).Passes n fun i => i.labels = [])
    (hread : ∀ ls ls', read ls = read ls') (hn : 0 < n) : Scans offset (do Decoder.skip n; return []) read := by
  intro ls c i c' hgoes
  exact ⟨[], ((h ls).goes_skip hn hgoes).map fun _ => [], (h ls c i c' hgoes).2.2, fun ls' _ => hread ls ls' ▸ hgoes⟩

/-- The scan of a jump finds the distance that it leads over. -/
theorem scans_jump (op : UInt8) (distance : Int) : Scans offset (Pure.pure [distance])
    fun ls => Pure.pure (.jump op (target ls offset distance)) :=
  Scans.pure (fun _ => rfl) fun _ _ hls => congrArg (Instruction.jump op) (hls distance (List.mem_singleton.2 rfl))

/-- An instruction with a field or a method leads nowhere. -/
theorem labels_memberInstruction (op : UInt8) (r : MemberRef) : (memberInstruction op r).labels = [] := by
  unfold memberInstruction
  split <;> rfl

/-- A field access or a call, behind which there may be two more bytes. -/
theorem passes_member (op : UInt8) (more : Bool) : Decoder.Passes (do
      let r ← view.memberRef (← Decoder.u16)
      if more then Decoder.skip 2
      return memberInstruction op r) (if more then 4 else 2) fun i => i.labels = [] := by
  cases more with
  | true =>
    refine Decoder.Passes.bind (n := 2) Decoder.passes_u16 fun _ _ => .lift fun r => ?_
    exact Decoder.Passes.bind (n := 0) (Decoder.passes_skip 2) fun _ _ => .pure (labels_memberInstruction op r)
  | false =>
    refine Decoder.Passes.bind (n := 0) Decoder.passes_u16 fun _ _ => .lift fun r => ?_
    exact Decoder.Passes.pure (labels_memberInstruction op r)

/-- The scan of a switch over a range of keys finds the distances of its labels. -/
theorem scans_tableSwitch (offset : Nat) : Scans offset (tableDistances offset) fun ls => tableSwitch ls offset := by
  refine Scans.bind fun _ => Scans.bind fun default => Scans.bind fun low => Scans.bind fun high =>
    Scans.bind fun distances => ?_
  refine Scans.pure (fun _ => rfl) fun ls ls' hls => ?_
  obtain ⟨hdefault, hrest⟩ := List.forall_mem_cons.1 hls
  rw [hdefault, List.map_congr_left hrest]

/-- A key and a distance. -/
def keyAndDistance : Decoder (Int32 × Int) := do
  let key ← Decoder.i32
  return (key, ← distance32)

/-- A switch over single keys is its default and then its cases. -/
theorem lookupSwitch_eq (ls : CodeLabels) (offset : Nat) : lookupSwitch ls offset = (do
    Decoder.skip (switchPadding offset)
    let default ← distance32
    let pairs ← Decoder.i32
    let cases ← Decoder.many pairs.toInt.toNat keyAndDistance
    return .lookupSwitch (target ls offset default) (cases.toList.map (·.1))
      (cases.toList.map fun r => target ls offset r.2)) := by
  have hcase : (do
      let key ← Decoder.i32
      let distance ← distance32
      return (key, target ls offset distance) : Decoder (Int32 × Label)) = (do
        let r ← keyAndDistance
        return (r.1, target ls offset r.2)) := by
    unfold keyAndDistance
    simp only [bind_assoc, pure_bind]
  unfold lookupSwitch
  rw [hcase]
  simp only [Decoder.many_map, bind_assoc, pure_bind, Array.toList_map, List.map_map]
  rfl

/-- The scan of a switch over single keys finds the distances of its labels. -/
theorem scans_lookupSwitch (offset : Nat) : Scans offset (lookupDistances offset) fun ls => lookupSwitch ls offset := by
  simp only [lookupSwitch_eq]
  refine Scans.bind fun _ => Scans.bind fun default => Scans.bind fun pairs => ?_
  intro ls c i c'' hgoes
  obtain ⟨cases, c', hcases, hi⟩ := hgoes.of_bind
  obtain ⟨rfl, rfl⟩ := Goes.of_pure hi
  have hdistance : ∀ c r c', keyAndDistance.Goes c r c' → Goes (do
      Decoder.skip 4
      distance32) c r.2 c' := by
    intro c r c' hgoes
    obtain ⟨key, c₁, hkey, hgoes⟩ := hgoes.of_bind
    obtain ⟨distance, c₂, hdistance, hgoes⟩ := hgoes.of_bind
    obtain ⟨rfl, rfl⟩ := Goes.of_pure hgoes
    exact (Decoder.passes_i32.goes_skip (Nat.zero_lt_succ 3) hkey).bind hdistance
  refine ⟨default :: (cases.map (·.2)).toList, (Goes.many_map hdistance hcases).map _, ?_, fun ls' hls => ?_⟩
  · simp [Instruction.labels]
  · obtain ⟨hdefault, hrest⟩ := List.forall_mem_cons.1 hls
    have hlabels : cases.toList.map (fun r => target ls' offset r.2) = cases.toList.map fun r => target ls offset r.2 :=
      List.map_congr_left fun r hr => hrest r.2 (Array.mem_toList_iff.2 (Array.mem_map_of_mem (Array.mem_toList_iff.1 hr)))
    rw [← hdefault, ← hlabels]
    exact hcases.map fun cases => Instruction.lookupSwitch (target ls' offset default) (cases.toList.map (·.1))
      (cases.toList.map fun r => target ls' offset r.2)

/-- Only the call of an interface's method has the operands of one. -/
theorem isInterface_of_layout {op : UInt8} (h : Opcode.layout op = .interfaceMethod) :
    (op == Opcode.invokeinterface) = true := by
  have hrest : ∀ {c : Prop} [Decidable c] {a x v : Opcode.Layout}, a ≠ v → (if c then a else x) = v → x = v := fun ha h => by
    split at h
    · exact absurd h ha
    · exact h
  by_contra hne
  unfold Opcode.layout at h
  iterate 12 replace h := hrest (by decide) h
  rw [if_neg hne] at h
  iterate 4 replace h := hrest (by decide) h
  cases h

/-- The scan of an instruction goes where the reader goes, and finds the distances of its labels. -/
theorem scans_instruction (view : PoolView) (offset : Nat) :
    Scans offset (scanInstruction offset) fun ls => readInstruction view ls offset := by
  refine Scans.bind fun op => ?_
  cases hl : Opcode.layout op with
  | bare => exact scans_pure rfl
  | impliedIndex => exact scans_pure rfl
  | signedByte =>
    exact scans_skip (fun _ => .bind (n := 0) Decoder.passes_i8 fun _ _ => .pure rfl) (fun _ _ => rfl) Nat.one_pos
  | signedShort =>
    exact scans_skip (fun _ => .bind (n := 0) Decoder.passes_i16 fun _ _ => .pure rfl) (fun _ _ => rfl) Nat.two_pos
  | localIndex =>
    exact scans_skip (fun _ => .bind (n := 0) Decoder.passes_u8 fun _ _ => .pure rfl) (fun _ _ => rfl) Nat.one_pos
  | constant =>
    exact scans_skip (fun _ => .bind (n := 0) Decoder.passes_u8 fun _ _ => .lift fun _ => .pure rfl)
      (fun _ _ => rfl) Nat.one_pos
  | wideConstant =>
    exact scans_skip (fun _ => .bind (n := 0) Decoder.passes_u16 fun _ _ => .lift fun _ => .pure rfl)
      (fun _ _ => rfl) Nat.two_pos
  | increment =>
    exact scans_skip (fun _ => .bind (n := 1) Decoder.passes_u8 fun _ _ =>
      .bind (n := 0) Decoder.passes_i8 fun _ _ => .pure rfl) (fun _ _ => rfl) Nat.two_pos
  | wide =>
    refine Scans.bind fun op => ?_
    generalize (op == Opcode.iinc) = increments
    cases increments with
    | true =>
      exact scans_skip (n := 4) (fun _ => .bind (n := 2) Decoder.passes_u16 fun _ _ =>
        .bind (n := 0) Decoder.passes_i16 fun _ _ =>
        .pure rfl) (fun _ _ => rfl) (Nat.zero_lt_succ 3)
    | false =>
      exact scans_skip (n := 2) (fun _ => .bind (n := 0) Decoder.passes_u16 fun _ _ => .pure rfl)
        (fun _ _ => rfl) Nat.two_pos
  | type =>
    exact scans_skip (fun _ => .bind (n := 0) Decoder.passes_u16 fun _ _ => .lift fun _ => .pure rfl)
      (fun _ _ => rfl) Nat.two_pos
  | member =>
    have hop : (op == Opcode.invokeinterface) = false := by
      refine beq_eq_false_iff_ne.2 fun e => ?_
      subst e
      exact absurd hl (by decide)
    rw [hop]
    exact scans_skip (fun _ => passes_member op false) (fun _ _ => rfl) Nat.two_pos
  | interfaceMethod =>
    rw [isInterface_of_layout hl]
    exact scans_skip (fun _ => passes_member op true) (fun _ _ => rfl) (Nat.zero_lt_succ 3)
  | callSite =>
    exact scans_skip (fun _ => .bind (n := 2) Decoder.passes_u16 fun _ _ => .bind (n := 0) (Decoder.passes_skip 2) fun _ _ =>
      .lift fun _ => .pure rfl) (fun _ _ => rfl) (Nat.zero_lt_succ 3)
  | jump => exact Scans.bind fun distance => scans_jump op distance
  | wideJump => exact Scans.bind fun distance => scans_jump (narrowJump op) distance
  | tableSwitch => exact scans_tableSwitch offset
  | lookupSwitch => exact scans_lookupSwitch offset
  | multiArray =>
    exact scans_skip (fun _ => .bind (n := 1) Decoder.passes_u16 fun _ _ => .lift fun _ =>
      .bind (n := 0) Decoder.passes_u8 fun _ _ =>
      .pure rfl) (fun _ _ => rfl) (Nat.zero_lt_succ 2)

end Instructions

end Code

namespace Walk

variable {α β : Type} {c : Cursor} {before after : Array Event}

/-- A walk that tells something, and then another one that succeeds. -/
theorem Tells.run_bind {w : Walk α} {f : α → Walk β} {events : List Event} {a : α} {c' : Cursor}
    (h : w.Tells c events a c') :
    ((w >>= f) c).run.run before = (f a c').run.run (before ++ events.toArray) := by
  have hrun := Narration.run_bind (w c) (fun r => f r.1 r.2) before
  rw [h before] at hrun
  exact hrun

/-- Two walks that succeed one after the other. -/
theorem exists_of_run_bind {w : Walk α} {f : α → Walk β} {r : β × Cursor}
    (h : ((w >>= f) c).run.run before = (.ok r, after)) :
    ∃ a c' told, (w c).run.run before = (.ok (a, c'), told) ∧ (f a c').run.run told = (.ok r, after) := by
  obtain ⟨⟨a, c'⟩, told, hfirst, hsecond⟩ := Narration.exists_of_run_bind (x := w c) (f := fun r => f r.1 r.2) h
  exact ⟨a, c', told, hfirst, hsecond⟩

/-- A walk elsewhere that succeeds. -/
theorem exists_of_run_runAt {w : Walk Unit} {bytes : Bytes} {offset : Nat} {c' : Cursor}
    (h : ((w.runAt bytes offset : Walk Unit) c).run.run before = (.ok ((), c'), after)) :
    c' = c ∧ ∃ c₁, (w ⟨bytes, offset⟩).run.run before = (.ok ((), c₁), after) := by
  obtain ⟨_, told, hwalk, hpure⟩ := Narration.exists_of_run_bind (x := w.runAt bytes offset)
    (f := fun a => Pure.pure (a, c)) h
  obtain ⟨⟨_, c₁⟩, _, hfirst, hsecond⟩ := Narration.exists_of_run_bind (x := w ⟨bytes, offset⟩)
    (f := fun _ => Pure.pure ()) hwalk
  obtain ⟨-, rfl⟩ := Prod.mk.inj hsecond
  obtain ⟨hresult, rfl⟩ := Prod.mk.inj hpure
  exact ⟨(congrArg Prod.snd (Except.ok.inj hresult)).symm, c₁, hfirst⟩

/-- A reader, and then a walk that succeeds. -/
theorem exists_of_run_read {d : Decoder α} {f : α → Walk β} {r : β × Cursor}
    (h : ((read d >>= f) c).run.run before = (.ok r, after)) :
    ∃ a c', d.Goes c a c' ∧ (f a c').run.run before = (.ok r, after) := by
  cases hd : d c with
  | error e =>
    change (read d c >>= fun r => f r.1 r.2).run.run before = _ at h
    unfold read at h
    rw [hd] at h
    cases h
  | ok a =>
    have hread : (read d).Tells c [] a.1 a.2 := Tells.read hd
    rw [hread.run_bind, Array.append_empty] at h
    exact ⟨a.1, a.2, hd, h⟩

end Walk

/-- Every offset has a label of its own. -/
def CodeLabels.Honest (ls : CodeLabels) : Prop :=
  ∀ (offset : Int) (l : Label), ls.labels[offset]? = some l → l.id = offset

/-- The label of an offset says that offset. -/
theorem CodeLabels.Honest.get {ls : CodeLabels} (h : ls.Honest) (offset : Int) : (ls.get offset).id = offset := by
  unfold CodeLabels.get
  rw [Std.HashMap.getD_eq_getD_getElem?]
  cases hl : ls.labels[offset]? with
  | none => rfl
  | some l => exact h offset l hl

namespace Code

/-- Code that is read through with some labels holds instructions, over which scanning goes as well; it is read through with
all labels that are the same for the offsets to which the instructions lead. -/
theorem exists_items {view : PoolView} {ls : CodeLabels} (hls : ls.Honest) {start length fuel : Nat} {c c' : Cursor}
    {before after : Array Event} (h : (narrateFrom view ls start length fuel c).run.run before = (.ok ((), c'), after)) :
    ∃ items : List (Nat × Instruction), (∀ found, (scanFrom start length fuel found).Goes c (markItems found items) c') ∧
      (∀ item ∈ items, ∀ l ∈ item.2.labels, ls.get l.id = l) ∧ after = before ++ (reports ls items).toArray ∧
      ∀ ls', (∀ item ∈ items, ∀ l ∈ item.2.labels, ls'.get l.id = l) →
        (narrateFrom view ls' start length fuel).Tells c (reports ls' items) () c' := by
  induction fuel generalizing c before with
  | zero =>
    obtain ⟨hresult, rfl⟩ := Prod.mk.inj h
    obtain rfl : c = c' := congrArg Prod.snd (Except.ok.inj hresult)
    exact ⟨[], fun found => Goes.pure _ _, nofun, by simp [reports], fun _ _ => Walk.Tells.pure ()⟩
  | succ fuel ih =>
    rw [narrateFrom_succ] at h
    by_cases hinside : c.position < start + length
    · rw [if_pos hinside, (tells_reportLabel ls (c.position - start) c).run_bind] at h
      obtain ⟨i, c₁, hread, h⟩ := Walk.exists_of_run_read h
      rw [(Walk.Tells.report (.instruction i)).run_bind] at h
      obtain ⟨distances, hscan, hlabels, hother⟩ := scans_instruction view (c.position - start) ls c i c₁ hread
      obtain ⟨items, hscanned, hitems, hafter, htells⟩ := ih h
      have hids : distances.map (((c.position - start : Nat) : Int) + ·) = i.labels.map Label.id := by
        rw [hlabels, List.map_map]
        exact List.map_congr_left fun d _ => (hls.get _).symm
      have hi : ∀ l ∈ i.labels, ls.get l.id = l := by
        rw [hlabels]
        intro l hl
        obtain ⟨d, -, rfl⟩ := List.mem_map.1 hl
        exact congrArg ls.get (hls.get _)
      refine ⟨(c.position - start, i) :: items, fun found => ?_, List.forall_mem_cons.2 ⟨hi, hitems⟩, ?_, fun ls' hls' => ?_⟩
      · rw [Goes, scanFrom_succ, if_pos hinside,
          show scanInstruction (c.position - start) c = .ok (distances, c₁) from hscan]
        change scanFrom start length fuel (found.markAll false (distances.map _)) c₁ = _
        rw [hids]
        exact hscanned _
      · rw [hafter]
        simp [reports]
      · have hagree : ∀ d ∈ distances, target ls' (c.position - start) d = target ls (c.position - start) d := by
          intro d hd
          have hl := hls' _ List.mem_cons_self (target ls (c.position - start) d) (hlabels ▸ List.mem_map_of_mem hd)
          rwa [target, hls.get] at hl
        unfold Walk.Tells
        rw [narrateFrom_succ, if_pos hinside]
        refine (tells_reportLabel ls' (c.position - start) c).bind ?_ (by rw [reports, List.flatMap_cons, List.append_assoc])
        exact (Walk.Tells.read (hother ls' hagree)).bind ((Walk.Tells.report (.instruction i)).bind
          (htells ls' fun item hitem => hls' item (List.mem_cons_of_mem _ hitem)) rfl) rfl
    · rw [if_neg hinside] at h
      obtain ⟨hresult, rfl⟩ := Prod.mk.inj h
      obtain rfl : c = c' := congrArg Prod.snd (Except.ok.inj hresult)
      refine ⟨[], fun found => ?_, nofun, by simp [reports], fun ls' _ => ?_⟩
      · rw [Goes, scanFrom_succ, if_neg hinside]
        rfl
      · unfold Walk.Tells
        rw [narrateFrom_succ, if_neg hinside]
        exact Walk.Tells.pure ()

end Code

end ClassFile
