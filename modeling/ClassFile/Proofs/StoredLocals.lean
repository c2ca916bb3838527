import ClassFile.Proofs.FramedMethods
import ClassFile.Proofs.FrameMoves

/-!
# Stretches end where locals are stored

Once a method has handlers, a stretch that starts from then on stores no local before its last instruction
(`Course.Run.storesLast`), so that its locals are as they were when it was entered until it ends.
-/

namespace ClassFile

namespace MethodDraft

variable {ctx : Context} {m : MethodDraft} {places : Label → Option Nat} {ps : List CodePiece}

/-- No event takes code away. -/
theorem Laid.size_le_record (h : m.Laid places ps) (ctx : Context) (e : CodeEvent)
    (hnew : ∀ l, e.placed? = some l → places l = none) :
    m.code.size ≤ (m.record ctx e).2.code.size := by
  cases e with
  | instruction i => exact Nat.le_of_lt (size_lt_instruction ctx h i)
  | label l =>
    obtain ⟨qs, htotal, hplaced⟩ := h.label_late ctx (hnew l rfl)
    exact Nat.le_of_eq (h.size_eq.trans (htotal.symm.trans hplaced.size_eq.symm))
  | _ => exact Nat.le_refl _

/-- Labels have the places that events have given them, whether all distances fit or not. -/
theorem Laid.recordAll_places (ctx : Context) (h : m.Laid places ps) {es : List CodeEvent}
    (hnodup : (es.filterMap CodeEvent.placed?).Nodup) (hnew : ∀ l ∈ es.filterMap CodeEvent.placed?, places l = none) :
    ∃ qs, (m.recordAll ctx es).2.Laid (m.placesAfter ctx places es) qs := by
  induction es generalizing ctx m places ps with
  | nil => exact ⟨ps, h⟩
  | cons e rest ih =>
    obtain ⟨hnodup', hfirst, hnew'⟩ := placed_rest hnodup hnew
    obtain ⟨qs, hrecorded⟩ := h.record_late ctx e hfirst
    exact ih _ hrecorded hnodup' hnew'

end MethodDraft

namespace Course

section Runs

variable {h : Hierarchy} {ctx : Context} {m : MethodDraft} {c c' : Course} {es fs : List CodeEvent}

/-- What each event keeps holds after all of them. -/
theorem Run.keeps {P : MethodDraft → Course → Prop} {places : Label → Option Nat} {ps : List CodePiece}
    (hrun : Run h ctx m c es c') (hlaid : m.Laid places ps) (hnodup : (es.filterMap CodeEvent.placed?).Nodup)
    (hnew : ∀ l ∈ es.filterMap CodeEvent.placed?, places l = none)
    (hkeeps : ∀ {ctx : Context} {m : MethodDraft} {c : Course} {places : Label → Option Nat} {ps : List CodePiece}
      (e : CodeEvent) (block next : Nat),
      m.Laid places ps → m.flow.Stretched h ctx.types m.code.size c → m.code.size ≤ (m.record ctx e).2.code.size → P m c →
        P (m.record ctx e).2 (c.record ctx m block next e)) (hp : P m c) : P (m.recordAll ctx es).2 c' := by
  induction hrun generalizing places ps with
  | nil => exact hp
  | @cons ctx m c c' e rest hs block next _ ih =>
    obtain ⟨hnodup', hfirst, hnew'⟩ := MethodDraft.placed_rest hnodup hnew
    obtain ⟨qs, hrecorded⟩ := hlaid.record_late ctx e hfirst
    exact ih hrecorded hnodup' hnew' (hkeeps e block next hlaid hs (hlaid.size_le_record ctx e hfirst) hp)

/-- Events are recorded in two parts. -/
theorem Run.split (hrun : Run h ctx m c (es ++ fs) c') :
    ∃ between, Run h ctx m c es between ∧ Run h (m.recordAll ctx es).1 (m.recordAll ctx es).2 between fs c' := by
  induction es generalizing ctx m c with
  | nil => exact ⟨c, .nil hrun.first, hrun⟩
  | cons e rest ih =>
    cases hrun with
    | cons hs block next hrest =>
      obtain ⟨between, hfirst, hsecond⟩ := ih hrest
      exact ⟨between, .cons hs block next hfirst, hsecond⟩

/-- Instructions stand in the order of the code. -/
theorem Run.ascends {places : Label → Option Nat} {ps : List CodePiece} (hrun : Run h ctx m .start es c)
    (hlaid : m.Laid places ps)
    (hnodup : (es.filterMap CodeEvent.placed?).Nodup) (hnew : ∀ l ∈ es.filterMap CodeEvent.placed?, places l = none) :
    (c.items.map (·.1)).Pairwise (· < ·) ∧ ∀ x ∈ c.items, x.1 < (m.recordAll ctx es).2.code.size := by
  refine hrun.keeps (P := fun m c => (c.items.map (·.1)).Pairwise (· < ·) ∧ ∀ x ∈ c.items, x.1 < m.code.size)
    hlaid hnodup hnew ?_ ⟨List.Pairwise.nil, fun x hx => absurd hx List.not_mem_nil⟩
  rintro ctx m c places ps e block next hlaid hs hle ⟨hpairwise, hlt⟩
  have hkept : (c.record ctx m block next e).items = c.items →
    ((c.record ctx m block next e).items.map (·.1)).Pairwise (· < ·) ∧
      ∀ x ∈ (c.record ctx m block next e).items, x.1 < (m.record ctx e).2.code.size := by
    intro heq
    rw [heq]
    exact ⟨hpairwise, fun x hx => Nat.lt_of_lt_of_le (hlt x hx) hle⟩
  cases e with
  | instruction i =>
    have hitems : (c.record ctx m block next (.instruction i)).items = c.items ++ [(m.code.size, i)] :=
      items_follow _ _ _ _ _ _ _ _
    rw [hitems]
    refine ⟨?_, fun x hx => ?_⟩
    · rw [List.map_append, List.pairwise_append]
      refine ⟨hpairwise, List.pairwise_singleton _ _, fun p hp q hq => ?_⟩
      obtain ⟨x, hx, rfl⟩ := List.mem_map.1 hp
      obtain rfl := List.mem_singleton.1 hq
      exact hlt x hx
    · rcases List.mem_append.1 hx with hx | hx
      · exact Nat.lt_of_lt_of_le (hlt x hx) hle
      · rw [List.mem_singleton.1 hx]
        exact MethodDraft.size_lt_instruction ctx hlaid i
  | label l =>
    refine hkept ?_
    unfold Course.record
    dsimp only
    split
    · rfl
    · exact items_place _ _ _ _
  | _ => exact hkept rfl

/-- Stretches are cut where their instructions say, wherever jumps lead: a label at the greatest offset is not
too far back for any of them. -/
theorem Run.regular_last {places : Label → Option Nat} {ps : List CodePiece} (hrun : Run h ctx m .start es c)
    (hlaid : m.Laid places ps)
    (hnodup : (es.filterMap CodeEvent.placed?).Nodup) (hnew : ∀ l ∈ es.filterMap CodeEvent.placed?, places l = none)
    (hsize : (m.recordAll ctx es).2.code.size ≤ MethodDraft.maxCodeLength) :
    c.Regular fun _ => MethodDraft.maxCodeLength := by
  refine hrun.keeps (P := fun m c => m.code.size ≤ MethodDraft.maxCodeLength → c.Regular fun _ => MethodDraft.maxCodeLength)
    hlaid hnodup hnew ?_ (fun _ => regular_start _) hsize
  rintro ctx m c places ps e block next hlaid hs hle hr hsize
  have hbefore := Nat.le_trans hle hsize
  have hr := hr hbefore
  cases e with
  | instruction i =>
    refine hr.follow (MethodDraft.size_lt_instruction ctx hlaid i) hs.within.extent fun op l _ _ hfar => ?_
    unfold MethodDraft.minDistance at hfar
    omega
  | label l =>
    unfold Course.record
    dsimp only
    split
    · exact hr
    · exact hr.placed hs.within.empty false
  | _ => exact hr

end Runs

/-! ## Stores -/

/-- Stretches from an offset on store no local before their last instruction. -/
def StoresLast (offset : Nat) (c : Course) : Prop :=
  ∀ s ∈ c.all, offset ≤ s.start → ∀ x ∈ s.body.dropLast, (x.2.operation x.1).stores = false

/-- The last stretch has stored no local yet, if it starts from an offset on. -/
def Storeless (offset : Nat) (c : Course) : Prop :=
  offset ≤ c.last.start → ∀ x ∈ c.last.body, (x.2.operation x.1).stores = false

section Stores

variable {c : Course} {first offset stop block next : Nat} {splits jumped : Bool} {i : Instruction}

/-- The last stretch may be cut. -/
theorem StoresLast.cut (hc : c.StoresLast first) {last new : Stretch} (hstart : last.start = c.last.start)
    (hbody : last.body = c.last.body)
    (hnew : new.body = []) : StoresLast first ⟨c.done ++ [last], new⟩ ∧ Storeless first ⟨c.done ++ [last], new⟩ := by
  refine ⟨fun s hmem hle x hx => ?_, fun _ x hx => ?_⟩
  · rcases mem_all.1 hmem with hmem | rfl
    · rcases List.mem_append.1 hmem with hmem | hmem
      · exact hc s (mem_all.2 (Or.inl hmem)) hle x hx
      · obtain rfl := List.mem_singleton.1 hmem
        rw [hbody] at hx
        exact hc c.last c.last_mem_all (hstart ▸ hle) x hx
    · rw [hnew] at hx
      exact absurd hx List.not_mem_nil
  · rw [hnew] at hx
    exact absurd hx List.not_mem_nil

/-- What stands at an offset where nothing stands yet starts a stretch that has stored nothing. -/
theorem StoresLast.place (hc : c.StoresLast first) (hempty : c.last.start = stop → c.last.body = []) :
    (c.place block stop jumped).StoresLast first ∧ (c.place block stop jumped).Storeless first := by
  unfold Course.place
  split
  · rename_i hstart
    refine ⟨fun s hmem hle x hx => ?_, fun _ x hx => ?_⟩
    · rcases mem_all.1 hmem with hmem | rfl
      · exact hc s (mem_all.2 (Or.inl hmem)) hle x hx
      · exact hc c.last c.last_mem_all hle x hx
    · dsimp only at hx
      rw [hempty hstart] at hx
      exact absurd hx List.not_mem_nil
  · exact hc.cut rfl rfl rfl

/-- An instruction that stores a local is the last one of its stretch, if this is split then. -/
theorem StoresLast.follow (hc : c.StoresLast first) (hopen : c.Storeless first) (hstart : c.last.start ≤ offset)
    (hlt : offset < stop) (hsplits : (i.operation offset).stores = true → splits = true) :
    (c.follow offset stop block next splits jumped i).StoresLast first ∧
    (c.follow offset stop block next splits jumped i).Storeless first := by
  have heq := written_eq c offset i
  have hwritten : (c.written offset i).StoresLast first := by
    rw [heq]
    intro s hmem hle x hx
    rcases mem_all.1 hmem with hmem | rfl
    · exact hc s (mem_all.2 (Or.inl hmem)) hle x hx
    · dsimp only at hx
      rw [List.dropLast_concat] at hx
      exact hopen hle x hx
  have hbehind : (c.written offset i).last.start ≠ stop := by
    rw [heq]
    exact Nat.ne_of_lt (Nat.lt_of_le_of_lt hstart hlt)
  unfold Course.follow
  dsimp only
  by_cases hends : (c.last.followed && i.ends) = true
  · rw [if_pos hends]
    have hstopped : ((c.written offset i).stop block stop).StoresLast first ∧
      ((c.written offset i).stop block stop).Storeless first :=
      hwritten.cut rfl rfl rfl
    split
    · exact hstopped.1.place fun _ => rfl
    · exact hstopped
  · rw [if_neg hends]
    split
    · exact hwritten.place fun hstart => absurd hstart hbehind
    · rename_i hwhole
      rw [Bool.or_eq_true_iff, not_or] at hwhole
      refine ⟨hwritten, fun hle x hx => ?_⟩
      rw [heq] at hle hx
      rcases List.mem_append.1 hx with hx | hx
      · exact hopen hle x hx
      · obtain rfl := List.mem_singleton.1 hx
        exact Bool.eq_false_of_not_eq_true fun hstores => hwhole.2 (hsplits hstores)

end Stores

section Runs

variable {h : Hierarchy} {ctx : Context} {m : MethodDraft} {c c' : Course} {es : List CodeEvent}

/-- Where there are handlers, the block ends behind a store. -/
theorem splits_of_stores (hhandlers : m.handlers ≠ #[]) {offset : Nat} {i : Instruction}
    (hi : (i.operation offset).stores = true) :
    m.splits i = true := by
  cases i with
  | moveLocal op slot =>
    have hstores : decide (op ≥ Opcode.istore) = true := hi
    change (decide (op ≥ Opcode.istore) && !m.handlers.isEmpty) = true
    rw [hstores, Bool.true_and, Bool.not_eq_true']
    exact Bool.eq_false_of_not_eq_true fun hempty => hhandlers (Array.isEmpty_iff.1 hempty)
  | _ => cases hi

/-- Where there are handlers, they stay. -/
theorem handlers_record_ne (ctx : Context) (hhandlers : m.handlers ≠ #[]) (e : CodeEvent) :
    (m.record ctx e).2.handlers ≠ #[] := by
  have heq := MethodDraft.handlers_recordAll ctx m [e]
  intro hempty
  rw [show (m.recordAll ctx [e]).2 = (m.record ctx e).2 from rfl, hempty] at heq
  exact hhandlers (Array.toList_eq_nil_iff.1 (List.append_eq_nil_iff.1 heq.symm).1)

/-- From where a method has handlers on, stretches store no local before their last instruction. -/
theorem Run.storesLast {places : Label → Option Nat} {ps : List CodePiece} (hrun : Run h ctx m c es c')
    (hlaid : m.Laid places ps) (hnodup : (es.filterMap CodeEvent.placed?).Nodup)
    (hnew : ∀ l ∈ es.filterMap CodeEvent.placed?, places l = none)
    (hhandlers : m.handlers ≠ #[]) {offset : Nat} (hc : c.StoresLast offset) (hopen : c.Storeless offset) :
    c'.StoresLast offset := by
  refine (hrun.keeps (P := fun m c => m.handlers ≠ #[] ∧ c.StoresLast offset ∧ c.Storeless offset) hlaid hnodup hnew ?_
    ⟨hhandlers, hc, hopen⟩).2.1
  rintro ctx m c places ps e block next hlaid hs - ⟨hhandlers, hc, hopen⟩
  refine ⟨handlers_record_ne ctx hhandlers e, ?_⟩
  cases e with
  | instruction i =>
    exact hc.follow hopen hs.within.extent (MethodDraft.size_lt_instruction ctx hlaid i) (splits_of_stores hhandlers)
  | label l =>
    unfold Course.record
    dsimp only
    split
    · exact ⟨hc, hopen⟩
    · exact hc.place hs.within.empty.2
  | _ => exact ⟨hc, hopen⟩

/-- Once a handler has been recorded, a label behind it starts stretches that store no local before
their last instruction. -/
theorem Run.storesLast_label {places : Label → Option Nat} {ps : List CodePiece} {l : Label} {before after : List CodeEvent}
    (hrun : Run h ctx m .start (before ++ .label l :: after) c) (hlaid : m.Laid places ps)
    (hnodup : ((before ++ .label l :: after).filterMap CodeEvent.placed?).Nodup)
    (hnew : ∀ l' ∈ (before ++ .label l :: after).filterMap CodeEvent.placed?, places l' = none)
    (hdebug : l.debug = false)
    (hhandlers : (m.recordAll ctx before).2.handlers ≠ #[]) : c.StoresLast (m.recordAll ctx before).2.code.size := by
  rw [List.filterMap_append] at hnodup hnew
  obtain ⟨hbefore, hrest, hapart⟩ := List.nodup_append.1 hnodup
  obtain ⟨between, hfirst, hsecond⟩ := hrun.split
  obtain ⟨qs, hbetween⟩ := hlaid.recordAll_places ctx hbefore fun l' hl' => hnew l' (List.mem_append_left _ hl')
  have hlater : ∀ l' ∈ (CodeEvent.label l :: after).filterMap CodeEvent.placed?,
    m.placesAfter ctx places before l' = none := fun l' hl' => by
    rw [MethodDraft.placesAfter_of_notMem fun hl => hapart l' hl l' hl' rfl]
    exact hnew l' (List.mem_append_right _ hl')
  obtain ⟨hnodup', hnamed, hnew'⟩ := MethodDraft.placed_rest hrest hlater
  obtain ⟨qs', hrecorded⟩ := hbetween.record_late (m.recordAll ctx before).1 (.label l) hnamed
  cases hsecond with
  | cons hs block next hafter =>
    have hall : between.StoresLast (m.recordAll ctx before).2.code.size := by
      intro s hmem hle x hx
      -- nothing stands there yet
      have hbody : s.body = [] := by
        by_contra hne
        exact absurd ((hs.row.body_ne_iff s hmem).1 hne) (Nat.not_lt.2 hle)
      rw [hbody] at hx
      exact absurd hx List.not_mem_nil
    have hplaced : (between.place block (m.recordAll ctx before).2.code.size false).StoresLast
      (m.recordAll ctx before).2.code.size ∧
        (between.place block (m.recordAll ctx before).2.code.size false).Storeless (m.recordAll ctx before).2.code.size :=
      hall.place hs.within.empty.2
    have hrecord : between.record (m.recordAll ctx before).1 (m.recordAll ctx before).2 block next (.label l) =
        between.place block (m.recordAll ctx before).2.code.size false := by
      unfold Course.record
      dsimp only
      rw [hdebug, if_neg Bool.false_ne_true]
    rw [hrecord] at hafter
    exact hafter.storesLast hrecorded hnodup' hnew' (handlers_record_ne _ hhandlers _) hplaced.1 hplaced.2

end Runs

end Course

end ClassFile
