import ClassFile.Proofs.CodeReports

/-!
# What recorded events are read as

A body is well-formed if its instructions are, if it places no label twice and places every label that an instruction leads
to. Once it has been recorded without a failure, a reader finds its instructions in the code, each at the offset at which the
code ended when it was recorded, with the labels of the offsets at which labels were placed (`MethodDraft.listing`). A jump
of two bytes whose label comes too late makes recording fail.
-/

namespace ClassFile

/-- Events of a body as a writer expects them. -/
structure WellFormedBody (es : List CodeEvent) : Prop where
  instructions : ∀ i, .instruction i ∈ es → i.WellFormed
  once : (es.filterMap CodeEvent.placed?).Nodup
  placed : ∀ i, .instruction i ∈ es → ∀ l ∈ i.labels, l ∈ es.filterMap CodeEvent.placed?

namespace MethodDraft

/-- What the code of events is read as, once labels have their places. -/
def listing (ctx : Context) (m : MethodDraft) (place : Label → Nat) : List CodeEvent → List (Nat × Instruction)
  | [] => []
  | e :: rest =>
    (match e with
      | .instruction i => i.decoded place m.code.size
      | _ => []) ++ listing (m.record ctx e).1 (m.record ctx e).2 place rest

/-- The offset at which events place a label: where the code ends then. -/
def place (ctx : Context) (m : MethodDraft) (es : List CodeEvent) (l : Label) : Nat :=
  (m.placesAfter ctx (fun _ => none) es l).getD 0

variable {ctx : Context} {m : MethodDraft} {places : Label → Option Nat} {ps : List CodePiece} {es : List CodeEvent}

/-- The places of labels after events come of those after the first ones. -/
theorem placesAfter_append (ctx : Context) (m : MethodDraft) (places : Label → Option Nat) (es fs : List CodeEvent) :
    m.placesAfter ctx places (es ++ fs) =
      (m.recordAll ctx es).2.placesAfter (m.recordAll ctx es).1 (m.placesAfter ctx places es) fs := by
  induction es generalizing ctx m places with
  | nil => rfl
  | cons e rest ih => exact ih _ _ _

/-- A label that events do not place stays where it is. -/
theorem placesAfter_of_notMem {l : Label} (h : l ∉ es.filterMap CodeEvent.placed?) :
    m.placesAfter ctx places es l = places l := by
  induction es generalizing ctx m places with
  | nil => rfl
  | cons e rest ih =>
    have hfirst : e.placed? ≠ some l := fun he => h (List.mem_filterMap.2 ⟨e, List.mem_cons_self, he⟩)
    have hrest : l ∉ rest.filterMap CodeEvent.placed? := fun hl => by
      obtain ⟨x, hx, hxl⟩ := List.mem_filterMap.1 hl
      exact h (List.mem_filterMap.2 ⟨x, List.mem_cons_of_mem e hx, hxl⟩)
    rw [placesAfter, ih hrest, if_neg hfirst]

/-- A label that events place has a place then. -/
theorem placesAfter_of_mem {l : Label} (h : l ∈ es.filterMap CodeEvent.placed?) :
    (m.placesAfter ctx places es l).isSome := by
  induction es generalizing ctx m places with
  | nil => exact absurd h List.not_mem_nil
  | cons e rest ih =>
    rw [placesAfter]
    by_cases hrest : l ∈ rest.filterMap CodeEvent.placed?
    · exact ih hrest
    · rw [placesAfter_of_notMem hrest]
      obtain ⟨x, hx, hxl⟩ := List.mem_filterMap.1 h
      rcases List.mem_cons.1 hx with rfl | hx
      · rw [if_pos hxl]
        rfl
      · exact absurd (List.mem_filterMap.2 ⟨x, hx, hxl⟩) hrest

/-- A label that was placed has its place for good. -/
theorem placesAfter_eq_place {l : Label} (h : l ∈ es.filterMap CodeEvent.placed?) :
    m.placesAfter ctx (fun _ => none) es l = some (m.place ctx es l) := by
  obtain ⟨p, hp⟩ := Option.isSome_iff_exists.1 (placesAfter_of_mem (m := m) h)
  rw [place, hp]
  rfl

/-- An instruction that has been recorded can be read once all labels have their places. -/
theorem Laid.readable (h : m.Laid places ps) {final : MethodDraft} {place : Label → Nat} {finalPlaces : Label → Option Nat}
    {i : Instruction} {rest : List CodePiece}
    (hfinal : final.Laid finalPlaces (ps ++ (i.pieces (i.operand ctx.pool).1 (m.isFar i) m.code.size ++ rest)))
    (hsize : final.code.size ≤ maxCodeLength) (hkept : ∀ l p, places l = some p → finalPlaces l = some p)
    (hplace : ∀ l ∈ i.labels, finalPlaces l = some (place l)) :
    Emission.Readable place m.code.size ⟨i, (i.operand ctx.pool).1, m.isFar i⟩ := by
  refine ⟨?_, ?_, ?_, ?_⟩
  · rintro op label (rfl : i = .jump op label) (hnear : m.jumpsFar label = false)
    have hpieces : (Instruction.jump op label).pieces ((Instruction.jump op label).operand ctx.pool).1
        (m.isFar (.jump op label)) m.code.size = [.bytes #[op], .distance label m.code.size false] := by
      change Instruction.jumpPieces op label (m.jumpsFar label) m.code.size = _
      rw [hnear]
      rfl
    rw [hpieces] at hfinal
    have hstands : CodePiece.StandsAt (ps ++ ([.bytes #[op], .distance label m.code.size false] ++ rest))
        (CodePiece.totalSize (ps ++ [.bytes #[op]])) (.distance label m.code.size false) :=
      .intro ps [.bytes #[op]] _ rest
    exact (ClassFile.Laid.settled hfinal _ _ _ _ _ hstands (hplace label List.mem_cons_self)).2 rfl
  · rintro op label (rfl : i = .jump op label) (hfar : m.jumpsFar label = true)
    have hplaced := ClassFile.Laid.placed h label
    unfold MethodDraft.jumpsFar at hfar
    rw [hplaced] at hfar
    split at hfar
    · rename_i target htarget
      obtain rfl := Option.some.inj ((hkept label target htarget).symm.trans (hplace label List.mem_cons_self))
      exact of_decide_eq_true hfar
    · cases hfar
  · intro label hlabel
    exact Nat.le_trans (ClassFile.Laid.bounded hfinal label _ (hplace label hlabel)) hsize
  · have htotal := hfinal.size_eq
    simp only [CodePiece.totalSize_append] at htotal
    have hstart := h.size_eq
    change m.code.size + CodePiece.totalSize (i.pieces (i.operand ctx.pool).1 (m.isFar i) m.code.size) ≤ maxCodeLength
    omega

/-- The instructions of events are read at the offsets at which they were recorded. -/
theorem Laid.foundAll {view : PoolView} {pool : ConstantPool} (hs : view.Shows pool) (hp : pool.Built) {place : Label → Nat}
    (h : m.Laid places ps) (hnodup : (es.filterMap CodeEvent.placed?).Nodup)
    (hnew : ∀ l ∈ es.filterMap CodeEvent.placed?, places l = none) (hok : (m.recordAll ctx es).1.failure = none)
    (hsize : (m.recordAll ctx es).2.code.size ≤ maxCodeLength)
    (hnamed : ∀ e ∈ m.emissions ctx es, e.instruction.Named pool e.index)
    (hformed : ∀ i, .instruction i ∈ es → i.WellFormed)
    (hplace : ∀ i, .instruction i ∈ es → ∀ l ∈ i.labels, m.placesAfter ctx places es l = some (place l)) :
    Code.FoundAll view m.code.size (CodePiece.renderAll place (Emission.allPieces m.code.size (m.emissions ctx es)))
      (m.listing ctx place es) := by
  induction es generalizing ctx m places ps with
  | nil => exact .nil _
  | cons e rest ih =>
    have hall := h.recordAll hnodup hnew hok
    obtain ⟨hnodup', hnew', hrecorded⟩ := h.recordFirst hnodup hnew hok
    have hnext := ih hrecorded hnodup' hnew' hok hsize
      (fun x hx => hnamed x (List.mem_append_right _ hx)) (fun i hi => hformed i (List.mem_cons_of_mem e hi))
      (fun i hi => hplace i (List.mem_cons_of_mem e hi))
    rw [h.size_record hrecorded] at hnext
    unfold MethodDraft.listing MethodDraft.emissions
    rw [Emission.allPieces_append, CodePiece.renderAll_append]
    cases e with
    | instruction i =>
      have hwritten : Emission.allPieces m.code.size (m.emission ctx (.instruction i)) =
          i.pieces (i.operand ctx.pool).1 (m.isFar i) m.code.size := List.append_nil _
      have hkept : ∀ l p, places l = some p → m.placesAfter ctx places (.instruction i :: rest) l = some p := by
        intro l p hp
        rw [placesAfter_of_notMem (fun hl => Option.some_ne_none p (hp.symm.trans (hnew l hl))), hp]
      unfold MethodDraft.emissions at hall
      rw [Emission.allPieces_append, hwritten] at hall
      have hreadable := h.readable hall hsize hkept (hplace i List.mem_cons_self)
      have hfound := Code.foundAll_pieces hs hp (hnamed _ (List.mem_append_left _ List.mem_cons_self))
        (hformed i List.mem_cons_self) hreadable
      rw [hwritten] at hnext ⊢
      refine hfound.append ?_
      rwa [CodePiece.size_renderAll]
    | _ => exact (Code.FoundAll.nil m.code.size).append hnext

end MethodDraft

end ClassFile
