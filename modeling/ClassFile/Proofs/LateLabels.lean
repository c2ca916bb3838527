import ClassFile.Proofs.CodeRecording

/-!
# Labels that come too late

A label may be placed so far behind a jump that the distance does not fit. The room that the jump left for it then stays as
it is, and the class has failed; all that comes behind still stands where it would stand. For what hangs on places alone, the
room counts as bytes (`Laid.resolve_late`), and events are recorded in code that is laid out, whether distances fit or not.
-/

namespace ClassFile

namespace CodePiece

/-- A piece that stands at an offset, where distances to some labels are still to be filled in and
all else has been written. -/
def settle (waits : Label → Bool) (code : Bytes) (offset : Nat) (p : CodePiece) : CodePiece :=
  match p with
  | .distance label _ _ => if waits label then p else .bytes (code.extract offset (offset + p.size))
  | .bytes _ => .bytes (code.extract offset (offset + p.size))

variable {waits : Label → Bool} {code : Bytes} {offset : Nat} {p : CodePiece} {ps : List CodePiece}

/-- Settling a piece leaves its size alone. -/
theorem size_settle (h : offset + p.size ≤ code.size) : (p.settle waits code offset).size = p.size := by
  have hbytes : (CodePiece.bytes (code.extract offset (offset + p.size))).size = p.size := by
    change (code.extract offset (offset + p.size)).size = p.size
    rw [Array.size_extract]
    omega
  unfold settle
  split
  · split
    · rfl
    · exact hbytes
  · exact hbytes

/-- A distance that is still to be filled in waits for its label. -/
theorem distance_of_settle {label : Label} {origin : Nat} {wide : Bool}
    (h : .distance label origin wide = p.settle waits code offset) :
    waits label = true ∧ p = .distance label origin wide := by
  unfold settle at h
  split at h
  · split at h
    · rename_i hwaits
      obtain ⟨rfl, rfl, rfl⟩ := CodePiece.distance.inj h
      exact ⟨hwaits, rfl⟩
    · cases h
  · cases h

/-- Bytes that are settled have been written. -/
theorem bytes_of_settle {b : Bytes} (h : .bytes b = p.settle waits code offset) :
    b = code.extract offset (offset + p.size) := by
  unfold settle at h
  split at h
  · split at h
    · cases h
    · exact CodePiece.bytes.inj h
  · exact CodePiece.bytes.inj h

/-- Pieces of which all but the distances to some labels have been written, each where it stood. -/
theorem exists_settled (waits : Label → Bool) (code : Bytes) (ps : List CodePiece) (h : totalSize ps ≤ code.size) :
    ∃ qs, totalSize qs = totalSize ps ∧ ∀ offset q, StandsAt qs offset q ↔ ∃ p, StandsAt ps offset p ∧
      q = p.settle waits code offset := by
  induction ps using List.reverseRecOn with
  | nil =>
    refine ⟨[], rfl, fun offset q => iff_of_false ?_ ?_⟩
    · rintro ⟨before, after, hnil, -⟩
      simp at hnil
    · rintro ⟨p, ⟨before, after, hnil, -⟩, -⟩
      simp at hnil
  | append_singleton front last ih =>
    rw [totalSize_append, totalSize_cons, totalSize_nil] at h
    obtain ⟨qs, hsize, hstands⟩ := ih (by omega)
    refine ⟨qs ++ [last.settle waits code (totalSize front)], ?_, fun offset q => ?_⟩
    · simp only [totalSize_append, totalSize_cons, totalSize_nil]
      rw [hsize, size_settle (by omega)]
    · simp only [standsAt_concat, hstands, hsize]
      constructor
      · rintro (⟨p, hp, rfl⟩ | ⟨rfl, rfl⟩)
        · exact ⟨p, Or.inl hp, rfl⟩
        · exact ⟨last, Or.inr ⟨rfl, rfl⟩, rfl⟩
      · rintro ⟨p, hp | ⟨rfl, rfl⟩, rfl⟩
        · exact Or.inl ⟨p, hp, rfl⟩
        · exact Or.inr ⟨rfl, rfl⟩

end CodePiece

namespace Laid

open CodePiece

variable {blocks : Blocks} {code : Bytes} {places : Label → Option Nat} {ps : List CodePiece}

/-- Filling in a distance leaves the size of the code alone. -/
theorem size_fill (position : Nat) (state : Bytes × Option Int) (r : Reference) :
    (Blocks.fill position state r).1.size = state.1.size := by
  obtain ⟨code, overflow⟩ := state
  unfold Blocks.fill
  dsimp only
  split
  · exact Bytes.size_setUInt32 _ _ _
  · split
    · rfl
    · exact Bytes.size_setUInt16 _ _ _

/-- Resolving a label leaves the size of the code alone. -/
theorem size_resolve (blocks : Blocks) (i position : Nat) (code : Bytes) :
    (blocks.resolve i position code).2.1.size = code.size := by
  unfold Blocks.resolve
  dsimp only
  rw [← Array.foldl_toList]
  suffices h : ∀ (rs : List Reference) (state : Bytes × Option Int),
    (rs.foldl (Blocks.fill position) state).1.size = state.1.size from
    h _ (code, none)
  intro rs
  induction rs with
  | nil => exact fun _ => rfl
  | cons r rest ih => exact fun state => (ih _).trans (size_fill position state r)

/-- A label gets its place at the end of the code, whether distances to it fit or not. -/
theorem resolve_late (h : Laid blocks code places ps) {label : Label} {i : Nat} (hi : blocks.labels[label]? = some i)
    (hnew : places label = none) :
    ∃ qs, totalSize qs = totalSize ps ∧ Laid (blocks.resolve i code.size code).1 (blocks.resolve i code.size code).2.1
      (fun l => if l = label then some code.size else places l) qs := by
  have hposition := fun l => Blocks.position_resolve h.labelled hi code.size code l
  have hreferences : ∀ j, j ≠ i → ((blocks.resolve i code.size code).1.get j) = blocks.get j := fun j hj =>
    Blocks.get_modify_of_ne blocks hj _
  have hself : ((blocks.resolve i code.size code).1.get i).references = #[] := by
    change ((blocks.modify i _).get i).references = _
    rw [Blocks.get_modify_self (h.labelled.bound label i hi)]
  have hlabels : (blocks.resolve i code.size code).1.labels = blocks.labels := rfl
  have hlabelled : (blocks.resolve i code.size code).1.Labelled := h.labelled.modify i _
  have hsize := size_resolve blocks i code.size code
  generalize (blocks.resolve i code.size code).2.1 = code' at *
  generalize (blocks.resolve i code.size code).1 = blocks' at *
  obtain ⟨qs, htotal, hstands⟩ := exists_settled (fun l => l ≠ label && (places l).isNone) code' ps (by rw [hsize, h.size])
  refine ⟨qs, htotal, by rw [hsize, htotal, h.size], fun offset b hs => ?_, fun offset l origin wide q hs hq => ?_,
    fun offset l origin wide hs hq => ?_, fun j r hj => ?_, fun offset l origin wide hs => ?_, fun l => ?_,
    fun l q hq => ?_, hlabelled⟩
  · obtain ⟨p, hp, hb⟩ := (hstands offset _).1 hs
    have hle : offset + p.size ≤ code'.size := by
      rw [hsize, h.size]
      exact hp.le
    rw [bytes_of_settle hb]
    exact Bytes.hasAt_extract hle
  · obtain ⟨p, hp, hd⟩ := (hstands offset _).1 hs
    obtain ⟨hwaits, -⟩ := distance_of_settle hd
    split at hq
    · rename_i hl
      simp [hl] at hwaits
    · simp [hq] at hwaits
  · obtain ⟨p, hp, hd⟩ := (hstands offset _).1 hs
    obtain ⟨-, rfl⟩ := distance_of_settle hd
    split at hq
    · cases hq
    · rename_i hl
      obtain ⟨j, hj, hr⟩ := h.waiting offset l origin wide hp hq
      refine ⟨j, hlabels ▸ hj, ?_⟩
      rwa [hreferences j fun e : j = i => hl (h.labelled.unique l label i (e ▸ hj) hi)]
  · by_cases hji : j = i
    · subst hji
      rw [hself] at hj
      exact (nomatch Array.not_mem_empty r hj)
    · rw [hreferences j hji] at hj
      obtain ⟨l, hl, hp, hs⟩ := h.waits j r hj
      have hne : l ≠ label := by
        rintro rfl
        rw [hi] at hl
        exact hji (Option.some.inj hl).symm
      refine ⟨l, hlabels ▸ hl, by rw [if_neg hne]; exact hp, (hstands _ _).2 ⟨_, hs, ?_⟩⟩
      simp [settle, hne, hp]
  · obtain ⟨p, hp, hd⟩ := (hstands offset _).1 hs
    obtain ⟨-, rfl⟩ := distance_of_settle hd
    exact h.origins offset l origin wide hp
  · rw [hposition l, h.placed l]
  · rw [hsize]
    split at hq
    · exact Nat.le_of_eq (Option.some.inj hq).symm
    · exact h.bounded l q hq

end Laid

namespace ControlFlow

/-- A label is placed, whether distances to it fit or not. -/
theorem laid_label_late {flow : ControlFlow} {code : Bytes} {places : Label → Option Nat} {ps : List CodePiece}
    (h : Laid flow.blocks code places ps) {label : Label} (hnew : places label = none) :
    ∃ qs, CodePiece.totalSize qs = CodePiece.totalSize ps ∧
      Laid (flow.label label code).1.blocks (flow.label label code).2.1
        (fun l => if l = label then some code.size else places l) qs := by
  have hindexed := h.neutral (flow.neutral_index label)
  have hname := flow.labels_index label
  unfold ControlFlow.label
  generalize flow.index label = r at *
  obtain ⟨i, flow'⟩ := r
  obtain ⟨hneutral, hcode⟩ := neutral_place i
  dsimp only at hindexed hname ⊢
  rw [hcode]
  obtain ⟨qs, htotal, hplaced⟩ := hindexed.resolve_late hname hnew
  exact ⟨qs, htotal, hplaced.neutral hneutral⟩

end ControlFlow

namespace MethodDraft

variable {ctx : Context} {m : MethodDraft} {places : Label → Option Nat} {ps : List CodePiece}

/-- A label that comes too late for a distance is placed all the same, and what waits for it stays as it is. -/
theorem Laid.label_late (h : m.Laid places ps) (ctx : Context) {l : Label} (hnew : places l = none) :
    ∃ qs, CodePiece.totalSize qs = CodePiece.totalSize ps ∧
      (m.label ctx l).2.Laid (fun l' => if l = l' then some m.code.size else places l') qs := by
  obtain ⟨qs, htotal, hplaced⟩ := ControlFlow.laid_label_late h hnew
  simp only [eq_comm (b := l)] at hplaced
  exact ⟨qs, htotal, hplaced⟩

/-- An event is recorded in code that is laid out. -/
theorem Laid.record_late (h : m.Laid places ps) (ctx : Context) (e : CodeEvent)
    (hnew : ∀ l, e.placed? = some l → places l = none) :
    ∃ qs, (m.record ctx e).2.Laid (fun l => if e.placed? = some l then some m.code.size else places l) qs := by
  have hquiet : ∀ m' : MethodDraft, m'.flow = m.flow → m'.code = m.code →
      ∃ qs, m'.Laid (fun l => if none = some l then some m.code.size else places l) qs := by
    intro m' hflow hcode
    refine ⟨ps, ?_⟩
    unfold MethodDraft.Laid
    rw [hflow, hcode]
    exact h
  cases e with
  | instruction i => exact ⟨_, h.instruction ctx i⟩
  | label l =>
    obtain ⟨qs, -, hplaced⟩ := h.label_late ctx (hnew l rfl)
    refine ⟨qs, ?_⟩
    change (m.label ctx l).2.Laid (fun l' => if some l = some l' then some m.code.size else places l') qs
    simpa using hplaced
  | localVariable name descriptor signature start stop slot => exact hquiet _ rfl rfl
  | tryCatch start stop handler type => exact hquiet _ rfl rfl
  | lineNumber line start => exact hquiet _ rfl rfl
  | maxStack height => exact hquiet _ rfl rfl

/-- Events that place no label twice are recorded in code that is laid out. -/
theorem Laid.recordAll_late (h : m.Laid places ps) {es : List CodeEvent} (hnodup : (es.filterMap CodeEvent.placed?).Nodup)
    (hnew : ∀ l ∈ es.filterMap CodeEvent.placed?, places l = none) :
    ∃ places' qs, (m.recordAll ctx es).2.Laid places' qs := by
  induction es generalizing ctx m places ps with
  | nil => exact ⟨places, ps, h⟩
  | cons e rest ih =>
    obtain ⟨hnodup', hfirst, hnew'⟩ := placed_rest hnodup hnew
    obtain ⟨qs, hrecorded⟩ := h.record_late ctx e hfirst
    exact ih hrecorded hnodup' hnew'

end MethodDraft

end ClassFile
