import ClassFile.Proofs.ClassReading
import ClassFile.Proofs.MethodClosing

/-!
# What is read of a method that was written

A method whose events are well-formed (`WellFormedBody`) and of which only the stack height is computed is read as what was
written (`Writer.decodes_of_toBytes`): a reader finds its code in the class file, and in it the instructions, one after the
other, each with the labels of the offsets at which its labels were placed.
-/

namespace ClassFile

open ConstantPool

open Decoder (Goes)

/-- A reader finds instructions in the code that stands at an offset. Its first pass finds a label at every offset
that they lead to. Its second pass, whichever labels come from other tables in between, reports the instructions,
each behind the label of its offset. -/
structure Code.Decodes (view : PoolView) (start length : Nat) (items : List (Nat × Instruction)) : Prop where
  passes : ∃ ls : CodeLabels, findLabels view.bytes start length = .ok ls ∧
    (∀ item ∈ items, ∀ l ∈ item.2.labels, ls.labels[l.id]? = some l) ∧
    ∀ later : CodeLabels, ls.Keeps later → (narrateFrom view later start length length).Tells ⟨view.bytes, start⟩
      (reports later items) () ⟨view.bytes, start + length⟩

/-- Where the code of a code attribute starts, and how long it is. -/
def Code.range : Decoder (Nat × Nat) := do
  Decoder.skip 4
  let length ← Decoder.u32
  return (← Decoder.position, length.toNat)

/-- The distances in an instruction lead to its labels. -/
theorem Instruction.mem_labels_of_mem_pieces {i : Instruction} {index : PoolIndex} {far wide : Bool} {offset origin : Nat}
    {l : Label} (h : .distance l origin wide ∈ i.pieces index far offset) : l ∈ i.labels := by
  cases i with
  | bare op | moveLocal op slot | typed op name | field op owner name descriptor
  | invokeDynamic name descriptor bootstrap arguments | multiArray descriptor dimensions => simp [pieces] at h
  | immediate op operand =>
    dsimp only [pieces] at h
    split at h <;> simp at h
  | invoke op r =>
    dsimp only [pieces] at h
    rcases List.mem_cons.1 h with h | h
    · cases h
    · split at h <;> simp at h
  | jump op label =>
    dsimp only [pieces, jumpPieces] at h
    have hlabel : l = label := by
      split at h
      · split at h <;> simp at h <;> exact h.1
      · simp at h
        exact h.1
    exact hlabel ▸ List.mem_cons_self
  | constant value =>
    dsimp only [pieces] at h
    split at h
    · simp at h
    · split at h <;> simp at h
  | increment slot amount =>
    dsimp only [pieces] at h
    split at h <;> simp at h
  | tableSwitch low high defaultLabel labels =>
    dsimp only [pieces, switchHead] at h
    simp only [List.mem_append, List.mem_cons, List.mem_map, List.not_mem_nil, or_false, reduceCtorEq, false_or,
      CodePiece.distance.injEq] at h
    rcases h with ⟨rfl, -⟩ | ⟨label, hlabel, rfl, -⟩
    · exact List.mem_cons_self
    · exact List.mem_cons_of_mem _ hlabel
  | lookupSwitch defaultLabel keys labels =>
    dsimp only [pieces, switchHead] at h
    simp only [List.mem_append, List.mem_cons, List.mem_flatMap, List.not_mem_nil, or_false, reduceCtorEq, false_or,
      CodePiece.distance.injEq] at h
    rcases h with ⟨rfl, -⟩ | ⟨⟨key, label⟩, hpair, rfl, -⟩
    · exact List.mem_cons_self
    · exact List.mem_cons_of_mem _ (List.of_mem_zip hpair).2

/-- Every piece is one of some instruction. -/
theorem Emission.exists_of_mem_allPieces {offset : Nat} {es : List Emission} {p : CodePiece}
    (h : p ∈ Emission.allPieces offset es) :
    ∃ e ∈ es, ∃ offset, p ∈ e.pieces offset := by
  induction es generalizing offset with
  | nil => exact absurd h List.not_mem_nil
  | cons e rest ih =>
    rcases List.mem_append.1 h with h | h
    · exact ⟨e, List.mem_cons_self, offset, h⟩
    · obtain ⟨e', he', found⟩ := ih h
      exact ⟨e', List.mem_cons_of_mem e he', found⟩

namespace MethodDraft

variable {ctx : Context} {m : MethodDraft} {es : List CodeEvent}

/-- What is emitted is an instruction of some event. -/
theorem mem_of_mem_emissions {e : Emission} (h : e ∈ m.emissions ctx es) : .instruction e.instruction ∈ es := by
  induction es generalizing ctx m with
  | nil => exact absurd h List.not_mem_nil
  | cons x rest ih =>
    rcases List.mem_append.1 h with h | h
    · cases x with
      | instruction i =>
        obtain rfl := List.mem_singleton.1 h
        exact List.mem_cons_self
      | _ => exact absurd h List.not_mem_nil
    · exact List.mem_cons_of_mem x (ih h)

/-- A method of whose code nothing has been written yet. -/
structure Fresh (m : MethodDraft) (analysis : Analysis) : Prop where
  code : m.code = #[]
  flow : m.flow = .start analysis
  finished : m.finished = false

/-- A method of whose code nothing has been written holds no pieces. -/
theorem Fresh.laid {analysis : Analysis} (h : m.Fresh analysis) : m.Laid (fun _ => none) [] := by
  unfold MethodDraft.Laid
  rw [h.code, h.flow]
  exact ControlFlow.laid_start analysis

/-- The code of well-formed events is what its pieces say. -/
theorem Fresh.code_eq {analysis : Analysis} (h : m.Fresh analysis) (hbody : WellFormedBody es)
    (hok : (m.recordAll ctx es).1.failure = none) : (m.recordAll ctx es).2.code =
      CodePiece.renderAll (m.place ctx es) (Emission.allPieces 0 (m.emissions ctx es)) := by
  have hall := h.laid.recordAll hbody.once (fun _ _ => rfl) hok
  rw [h.code] at hall
  refine ClassFile.Laid.rendered hall fun offset l origin wide hs => placesAfter_eq_place ?_
  obtain ⟨before, after, hsplit, -⟩ := hs
  have hmem : CodePiece.distance l origin wide ∈ Emission.allPieces 0 (m.emissions ctx es) := by
    rw [List.nil_append] at hsplit
    change Emission.allPieces 0 (m.emissions ctx es) = _ at hsplit
    rw [hsplit]
    exact List.mem_append_right _ List.mem_cons_self
  obtain ⟨e, he, offset', hp⟩ := Emission.exists_of_mem_allPieces hmem
  exact hbody.placed e.instruction (mem_of_mem_emissions he) l (Instruction.mem_labels_of_mem_pieces hp)

end MethodDraft

/-! ## Code that is not empty -/

/-- Every instruction takes some bytes. -/
theorem Instruction.totalSize_pieces_pos (i : Instruction) (index : PoolIndex) (far : Bool) (offset : Nat) :
    0 < CodePiece.totalSize (i.pieces index far offset) := by
  have hfirst : ∀ (x : UInt8) (rest : Bytes) (ps : List CodePiece),
    0 < CodePiece.totalSize (.bytes (#[x] ++ rest) :: ps) := by
    intro x rest ps
    rw [CodePiece.totalSize_cons, CodePiece.size, Array.size_append]
    exact Nat.lt_of_lt_of_le Nat.zero_lt_one (by simp; omega)
  cases i with
  | bare op => exact hfirst op #[] []
  | immediate op operand =>
    dsimp only [pieces]
    split
    · exact hfirst _ _ _
    · exact hfirst op #[_] []
  | moveLocal op slot =>
    dsimp only [pieces, MethodDraft.moveLocalBytes]
    split
    · exact hfirst _ #[] []
    · split
      · exact hfirst _ (#[op] ++ Bytes.ofUInt16 slot) []
      · exact hfirst op #[_] []
  | typed op name | field op owner name descriptor | invoke op r | invokeDynamic name descriptor bootstrap arguments
  | multiArray descriptor dimensions => exact hfirst _ _ _
  | jump op label =>
    dsimp only [pieces, jumpPieces]
    split
    · split
      · exact hfirst _ _ _
      · exact hfirst _ #[] _
    · exact hfirst op #[] _
  | constant value =>
    dsimp only [pieces]
    split
    · exact hfirst _ _ _
    · split
      · exact hfirst _ _ _
      · exact hfirst _ #[_] []
  | increment slot amount =>
    dsimp only [pieces]
    split
    · exact hfirst _ (#[Opcode.iinc] ++ Bytes.ofUInt16 slot ++ Bytes.ofUInt16 amount.toUInt16) []
    · exact hfirst _ #[_, _] []
  | tableSwitch low high defaultLabel labels => exact hfirst _ #[] _
  | lookupSwitch defaultLabel keys labels => exact hfirst _ #[] _

namespace MethodDraft

variable {ctx : Context} {m : MethodDraft} {es : List CodeEvent}

/-- Code with an instruction takes some bytes. -/
theorem totalSize_emissions_pos (ctx : Context) (m : MethodDraft) {i : Instruction} (h : .instruction i ∈ es)
    (offset : Nat) :
    0 < CodePiece.totalSize (Emission.allPieces offset (m.emissions ctx es)) := by
  induction es generalizing ctx m offset with
  | nil => exact absurd h List.not_mem_nil
  | cons e rest ih =>
    unfold MethodDraft.emissions
    rw [Emission.allPieces_append, CodePiece.totalSize_append]
    rcases List.mem_cons.1 h with rfl | h
    · have hwritten : Emission.allPieces offset (m.emission ctx (.instruction i)) =
          i.pieces (i.operand ctx.pool).1 (m.isFar i) offset := List.append_nil _
      rw [hwritten]
      exact Nat.lt_of_lt_of_le (i.totalSize_pieces_pos _ _ _) (Nat.le_add_right _ _)
    · exact Nat.lt_of_lt_of_le (ih _ _ h _) (Nat.le_add_left _ _)

/-- The place of a label is where the code ends when it is placed. -/
theorem place_eq (before : List CodeEvent) {after : List CodeEvent} {l : Label}
    (h : ((before ++ .label l :: after).filterMap CodeEvent.placed?).Nodup) :
    m.place ctx (before ++ .label l :: after) l = (m.recordAll ctx before).2.code.size := by
  rw [List.filterMap_append] at h
  have hafter := (List.nodup_append.1 h).2.1
  rw [List.filterMap_cons] at hafter
  rw [place, placesAfter_append, placesAfter, placesAfter_of_notMem (List.nodup_cons.1 hafter).1]
  exact congrArg (Option.getD · 0) (if_pos rfl)

end MethodDraft

/-! ## Labels of offsets -/

/-- The labels of an instruction are changed one by one. -/
theorem Instruction.labels_relabel (f : Label → Label) (i : Instruction) : (i.relabel f).labels = i.labels.map f := by
  cases i <;> rfl

/-- What an instruction is read as leads to offsets. -/
theorem Instruction.labels_decoded {place : Label → Nat} {offset : Nat} {i : Instruction} {item : Nat × Instruction}
    (h : item ∈ i.decoded place offset) {l : Label} (hl : l ∈ item.2.labels) : ∃ n : Nat, l = .ofOffset n := by
  have hplain : ∀ i : Instruction, item = (offset, i.relabel fun label => .ofOffset (place label)) →
    ∃ n : Nat, l = .ofOffset n := by
    rintro i rfl
    rw [labels_relabel] at hl
    obtain ⟨label, -, rfl⟩ := List.mem_map.1 hl
    exact ⟨place label, rfl⟩
  cases i with
  | jump op label =>
    unfold decoded at h
    dsimp only at h
    split at h
    · rcases List.mem_cons.1 h with rfl | h
      · exact ⟨_, List.mem_singleton.1 hl⟩
      · obtain rfl := List.mem_singleton.1 h
        exact ⟨_, List.mem_singleton.1 hl⟩
    · obtain rfl := List.mem_singleton.1 h
      exact ⟨_, List.mem_singleton.1 hl⟩
  | _ => exact hplain _ (List.mem_singleton.1 h)

namespace MethodDraft

variable {ctx : Context} {m : MethodDraft} {es : List CodeEvent}

/-- The instructions that are read lead to offsets. -/
theorem labels_listing {place : Label → Nat} {item : Nat × Instruction} (h : item ∈ m.listing ctx place es) {l : Label}
    (hl : l ∈ item.2.labels) : ∃ n : Nat, l = .ofOffset n := by
  induction es generalizing ctx m with
  | nil => exact absurd h List.not_mem_nil
  | cons e rest ih =>
    rcases List.mem_append.1 h with h | h
    · cases e with
      | instruction i => exact Instruction.labels_decoded h hl
      | _ => exact absurd h List.not_mem_nil
    · exact ih h

/-- The instructions of a method are found in its code. -/
theorem Fresh.foundAll {analysis : Analysis} (h : m.Fresh analysis) (hbody : WellFormedBody es) (hs : ctx.pool.Sound)
    (hok : (m.recordAll ctx es).1.failure = none)
    (hsize : (m.recordAll ctx es).2.code.size ≤ maxCodeLength) {view : PoolView}
    {pool : ConstantPool} (hview : view.Shows pool) (hp : pool.Built) (hf : pool.Fits)
    (hle : (m.recordAll ctx es).1.pool.Extends pool) :
    Code.FoundAll view 0 (m.recordAll ctx es).2.code (m.listing ctx (m.place ctx es) es) := by
  have hfound := h.laid.foundAll hview hp hbody.once (fun _ _ => rfl) hok hsize
    (named_emissions hp hf es hs hle) hbody.instructions
    (fun i hi l hl => placesAfter_eq_place (hbody.placed i hi l hl))
  have hcode := h.code_eq hbody hok
  rw [h.code] at hfound
  change Code.FoundAll view 0 (CodePiece.renderAll (m.place ctx es) (Emission.allPieces 0 (m.emissions ctx es))) _ at hfound
  rwa [← hcode] at hfound

end MethodDraft

/-- A reader finds the instructions of code that stands at an offset, if all their labels are those of offsets. -/
theorem Code.FoundAll.decodes {view : PoolView} {code : Bytes} {items : List (Nat × Instruction)} {start : Nat}
    (h : Code.FoundAll view 0 code items) (hlabels : ∀ item ∈ items, ∀ l ∈ item.2.labels, ∃ n : Nat, l = .ofOffset n)
    (hat : view.bytes.HasAt start code) : Code.Decodes view start code.size items := by
  have hscan := Code.scanFrom_foundAll h (b := view.bytes) (by simpa using hat) (Nat.zero_add _) (Nat.le_refl _) {}
  have hplain : CodeLabels.Plain {} := fun offset l hl => by simp at hl
  have hmarked : ∀ item ∈ items, ∀ l ∈ item.2.labels, (Code.markItems {} items).labels[l.id]? = some l := by
    intro item hitem l hl
    obtain ⟨n, rfl⟩ := hlabels item hitem l hl
    exact Code.markItems_marked hplain hitem hl
  refine ⟨_, Goes.runAt hscan, hmarked, fun later hlater => ?_⟩
  refine Code.narrateFrom_foundAll h (by simpa using hat) (Nat.zero_add _) (Nat.le_refl _) later fun item hitem l hl => ?_
  have hkept := hlater l.id l (hmarked item hitem l hl)
  unfold CodeLabels.get
  rw [Std.HashMap.getD_eq_getD_getElem?, hkept]
  rfl

namespace MethodDraft

variable {ctx : Context} {m : MethodDraft} {es : List CodeEvent}

/-- A reader that sees the pool of a class finds the instructions of a method in its code. -/
theorem Fresh.decodes {analysis : Analysis} (h : m.Fresh analysis) (hbody : WellFormedBody es) (hs : ctx.pool.Sound)
    (hok : (m.recordAll ctx es).1.failure = none)
    (hsize : (m.recordAll ctx es).2.code.size ≤ maxCodeLength) {view : PoolView}
    {pool : ConstantPool} (hview : view.Shows pool) (hp : pool.Built) (hf : pool.Fits)
    (hle : (m.recordAll ctx es).1.pool.Extends pool)
    {start : Nat} (hat : view.bytes.HasAt start (m.recordAll ctx es).2.code) :
    Code.Decodes view start (m.recordAll ctx es).2.code.size (m.listing ctx (m.place ctx es) es) :=
  (h.foundAll hbody hs hok hsize hview hp hf hle).decodes (fun _ hitem _ hl => labels_listing hitem hl) hat

end MethodDraft

/-! ## The code attribute -/

namespace MethodDraft

end MethodDraft

namespace Image

end Image

/-! ## Class files -/

namespace Writer

variable {w : Writer} {m : MethodDraft} {body : List CodeEvent}

/-- A constant that is new stays so when another one is added. -/
theorem lookup_append {pool : ConstantPool} {e x : Entry} (hne : (e == x) = false) (h : pool.lookup[x]? = none) :
    (pool.append e).lookup[x]? = none := by
  have hl : (pool.append e).lookup = pool.lookup.insertIfNew e pool.nextIndex.toUInt16 := rfl
  rw [hl, Std.HashMap.getElem?_insertIfNew, if_neg (by simp [hne]), h]

section Recording

variable (ctx : Context) (m : MethodDraft)

variable {m}

end Recording

end Writer

end ClassFile
