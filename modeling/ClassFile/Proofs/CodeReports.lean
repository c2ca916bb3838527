import ClassFile.Proofs.CodeDecoding

/-!
# The two passes of a reader over code

Code in which a reader finds instructions one after the other is read through in both passes
(`scanFrom_foundAll`, `narrateFrom_foundAll`). The first pass marks the offsets that the instructions lead to,
and no others; the second reports every instruction behind the label of its offset. No matter which labels come
from elsewhere in between, the instructions are the same.
-/

namespace ClassFile

namespace CodeLabels

/-- Labels that were marked stay what they are. -/
def Keeps (ls later : CodeLabels) : Prop :=
  ∀ (offset : Int) (l : Label), ls.labels[offset]? = some l → later.labels[offset]? = some l

theorem Keeps.refl (ls : CodeLabels) : ls.Keeps ls :=
  fun _ _ h => h

theorem Keeps.trans {ls later last : CodeLabels} (h : ls.Keeps later) (h' : later.Keeps last) : ls.Keeps last :=
  fun offset l hl => h' offset l (h offset l hl)

/-- A label that was marked stays what it is when another one is marked. -/
theorem keeps_mark (ls : CodeLabels) (debug : Bool) (offset : Int) : ls.Keeps (ls.mark debug offset) := by
  intro o l hl
  unfold mark
  rw [Std.HashMap.getElem?_insertIfNew, if_neg, hl]
  rintro ⟨he, hnew⟩
  obtain rfl : offset = o := by simpa using he
  rw [Std.HashMap.mem_iff_isSome_getElem?, hl] at hnew
  exact hnew rfl

/-- Labels that were marked stay what they are when others are marked. -/
theorem keeps_markAll (ls : CodeLabels) (debug : Bool) (offsets : List Int) : ls.Keeps (ls.markAll debug offsets) := by
  unfold markAll
  induction offsets generalizing ls with
  | nil => exact Keeps.refl ls
  | cons offset rest ih => exact (ls.keeps_mark debug offset).trans (ih _)

/-- All labels are those that jumps lead to. -/
def Plain (ls : CodeLabels) : Prop :=
  ∀ (offset : Int) (l : Label), ls.labels[offset]? = some l → l = ⟨offset, false⟩

/-- A label that a jump leads to is no label for debug information. -/
theorem Plain.mark {ls : CodeLabels} (h : ls.Plain) (offset : Int) : (ls.mark false offset).Plain := by
  intro o l hl
  unfold CodeLabels.mark at hl
  rw [Std.HashMap.getElem?_insertIfNew] at hl
  split at hl
  · rename_i hc
    obtain rfl : offset = o := by simpa using hc.1
    exact (Option.some.inj hl).symm
  · exact h o l hl

/-- Labels that jumps lead to are no labels for debug information. -/
theorem Plain.markAll {ls : CodeLabels} (h : ls.Plain) (offsets : List Int) : (ls.markAll false offsets).Plain := by
  unfold CodeLabels.markAll
  induction offsets generalizing ls with
  | nil => exact h
  | cons offset rest ih => exact ih (h.mark offset)

/-- There is a label at every offset that has been marked. -/
theorem mem_mark (ls : CodeLabels) (debug : Bool) (offset : Int) : (ls.mark debug offset).labels[offset]?.isSome := by
  unfold mark
  rw [Std.HashMap.getElem?_insertIfNew]
  split
  · rfl
  · rename_i hc
    rw [← Std.HashMap.mem_iff_isSome_getElem?]
    by_contra hnew
    exact hc ⟨by simp, hnew⟩

/-- Every offset that a jump leads to has its label. -/
theorem Plain.marked {ls : CodeLabels} (h : ls.Plain) {offsets : List Int} {offset : Int} (ho : offset ∈ offsets) :
    (ls.markAll false offsets).labels[offset]? = some ⟨offset, false⟩ := by
  induction offsets generalizing ls with
  | nil => exact absurd ho List.not_mem_nil
  | cons first rest ih =>
    rcases List.mem_cons.1 ho with rfl | ho
    · have hfirst := ls.mem_mark false offset
      obtain ⟨l, hl⟩ := Option.isSome_iff_exists.1 hfirst
      obtain rfl := h.mark offset offset l hl
      exact keeps_markAll _ false rest offset _ hl
    · exact ih (h.mark first) ho

end CodeLabels

namespace Code

/-- The labels with those of the instructions of a list. -/
def markItems (ls : CodeLabels) (items : List (Nat × Instruction)) : CodeLabels :=
  items.foldl (fun ls item => ls.markAll false (item.2.labels.map Label.id)) ls

/-- What is reported of an offset before the instruction there. -/
def labelEvents (ls : CodeLabels) (offset : Nat) : List Event :=
  match ls.labels[(offset : Int)]? with
  | some l =>
    .label l ::
      match ls.lines[(offset : Int)]? with
      | some line => [.lineNumber line l]
      | none => []
  | none => []

/-- What is reported of instructions and the offsets at which they stand. -/
def reports (ls : CodeLabels) (items : List (Nat × Instruction)) : List Event :=
  items.flatMap fun item => labelEvents ls item.1 ++ [.instruction item.2]

section Passes

variable {view : PoolView} {b : Bytes} {start length : Nat}

/-- The scan goes over an instruction and marks what it leads to, as long as it is inside of the code. -/
theorem scanFrom_succ (start length fuel : Nat) (ls : CodeLabels) (c : Cursor) : scanFrom start length (fuel + 1) ls c =
    if c.position < start + length then
      scanInstruction (c.position - start) c >>= fun r =>
        scanFrom start length fuel (ls.markAll false (r.1.map (((c.position - start : Nat) : Int) + ·))) r.2
    else .ok (ls, c) := by
  change (if c.position < start + length then _ else pure ls : Decoder CodeLabels) c = _
  split <;> rfl

/-- The first pass goes through the instructions and marks where they lead. -/
theorem scanFrom_foundAll {offset : Nat} {piece : Bytes} {items : List (Nat × Instruction)}
    (h : FoundAll view offset piece items) (hat : b.HasAt (start + offset) piece) (hend : offset + piece.size = length)
    {fuel : Nat} (hfuel : piece.size ≤ fuel) (ls : CodeLabels) :
    scanFrom start length fuel ls ⟨b, start + offset⟩ = .ok (markItems ls items, ⟨b, start + length⟩) := by
  induction h generalizing fuel ls with
  | nil offset =>
    obtain rfl : offset = length := by simpa using hend
    cases fuel with
    | zero => rfl
    | succ fuel =>
      rw [scanFrom_succ, if_neg (Nat.lt_irrefl _)]
      rfl
  | @cons offset piece rest i items hfound _ ih =>
    obtain ⟨distances, hscan, hdistances⟩ := hfound.scans
    obtain ⟨hpiece, hrest⟩ := Bytes.hasAt_append.1 hat
    have hpos := hfound.nonempty
    rw [Array.size_append] at hend hfuel
    cases fuel with
    | zero => omega
    | succ fuel =>
      have hroom : rest.size ≤ fuel := by omega
      have hnext := ih (by rwa [← Nat.add_assoc]) (by omega) hroom (ls.markAll false (i.labels.map Label.id))
      rw [← Nat.add_assoc] at hnext
      rw [scanFrom_succ, if_pos (by dsimp only; omega)]
      dsimp only
      rw [Nat.add_sub_cancel_left, hscan b _ hpiece]
      change scanFrom start length fuel (ls.markAll false (distances.map ((offset : Int) + ·))) _ = _
      rw [hdistances, hnext]
      rfl

/-- Labels that were marked stay what they are when those of instructions are marked. -/
theorem keeps_markItems (ls : CodeLabels) (items : List (Nat × Instruction)) : ls.Keeps (markItems ls items) := by
  unfold markItems
  induction items generalizing ls with
  | nil => exact .refl ls
  | cons item rest ih => exact (ls.keeps_markAll false _).trans (ih _)

/-- Every offset that an instruction leads to gets its label. -/
theorem markItems_marked {ls : CodeLabels} (h : ls.Plain) {items : List (Nat × Instruction)} {item : Nat × Instruction}
    (hitem : item ∈ items) {l : Label} (hl : l ∈ item.2.labels) :
    (markItems ls items).labels[l.id]? = some ⟨l.id, false⟩ := by
  induction items generalizing ls with
  | nil => exact absurd hitem List.not_mem_nil
  | cons first rest ih =>
    rcases List.mem_cons.1 hitem with rfl | hitem
    · exact keeps_markItems _ rest _ _ (h.marked (List.mem_map_of_mem hl))
    · exact ih (h.markAll _) hitem

end Passes

end Code

/-- A walk from a cursor to another one that reports events. -/
def Walk.Tells {α : Type} (w : Walk α) (c : Cursor) (events : List Event) (a : α) (c' : Cursor) : Prop :=
  ∀ before : Array Event, (w c).run.run before = (.ok (a, c'), before ++ events.toArray)

namespace Walk.Tells

variable {α β : Type} {c c' c'' : Cursor} {a : α} {b : β} {events events' : List Event}

/-- A walk that comes with a value at once tells of nothing. -/
theorem pure (a : α) : Walk.Tells (Pure.pure a) c [] a c :=
  fun _ => congrArg (Except.ok (a, c), ·) Array.append_empty.symm

/-- Two walks one after the other tell of what each tells. -/
theorem bind {w : Walk α} {f : α → Walk β} {all : List Event} (h : w.Tells c events a c') (hf : (f a).Tells c' events' b c'')
    (he : events ++ events' = all) : (w >>= f).Tells c all b c'' := by
  subst he
  intro before
  have hfirst := h before
  have hsecond := hf (before ++ events.toArray)
  change (match (w c).run.run before with
    | (r, s) => (ExceptT.bindCont (fun r : α × Cursor => f r.1 r.2) r : StateM (Array Event) _).run s) = _
  rw [hfirst]
  refine hsecond.trans ?_
  simp

/-- Reading tells of nothing. -/
theorem read {d : Decoder α} (h : d c = .ok (a, c')) : (Walk.read d).Tells c [] a c' := by
  intro before
  unfold Walk.read
  rw [h]
  exact congrArg (Except.ok (a, c'), ·) Array.append_empty.symm

/-- A report tells of its event. -/
theorem report (e : Event) : (Walk.report e).Tells c [e] () c :=
  fun before => congrArg (Except.ok ((), c), ·) (by simp)

end Walk.Tells

namespace Code

section Passes

variable {view : PoolView} {b : Bytes} {start length : Nat}

/-- A label is reported, and the line that starts there. -/
theorem tells_reportLabel (ls : CodeLabels) (offset : Nat) (c : Cursor) :
    (reportLabel ls offset).Tells c (labelEvents ls offset) () c := by
  unfold reportLabel labelEvents
  generalize ls.labels[(offset : Int)]? = label
  generalize ls.lines[(offset : Int)]? = line
  cases label with
  | none => exact Walk.Tells.pure ()
  | some l =>
    cases line with
    | none => exact (Walk.Tells.report _).bind (Walk.Tells.pure ()) rfl
    | some line => exact (Walk.Tells.report _).bind (Walk.Tells.report (.lineNumber line l)) rfl

/-- Telling of code reports what stands at an offset and then the instruction, as long as it is inside of the code. -/
theorem narrateFrom_succ (view : PoolView) (ls : CodeLabels) (start length fuel : Nat) (c : Cursor) :
    narrateFrom view ls start length (fuel + 1) c =
      (if c.position < start + length then do
        reportLabel ls (c.position - start)
        Walk.report (.instruction (← Walk.read (readInstruction view ls (c.position - start))))
        narrateFrom view ls start length fuel
      else pure () : Walk Unit) c := rfl

/-- The second pass goes through the instructions and reports them, with the labels that the first one found. -/
theorem narrateFrom_foundAll {offset : Nat} {piece : Bytes} {items : List (Nat × Instruction)}
    (h : FoundAll view offset piece items) (hat : b.HasAt (start + offset) piece) (hend : offset + piece.size = length)
    {fuel : Nat} (hfuel : piece.size ≤ fuel) (ls : CodeLabels)
    (hls : ∀ item ∈ items, ∀ l ∈ item.2.labels, ls.get l.id = l) :
    (narrateFrom view ls start length fuel).Tells ⟨b, start + offset⟩ (reports ls items) () ⟨b, start + length⟩ := by
  induction h generalizing fuel with
  | nil offset =>
    obtain rfl : offset = length := by simpa using hend
    cases fuel with
    | zero => exact Walk.Tells.pure ()
    | succ fuel =>
      unfold Walk.Tells
      rw [narrateFrom_succ, if_neg (Nat.lt_irrefl _)]
      exact Walk.Tells.pure ()
  | @cons offset piece rest i items hfound _ ih =>
    obtain ⟨hpiece, hrest⟩ := Bytes.hasAt_append.1 hat
    have hpos := hfound.nonempty
    rw [Array.size_append] at hend hfuel
    cases fuel with
    | zero => omega
    | succ fuel =>
      have hroom : rest.size ≤ fuel := by omega
      have hnext := ih (by rwa [← Nat.add_assoc]) (by omega) hroom fun item hitem =>
        hls item (List.mem_cons_of_mem _ hitem)
      rw [← Nat.add_assoc] at hnext
      have hread := hfound.reads ls (hls _ List.mem_cons_self) b _ hpiece
      unfold Walk.Tells
      rw [narrateFrom_succ, if_pos (by dsimp only; omega)]
      dsimp only
      rw [Nat.add_sub_cancel_left]
      refine (tells_reportLabel ls offset ⟨b, start + offset⟩).bind ?_ (by
        rw [reports, List.flatMap_cons, List.append_assoc])
      exact (Walk.Tells.read hread).bind ((Walk.Tells.report (.instruction i)).bind hnext rfl) rfl

end Passes

end Code

end ClassFile
