import ClassFile.Proofs.StretchCuts

/-!
# Code that is never reached

Code that is never reached is replaced by instructions that do nothing and a throw at its end (`MethodDraft.blank`). What a
reader finds in the code then are these, and in the other stretches the instructions that have been recorded
(`Course.remains`, `Course.foundAll_remains`).
-/

namespace ClassFile

/-! ## Replacing code -/

namespace Code

variable {view : PoolView}

/-- Instructions are found one after the other. -/
theorem FoundAll.split {xs ys : List (Nat × Instruction)} {offset : Nat} {piece : Bytes}
    (h : FoundAll view offset piece (xs ++ ys)) :
    ∃ p q, piece = p ++ q ∧ FoundAll view offset p xs ∧ FoundAll view (offset + p.size) q ys := by
  induction xs generalizing offset piece with
  | nil => exact ⟨#[], piece, Array.empty_append.symm, .nil _, h⟩
  | cons x xs ih =>
    cases h with
    | @cons _ first _ i _ hfound hrest =>
      obtain ⟨p, q, rfl, hp, hq⟩ := ih hrest
      refine ⟨first ++ p, q, (Array.append_assoc).symm, .cons hfound hp, ?_⟩
      rwa [Array.size_append, ← Nat.add_assoc]

/-- The first instruction is found at the start. -/
theorem FoundAll.head_eq {x : Nat × Instruction} {items : List (Nat × Instruction)} {offset : Nat} {piece : Bytes}
    (h : FoundAll view offset piece (x :: items)) : x.1 = offset := by
  cases h
  rfl

/-- What stands in the place of code that is never reached. -/
def filler (start stop : Nat) : List (Nat × Instruction) :=
  (List.range' start (stop - 1 - start)).map (fun offset => (offset, .bare Opcode.nop)) ++ [(stop - 1, .bare Opcode.athrow)]

def fillerBytes (n : Nat) : Bytes :=
  Array.replicate (n - 1) Opcode.nop ++ #[Opcode.athrow]

/-- What stands in the place of code fills it. -/
theorem size_fillerBytes {n : Nat} (h : 0 < n) : (fillerBytes n).size = n := by
  unfold fillerBytes
  rw [Array.size_append, Array.size_replicate]
  exact Nat.sub_add_cancel h

/-- Instructions that do nothing are found one behind the other. -/
theorem foundAll_nops (view : PoolView) (start n : Nat) : FoundAll view start (Array.replicate n Opcode.nop)
    ((List.range' start n).map fun offset => (offset, .bare Opcode.nop)) := by
  induction n generalizing start with
  | zero => exact .nil start
  | succ n ih =>
    rw [List.range'_succ, Array.replicate_succ', List.map_cons]
    exact .cons (found_bare rfl) (ih (start + 1))

/-- What stands in the place of code is found as it was filled in. -/
theorem foundAll_filler (view : PoolView) {start stop : Nat} (h : start < stop) :
    FoundAll view start (fillerBytes (stop - start)) (filler start stop) := by
  have hnops := foundAll_nops view start (stop - 1 - start)
  have hthrow : FoundAll view (start + (Array.replicate (stop - 1 - start) Opcode.nop).size) #[Opcode.athrow]
      [(stop - 1, .bare Opcode.athrow)] := by
    rw [Array.size_replicate, show start + (stop - 1 - start) = stop - 1 by omega]
    exact .single (found_bare rfl)
  have hsame : stop - start - 1 = stop - 1 - start := by omega
  unfold fillerBytes filler
  rw [hsame]
  exact hnops.append hthrow

end Code

/-- A range of the code is replaced, and the rest stays. -/
theorem MethodDraft.blank_middle (front piece rest : Bytes) (h : 0 < piece.size) :
    blank (front ++ piece ++ rest) (front.size, front.size + piece.size) = front ++ Code.fillerBytes piece.size ++ rest := by
  have hlist : List.replicate (front.size + piece.size - 1 - front.size) Opcode.nop ++ [Opcode.athrow] =
      (Code.fillerBytes piece.size).toList := by
    rw [show front.size + piece.size - 1 - front.size = piece.size - 1 by omega]
    simp [Code.fillerBytes]
  have hsize := Code.size_fillerBytes h
  unfold blank
  dsimp only
  rw [hlist]
  refine Array.ext_getElem? fun i => ?_
  rw [Bytes.getElem?_overwrite, Array.length_toList, hsize]
  simp only [Array.getElem?_append, Array.size_append, hsize, Array.getElem?_toList]
  split
  · rename_i hin
    rw [if_pos (by omega), if_neg (by omega)]
  · rename_i hout
    by_cases hfront : i < front.size
    · rw [if_pos (by omega), if_pos hfront, if_pos (by omega), if_pos hfront]
    · by_cases hrest : i < front.size + piece.size
      · have hbound : ¬i < front.size + piece.size + rest.size := fun hlt => hout ⟨by omega, hrest, hlt⟩
        omega
      · rw [if_neg hrest, if_neg hrest]

/-! ## What is left of stretches -/

namespace Stretch

/-- What the instructions of a stretch are read as. -/
def listing (place : Label → Nat) (s : Stretch) : List (Nat × Instruction) :=
  s.body.flatMap fun x => x.2.decoded place x.1

/-- What is read of a stretch in the end: its instructions, unless it is never reached. -/
def left (place : Label → Nat) (lost : Bool) (stop : Nat) (s : Stretch) : List (Nat × Instruction) :=
  if lost then Code.filler s.start stop else s.listing place

/-- Where what stands before stretches ends. -/
def border (size : Nat) : List Stretch → Nat
  | [] => size
  | s :: _ => s.start

/-- What is read of stretches in the end. -/
def remains (place : Label → Nat) (lost : Stretch → Bool) (size : Nat) : List Stretch → List (Nat × Instruction)
  | [] => []
  | s :: rest => s.left place (lost s) (border size rest) ++ remains place lost size rest

/-- The ranges of stretches that are never reached. -/
def ranges (lost : Stretch → Bool) (size : Nat) : List Stretch → List (Nat × Nat)
  | [] => []
  | s :: rest => (if lost s then [(s.start, border size rest)] else []) ++ ranges lost size rest

/-- Stretches that follow one another, the last of which ends with the code. -/
inductive Row (size : Nat) : List Stretch → Prop where
  | last {s : Stretch} (hwithin : s.Within size) : Row size [s]
  | cons {s next : Stretch} {rest : List Stretch} (hwithin : s.Within next.start) (hlt : s.start < next.start)
    (hrest : Row size (next :: rest)) : Row size (s :: next :: rest)

variable {view : PoolView} {place : Label → Nat} {lost : Stretch → Bool} {size stop offset : Nat}
  {s : Stretch} {ss : List Stretch} {piece : Bytes}

/-- An instruction is read as one at its own offset, and perhaps others. -/
theorem head_decoded (place : Label → Nat) (offset : Nat) (i : Instruction) :
    ∃ j rest, i.decoded place offset = (offset, j) :: rest := by
  unfold Instruction.decoded
  split
  · split <;> exact ⟨_, _, rfl⟩
  · exact ⟨_, _, rfl⟩

/-- A stretch that is not empty has an instruction at its start. -/
theorem Within.head_listing (hw : s.Within stop) (hlt : s.start < stop) (place : Label → Nat) :
    ∃ i rest, s.listing place = (s.start, i) :: rest := by
  unfold listing
  cases hbody : s.body with
  | nil => exact absurd (hw.empty.1 hbody) (Nat.ne_of_lt hlt)
  | cons x xs =>
    obtain ⟨i, rest, hdecoded⟩ := head_decoded place x.1 x.2
    have hhead : x.1 = s.start := hw.head x (by rw [hbody]; rfl)
    rw [List.flatMap_cons, hdecoded, hhead]
    exact ⟨i, _, rfl⟩

/-- A stretch without bytes holds no instruction. -/
theorem Within.listing_of_empty (hw : s.Within stop) (hstart : s.start = stop) (place : Label → Nat) :
    s.listing place = [] := by
  unfold listing
  rw [hw.empty.2 hstart]
  rfl

/-- Instructions of stretches are found from the start of the first one on. -/
theorem Row.start_eq {rest : List Stretch} (hr : Row size (s :: rest))
    (hfound : Code.FoundAll view offset piece ((s :: rest).flatMap (listing place))) (hend : offset + piece.size = size) :
    offset = s.start := by
  have hfirst : (∃ i tail, s.listing place = (s.start, i) :: tail) ∨ s.start = size ∧
    (s :: rest).flatMap (listing place) = [] := by
    cases hr with
    | last hw =>
      by_cases hstart : s.start = size
      · refine Or.inr ⟨hstart, ?_⟩
        rw [List.flatMap_singleton, hw.listing_of_empty hstart]
      · exact Or.inl (hw.head_listing (Nat.lt_of_le_of_ne hw.extent hstart) place)
    | cons hw hlt _ => exact Or.inl (hw.head_listing hlt place)
  rcases hfirst with ⟨i, tail, hlisting⟩ | ⟨hstart, hnone⟩
  · rw [List.flatMap_cons, hlisting] at hfound
    exact hfound.head_eq.symm
  · rw [hnone] at hfound
    cases hfound
    rw [hstart]
    exact hend

/-- One stretch is replaced if it is never reached. -/
theorem replaced (lost : Stretch → Bool) (hstart : offset = s.start) (hend : offset + piece.size = stop)
    (hlost : lost s = true → s.start < stop)
    (hfound : Code.FoundAll view offset piece (s.listing place)) : ∃ piece', piece'.size = piece.size ∧
      Code.FoundAll view offset piece' (s.left place (lost s) stop) ∧ ∀ front rest : Bytes, front.size = offset →
        (if lost s then [(s.start, stop)] else []).foldl MethodDraft.blank (front ++ piece ++ rest) =
        front ++ piece' ++ rest := by
  unfold left
  cases hl : lost s with
  | false => exact ⟨piece, rfl, hfound, fun _ _ _ => rfl⟩
  | true =>
    subst hstart
    have hlt := hlost hl
    have hpos : 0 < piece.size := by omega
    have hfiller := Code.foundAll_filler view hlt
    rw [show stop - s.start = piece.size by omega] at hfiller
    refine ⟨Code.fillerBytes piece.size, Code.size_fillerBytes hpos, hfiller, fun front rest hfront => ?_⟩
    have hblank := MethodDraft.blank_middle front piece rest hpos
    rw [hfront, hend] at hblank
    exact hblank

/-- Stretches that are never reached are replaced, the others stay. -/
theorem Row.foundAll_remains (hr : Row size ss) (hlost : ∀ s ∈ ss, lost s = true → s.start < size)
    (hfound : Code.FoundAll view offset piece (ss.flatMap (listing place))) (hend : offset + piece.size = size) :
    ∃ piece', piece'.size = piece.size ∧ Code.FoundAll view offset piece' (remains place lost size ss) ∧
      ∀ front : Bytes, front.size = offset →
        (ranges lost size ss).foldl MethodDraft.blank (front ++ piece) = front ++ piece' := by
  induction hr generalizing offset piece with
  | @last s hw =>
    have hstart := (Row.last hw).start_eq hfound hend
    rw [List.flatMap_singleton] at hfound
    obtain ⟨piece', hsize, hfound', hblank⟩ := replaced lost hstart hend (hlost s List.mem_cons_self) hfound
    refine ⟨piece', hsize, ?_, fun front hfront => ?_⟩
    · change Code.FoundAll view offset piece' (s.left place (lost s) size ++ [])
      rwa [List.append_nil]
    · have hall := hblank front #[] hfront
      rw [Array.append_empty, Array.append_empty] at hall
      change List.foldl _ _ (_ ++ []) = _
      rwa [List.append_nil]
  | @cons s next rest hw hlt hrest ih =>
    have hstart := (Row.cons hw hlt hrest).start_eq hfound hend
    rw [List.flatMap_cons] at hfound
    obtain ⟨p, q, rfl, hp, hq⟩ := hfound.split
    rw [Array.size_append, ← Nat.add_assoc] at hend
    have hnext := hrest.start_eq hq hend
    obtain ⟨q', hsize, hfound', hblank⟩ := ih (fun s hs => hlost s (List.mem_cons_of_mem _ hs)) hq hend
    obtain ⟨p', hsizep, hfoundp, hblankp⟩ := replaced lost hstart hnext (fun _ => hlt) hp
    refine ⟨p' ++ q', by rw [Array.size_append, Array.size_append, hsize, hsizep], ?_, fun front hfront => ?_⟩
    · change Code.FoundAll view offset (p' ++ q') (s.left place (lost s) next.start ++ _)
      refine hfoundp.append ?_
      rwa [hsizep]
    · change List.foldl _ _ (_ ++ ranges lost size (next :: rest)) = _
      rw [List.foldl_append, ← Array.append_assoc]
      change List.foldl _ (List.foldl _ _ (if lost s then [(s.start, next.start)] else [])) _ = _
      rw [hblankp front q hfront, hblank (front ++ p') (by rw [Array.size_append, hfront, hsizep]), Array.append_assoc]

/-- The code of all stretches remains apart from those that are never reached. -/
theorem Row.foundAll_blanked {code : Bytes} (hr : Row code.size ss) (hlost : ∀ s ∈ ss, lost s = true → s.start < code.size)
    (hfound : Code.FoundAll view 0 code (ss.flatMap (listing place))) :
    Code.FoundAll view 0 ((ranges lost code.size ss).foldl MethodDraft.blank code) (remains place lost code.size ss) := by
  obtain ⟨piece, -, hpiece, hblank⟩ := hr.foundAll_remains hlost hfound (Nat.zero_add _)
  have hcode := hblank #[] rfl
  rw [Array.empty_append, Array.empty_append] at hcode
  rwa [hcode]

end Stretch

end ClassFile
