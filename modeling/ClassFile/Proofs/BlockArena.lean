import ClassFile.Flow.Blocks

/-!
# The arena of blocks

Looking up a block after a change of the arena: a changed block, a new one, or the one that was there.
-/

namespace ClassFile

namespace Blocks

/-- Behind the end of the arena there are only empty blocks. -/
theorem get_of_size_le {blocks : Blocks} {i : Nat} (h : blocks.size ≤ i) : blocks.get i = {} :=
  (Array.getD_eq_getD_getElem?).trans (by rw [Array.getElem?_eq_none h]; rfl)

theorem size_modify (blocks : Blocks) (i : Nat) (f : Block → Block) : (blocks.modify i f).size = blocks.size := by
  simp [modify, size]

/-- A change of a block is seen there and nowhere else. -/
theorem get_modify (blocks : Blocks) (i : Nat) (f : Block → Block) (j : Nat) :
    (blocks.modify i f).get j = if j = i ∧ i < blocks.size then f (blocks.get i) else blocks.get j := by
  unfold modify get size
  rw [Array.getD_eq_getD_getElem?, Array.getElem?_modify]
  by_cases hji : j = i
  · subst hji
    by_cases hj : j < blocks.arena.size
    · simp [hj]
    · simp [hj]
  · rw [if_neg (fun e => hji e.symm), if_neg fun e => hji e.1, Array.getD_eq_getD_getElem?]

theorem get_modify_self {blocks : Blocks} {i : Nat} (h : i < blocks.size) (f : Block → Block) :
    (blocks.modify i f).get i = f (blocks.get i) := by
  rw [get_modify, if_pos ⟨rfl, h⟩]

theorem get_modify_of_ne (blocks : Blocks) {i j : Nat} (h : j ≠ i) (f : Block → Block) :
    (blocks.modify i f).get j = blocks.get j := by
  rw [get_modify, if_neg fun e => h e.1]

/-- Only blocks of the arena have frames. -/
theorem lt_size_of_frame {blocks : Blocks} {i : Nat} {f : Frame} (h : (blocks.get i).frame = some f) : i < blocks.size := by
  refine Nat.lt_of_not_le fun hi => ?_
  rw [get_of_size_le hi] at h
  cases h

/-- What a change of a block leaves alone in it is left alone everywhere. -/
theorem get_modify_field {α : Type} (p : Block → α) (blocks : Blocks) (i : Nat) {f : Block → Block}
    (h : p (f (blocks.get i)) = p (blocks.get i)) (j : Nat) : p ((blocks.modify i f).get j) = p (blocks.get j) := by
  rw [get_modify]
  split
  · rename_i hj
    rw [hj.1, h]
  · rfl

/-- The arena with a block more. -/
theorem get_push (blocks : Blocks) (b : Block) (labels : Std.HashMap Label Nat) (j : Nat) :
    get ⟨blocks.arena.push b, labels⟩ j = if j = blocks.size then b else blocks.get j := by
  unfold get size
  rw [Array.getD_eq_getD_getElem?, Array.getElem?_push]
  split
  · rfl
  · rw [Array.getD_eq_getD_getElem?]

end Blocks

end ClassFile
