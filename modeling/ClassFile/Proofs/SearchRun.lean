import ClassFile.Proofs.SearchInvariant
import ClassFile.Proofs.SearchLoop

/-!
# What a run of the search keeps

A block of the queue is looked at by following its edges one by one. The invariant holds after every round, so that all
blocks that have been reached are settled once the search is done without a stack of two heights.
-/

namespace ClassFile

namespace ControlFlow.Search

section Run

variable {h : Hierarchy} {className : String} {count first i : Nat} {entry : Array FrameType} {s : Search}
variable {queue : List Nat}

/-- A block that has been taken from the queue has all its edges left to follow. -/
theorem Invariant.taken (inv : Invariant h className count first entry s s.allFrames i []) (hqueue : s.queue = i :: queue) :
    Invariant h className count first entry (s.taken i queue) s.allFrames i (s.blocks.get i).edges.toList := by
  have hgraph : Blocks.SameGraph s.blocks (s.taken i queue).blocks := taken_graph
  have hrest : ∀ j, j ∉ queue → j ≠ i → j ∉ s.queue := by
    intro j hj hne hmem
    rw [hqueue] at hmem
    exact (List.mem_cons.1 hmem).elim hne hj
  obtain ⟨consistent, bound, sane, entered, handled, marks, queued, reached, settled, entry⟩ := inv
  refine ⟨consistent, ?_, sane, entered, ?_, ?_, ?_, ?_, ?_, ?_⟩
  · rwa [hgraph.size]
  · intro j e he
    rw [hgraph.edges] at he
    exact handled j e he
  · rw [hgraph.size, ← marks]
    exact Array.size_setIfInBounds
  · intro j hj hq
    rw [hgraph.size] at hj
    change (s.queued.setIfInBounds i false).getD j true = true at hq
    rw [Array.getD_eq_getD_getElem?, Array.getElem?_setIfInBounds] at hq
    by_cases hji : i = j
    · subst hji
      rw [if_pos rfl, if_pos (by rwa [marks])] at hq
      cases hq
    · rw [if_neg hji, ← Array.getD_eq_getD_getElem?] at hq
      exact Classical.byContradiction fun hnot => hrest j hnot (Ne.symm hji) (queued j hj hq)
  · intro j hj
    refine reached j ?_
    rcases hj with hmem | hreach
    · exact Or.inl (hqueue ▸ List.mem_cons_of_mem _ hmem)
    · rcases taken_reachable hreach with rfl | hreach
      · exact Or.inl (hqueue ▸ List.mem_cons_self)
      · exact Or.inr hreach
  · intro j x hx hj hnot e he
    rw [hgraph.edges] at he
    by_cases hji : j = i
    · subst hji
      exact Or.inr ⟨rfl, Array.mem_toList_iff.2 he⟩
    · have hreach := (taken_reachable hj).resolve_left hji
      rcases settled j x hx hreach (hrest j hnot hji) e he with hsettled | ⟨-, hnone⟩
      · exact Or.inl (hsettled.mono hgraph fun _ => reachable_taken)
      · cases hnone
  · obtain ⟨x, hx, hxe, habove, hstack⟩ := entry
    exact ⟨x, hx, hxe, habove, hstack.imp_right fun hblock => hblock.mono hgraph fun _ => reachable_taken⟩

/-- With no edge left to follow it does not matter which block was looked at. -/
theorem Invariant.other {frames : Nat → Option Frame} (inv : Invariant h className count first entry s frames i [])
    (j : Nat) : Invariant h className count first entry s frames j [] := by
  refine { inv with settled := fun k x hx hk hnot e he => ?_ }
  rcases inv.settled k x hx hk hnot e he with hsettled | ⟨-, hnone⟩
  · exact Or.inl hsettled
  · cases hnone

/-- Following an edge keeps the invariant, and taking a block from the queue. -/
theorem lasts_invariant (className : String) (count first : Nat) (entry : Array FrameType) (hg : h.Grounded)
    (hobject : h.superClass objectClass = none) : Lasts h className (Invariant h className count first entry) where
  framed inv hk := by
    obtain ⟨f, hf, -⟩ := inv.reached _ (Or.inl hk)
    rw [hf]
    rfl
  taken hqueue _ inv := (inv.other _).taken hqueue
  edge hs hreachable he inv := inv.followEdge hg hobject hs hreachable he
  congr hkept htypes hqueue hqueued inv := inv.congr hkept htypes hqueue hqueued

/-- The invariant holds after any number of rounds, unless a stack has two heights. -/
theorem Invariant.run (hg : h.Grounded) (hobject : h.superClass objectClass = none) (n : Nat)
    (inv : Invariant h className count first entry s s.allFrames i []) (hs : s.conflict = none) :
    (s.run h className n).conflict.isSome = true ∨ (s.run h className n).conflict = none ∧
      Invariant h className count first entry (s.run h className n) (s.run h className n).allFrames i [] :=
  ((lasts_invariant className count first entry hg hobject).run n hs inv).imp_right fun ⟨hnone, _, hinv⟩ =>
    ⟨hnone, hinv.other i⟩

end Run

end ControlFlow.Search

end ClassFile
