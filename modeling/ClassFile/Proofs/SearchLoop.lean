import ClassFile.Proofs.FrameSearch

/-!
# The loop of the search

What following one edge keeps, and taking a block from the queue, holds after any number of rounds, unless a
stack is found to have two heights.
-/

namespace ClassFile

namespace ControlFlow.Search

/-- What holds of the search and the frames of all blocks while the edges `rest` of block `i` have not been
followed yet, and goes on to hold. -/
structure Lasts (h : Hierarchy) (className : String)
    (P : Search → (Nat → Option Frame) → Nat → List Edge → Prop) : Prop where
  framed : ∀ {s : Search} {i k : Nat}, P s s.allFrames i [] → k ∈ s.queue → (s.allFrames k).isSome = true
  taken : ∀ {s : Search} {i k : Nat} {queue : List Nat}, s.queue = k :: queue → k < s.blocks.size → P s s.allFrames i [] →
    P (s.taken k queue) s.allFrames k (s.blocks.get k).edges.toList
  edge : ∀ {s : Search} {i : Nat} {f : Frame} {e : Edge} {rest : List Edge},
    s.conflict = none → (s.blocks.get i).reachable = true → e ∈ (s.blocks.get i).edges → P s (s.frames i f) i (e :: rest) →
    let r := followEdge h className i (s, f) e
    r.1.conflict.isSome = true ∨ r.1.conflict = none ∧ Kept s.blocks r.1.blocks ∧ P r.1 (r.1.frames i r.2) i rest
  congr : ∀ {s s' : Search} {frames : Nat → Option Frame} {i : Nat} {rest : List Edge},
    Kept s.blocks s'.blocks → s'.types = s.types → s'.queue = s.queue → s'.queued = s.queued →
    P s frames i rest → P s' frames i rest

section Loop

variable {h : Hierarchy} {className : String} {P : Search → (Nat → Option Frame) → Nat → List Edge → Prop}
  {s : Search} {f : Frame}
variable {i : Nat} {rest : List Edge}

/-- Following the edges of a block one by one. -/
theorem Lasts.edges (hl : Lasts h className P) (hp : P s (s.frames i f) i rest) (hs : s.conflict = none)
    (hreachable : (s.blocks.get i).reachable = true) (hrest : ∀ e ∈ rest, e ∈ (s.blocks.get i).edges) :
    let r := rest.foldl (Search.followEdge h className i) (s, f)
    r.1.conflict.isSome = true ∨ r.1.conflict = none ∧ Kept s.blocks r.1.blocks ∧ P r.1 (r.1.frames i r.2) i [] := by
  induction rest generalizing s f with
  | nil => exact Or.inr ⟨hs, Kept.refl _, hp⟩
  | cons e rest ih =>
    dsimp only
    rw [List.foldl_cons]
    rcases hl.edge hs hreachable (hrest e List.mem_cons_self) hp with hsome | ⟨hnone, hkept, hp'⟩
    · left
      rw [followEdges_of_conflict hsome]
      exact hsome
    · have hreach := (hkept.reachable i).trans hreachable
      have hedges : ∀ e' ∈ rest, e' ∈ ((Search.followEdge h className i (s, f) e).1.blocks.get i).edges := by
        intro e' he'
        rw [hkept.graph.edges]
        exact hrest e' (List.mem_cons_of_mem _ he')
      rcases ih hp' hnone hreach hedges with hsome | ⟨hnone', hkept', hp''⟩
      · exact Or.inl hsome
      · exact Or.inr ⟨hnone', hkept.trans hkept', hp''⟩

/-- Looking at one block. -/
theorem Lasts.step (hl : Lasts h className P) (hs : s.conflict = none) (hqueue : s.queue ≠ []) (hp : P s s.allFrames i []) :
    (s.step h className).conflict.isSome = true ∨
      (s.step h className).conflict = none ∧ ∃ k, P (s.step h className) (s.step h className).allFrames k [] := by
  obtain ⟨k, queue, hcons⟩ := List.exists_cons_of_ne_nil hqueue
  obtain ⟨f, hframe⟩ := Option.isSome_iff_exists.1 (hl.framed hp (hcons ▸ List.mem_cons_self))
  have hframe : (s.blocks.get k).frame = some f := hframe
  have hk : k < s.blocks.size := Blocks.lt_size_of_frame hframe
  have hgraph : Blocks.SameGraph s.blocks (s.taken k queue).blocks := taken_graph
  have hreach : ((s.taken k queue).blocks.get k).reachable = true := by
    unfold Search.taken
    rw [Blocks.get_modify_self hk]
  have htaken := hl.taken hcons hk hp
  rw [← taken_frames queue hframe] at htaken
  have hstart : P { s.taken k queue with maxStack := max s.maxStack (f.stack.size + f.peak) }
      (frames { s.taken k queue with maxStack := max s.maxStack (f.stack.size + f.peak) } k f) k
        (s.blocks.get k).edges.toList :=
    hl.congr (s := s.taken k queue) (Kept.refl _) rfl rfl rfl htaken
  have hfollowed := hl.edges hstart hs hreach fun e he => (hgraph.edges k).symm ▸ Array.mem_toList_iff.1 he
  rw [step_eq hcons, hframe]
  dsimp only at hfollowed ⊢
  generalize (s.blocks.get k).edges.toList.foldl (Search.followEdge h className k)
    ({ s.taken k queue with maxStack := max s.maxStack (f.stack.size + f.peak) }, f) = r at hfollowed ⊢
  refine hfollowed.imp_right fun ⟨hnone, hkept, hp'⟩ => ⟨hnone, k, ?_⟩
  have hsize : k < r.1.blocks.size := by
    rw [hkept.graph.size]
    rwa [hgraph.size]
  rw [allFrames_putBack (s := r.1) (f := r.2) hsize]
  exact hl.congr (kept_modify _ _ _) rfl rfl rfl hp'

/-- After any number of rounds. -/
theorem Lasts.run (hl : Lasts h className P) (n : Nat) (hs : s.conflict = none) (hp : P s s.allFrames i []) :
    (s.run h className n).conflict.isSome = true ∨
      (s.run h className n).conflict = none ∧ ∃ k, P (s.run h className n) (s.run h className n).allFrames k [] := by
  induction n generalizing s i with
  | zero => exact Or.inr ⟨hs, i, hp⟩
  | succ n ih =>
    rw [Search.run]
    split
    · exact Or.inr ⟨hs, i, hp⟩
    · rename_i hdone
      have hqueue : s.queue ≠ [] := by
        rintro hqueue
        exact hdone (by rw [isDone, hqueue]; rfl)
      rcases hl.step hs hqueue hp with hsome | ⟨hnone, k, hp'⟩
      · left
        rw [run_of_conflict hsome]
        exact hsome
      · exact ih hnone hp'

end Loop

/-! ## Marks of blocks in the queue -/

section Marks

variable {queue : List Nat} {queued : Array Bool} {changed : Bool} {target count i : Nat}

/-- What is marked to be in the queue is in it. -/
structure MarksQueue (count : Nat) (queue : List Nat) (queued : Array Bool) : Prop where
  size : queued.size = count
  mem : ∀ j < count, queued.getD j true = true → j ∈ queue

/-- What is queued is marked. -/
theorem MarksQueue.enqueue (hm : MarksQueue count queue queued) (changed : Bool) (target : Nat) :
    MarksQueue count (enqueue queue queued changed target).1 (enqueue queue queued changed target).2 := by
  unfold Search.enqueue
  split
  · refine ⟨by rw [Array.size_setIfInBounds, hm.size], fun j hj hq => ?_⟩
    by_cases ht : j = target
    · exact ht ▸ List.mem_cons_self
    · rw [Array.getD_eq_getD_getElem?, Array.getElem?_setIfInBounds, if_neg (Ne.symm ht),
        ← Array.getD_eq_getD_getElem?] at hq
      exact List.mem_cons_of_mem _ (hm.mem j hj hq)
  · exact hm

/-- What is taken from the queue loses its mark. -/
theorem MarksQueue.taken (hm : MarksQueue count (i :: queue) queued) :
    MarksQueue count queue (queued.setIfInBounds i false) := by
  refine ⟨by rw [Array.size_setIfInBounds, hm.size], fun j hj hq => ?_⟩
  rw [Array.getD_eq_getD_getElem?, Array.getElem?_setIfInBounds] at hq
  by_cases hji : i = j
  · subst hji
    rw [if_pos rfl, if_pos (by rwa [hm.size])] at hq
    cases hq
  · rw [if_neg hji, ← Array.getD_eq_getD_getElem?] at hq
    exact (List.mem_cons.1 (hm.mem j hj hq)).resolve_left (Ne.symm hji)

/-- At first only the first block is in the queue. -/
theorem marksQueue_beginSearch (flow : ControlFlow) (types : TypeTable) :
    MarksQueue flow.blocks.size (flow.beginSearch types).queue (flow.beginSearch types).queued := by
  unfold beginSearch
  refine ⟨by rw [Array.size_setIfInBounds, Array.size_replicate], fun j hj hq => ?_⟩
  rw [Array.getD_eq_getD_getElem?, Array.getElem?_setIfInBounds] at hq
  split at hq
  · rename_i hfirst
    exact hfirst ▸ List.mem_cons_self
  · rw [Array.getElem?_replicate, if_pos hj] at hq
    cases hq

end Marks

end ControlFlow.Search

end ClassFile
