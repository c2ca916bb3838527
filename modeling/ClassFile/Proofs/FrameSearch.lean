import ClassFile.Flow.Solve
import ClassFile.Proofs.BlockArena
import ClassFile.Proofs.FrameTaking
import Mathlib.Logic.Function.Basic

/-!
# The search for frames

What following one edge does, said of the frames of all blocks: the frame of the block whose edges are followed is held
apart, but counts as its frame. Either the block behind the edge has no frame, or its frame takes in what is handed over, or
the stack has two heights there. A round takes a block from the queue and follows its edges one by one.
-/

namespace ClassFile

/-- What a handler catches, for the way to one. -/
def EdgeKind.handled : EdgeKind → Option FrameType
  | exception type => some type
  | normal _ => none

namespace Blocks

/-- Two arenas that differ in what has been found out of the blocks, but not in the blocks and their edges. -/
structure SameGraph (blocks blocks' : Blocks) : Prop where
  size : blocks'.size = blocks.size
  edges : ∀ j, (blocks'.get j).edges = (blocks.get j).edges
  owner : ∀ j, blocks'.owner j = blocks.owner j

theorem SameGraph.refl (blocks : Blocks) : SameGraph blocks blocks :=
  ⟨rfl, fun _ => rfl, fun _ => rfl⟩

theorem SameGraph.trans {a b c : Blocks} (h : SameGraph a b) (h' : SameGraph b c) : SameGraph a c :=
  ⟨h'.size.trans h.size, fun j => (h'.edges j).trans (h.edges j), fun j => (h'.owner j).trans (h.owner j)⟩

/-- A change of a block that leaves its edges and its owner leaves the graph. -/
theorem sameGraph_modify (blocks : Blocks) (i : Nat) {f : Block → Block} (hedges : ∀ b, (f b).edges = b.edges)
    (howner : ∀ b, (f b).owner = b.owner) : SameGraph blocks (blocks.modify i f) :=
  ⟨size_modify blocks i f, get_modify_field Block.edges blocks i (hedges _),
    get_modify_field Block.owner blocks i (howner _)⟩

end Blocks

namespace ControlFlow.Search

/-- The frames of all blocks while the edges of one are followed. -/
def frames (s : Search) (i : Nat) (f : Frame) (j : Nat) : Option Frame :=
  if j = i then some f else (s.blocks.get j).frame

section FollowEdge

variable {h : Hierarchy} {className : String} {i : Nat} {s : Search} {f g : Frame} {e : Edge}

/-- Two arenas that differ in the frames of blocks only. -/
structure Kept (blocks blocks' : Blocks) : Prop where
  graph : Blocks.SameGraph blocks blocks'
  reachable : ∀ j, (blocks'.get j).reachable = (blocks.get j).reachable

/-- A change of a frame changes nothing but frames. -/
theorem kept_modify (blocks : Blocks) (i : Nat) (frame : Option Frame) :
    Kept blocks (blocks.modify i fun b => { b with frame }) :=
  ⟨Blocks.sameGraph_modify blocks i (fun _ => rfl) fun _ => rfl, Blocks.get_modify_field Block.reachable blocks i rfl⟩

theorem Kept.refl (blocks : Blocks) : Kept blocks blocks :=
  ⟨Blocks.SameGraph.refl blocks, fun _ => rfl⟩

theorem Kept.trans {a b c : Blocks} (h : Kept a b) (h' : Kept b c) : Kept a c :=
  ⟨h.graph.trans h'.graph, fun j => (h'.reachable j).trans (h.reachable j)⟩

/-- The queue after a block has been found changed or not. -/
def enqueue (queue : List Nat) (queued : Array Bool) (changed : Bool) (target : Nat) : List Nat × Array Bool :=
  if changed && !queued.getD target true then (target :: queue, queued.setIfInBounds target true) else (queue, queued)

/-- What waits in the queue goes on waiting. -/
theorem mem_enqueue {queue : List Nat} {queued : Array Bool} {changed : Bool} {target j : Nat} (hj : j ∈ queue) :
    j ∈ (enqueue queue queued changed target).1 := by
  unfold enqueue
  split
  · exact List.mem_cons_of_mem _ hj
  · exact hj

/-- At most the block behind the edge comes into the queue. -/
theorem mem_of_mem_enqueue {queue : List Nat} {queued : Array Bool} {changed : Bool} {target j : Nat}
    (hj : j ∈ (enqueue queue queued changed target).1) : j = target ∨ j ∈ queue := by
  unfold enqueue at hj
  split at hj
  · exact List.mem_cons.1 hj
  · exact Or.inr hj

/-- The queue gets longer by one at most, and only by a block that has changed. -/
theorem length_enqueue_le (queue : List Nat) (queued : Array Bool) (changed : Bool) (target : Nat) :
    (enqueue queue queued changed target).1.length ≤ queue.length + changed.toNat := by
  unfold enqueue
  cases changed with
  | false => exact Nat.le_refl _
  | true =>
    split
    · exact Nat.le_refl _
    · exact Nat.le_succ _

/-- An edge to a block without a frame is of no effect. -/
theorem followEdge_none (h : Hierarchy) (className : String) (hs : s.conflict = none)
    (htarget : s.frames i f (s.blocks.owner e.target) = none) :
    let r := followEdge h className i (s, f) e
    Kept s.blocks r.1.blocks ∧ r.1.frames i r.2 = s.frames i f ∧ r.1.types = s.types ∧ r.1.queue = s.queue ∧
      r.1.queued = s.queued ∧ r.1.conflict = none := by
  obtain ⟨blocks, types, queue, queued, maxStack, conflict⟩ := s
  obtain rfl : conflict = none := hs
  have hne : blocks.owner e.target ≠ i := by
    rintro he
    rw [frames, if_pos he] at htarget
    cases htarget
  have hframe : (blocks.get (blocks.owner e.target)).frame = none := by
    rwa [frames, if_neg hne] at htarget
  simp only [followEdge, Option.isSome_none, Bool.false_eq_true, if_false, hne, hframe, Bool.false_and]
  refine ⟨kept_modify blocks _ none, ?_, trivial, trivial, trivial, trivial⟩
  funext j
  unfold frames
  split
  · rfl
  · exact Blocks.get_modify_field Block.frame blocks _ hframe.symm j

/-- The frame of the block itself takes in what it hands over. -/
theorem followEdge_self {changed : Bool} {g' : Frame} {grown : TypeTable} (hs : s.conflict = none)
    (htarget : s.blocks.owner e.target = i)
    (hmerge : f.merge f e.kind.handled className h s.types = (some changed, g', grown)) :
    followEdge h className i (s, f) e =
      (⟨s.blocks, grown, (enqueue s.queue s.queued changed i).1, (enqueue s.queue s.queued changed i).2, s.maxStack, none⟩,
        g') := by
  obtain ⟨blocks, types, queue, queued, maxStack, conflict⟩ := s
  obtain rfl : conflict = none := hs
  obtain ⟨kind, target⟩ := e
  cases kind
  all_goals
    dsimp only [EdgeKind.handled] at hmerge htarget
    simp only [followEdge, Option.isSome_none, Bool.false_eq_true, if_false, htarget, if_true, hmerge, enqueue]
    split <;> rfl

/-- The frame of another block takes in what is handed over. -/
theorem followEdge_other {changed : Bool} {g' : Frame} {grown : TypeTable} (hs : s.conflict = none)
    (hne : s.blocks.owner e.target ≠ i) (htarget : (s.blocks.get (s.blocks.owner e.target)).frame = some g)
    (hmerge : f.merge g e.kind.handled className h s.types = (some changed, g', grown)) :
    followEdge h className i (s, f) e =
      (⟨(s.blocks.modify (s.blocks.owner e.target) fun b => { b with frame := none }).modify (s.blocks.owner e.target)
            fun b => { b with frame := some g' },
          grown, (enqueue s.queue s.queued changed (s.blocks.owner e.target)).1,
          (enqueue s.queue s.queued changed (s.blocks.owner e.target)).2, s.maxStack, none⟩, f) := by
  obtain ⟨blocks, types, queue, queued, maxStack, conflict⟩ := s
  obtain rfl : conflict = none := hs
  obtain ⟨kind, target⟩ := e
  cases kind
  all_goals
    dsimp only [EdgeKind.handled] at hmerge htarget hne
    simp only [followEdge, Option.isSome_none, Bool.false_eq_true, if_false, hne, htarget, hmerge, enqueue]
    split <;> rfl

/-- The frame of the block behind an edge takes in what is handed over. -/
theorem followEdge_some {changed : Bool} {g' : Frame} {grown : TypeTable} (hs : s.conflict = none)
    (htarget : s.frames i f (s.blocks.owner e.target) = some g)
    (hmerge : f.merge g e.kind.handled className h s.types = (some changed, g', grown)) :
    let r := followEdge h className i (s, f) e
    Kept s.blocks r.1.blocks ∧ r.1.frames i r.2 = Function.update (s.frames i f) (s.blocks.owner e.target) (some g') ∧
      r.1.types = grown ∧ (r.1.queue, r.1.queued) = enqueue s.queue s.queued changed (s.blocks.owner e.target) ∧
      r.1.conflict = none := by
  dsimp only
  by_cases he : s.blocks.owner e.target = i
  · rw [frames, if_pos he] at htarget
    obtain rfl := Option.some.inj htarget
    rw [followEdge_self hs he hmerge, he]
    refine ⟨Kept.refl _, ?_, rfl, rfl, rfl⟩
    funext j
    unfold frames
    rw [Function.update_apply]
    split <;> rfl
  · rw [frames, if_neg he] at htarget
    rw [followEdge_other hs he htarget hmerge]
    refine ⟨(kept_modify _ _ none).trans (kept_modify _ _ (some g')), ?_, rfl, rfl, rfl⟩
    have hlt := Blocks.lt_size_of_frame htarget
    funext j
    unfold frames
    dsimp only
    rw [Function.update_apply]
    by_cases hj : j = s.blocks.owner e.target
    · subst hj
      rw [if_neg he, if_pos rfl, Blocks.get_modify_self (by rwa [Blocks.size_modify])]
    · rw [if_neg hj, Blocks.get_modify_of_ne _ hj, Blocks.get_modify_of_ne _ hj]

/-- A stack of two heights is noted. -/
theorem followEdge_conflict (hs : s.conflict = none) (htarget : s.frames i f (s.blocks.owner e.target) = some g)
    (hmerge : (f.merge g e.kind.handled className h s.types).1 = none) :
    (followEdge h className i (s, f) e).1.conflict.isSome = true := by
  obtain ⟨blocks, types, queue, queued, maxStack, conflict⟩ := s
  obtain rfl : conflict = none := hs
  obtain ⟨kind, target⟩ := e
  dsimp only at htarget
  by_cases he : blocks.owner target = i
  · rw [frames, if_pos he] at htarget
    obtain rfl := Option.some.inj htarget
    cases kind
    all_goals
      dsimp only [EdgeKind.handled] at hmerge
      simp [followEdge, he, hmerge]
  · rw [frames, if_neg he] at htarget
    cases kind
    all_goals
      dsimp only [EdgeKind.handled] at hmerge
      simp [followEdge, he, htarget, hmerge]

end FollowEdge

/-! ## Rounds -/

/-- The frames of all blocks. -/
def allFrames (s : Search) (j : Nat) : Option Frame :=
  (s.blocks.get j).frame

section Round

variable {h : Hierarchy} {className : String} {i : Nat} {s : Search} {f : Frame} {rest : List Edge} {queue : List Nat}

/-- When a stack of two heights was found, no edge is followed any more. -/
theorem followEdges_of_conflict (hs : s.conflict.isSome = true) :
    rest.foldl (Search.followEdge h className i) (s, f) = (s, f) := by
  induction rest with
  | nil => rfl
  | cons e rest ih =>
    rw [List.foldl_cons]
    have hstays : Search.followEdge h className i (s, f) e = (s, f) := by
      unfold Search.followEdge
      dsimp only
      rw [if_pos hs]
    rw [hstays, ih]

/-- A search that is done goes on no further. -/
theorem run_of_isDone (hs : s.isDone = true) (n : Nat) : s.run h className n = s := by
  cases n with
  | zero => rfl
  | succ n => rw [Search.run, if_pos hs]

/-- A search that has found a stack of two heights is over. -/
theorem run_of_conflict (hs : s.conflict.isSome = true) (n : Nat) : s.run h className n = s :=
  run_of_isDone (by rw [isDone, hs, Bool.or_true]) n

/-- The search when a block has been taken from the queue. -/
def taken (s : Search) (i : Nat) (queue : List Nat) : Search :=
  { s with
    blocks := s.blocks.modify i fun b => { b with store := b.store || b.target, reachable := true, frame := none }
    queue, queued := s.queued.setIfInBounds i false }

/-- A round takes the first block from the queue and follows its edges, if the block has a frame. -/
theorem step_eq (hqueue : s.queue = i :: queue) :
    s.step h className =
      match (s.blocks.get i).frame with
      | none => s.taken i queue
      | some f =>
        let r := (s.blocks.get i).edges.toList.foldl (Search.followEdge h className i)
          ({ s.taken i queue with maxStack := max s.maxStack (f.stack.size + f.peak) }, f)
        { r.1 with blocks := r.1.blocks.modify i fun b => { b with frame := some r.2 } } := by
  obtain ⟨blocks, types, queue', queued, maxStack, conflict⟩ := s
  obtain rfl : queue' = i :: queue := hqueue
  cases hframe : (blocks.get i).frame with
  | none => simp [step, taken, hframe]
  | some f => simp [step, taken, hframe]

/-- Taking a block from the queue leaves the graph alone. -/
theorem taken_graph : Blocks.SameGraph s.blocks (s.taken i queue).blocks :=
  Blocks.sameGraph_modify _ _ (fun _ => rfl) fun _ => rfl

/-- Taking a block from the queue marks that block only. -/
theorem taken_reachable {j : Nat} (hj : ((s.taken i queue).blocks.get j).reachable = true) :
    j = i ∨ (s.blocks.get j).reachable = true := by
  unfold taken at hj
  rw [Blocks.get_modify] at hj
  split at hj
  · rename_i hji
    exact Or.inl hji.1
  · exact Or.inr hj

/-- What was marked stays so when a block is taken from the queue. -/
theorem reachable_taken {j : Nat} (hj : (s.blocks.get j).reachable = true) :
    ((s.taken i queue).blocks.get j).reachable = true := by
  unfold taken
  rw [Blocks.get_modify]
  split
  · rfl
  · exact hj

/-- The frames of all blocks are the same, that of the block taken from the queue being held apart. -/
theorem taken_frames (queue : List Nat) (hframe : (s.blocks.get i).frame = some f) :
    (s.taken i queue).frames i f = s.allFrames := by
  funext j
  unfold frames allFrames taken
  by_cases hj : j = i
  · rw [if_pos hj, hj, hframe]
  · rw [if_neg hj, Blocks.get_modify_of_ne _ hj]

/-- Putting back the frame that has been held apart. -/
theorem allFrames_putBack (hi : i < s.blocks.size) :
    allFrames { s with blocks := s.blocks.modify i fun b => { b with frame := some f } } = s.frames i f := by
  funext j
  unfold frames allFrames
  by_cases hj : j = i
  · subst hj
    rw [if_pos rfl, Blocks.get_modify_self hi]
  · rw [if_neg hj, Blocks.get_modify_of_ne _ hj]

end Round

end ControlFlow.Search

end ClassFile
