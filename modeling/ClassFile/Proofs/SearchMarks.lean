import ClassFile.Proofs.SearchRounds

/-!
# What the search marks

Whatever the frames are, the search changes no block but for its frame and two marks: one for a block that it has looked at,
and one for a block that jumps lead to besides. It looks at nothing but the first block and those that an edge leads to from
a block that it has looked at, and only if they have a frame (`Search.Marked`).
-/

namespace ClassFile

namespace ControlFlow.Search

/-- Two arenas that differ in frames only, and where the same blocks have one. -/
def Reframed (blocks blocks' : Blocks) : Prop :=
  blocks'.size = blocks.size ∧
    ∀ j, ∃ frame : Option Frame, blocks'.get j = { blocks.get j with frame } ∧ frame.isSome = (blocks.get j).frame.isSome

theorem Reframed.refl (blocks : Blocks) : Reframed blocks blocks :=
  ⟨rfl, fun _ => ⟨_, rfl, rfl⟩⟩

theorem Reframed.trans {a b c : Blocks} (h : Reframed a b) (h' : Reframed b c) : Reframed a c := by
  refine ⟨h'.1.trans h.1, fun j => ?_⟩
  obtain ⟨frame, hj, hframe⟩ := h.2 j
  obtain ⟨frame', hj', hframe'⟩ := h'.2 j
  rw [hj] at hj' hframe'
  exact ⟨frame', hj', hframe'.trans hframe⟩

/-- A change of a frame where there is one changes nothing else. -/
theorem reframed_modify (blocks : Blocks) {i : Nat} {frame : Option Frame} (h : frame.isSome = (blocks.get i).frame.isSome) :
    Reframed blocks (blocks.modify i fun b => { b with frame }) := by
  refine ⟨Blocks.size_modify _ _ _, fun j => ?_⟩
  rw [Blocks.get_modify]
  split
  · rename_i hj
    exact ⟨frame, by rw [hj.1], by rw [hj.1, h]⟩
  · exact ⟨_, rfl, rfl⟩

/-- What the search has marked, of blocks that it started with. -/
structure Marked (blocks : Blocks) (first : Nat) (s : Search) : Prop where
  size : s.blocks.size = blocks.size
  block : ∀ j, ∃ frame, s.blocks.get j = { blocks.get j with
    frame, store := (s.blocks.get j).store, reachable := (s.blocks.get j).reachable }
  store : ∀ j, (s.blocks.get j).store = ((s.blocks.get j).reachable && (blocks.get j).target)
  framed : ∀ j, (s.blocks.get j).frame.isSome = (blocks.get j).frame.isSome
  reached : ∀ j, j ∈ s.queue ∨ (s.blocks.get j).reachable = true → (blocks.get j).frame.isSome = true ∧
    (j = first ∨ ∃ i, (s.blocks.get i).reachable = true ∧ ∃ e ∈ (blocks.get i).edges, blocks.owner e.target = j)

section Marks

variable {h : Hierarchy} {className : String} {i first : Nat} {s : Search} {f : Frame} {blocks : Blocks} {queue : List Nat}

/-- The queue after an edge has been followed: at most the block behind it has come in, and only if it has a frame. -/
def Queued (s : Search) (i target : Nat) (queue : List Nat) : Prop :=
  ∀ j ∈ queue, j ∈ s.queue ∨ j = target ∧ (j = i ∨ (s.blocks.get j).frame.isSome = true)

/-- The block behind an edge has a frame if it comes into the queue. -/
theorem queued_enqueue {target : Nat} (changed : Bool) (h : target = i ∨ (s.blocks.get target).frame.isSome = true) :
    Queued s i target (enqueue s.queue s.queued changed target).1 := by
  intro j hj
  rcases mem_of_mem_enqueue hj with rfl | hj
  · exact Or.inr ⟨rfl, h⟩
  · exact Or.inl hj

/-- Following an edge marks nothing, unless it finds a stack of two heights. -/
theorem followEdge_reframed (h : Hierarchy) (className : String) (i : Nat) (f : Frame) (e : Edge) (hs : s.conflict = none) :
    let r := followEdge h className i (s, f) e
    r.1.conflict.isSome = true ∨ r.1.conflict = none ∧ Reframed s.blocks r.1.blocks ∧
      Queued s i (s.blocks.owner e.target) r.1.queue := by
  dsimp only
  have htarget : s.frames i f (s.blocks.owner e.target) = none ∨ ∃ g, s.frames i f (s.blocks.owner e.target) = some g := by
    cases s.frames i f (s.blocks.owner e.target) with
    | none => exact Or.inl rfl
    | some g => exact Or.inr ⟨g, rfl⟩
  rcases htarget with htarget | ⟨g, htarget⟩
  · obtain ⟨-, -, -, hqueue, -, hconflict⟩ := followEdge_none h className hs htarget
    refine Or.inr ⟨hconflict, ?_, fun j hj => Or.inl (hqueue ▸ hj)⟩
    obtain ⟨blocks, types, queue, queued, maxStack, conflict⟩ := s
    obtain rfl : conflict = none := hs
    have hne : blocks.owner e.target ≠ i := by
      rintro he
      rw [frames, if_pos he] at htarget
      cases htarget
    have hframe : (blocks.get (blocks.owner e.target)).frame = none := by
      rwa [frames, if_neg hne] at htarget
    simp only [followEdge, Option.isSome_none, Bool.false_eq_true, if_false, hne, hframe, Bool.false_and]
    exact reframed_modify blocks (by rw [hframe])
  · rcases hmerge : f.merge g e.kind.handled className h s.types with ⟨result, g', grown⟩
    cases result with
    | none => exact Or.inl (followEdge_conflict hs htarget (by rw [hmerge]))
    | some changed =>
      by_cases he : s.blocks.owner e.target = i
      · rw [frames, if_pos he] at htarget
        obtain rfl := Option.some.inj htarget
        rw [followEdge_self hs he hmerge, he]
        exact Or.inr ⟨rfl, Reframed.refl _, queued_enqueue changed (Or.inl rfl)⟩
      · rw [frames, if_neg he] at htarget
        have hsome : (s.blocks.get (s.blocks.owner e.target)).frame.isSome = true := by rw [htarget]; rfl
        rw [followEdge_other hs he htarget hmerge]
        refine Or.inr ⟨rfl, ?_, queued_enqueue changed (Or.inr hsome)⟩
        dsimp only
        refine ⟨by rw [Blocks.size_modify, Blocks.size_modify], fun j => ?_⟩
        rw [Blocks.get_modify, Blocks.size_modify]
        split
        · rename_i hj
          obtain ⟨rfl, hlt⟩ := hj
          exact ⟨some g', by rw [Blocks.get_modify_self hlt], by rw [hsome]; rfl⟩
        · rename_i hj
          refine ⟨(s.blocks.get j).frame, ?_, rfl⟩
          rw [Blocks.get_modify, if_neg hj]

/-- Following all edges of a block changes frames only, unless a stack of two heights is found. -/
theorem followEdges_reframed (h : Hierarchy) (className : String) (i : Nat) (f : Frame) (edges : List Edge)
    (hs : s.conflict = none) :
    let r := edges.foldl (followEdge h className i) (s, f)
    r.1.conflict.isSome = true ∨ r.1.conflict = none ∧ Reframed s.blocks r.1.blocks ∧
      ∀ j ∈ r.1.queue, j ∈ s.queue ∨ ∃ e ∈ edges, j = s.blocks.owner e.target ∧
        (j = i ∨ (s.blocks.get j).frame.isSome = true) := by
  induction edges generalizing s f with
  | nil => exact Or.inr ⟨hs, Reframed.refl _, fun j hj => Or.inl hj⟩
  | cons e rest ih =>
    rw [List.foldl_cons]
    have hfirst := followEdge_reframed h className i f e hs
    dsimp only at hfirst
    generalize followEdge h className i (s, f) e = r at hfirst
    obtain ⟨s', f'⟩ := r
    rcases hfirst with hsome | ⟨hnone, hreframed, hqueue⟩
    · left
      rw [followEdges_of_conflict hsome]
      exact hsome
    · refine (ih f' hnone).imp_right fun ⟨hnone', hreframed', hqueue'⟩ =>
        ⟨hnone', hreframed.trans hreframed', fun j hj => ?_⟩
      rcases hqueue' j hj with hj | ⟨e', he', hj, hframe⟩
      · exact (hqueue j hj).imp_right fun hj => ⟨e, List.mem_cons_self, hj⟩
      · refine Or.inr ⟨e', List.mem_cons_of_mem e he', ?_, ?_⟩
        · rw [hj]
          obtain ⟨frame, hget, -⟩ := hreframed.2 e'.target
          have howner := congrArg Block.owner hget
          exact howner
        · obtain ⟨frame, hget, hsame⟩ := hreframed.2 j
          dsimp only at hframe
          rwa [hget, hsame] at hframe

/-- What a round leaves of all blocks: the block that it looks at has both marks, and no other one
changes but for its frame. -/
def Visited (s : Search) (k : Nat) (later : Blocks) : Prop :=
  later.size = s.blocks.size ∧ ∀ j, ∃ frame, later.get j = { s.blocks.get j with
    frame, store := if j = k then (s.blocks.get k).store || (s.blocks.get k).target else (s.blocks.get j).store
    reachable := decide (j = k) || (s.blocks.get j).reachable } ∧ frame.isSome = (s.blocks.get j).frame.isSome

/-- What becomes of each block when a block is taken from the queue that has a frame. -/
theorem get_taken {k : Nat} (hk : k < s.blocks.size) (j : Nat) : (s.taken k queue).blocks.get j = if j = k then
    { s.blocks.get k with store := (s.blocks.get k).store || (s.blocks.get k).target, reachable := true, frame := none }
    else s.blocks.get j := by
  unfold Search.taken
  rw [Blocks.get_modify]
  simp only [hk, and_true]

/-- Once a block has been taken from the queue, and frames have changed, the block gets its own frame back. -/
theorem visited_of_reframed {k : Nat} {later : Blocks} (hf : (s.blocks.get k).frame = some f)
    (hreframed : Reframed (s.taken k queue).blocks later) (g : Frame) :
    Visited s k (later.modify k fun b => { b with frame := some g }) := by
  have hk : k < s.blocks.size := Blocks.lt_size_of_frame hf
  have hgraph : Blocks.SameGraph s.blocks (s.taken k queue).blocks := taken_graph
  have hsize : later.size = s.blocks.size := hreframed.1.trans hgraph.size
  refine ⟨(Blocks.size_modify _ _ _).trans hsize, fun j => ?_⟩
  obtain ⟨frame, hj, hsame⟩ := hreframed.2 j
  rw [get_taken hk] at hj hsame
  by_cases hjk : j = k
  · subst hjk
    refine ⟨some g, ?_, by rw [hf]; rfl⟩
    rw [Blocks.get_modify_self (hsize ▸ hk), hj]
    simp
  · rw [Blocks.get_modify_of_ne _ hjk, hj]
    rw [if_neg hjk] at hsame ⊢
    exact ⟨frame, by simp [hjk], hsame⟩

/-- The marks and the frames leave the owner, the edges and the target mark of a block alone. -/
theorem Marked.graph (hm : Marked blocks first s) (j : Nat) :
    s.blocks.owner j = blocks.owner j ∧ (s.blocks.get j).edges = (blocks.get j).edges ∧
      (s.blocks.get j).target = (blocks.get j).target := by
  obtain ⟨frame, hj⟩ := hm.block j
  have howner := congrArg Block.owner hj
  have hedges := congrArg Block.edges hj
  have htarget := congrArg Block.target hj
  exact ⟨howner, hedges, htarget⟩

/-- A round reaches the block that it looks at, and no other one. -/
theorem Visited.reachable {k : Nat} {later : Blocks} (hv : Visited s k later) (j : Nat) :
    (later.get j).reachable = (decide (j = k) || (s.blocks.get j).reachable) := by
  obtain ⟨frame, hj, -⟩ := hv.2 j
  exact congrArg Block.reachable hj

/-- What is reached after a round lies behind an edge of what is: this was so of the queue and the marks before, and the
round looks at the first block of the queue. -/
theorem Marked.reached_of_visited (hm : Marked blocks first s) {k : Nat} (hcons : s.queue = k :: queue) {later : Blocks}
    (hv : Visited s k later) {j : Nat} (hj : j ∈ queue ∨ (later.get j).reachable = true) :
    (blocks.get j).frame.isSome = true ∧ (j = first ∨ ∃ i, (later.get i).reachable = true ∧
      ∃ e ∈ (blocks.get i).edges, blocks.owner e.target = j) := by
  have hbefore : j ∈ s.queue ∨ (s.blocks.get j).reachable = true := by
    rcases hj with hj | hj
    · exact Or.inl (hcons ▸ List.mem_cons_of_mem k hj)
    · rw [hv.reachable] at hj
      rcases Bool.or_eq_true_iff.1 hj with hj | hj
      · obtain rfl := of_decide_eq_true hj
        exact Or.inl (hcons ▸ List.mem_cons_self)
      · exact Or.inr hj
  refine (hm.reached j hbefore).imp_right fun hway => hway.imp_right ?_
  rintro ⟨i, hi, hedge⟩
  exact ⟨i, by rw [hv.reachable, hi, Bool.or_true], hedge⟩

/-- A round goes on with what the search marks, if it queues nothing but blocks with frames behind the edges of its block. -/
theorem Marked.of_visited (hm : Marked blocks first s) {k : Nat} (hcons : s.queue = k :: queue) {later : Search}
    (hv : Visited s k later.blocks)
    (hcame : ∀ j ∈ later.queue, j ∈ queue ∨ (s.blocks.get j).frame.isSome = true ∧
      ∃ e ∈ (s.blocks.get k).edges, s.blocks.owner e.target = j) : Marked blocks first later := by
  refine ⟨hv.1.trans hm.size, fun j => ?_, fun j => ?_, fun j => ?_, fun j hj => ?_⟩
  · obtain ⟨frame, hj, -⟩ := hv.2 j
    obtain ⟨frame', hj'⟩ := hm.block j
    rw [hj, hj']
    exact ⟨frame, rfl⟩
  · obtain ⟨frame, hj, -⟩ := hv.2 j
    rw [hv.reachable]
    refine (congrArg Block.store hj).trans ?_
    by_cases hjk : j = k
    · subst hjk
      have hstore := hm.store j
      dsimp only
      rw [if_pos rfl, (hm.graph j).2.2, hstore, decide_eq_true rfl, Bool.true_or, Bool.true_and]
      cases (s.blocks.get j).reachable <;> simp
    · dsimp only
      rw [if_neg hjk, decide_eq_false hjk, Bool.false_or]
      exact hm.store j
  · obtain ⟨frame, hj, hsame⟩ := hv.2 j
    rw [hj]
    exact hsame.trans (hm.framed j)
  · rcases hj with hj | hj
    · rcases hcame j hj with hj | ⟨hframe, e, he, hleads⟩
      · exact hm.reached_of_visited hcons hv (Or.inl hj)
      · refine ⟨(hm.framed j).symm.trans hframe, Or.inr ⟨k, ?_, e, (hm.graph k).2.1 ▸ he, ?_⟩⟩
        · rw [hv.reachable, decide_eq_true rfl, Bool.true_or]
        · rw [← (hm.graph e.target).1, hleads]
    · exact hm.reached_of_visited hcons hv (Or.inr hj)

/-- Looking at a block marks it. -/
theorem Marked.step (hm : Marked blocks first s) (hs : s.conflict = none) (hqueue : s.queue ≠ []) :
    (s.step h className).conflict.isSome = true ∨
      (s.step h className).conflict = none ∧ Marked blocks first (s.step h className) := by
  obtain ⟨k, queue, hcons⟩ := List.exists_cons_of_ne_nil hqueue
  have hframe := (hm.reached k (Or.inl (hcons ▸ List.mem_cons_self))).1
  obtain ⟨f, hf⟩ := Option.isSome_iff_exists.1 ((hm.framed k).trans hframe)
  have hk : k < s.blocks.size := Blocks.lt_size_of_frame hf
  rw [step_eq hcons, hf]
  dsimp only
  have hfollowed := followEdges_reframed h className k f (s.blocks.get k).edges.toList
    (s := { s.taken k queue with maxStack := max s.maxStack (f.stack.size + f.peak) }) hs
  dsimp only at hfollowed
  generalize (s.blocks.get k).edges.toList.foldl (Search.followEdge h className k)
    ({ s.taken k queue with maxStack := max s.maxStack (f.stack.size + f.peak) }, f) = r at hfollowed ⊢
  refine hfollowed.imp_right fun ⟨hnone, hreframed, hcame⟩ => ⟨hnone, ?_⟩
  refine hm.of_visited hcons (visited_of_reframed hf hreframed r.2) fun j hj => ?_
  refine (hcame j hj).imp_right fun ⟨e, he, hleads, hframed⟩ => ⟨?_, e, Array.mem_toList_iff.1 he, ?_⟩
  · by_cases hjk : j = k
    · rw [hjk, hf]
      rfl
    · have hframed := hframed.resolve_left hjk
      rwa [get_taken hk, if_neg hjk] at hframed
  · rw [hleads]
    exact (taken_graph.owner _).symm

/-- Whatever the number of rounds, the search has marked what it says, unless it has found a stack of two heights. -/
theorem Marked.run (hm : Marked blocks first s) (hs : s.conflict = none) (h : Hierarchy) (className : String) (n : Nat) :
    (s.run h className n).conflict.isSome = true ∨
      (s.run h className n).conflict = none ∧ Marked blocks first (s.run h className n) := by
  induction n generalizing s with
  | zero => exact Or.inr ⟨hs, hm⟩
  | succ n ih =>
    rw [Search.run]
    split
    · exact Or.inr ⟨hs, hm⟩
    · rename_i hdone
      have hqueue : s.queue ≠ [] := by
        rintro hqueue
        exact hdone (by rw [isDone, hqueue]; rfl)
      rcases hm.step hs hqueue with hsome | ⟨hnone, hmarked⟩
      · left
        rw [run_of_conflict hsome]
        exact hsome
      · exact ih hmarked hnone

/-- Before the search nothing is marked. -/
theorem marked_beginSearch (flow : ControlFlow) (types : TypeTable)
    (hfresh : ∀ j, (flow.blocks.get j).store = false ∧ (flow.blocks.get j).reachable = false)
    (hframe : (flow.blocks.get flow.first).frame.isSome = true) :
    Marked flow.blocks flow.first (flow.beginSearch types) := by
  refine ⟨rfl, fun j => ⟨_, rfl⟩, fun j => ?_, fun _ => rfl, fun j hj => ?_⟩
  · change (flow.blocks.get j).store = ((flow.blocks.get j).reachable && _)
    rw [(hfresh j).1, (hfresh j).2, Bool.false_and]
  · rcases hj with hj | hj
    · obtain rfl := List.mem_singleton.1 hj
      exact ⟨hframe, Or.inl rfl⟩
    · exact absurd ((hfresh j).2.symm.trans hj) Bool.false_ne_true

end Marks

end ControlFlow.Search

end ClassFile
