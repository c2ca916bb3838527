import ClassFile.Proofs.FrameRoom
import ClassFile.Proofs.FrameSearch
import Mathlib.Algebra.BigOperators.Group.Finset.Piecewise

/-!
# The search comes to its end

Every look at a block takes at least one off what all frames can still change and what is left in the queue: an edge
that puts a block into the queue has changed the frame of that block, and then less can change in it. Nothing is
asked of the types in the frames. A stack is no higher than what all blocks that have been entered put on one, so
that the rounds can be counted beforehand.
-/

namespace ClassFile

namespace ControlFlow.Search

/-- The sum of a number of each frame. -/
def total (F : Frame → Nat) (size : Nat) (frames : Nat → Option Frame) : Nat :=
  ∑ j ∈ Finset.range size, ((frames j).map F).getD 0

/-- The frame of one block counts in the sum once. -/
theorem total_update (F : Frame → Nat) {size t : Nat} (frames : Nat → Option Frame) (ht : t < size) (g : Frame) :
    total F size (Function.update frames t (some g)) + ((frames t).map F).getD 0 = total F size frames + F g := by
  have hmem : t ∈ Finset.range size := Finset.mem_range.2 ht
  unfold total
  rw [← Finset.add_sum_erase _ _ hmem, ← Finset.add_sum_erase (Finset.range size) (fun j => ((frames j).map F).getD 0) hmem,
    Function.update_self]
  have hrest : ∀ j ∈ (Finset.range size).erase t,
      ((Function.update frames t (some g) j).map F).getD 0 = ((frames j).map F).getD 0 := by
    intro j hj
    rw [Function.update_of_ne (Finset.ne_of_mem_erase hj)]
  rw [Finset.sum_congr rfl hrest]
  simp only [Option.map_some, Option.getD_some]
  omega

/-- Height that the block of a frame puts on the stack, if it has been entered. -/
def enteredHeight (f : Frame) : Nat :=
  if f.entered then f.outStack.size else 0

/-- What holds of the search and the frames of all blocks wherever the search stands, whatever types come together in it. -/
structure Bounded (h : Hierarchy) (count height : Nat) (s : Search) (frames : Nat → Option Frame) : Prop where
  consistent : TypeTable.Consistent h s.types
  bound : ∀ j f, frames j = some f → j < s.blocks.size
  effects : ∀ j f, frames j = some f → f.EffectListed s.types
  inputs : ∀ j f, frames j = some f → f.entered = true → f.InputListed s.types count
  handled : ∀ j, ∀ e ∈ (s.blocks.get j).edges, ∀ x ∈ e.kind.handled, x.Listed s.types
  reached : ∀ j, j ∈ s.queue ∨ (s.blocks.get j).reachable = true → ∃ f, frames j = some f ∧ f.entered = true
  heights : ∀ j f, frames j = some f → f.entered = true →
    f.stack.size + f.outStack.size ≤ 1 + total enteredHeight s.blocks.size frames
  outs : 1 + total (fun f => f.outStack.size) s.blocks.size frames ≤ height

/-- What all frames can still change, and what is left in the queue. -/
def weight (h : Hierarchy) (limit : Nat) (s : Search) (frames : Nat → Option Frame) : Nat :=
  total (Frame.potential h s.types limit) s.blocks.size frames + s.queue.length

section Sums

variable {frames : Nat → Option Frame} {f : Frame}

/-- No frame puts more on the stack than all together. -/
theorem enteredHeight_le (size : Nat) (frames : Nat → Option Frame) :
    total enteredHeight size frames ≤ total (fun f => f.outStack.size) size frames := by
  refine Finset.sum_le_sum fun j _ => ?_
  cases frames j with
  | none => exact Nat.le_refl _
  | some f =>
    simp only [Option.map_some, Option.getD_some, enteredHeight]
    split
    · exact Nat.le_refl _
    · exact Nat.zero_le _

/-- The frame of one block counts in the sum. -/
theorem le_total (F : Frame → Nat) {size t : Nat} (ht : t < size) (hf : frames t = some f) : F f ≤ total F size frames := by
  have hterm : ((frames t).map F).getD 0 = F f := by rw [hf, Option.map_some, Option.getD_some]
  rw [← hterm]
  exact Finset.single_le_sum (f := fun j => ((frames j).map F).getD 0) (fun j _ => Nat.zero_le _) (Finset.mem_range.2 ht)

end Sums

/-! ## One edge -/

/-- What one edge does to the search, if the block behind it has a frame and no other height. -/
structure Passed (h : Hierarchy) (count : Nat) (s s' : Search) (f g g' : Frame) (e : Edge) (changed : Bool) : Prop where
  kept : Kept s.blocks s'.blocks
  queue : s'.queue = (enqueue s.queue s.queued changed (s.blocks.owner e.target)).1
  extends_ : s.types.Extends s'.types
  consistent : TypeTable.Consistent h s'.types
  lowered : Frame.Lowered h s.types count f g e.kind.handled changed g' s'.types

section Edge

variable {h : Hierarchy} {className : String} {count height i limit : Nat} {s s' : Search} {frames : Nat → Option Frame}
variable {rest : List Edge} {queue : List Nat} {f g g' : Frame} {e : Edge} {changed : Bool}

/-- An edge leaves the effect behind it in types of the table. -/
theorem Passed.effect (hp : Passed h count s s' f g g' e changed) (hg : g.EffectListed s.types) :
    g'.EffectListed s'.types := by
  have hg' := hg.mono hp.extends_
  rw [hp.lowered.effect]
  exact ⟨hg'.outLocals, hg'.outStack⟩

/-- An edge leaves alone what the block behind it puts on the stack. -/
theorem Passed.outStack (hp : Passed h count s s' f g g' e changed) : g'.outStack = g.outStack := by
  rw [hp.lowered.effect]

/-- What a block leaves is no higher than what it found and put on the stack. -/
theorem heightAfter_le (f : Frame) : f.heightAfter ≤ f.stack.size + f.outStack.size := by
  rw [Frame.heightAfter, Frame.untouched]
  omega

/-- No frame gets higher than what the blocks before it put on the stack. -/
theorem Bounded.pass_heights (inv : Bounded h count height s frames) (hp : Passed h count s s' f g g' e changed)
    (hf : frames i = some f) (hentered : f.entered = true) (hg : frames (s.blocks.owner e.target) = some g) :
    ∀ j x, Function.update frames (s.blocks.owner e.target) (some g') j = some x → x.entered = true →
      x.stack.size + x.outStack.size ≤
        1 + total enteredHeight s.blocks.size (Function.update frames (s.blocks.owner e.target) (some g')) := by
  have ht := inv.bound _ g hg
  have htotal := total_update enteredHeight frames ht g'
  have hnew : enteredHeight g' = g.outStack.size := by
    rw [enteredHeight, if_pos hp.lowered.input.entered, hp.outStack]
  rw [hg, Option.map_some, Option.getD_some, hnew] at htotal
  have hold : enteredHeight g ≤ g.outStack.size := by
    unfold enteredHeight
    split <;> omega
  intro j x hx hxe
  by_cases hj : j = s.blocks.owner e.target
  · subst hj
    rw [Function.update_self] at hx
    obtain rfl := Option.some.inj hx
    rw [hp.outStack]
    have hheight := hp.lowered.height
    by_cases he : g.entered = true
    · have hge : enteredHeight g = g.outStack.size := if_pos he
      have hbefore := inv.heights _ g hg he
      have hcounts := le_total enteredHeight ht hg
      rw [if_pos he] at hheight
      omega
    · have hge : enteredHeight g = 0 := if_neg he
      have hfh := inv.heights i f hf hentered
      have hafter := heightAfter_le f
      rw [if_neg he] at hheight
      omega
  · rw [Function.update_of_ne hj] at hx
    have hbefore := inv.heights j x hx hxe
    omega

/-- Following an edge keeps the bounds. -/
theorem Bounded.pass (inv : Bounded h count height s frames) (hp : Passed h count s s' f g g' e changed)
    (hf : frames i = some f) (hreachable : (s.blocks.get i).reachable = true)
    (hg : frames (s.blocks.owner e.target) = some g) :
    Bounded h count height s' (Function.update frames (s.blocks.owner e.target) (some g')) := by
  have ht := inv.bound _ g hg
  have hsize := hp.kept.graph.size
  have hentered : f.entered = true := by
    obtain ⟨x, hx, hxe⟩ := inv.reached i (Or.inr hreachable)
    rw [hf] at hx
    exact Option.some.inj hx ▸ hxe
  have hframe : ∀ j x, Function.update frames (s.blocks.owner e.target) (some g') j = some x →
      j = s.blocks.owner e.target ∧ x = g' ∨ frames j = some x := by
    intro j x hx
    by_cases hj : j = s.blocks.owner e.target
    · subst hj
      rw [Function.update_self] at hx
      exact Or.inl ⟨rfl, (Option.some.inj hx).symm⟩
    · rw [Function.update_of_ne hj] at hx
      exact Or.inr hx
  refine ⟨hp.consistent, ?_, ?_, ?_, ?_, ?_, ?_, ?_⟩
  · intro j x hx
    rw [hsize]
    rcases hframe j x hx with ⟨rfl, -⟩ | hx
    · exact ht
    · exact inv.bound j x hx
  · intro j x hx
    rcases hframe j x hx with ⟨-, rfl⟩ | hx
    · exact hp.effect (inv.effects _ g hg)
    · exact (inv.effects j x hx).mono hp.extends_
  · intro j x hx hxe
    rcases hframe j x hx with ⟨-, rfl⟩ | hx
    · exact hp.lowered.input
    · exact (inv.inputs j x hx hxe).mono hp.extends_
  · intro j e' he' x hx
    rw [hp.kept.graph.edges] at he'
    exact (inv.handled j e' he' x hx).mono hp.extends_
  · intro j hreached
    by_cases hj : j = s.blocks.owner e.target
    · exact ⟨g', by rw [hj, Function.update_self], hp.lowered.input.entered⟩
    · rw [hp.queue, hp.kept.reachable] at hreached
      rw [Function.update_of_ne hj]
      exact inv.reached j (hreached.imp_left fun hq => (mem_of_mem_enqueue hq).resolve_left hj)
  · rw [hsize]
    exact inv.pass_heights hp hf hentered hg
  · have houts := total_update (fun f => f.outStack.size) frames ht g'
    rw [hg, Option.map_some, Option.getD_some, hp.outStack] at houts
    rw [hsize, Nat.add_right_cancel houts]
    exact inv.outs

/-- Following an edge lowers the sum of what frames can still change, if it makes the queue longer. -/
theorem Bounded.pass_weight (hgr : h.Grounded) (inv : Bounded h count height s frames)
    (hp : Passed h count s s' f g g' e changed)
    (hf : frames i = some f) (hentered : f.entered = true) (hg : frames (s.blocks.owner e.target) = some g)
    (hlimit : limit = (count + height) * (h.size + 40)) :
    weight h limit s' (Function.update frames (s.blocks.owner e.target) (some g')) ≤ weight h limit s frames := by
  have ht := inv.bound _ g hg
  have hsame : total (Frame.potential h s'.types limit) s.blocks.size frames =
      total (Frame.potential h s.types limit) s.blocks.size frames := by
    refine Finset.sum_congr rfl fun j _ => ?_
    cases hx : frames j with
    | none => rfl
    | some x => exact Frame.potential_of_extends hp.extends_ (inv.inputs j x hx)
  have hgsame : g.potential h s'.types limit = g.potential h s.types limit :=
    Frame.potential_of_extends hp.extends_ (inv.inputs _ g hg)
  have htotal := total_update (Frame.potential h s'.types limit) frames ht g'
  rw [hg, Option.map_some, Option.getD_some] at htotal
  have hqueue := length_enqueue_le s.queue s.queued changed (s.blocks.owner e.target)
  have hheight : g'.stack.size ≤ height ∨ g.entered = true := by
    by_cases he : g.entered = true
    · exact Or.inr he
    · have hfh := inv.heights i f hf hentered
      have houts := inv.outs
      have hentered := enteredHeight_le s.blocks.size frames
      have hafter := heightAfter_le f
      have hnew := hp.lowered.height
      rw [if_neg he] at hnew
      left
      omega
  have hpos : 1 ≤ height := Nat.le_trans (Nat.le_add_right 1 _) inv.outs
  have hle := hp.lowered.potential_le hgr (fun hfresh => hheight.resolve_right (by rw [hfresh]; exact Bool.false_ne_true))
    hpos hlimit
  rw [weight, weight, hp.kept.graph.size, hp.queue]
  omega

/-- The bounds are about graph, types, queue and frames. -/
theorem Bounded.congr (inv : Bounded h count height s frames) (hk : Kept s.blocks s'.blocks) (htypes : s'.types = s.types)
    (hqueue : s'.queue = s.queue) : Bounded h count height s' frames := by
  obtain ⟨consistent, bound, effects, inputs, handled, reached, heights, outs⟩ := inv
  refine ⟨htypes ▸ consistent, ?_, htypes ▸ effects, htypes ▸ inputs, ?_, ?_, ?_, ?_⟩
  · rwa [hk.graph.size]
  · intro j e he
    rw [htypes]
    exact handled j e (by rwa [hk.graph.edges] at he)
  · intro j hj
    rw [hqueue, hk.reachable] at hj
    exact reached j hj
  · rwa [hk.graph.size]
  · rwa [hk.graph.size]

/-- Following one edge of a block makes the search no heavier. -/
theorem Bounded.followEdge (className : String) (hg : h.Grounded) (hobject : h.superClass objectClass = none)
    (inv : Bounded h count height s (s.frames i f)) (hs : s.conflict = none) (hreachable : (s.blocks.get i).reachable = true)
    (he : e ∈ (s.blocks.get i).edges) (hlimit : limit = (count + height) * (h.size + 40)) :
    let r := followEdge h className i (s, f) e
    r.1.conflict.isSome = true ∨ r.1.conflict = none ∧ Kept s.blocks r.1.blocks ∧
      Bounded h count height r.1 (r.1.frames i r.2) ∧ weight h limit r.1 (r.1.frames i r.2) ≤
        weight h limit s (s.frames i f) := by
  dsimp only
  have hf : s.frames i f i = some f := if_pos rfl
  cases htarget : s.frames i f (s.blocks.owner e.target) with
  | none =>
    obtain ⟨hkept, hframes, htypes, hqueue, -, hconflict⟩ := followEdge_none h className hs htarget
    refine Or.inr ⟨hconflict, hkept, ?_, ?_⟩
    · rw [hframes]
      exact inv.congr hkept htypes hqueue
    · rw [hframes, weight, weight, htypes, hqueue, hkept.graph.size]
  | some g =>
    obtain ⟨x, hx, hentered⟩ := inv.reached i (Or.inr hreachable)
    obtain rfl : f = x := Option.some.inj (hf.symm.trans hx)
    obtain ⟨result, g', grown, hmerge, hc, hext, hlowered⟩ := Frame.merge_lowered className hg hobject inv.consistent
      (inv.inputs i f hf hentered) (inv.effects i f hf) (inv.inputs _ g htarget) (inv.handled i e he)
    cases result with
    | none => exact Or.inl (followEdge_conflict hs htarget (by rw [hmerge]))
    | some changed =>
      obtain ⟨hkept, hframes, htypes, hqueue, hconflict⟩ := followEdge_some hs htarget hmerge
      have hp : Passed h count s (Search.followEdge h className i (s, f) e).1 f g g' e changed :=
        ⟨hkept, congrArg Prod.fst hqueue, htypes ▸ hext, htypes ▸ hc, htypes ▸ hlowered changed rfl⟩
      refine Or.inr ⟨hconflict, hkept, ?_, ?_⟩
      · rw [hframes]
        exact inv.pass hp hf hreachable htarget
      · rw [hframes]
        exact inv.pass_weight hg hp hf hentered htarget hlimit

/-- Following the edges of a block one by one. -/
theorem Bounded.followEdges (className : String) (hg : h.Grounded) (hobject : h.superClass objectClass = none)
    (inv : Bounded h count height s (s.frames i f)) (hs : s.conflict = none) (hreachable : (s.blocks.get i).reachable = true)
    (hrest : ∀ e ∈ rest, e ∈ (s.blocks.get i).edges) (hlimit : limit = (count + height) * (h.size + 40)) :
    let r := rest.foldl (Search.followEdge h className i) (s, f)
    r.1.conflict.isSome = true ∨ r.1.conflict = none ∧ Kept s.blocks r.1.blocks ∧
      Bounded h count height r.1 (r.1.frames i r.2) ∧ weight h limit r.1 (r.1.frames i r.2) ≤
        weight h limit s (s.frames i f) := by
  induction rest generalizing s f with
  | nil => exact Or.inr ⟨hs, Kept.refl _, inv, Nat.le_refl _⟩
  | cons e rest ih =>
    dsimp only
    rw [List.foldl_cons]
    rcases inv.followEdge className hg hobject hs hreachable (hrest e List.mem_cons_self) hlimit with
      hsome | ⟨hnone, hkept, hinv, hweight⟩
    · left
      rw [followEdges_of_conflict hsome]
      exact hsome
    · have hedges : ∀ e' ∈ rest, e' ∈ ((Search.followEdge h className i (s, f) e).1.blocks.get i).edges := by
        intro e' he'
        rw [hkept.graph.edges]
        exact hrest e' (List.mem_cons_of_mem _ he')
      rcases ih hinv hnone ((hkept.reachable i).trans hreachable) hedges with hsome | ⟨hnone', hkept', hinv', hweight'⟩
      · exact Or.inl hsome
      · exact Or.inr ⟨hnone', hkept.trans hkept', hinv', Nat.le_trans hweight' hweight⟩

/-! ## Rounds -/

/-- Taking a block from the queue makes the search lighter. -/
theorem Bounded.taken (limit : Nat) (inv : Bounded h count height s s.allFrames) (hqueue : s.queue = i :: queue) :
    Bounded h count height (s.taken i queue) s.allFrames ∧
      weight h limit (s.taken i queue) s.allFrames < weight h limit s s.allFrames := by
  have hgraph : Blocks.SameGraph s.blocks (s.taken i queue).blocks := taken_graph
  obtain ⟨consistent, bound, effects, inputs, handled, reached, heights, outs⟩ := inv
  refine ⟨⟨consistent, ?_, effects, inputs, ?_, ?_, ?_, ?_⟩, ?_⟩
  · rwa [hgraph.size]
  · intro j e he
    rw [hgraph.edges] at he
    exact handled j e he
  · intro j hj
    refine reached j ?_
    rw [hqueue]
    rcases hj with hj | hj
    · exact Or.inl (List.mem_cons_of_mem _ hj)
    · rcases taken_reachable hj with rfl | hj
      · exact Or.inl List.mem_cons_self
      · exact Or.inr hj
  · rwa [hgraph.size]
  · rwa [hgraph.size]
  · rw [weight, weight, hgraph.size, hqueue, List.length_cons]
    exact Nat.lt_succ_self _

/-- Looking at one block keeps the bounds and takes at least one off the weight. -/
theorem Bounded.step (hg : h.Grounded) (hobject : h.superClass objectClass = none)
    (inv : Bounded h count height s s.allFrames)
    (hs : s.conflict = none) (hlimit : limit = (count + height) * (h.size + 40)) (hqueue : s.queue ≠ []) :
    (s.step h className).conflict.isSome = true ∨ (s.step h className).conflict = none ∧
      Bounded h count height (s.step h className) (s.step h className).allFrames ∧
      weight h limit (s.step h className) (s.step h className).allFrames < weight h limit s s.allFrames := by
  obtain ⟨k, queue, hcons⟩ := List.exists_cons_of_ne_nil hqueue
  obtain ⟨htaken, hlighter⟩ := inv.taken limit hcons
  have hgraph : Blocks.SameGraph s.blocks (s.taken k queue).blocks := taken_graph
  rw [step_eq hcons]
  cases hframe : (s.blocks.get k).frame with
  | none =>
    obtain ⟨f, hf, -⟩ := inv.reached k (Or.inl (hcons ▸ List.mem_cons_self))
    rw [allFrames, hframe] at hf
    cases hf
  | some f =>
    dsimp only
    have hk : k < s.blocks.size := Blocks.lt_size_of_frame hframe
    have hreach : ((s.taken k queue).blocks.get k).reachable = true := by
      unfold Search.taken
      rw [Blocks.get_modify_self hk]
    have hstart : Bounded h count height { s.taken k queue with maxStack := max s.maxStack (f.stack.size + f.peak) }
        (frames { s.taken k queue with maxStack := max s.maxStack (f.stack.size + f.peak) } k f) := by
      rw [← taken_frames queue hframe] at htaken
      exact htaken.congr (Kept.refl _) rfl rfl
    have hfollowed := hstart.followEdges className hg hobject hs hreach
      (fun e he => (hgraph.edges k).symm ▸ Array.mem_toList_iff.1 he) hlimit
    dsimp only at hfollowed
    generalize (s.blocks.get k).edges.toList.foldl (Search.followEdge h className k)
      ({ s.taken k queue with maxStack := max s.maxStack (f.stack.size + f.peak) }, f) = r at hfollowed ⊢
    rcases hfollowed with hsome | ⟨hnone, hkept, hinv, hweight⟩
    · exact Or.inl hsome
    · have hsize : k < r.1.blocks.size := by
        rw [hkept.graph.size]
        rwa [hgraph.size]
      have hput := allFrames_putBack (s := r.1) (f := r.2) hsize
      refine Or.inr ⟨hnone, ?_, ?_⟩
      · rw [hput]
        exact hinv.congr (kept_modify _ _ _) rfl rfl
      · rw [hput]
        refine Nat.lt_of_le_of_lt ?_ hlighter
        rw [← taken_frames queue hframe]
        refine Nat.le_trans (Nat.le_of_eq ?_) hweight
        unfold weight
        rw [Blocks.size_modify]

/-- The search is done after as many rounds as it is heavy, at the latest, and takes no further ones. -/
theorem Bounded.run (hg : h.Grounded) (hobject : h.superClass objectClass = none) {n : Nat}
    (inv : Bounded h count height s s.allFrames) (hs : s.conflict = none) (hlimit : limit = (count + height) * (h.size + 40))
    (hn : weight h limit s s.allFrames ≤ n) :
    ∃ k ≤ n, ((Search.step h className)^[k] s).isDone = true ∧ (∀ j < k, ((Search.step h className)^[j] s).isDone = false) ∧
      ∀ m, k ≤ m → s.run h className m = (Search.step h className)^[k] s := by
  induction n generalizing s with
  | zero =>
    have hempty : s.queue = [] := by
      refine List.eq_nil_of_length_eq_zero ?_
      unfold weight at hn
      omega
    have hdone : s.isDone = true := by rw [isDone, hempty]; rfl
    exact ⟨0, Nat.le_refl _, hdone, fun j hj => absurd hj (Nat.not_lt_zero j), fun m _ => run_of_isDone hdone m⟩
  | succ n ih =>
    by_cases hdone : s.isDone = true
    · exact ⟨0, Nat.zero_le _, hdone, fun j hj => absurd hj (Nat.not_lt_zero j), fun m _ => run_of_isDone hdone m⟩
    · have hqueue : s.queue ≠ [] := by
        rintro hqueue
        exact hdone (by rw [isDone, hqueue]; rfl)
      -- one round, and then those that the rest of the search takes
      have hlater : ∃ k ≤ n, ((Search.step h className)^[k] (s.step h className)).isDone = true ∧
          (∀ j < k, ((Search.step h className)^[j] (s.step h className)).isDone = false) ∧
          ∀ m, k ≤ m → (s.step h className).run h className m = (Search.step h className)^[k] (s.step h className) := by
        rcases inv.step hg hobject hs hlimit hqueue with hsome | ⟨hnone, hinv, hlt⟩
        · have hover : (s.step h className).isDone = true := by rw [isDone, hsome, Bool.or_true]
          exact ⟨0, Nat.zero_le _, hover, fun j hj => absurd hj (Nat.not_lt_zero j), fun m _ => run_of_isDone hover m⟩
        · exact ih hinv hnone (by omega)
      obtain ⟨k, hk, hend, hbefore, hrun⟩ := hlater
      refine ⟨k + 1, Nat.succ_le_succ hk, hend, fun j hj => ?_, fun m hm => ?_⟩
      · cases j with
        | zero => exact Bool.eq_false_iff.2 hdone
        | succ j => exact hbefore j (Nat.lt_of_succ_lt_succ hj)
      · obtain ⟨m, rfl⟩ := Nat.exists_eq_add_of_lt (Nat.lt_of_lt_of_le (Nat.succ_pos k) hm)
        rw [Nat.zero_add, Search.run, if_neg hdone]
        exact hrun m (by omega)

end Edge

end ControlFlow.Search

end ClassFile
