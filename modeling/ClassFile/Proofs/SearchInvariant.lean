import ClassFile.Proofs.FrameSearch

/-!
# The invariant of the search for frames

Wherever the search stands, every block that it has looked at is settled, unless it is in the queue or its edges are just
being followed: the frames behind its edges have taken in what it hands over. Only the stack of a handler that was entered
without an exception is another one afterwards.
-/

namespace ClassFile

namespace ControlFlow.Search

/-- A block that an edge leads to from a block that has been reached, as a handler. -/
def HandlerBlock (blocks : Blocks) (i : Nat) : Prop :=
  ∃ j, (blocks.get j).reachable = true ∧ ∃ e ∈ (blocks.get j).edges, e.kind.handled.isSome = true ∧ blocks.owner e.target = i

/-- What is behind an edge has taken in what a block hands over, but for the exception that may have come onto the stack. -/
def Settled (h : Hierarchy) (types : TypeTable) (className : String) (blocks : Blocks) (frames : Nat → Option Frame)
    (f : Frame) (e : Edge) : Prop :=
  ∀ g, frames (blocks.owner e.target) = some g → g.entered = true ∧ (f.Takes h types className g e.kind.handled ∨
    e.kind.handled = none ∧ f.heightAfter = 0 ∧ HandlerBlock blocks (blocks.owner e.target))

/-- What holds of the search and the frames of all blocks, while the edges `rest` of block `i` have not been followed yet. -/
structure Invariant (h : Hierarchy) (className : String) (count first : Nat) (entry : Array FrameType) (s : Search)
    (frames : Nat → Option Frame) (i : Nat) (rest : List Edge) : Prop where
  consistent : TypeTable.Consistent h s.types
  bound : ∀ j f, frames j = some f → j < s.blocks.size
  sane : ∀ j f, frames j = some f → f.Sane s.types
  entered : ∀ j f, frames j = some f → f.entered = true → f.Entered s.types count
  handled : ∀ j, ∀ e ∈ (s.blocks.get j).edges, ∀ x ∈ e.kind.handled, x.Held s.types
  marks : s.queued.size = s.blocks.size
  queued : ∀ j < s.blocks.size, s.queued.getD j true = true → j ∈ s.queue
  reached : ∀ j, j ∈ s.queue ∨ (s.blocks.get j).reachable = true → ∃ f, frames j = some f ∧ f.entered = true
  settled : ∀ j f, frames j = some f → (s.blocks.get j).reachable = true → j ∉ s.queue → ∀ e ∈ (s.blocks.get j).edges,
    Settled h s.types className s.blocks frames f e ∨ j = i ∧ e ∈ rest
  entry : ∃ f, frames first = some f ∧ f.entered = true ∧
    Frame.Covers h s.types f.locals entry ∧ (f.stack = #[] ∨ HandlerBlock s.blocks first)

section Step

variable {h : Hierarchy} {className : String} {count first i : Nat} {entry : Array FrameType} {s s' : Search}
variable {frames : Nat → Option Frame} {rest : List Edge} {f g g' : Frame} {e : Edge}

/-- The frame of a block that is in the queue or has been reached has been entered. -/
theorem Invariant.looked (inv : Invariant h className count first entry s frames i rest) {j : Nat} (hf : frames j = some f)
    (hj : j ∈ s.queue ∨ (s.blocks.get j).reachable = true) : f.entered = true := by
  obtain ⟨g, hg, hge⟩ := inv.reached j hj
  rw [hf] at hg
  exact Option.some.inj hg ▸ hge

/-- A block that is entered as a handler stays one when more is reached. -/
theorem HandlerBlock.mono {blocks blocks' : Blocks} (hg : Blocks.SameGraph blocks blocks')
    (hr : ∀ j, (blocks.get j).reachable = true → (blocks'.get j).reachable = true) {t : Nat} (ht : HandlerBlock blocks t) :
    HandlerBlock blocks' t := by
  obtain ⟨j, hj, e, he, hhandled, howner⟩ := ht
  exact ⟨j, hr j hj, e, (hg.edges j).symm ▸ he, hhandled, (hg.owner _).trans howner⟩

/-- A block that is entered as a handler stays one when frames change. -/
theorem HandlerBlock.kept {blocks blocks' : Blocks} (hk : Kept blocks blocks') {t : Nat} (ht : HandlerBlock blocks t) :
    HandlerBlock blocks' t :=
  ht.mono hk.graph fun j hj => (hk.reachable j).trans hj

/-- What is settled behind an edge stays so when more is reached. -/
theorem Settled.mono {types : TypeTable} {blocks blocks' : Blocks} (hg : Blocks.SameGraph blocks blocks')
    (hr : ∀ j, (blocks.get j).reachable = true → (blocks'.get j).reachable = true)
    (hs : Settled h types className blocks frames f e) : Settled h types className blocks' frames f e := by
  intro g hgf
  rw [hg.owner] at hgf ⊢
  obtain ⟨hge, hcases⟩ := hs g hgf
  exact ⟨hge, hcases.imp_right fun ⟨hnone, hzero, hblock⟩ => ⟨hnone, hzero, hblock.mono hg hr⟩⟩

/-- A block whose frame has changed is in the queue. -/
theorem mem_enqueue_of_changed {queue : List Nat} {queued : Array Bool} {target : Nat}
    (hq : queued.getD target true = true → target ∈ queue) : target ∈ (enqueue queue queued true target).1 := by
  unfold enqueue
  split
  · exact List.mem_cons_self
  · rename_i hnot
    exact hq (by simpa using hnot)

/-- What one edge does to the search, if the block behind it has a frame and no other height. -/
structure Followed (h : Hierarchy) (className : String) (count : Nat) (s s' : Search) (f g g' : Frame) (e : Edge)
    (changed : Bool) : Prop where
  kept : Kept s.blocks s'.blocks
  queue : (s'.queue, s'.queued) = enqueue s.queue s.queued changed (s.blocks.owner e.target)
  extends_ : s.types.Extends s'.types
  consistent : TypeTable.Consistent h s'.types
  merged : Frame.Merged h s.types className count f g e.kind.handled changed g' s'.types

section Follow

variable {changed : Bool}

/-- An edge leaves the effect behind it in types that a block may have left. -/
theorem Followed.sane (hfol : Followed h className count s s' f g g' e changed) (hg : g.Sane s.types) :
    g'.Sane s'.types := by
  have hg' := hg.mono hfol.extends_
  rw [hfol.merged.effect]
  exact ⟨hg'.outLocals, hg'.outStack⟩

/-- An edge queues the block behind it if that has changed. -/
theorem Followed.queue_eq (hfol : Followed h className count s s' f g g' e changed) :
    s'.queue = (enqueue s.queue s.queued changed (s.blocks.owner e.target)).1 :=
  congrArg Prod.fst hfol.queue

/-- An edge marks the block behind it as queued if that has changed. -/
theorem Followed.queued_eq (hfol : Followed h className count s s' f g g' e changed) :
    s'.queued = (enqueue s.queue s.queued changed (s.blocks.owner e.target)).2 :=
  congrArg Prod.snd hfol.queue

/-- The marks of blocks in the queue stay right. -/
theorem Invariant.follow_marks (inv : Invariant h className count first entry s frames i rest)
    (hfol : Followed h className count s s' f g g' e changed) :
    s'.queued.size = s'.blocks.size ∧ ∀ j < s'.blocks.size, s'.queued.getD j true = true → j ∈ s'.queue := by
  rw [hfol.queue_eq, hfol.queued_eq, hfol.kept.graph.size]
  unfold enqueue
  split
  · refine ⟨by rw [Array.size_setIfInBounds, inv.marks], fun j hj hq => ?_⟩
    by_cases ht : j = s.blocks.owner e.target
    · exact ht ▸ List.mem_cons_self
    · rw [Array.getD_eq_getD_getElem?, Array.getElem?_setIfInBounds, if_neg (Ne.symm ht),
        ← Array.getD_eq_getD_getElem?] at hq
      exact List.mem_cons_of_mem _ (inv.queued j hj hq)
  · exact ⟨inv.marks, inv.queued⟩

/-- Blocks that were settled stay so, and the edge that has been followed is settled. -/
theorem Invariant.follow_settled (hg : h.Grounded) (hobject : h.superClass objectClass = none)
    (inv : Invariant h className count first entry s frames i (e :: rest))
    (hfol : Followed h className count s s' f g g' e changed) (hf : frames i = some f)
    (hreachable : (s.blocks.get i).reachable = true) (he : e ∈ (s.blocks.get i).edges)
    (hgf : frames (s.blocks.owner e.target) = some g) :
    ∀ j x, Function.update frames (s.blocks.owner e.target) (some g') j = some x → (s'.blocks.get j).reachable = true →
      j ∉ s'.queue → ∀ e' ∈ (s'.blocks.get j).edges,
        Settled h s'.types className s'.blocks (Function.update frames (s.blocks.owner e.target) (some g')) x e' ∨
          j = i ∧ e' ∈ rest := by
  intro j x hx hj hqueue e' he'
  have ht := inv.bound _ g hgf
  rw [hfol.kept.reachable] at hj
  rw [hfol.kept.graph.edges] at he'
  rw [hfol.queue_eq] at hqueue
  -- a block that is not in the queue has the frame that it had
  have hold : frames j = some x := by
    by_cases hjt : j = s.blocks.owner e.target
    · subst hjt
      rw [Function.update_self] at hx
      obtain rfl := Option.some.inj hx
      cases changed with
      | true => exact absurd (mem_enqueue_of_changed (inv.queued _ ht)) hqueue
      | false =>
        obtain ⟨-, rfl⟩ := hfol.merged.unchanged.1 rfl
        exact hgf
    · rwa [Function.update_of_ne hjt] at hx
  have hentered : x.Entered s.types count := inv.entered j x hold (inv.looked hold (Or.inr hj))
  have hsane := inv.sane j x hold
  have hhandled := inv.handled j e' he'
  have hlater : Settled h s.types className s.blocks frames x e' →
      Settled h s'.types className s'.blocks (Function.update frames (s.blocks.owner e.target) (some g')) x e' := by
    intro hsettled y hy
    rw [hfol.kept.graph.owner] at hy ⊢
    by_cases hsame : s.blocks.owner e'.target = s.blocks.owner e.target
    · rw [hsame, Function.update_self] at hy
      obtain rfl := Option.some.inj hy
      rw [hsame]
      refine ⟨hfol.merged.entered.entered, ?_⟩
      obtain ⟨hge, htakes | ⟨hnone, hzero, hblock⟩⟩ := hsettled g (hsame ▸ hgf)
      · rcases htakes.rise hg hobject (hfol.merged.rises hge) hfol.extends_ hentered hsane hhandled with
          htakes | ⟨hnone, hzero, hsome⟩
        · exact Or.inl htakes
        · refine Or.inr ⟨hnone, hzero, i, (hfol.kept.reachable i).trans hreachable, e, ?_, hsome, hfol.kept.graph.owner _⟩
          rwa [hfol.kept.graph.edges]
      · exact Or.inr ⟨hnone, hzero, hsame ▸ hblock.kept hfol.kept⟩
    · rw [Function.update_of_ne hsame] at hy
      obtain ⟨hye, htakes | ⟨hnone, hzero, hblock⟩⟩ := hsettled y hy
      · exact ⟨hye, Or.inl (htakes.mono hfol.extends_ hentered hsane hhandled)⟩
      · exact ⟨hye, Or.inr ⟨hnone, hzero, hblock.kept hfol.kept⟩⟩
  rcases inv.settled j x hold hj (fun hmem => hqueue (mem_enqueue hmem)) e' he' with hsettled | ⟨rfl, hrest⟩
  · exact Or.inl (hlater hsettled)
  · rcases List.mem_cons.1 hrest with rfl | hrest
    · left
      intro y hy
      rw [hfol.kept.graph.owner, Function.update_self] at hy
      obtain rfl := Option.some.inj hy
      rw [hf] at hold
      obtain rfl := Option.some.inj hold
      exact ⟨hfol.merged.entered.entered, Or.inl hfol.merged.takes⟩
    · exact Or.inr ⟨rfl, hrest⟩

/-- Following an edge keeps the invariant. -/
theorem Invariant.follow (hg : h.Grounded) (hobject : h.superClass objectClass = none)
    (inv : Invariant h className count first entry s frames i (e :: rest))
    (hfol : Followed h className count s s' f g g' e changed) (hf : frames i = some f)
    (hreachable : (s.blocks.get i).reachable = true) (he : e ∈ (s.blocks.get i).edges)
    (hgf : frames (s.blocks.owner e.target) = some g) :
    Invariant h className count first entry s' (Function.update frames (s.blocks.owner e.target) (some g')) i rest := by
  have ht := inv.bound _ g hgf
  have hmarks := inv.follow_marks hfol
  have hsize := hfol.kept.graph.size
  have hframe : ∀ j x, Function.update frames (s.blocks.owner e.target) (some g') j = some x →
      j = s.blocks.owner e.target ∧ x = g' ∨ j ≠ s.blocks.owner e.target ∧ frames j = some x := by
    intro j x hx
    by_cases hj : j = s.blocks.owner e.target
    · subst hj
      rw [Function.update_self] at hx
      exact Or.inl ⟨rfl, (Option.some.inj hx).symm⟩
    · rw [Function.update_of_ne hj] at hx
      exact Or.inr ⟨hj, hx⟩
  refine ⟨hfol.consistent, ?_, ?_, ?_, ?_, hmarks.1, hmarks.2, ?_,
    inv.follow_settled hg hobject hfol hf hreachable he hgf, ?_⟩
  · intro j x hx
    rw [hsize]
    rcases hframe j x hx with ⟨rfl, -⟩ | ⟨-, hx⟩
    · exact ht
    · exact inv.bound j x hx
  · intro j x hx
    rcases hframe j x hx with ⟨-, rfl⟩ | ⟨-, hx⟩
    · exact hfol.sane (inv.sane _ g hgf)
    · exact (inv.sane j x hx).mono hfol.extends_
  · intro j x hx hxe
    rcases hframe j x hx with ⟨-, rfl⟩ | ⟨-, hx⟩
    · exact hfol.merged.entered
    · exact (inv.entered j x hx hxe).mono hfol.extends_
  · intro j e' he' x hx
    rw [hfol.kept.graph.edges] at he'
    exact (inv.handled j e' he' x hx).mono hfol.extends_
  · intro j hreached
    by_cases hj : j = s.blocks.owner e.target
    · exact ⟨g', by rw [hj, Function.update_self], hfol.merged.entered.entered⟩
    · rw [hfol.queue_eq, hfol.kept.reachable] at hreached
      rw [Function.update_of_ne hj]
      exact inv.reached j (hreached.imp_left fun hq => (mem_of_mem_enqueue hq).resolve_left hj)
  · obtain ⟨x, hx, hxe, habove, hstack⟩ := inv.entry
    by_cases hfirst : first = s.blocks.owner e.target
    · rw [← hfirst] at hgf
      rw [hgf] at hx
      obtain rfl := Option.some.inj hx
      have hrises := hfol.merged.rises hxe
      refine ⟨g', by rw [hfirst, Function.update_self], hfol.merged.entered.entered,
        habove.rise hg hobject hrises.locals hfol.extends_, ?_⟩
      rcases hrises.stack with hsame | ⟨hsome, -, -⟩
      · rcases hstack with hempty | hblock
        · exact Or.inl (Array.eq_empty_of_size_eq_zero (by rw [hsame.1, hempty]; rfl))
        · exact Or.inr (hblock.kept hfol.kept)
      · refine Or.inr ⟨i, (hfol.kept.reachable i).trans hreachable, e, ?_, hsome, ?_⟩
        · rwa [hfol.kept.graph.edges]
        · rw [hfol.kept.graph.owner, hfirst]
    · exact ⟨x, by rwa [Function.update_of_ne hfirst], hxe, habove.mono hfol.extends_,
        hstack.imp_right fun hblock => hblock.kept hfol.kept⟩

end Follow

/-- The invariant is about graph, types, queue and frames. -/
theorem Invariant.congr (inv : Invariant h className count first entry s frames i rest)
    (hk : Kept s.blocks s'.blocks) (htypes : s'.types = s.types) (hqueue : s'.queue = s.queue)
    (hqueued : s'.queued = s.queued) :
    Invariant h className count first entry s' frames i rest := by
  obtain ⟨consistent, bound, sane, entered, handled, marks, queued, reached, settled, entry⟩ := inv
  refine ⟨htypes ▸ consistent, ?_, htypes ▸ sane, htypes ▸ entered, ?_, ?_, ?_, ?_, ?_, ?_⟩
  · rwa [hk.graph.size]
  · intro j e he
    rw [htypes]
    exact handled j e (by rwa [hk.graph.edges] at he)
  · rw [hqueued, marks, hk.graph.size]
  · rwa [hqueued, hqueue, hk.graph.size]
  · intro j hj
    rw [hqueue, hk.reachable] at hj
    exact reached j hj
  · intro j x hx hj hnot e he
    rw [hk.reachable] at hj
    rw [hqueue] at hnot
    rw [hk.graph.edges] at he
    rw [htypes]
    exact (settled j x hx hj hnot e he).imp_left (Settled.mono hk.graph fun j hj => (hk.reachable j).trans hj)
  · obtain ⟨x, hx, hxe, habove, hstack⟩ := entry
    exact ⟨x, hx, hxe, htypes ▸ habove, hstack.imp_right fun hblock => hblock.kept hk⟩

/-- An edge to a block without a frame is settled. -/
theorem Invariant.skip (inv : Invariant h className count first entry s frames i (e :: rest))
    (htarget : frames (s.blocks.owner e.target) = none) : Invariant h className count first entry s frames i rest := by
  obtain ⟨consistent, bound, sane, entered, handled, marks, queued, reached, settled, entry⟩ := inv
  refine ⟨consistent, bound, sane, entered, handled, marks, queued, reached, ?_, entry⟩
  intro j x hx hj hnot e' he'
  rcases settled j x hx hj hnot e' he' with hsettled | ⟨rfl, hrest⟩
  · exact Or.inl hsettled
  · rcases List.mem_cons.1 hrest with rfl | hrest
    · left
      intro g hg
      rw [htarget] at hg
      cases hg
    · exact Or.inr ⟨rfl, hrest⟩

/-- Following one edge of a block. -/
theorem Invariant.followEdge (hg : h.Grounded) (hobject : h.superClass objectClass = none)
    (inv : Invariant h className count first entry s (s.frames i f) i (e :: rest)) (hs : s.conflict = none)
    (hreachable : (s.blocks.get i).reachable = true) (he : e ∈ (s.blocks.get i).edges) :
    let r := followEdge h className i (s, f) e
    r.1.conflict.isSome = true ∨ r.1.conflict = none ∧ Kept s.blocks r.1.blocks ∧
      Invariant h className count first entry r.1 (r.1.frames i r.2) i rest := by
  dsimp only
  have hf : s.frames i f i = some f := if_pos rfl
  cases htarget : s.frames i f (s.blocks.owner e.target) with
  | none =>
    obtain ⟨hkept, hframes, htypes, hqueue, hqueued, hconflict⟩ := followEdge_none h className hs htarget
    refine Or.inr ⟨hconflict, hkept, ?_⟩
    rw [hframes]
    exact (inv.skip htarget).congr hkept htypes hqueue hqueued
  | some g =>
    have hfe := inv.entered i f hf (inv.looked hf (Or.inr hreachable))
    obtain ⟨result, g', grown, hmerge, hc, hext, hmerged⟩ := Frame.merge_spec className hg hobject
      inv.consistent hfe (inv.sane i f hf) (inv.entered _ g htarget) (inv.handled i e he)
    cases result with
    | none => exact Or.inl (followEdge_conflict hs htarget (by rw [hmerge]))
    | some changed =>
      obtain ⟨hkept, hframes, htypes, hqueue, hconflict⟩ := followEdge_some hs htarget hmerge
      have hfol : Followed h className count s (Search.followEdge h className i (s, f) e).1 f g g' e changed :=
        ⟨hkept, hqueue, htypes ▸ hext, htypes ▸ hc, htypes ▸ hmerged changed rfl⟩
      refine Or.inr ⟨hconflict, hkept, ?_⟩
      rw [hframes]
      exact inv.follow hg hobject hfol hf hreachable he htarget

end Step

end ControlFlow.Search

end ClassFile
