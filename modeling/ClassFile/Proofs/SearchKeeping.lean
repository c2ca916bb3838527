import ClassFile.Proofs.SearchEnd
import ClassFile.Proofs.SearchRun

/-!
# What the search leaves alone

The search for frames changes the inputs of blocks and never what their instructions do (`Frame.effect`). It enters no block
without looking at it, and the type table only grows.
-/

namespace ClassFile

/-- What the instructions of a block do, without the input of the block. -/
def Frame.effect (f : Frame) : Frame :=
  { f with locals := #[], stack := #[], entered := false }

namespace ControlFlow.Search

section Keeping

variable {h : Hierarchy} {className : String} {count first i : Nat} {entry : Array FrameType} {s : Search}
variable {rest : List Edge} {f g g' : Frame} {e : Edge}

/-- What holds of a search and the frames of all blocks is kept by following an edge, whatever the types. -/
structure Keeps (h : Hierarchy) (className : String) (count first : Nat) (entry : Array FrameType)
    (P : Search → (Nat → Option Frame) → Prop) : Prop where
  follow : ∀ {s s' : Search} {i : Nat} {rest : List Edge} {frames : Nat → Option Frame} {f g g' : Frame}
    {e : Edge} {changed : Bool}, Invariant h className count first entry s frames i (e :: rest) →
    Followed h className count s s' f g g' e changed → frames (s.blocks.owner e.target) = some g → P s frames →
    P s' (Function.update frames (s.blocks.owner e.target) (some g'))
  taken : ∀ {s : Search} {i : Nat} {queue : List Nat}, s.queue = i :: queue → i < s.blocks.size → P s s.allFrames →
    P (s.taken i queue) s.allFrames
  congr : ∀ {s s' : Search} {frames : Nat → Option Frame},
    Kept s.blocks s'.blocks → s'.types = s.types → s'.queue = s.queue →
    P s frames → P s' frames

variable {P : Search → (Nat → Option Frame) → Prop}

/-- Following an edge keeps what holds of a search. -/
theorem Keeps.followEdge (hk : Keeps h className count first entry P) (hg : h.Grounded)
    (hobject : h.superClass objectClass = none)
    (inv : Invariant h className count first entry s (s.frames i f) i (e :: rest)) (hs : s.conflict = none)
    (hreachable : (s.blocks.get i).reachable = true) (he : e ∈ (s.blocks.get i).edges) (hp : P s (s.frames i f)) :
    let r := Search.followEdge h className i (s, f) e
    r.1.conflict.isSome = true ∨ P r.1 (r.1.frames i r.2) := by
  dsimp only
  have hf : s.frames i f i = some f := if_pos rfl
  cases htarget : s.frames i f (s.blocks.owner e.target) with
  | none =>
    obtain ⟨hkept, hframes, htypes, hqueue, -, -⟩ := followEdge_none h className hs htarget
    rw [hframes]
    exact Or.inr (hk.congr hkept htypes hqueue hp)
  | some g =>
    have hfe := inv.entered i f hf (inv.looked hf (Or.inr hreachable))
    obtain ⟨result, g', grown, hmerge, hc, hext, hmerged⟩ := Frame.merge_spec className hg hobject
      inv.consistent hfe (inv.sane i f hf) (inv.entered _ g htarget) (inv.handled i e he)
    cases result with
    | none => exact Or.inl (followEdge_conflict hs htarget (by rw [hmerge]))
    | some changed =>
      obtain ⟨hkept, hframes, htypes, hqueue, -⟩ := followEdge_some hs htarget hmerge
      rw [hframes]
      exact Or.inr (hk.follow inv ⟨hkept, hqueue, htypes ▸ hext, htypes ▸ hc, htypes ▸ hmerged changed rfl⟩ htarget hp)

/-- What is kept lasts along with the invariant. -/
theorem Keeps.lasts (hk : Keeps h className count first entry P) (hg : h.Grounded)
    (hobject : h.superClass objectClass = none) :
    Lasts h className fun s frames i rest => Invariant h className count first entry s frames i rest ∧ P s frames where
  framed hp hmem := (lasts_invariant className count first entry hg hobject).framed hp.1 hmem
  taken hqueue hlt hp := ⟨(hp.1.other _).taken hqueue, hk.taken hqueue hlt hp.2⟩
  edge hs hreachable he hp := by
    rcases hp.1.followEdge hg hobject hs hreachable he with hsome | ⟨hnone, hkept, hinv⟩
    · exact Or.inl hsome
    · exact (hk.followEdge hg hobject hp.1 hs hreachable he hp.2).imp_right fun hp' => ⟨hnone, hkept, hinv, hp'⟩
  congr hkept htypes hqueue hqueued hp := ⟨hp.1.congr hkept htypes hqueue hqueued, hk.congr hkept htypes hqueue hp.2⟩

/-- What is kept by a round holds after any number of them, unless a stack has two heights. -/
theorem Keeps.run (hk : Keeps h className count first entry P) (hg : h.Grounded) (hobject : h.superClass objectClass = none)
    (n : Nat)
    (inv : Invariant h className count first entry s s.allFrames i []) (hs : s.conflict = none) (hp : P s s.allFrames) :
    (s.run h className n).conflict.isSome = true ∨ P (s.run h className n) (s.run h className n).allFrames :=
  ((hk.lasts hg hobject).run n hs ⟨inv, hp⟩).imp_right fun ⟨_, _, _, hp'⟩ => hp'

/-- What a search leaves alone that has started with the blocks of another one. -/
structure Continues (start s : Search) (frames : Nat → Option Frame) : Prop where
  types : start.types.Extends s.types
  effects : ∀ j, (frames j).map Frame.effect = (start.allFrames j).map Frame.effect
  visited : ∀ j f, frames j = some f → f.entered = true → j ∈ s.queue ∨ (s.blocks.get j).reachable = true

/-- Following an edge leaves alone what a search leaves alone. -/
theorem keeps_continues (h : Hierarchy) (className : String) (count first : Nat) (entry : Array FrameType) (start : Search) :
    Keeps h className count first entry (Continues start) where
  follow := by
    intro s s' i rest frames f g g' e changed inv hfol htarget hcont
    refine ⟨hcont.types.trans hfol.extends_, fun j => ?_, fun j x hx hentered => ?_⟩
    · rw [Function.update_apply]
      split
      · rename_i hj
        rw [← hcont.effects j, hj, htarget, hfol.merged.effect]
        rfl
      · exact hcont.effects j
    · rw [hfol.kept.reachable, hfol.queue_eq]
      rw [Function.update_apply] at hx
      have hstays : ∀ y, frames j = some y → y.entered = true →
          j ∈ (enqueue s.queue s.queued changed (s.blocks.owner e.target)).1 ∨
          (s.blocks.get j).reachable = true := fun y hy hye =>
        (hcont.visited j y hy hye).imp_left mem_enqueue
      split at hx
      · rename_i hj
        obtain rfl := Option.some.inj hx
        by_cases hge : g.entered = true
        · exact hstays g (hj ▸ htarget) hge
        · -- a frame that is entered changes, and its block is to be looked at
          have hchanged : changed = true := by
            rw [← Bool.not_eq_false, hfol.merged.unchanged]
            exact fun hsame => hge hsame.1
          subst hchanged
          rw [hj]
          exact Or.inl (mem_enqueue_of_changed (inv.queued _ (inv.bound _ g htarget)))
      · exact hstays x hx hentered
  taken := by
    intro s i queue hcons hi hcont
    refine ⟨hcont.types, hcont.effects, fun j f hf hentered => ?_⟩
    rcases hcont.visited j f hf hentered with hmem | hreach
    · rw [hcons] at hmem
      rcases List.mem_cons.1 hmem with rfl | hmem
      · right
        unfold Search.taken
        rw [Blocks.get_modify_self hi]
      · exact Or.inl hmem
    · exact Or.inr (reachable_taken hreach)
  congr := by
    intro s s' frames hkept htypes hqueue hcont
    refine ⟨htypes ▸ hcont.types, hcont.effects, fun j f hf hentered => ?_⟩
    rw [hkept.reachable, hqueue]
    exact hcont.visited j f hf hentered

/-- A block in the queue has a frame. -/
theorem Bounded.framed {height : Nat} (inv : Bounded h count height s s.allFrames) (hi : i ∈ s.queue) :
    (s.allFrames i).isSome = true := by
  obtain ⟨f, hf, -⟩ := inv.reached i (Or.inl hi)
  rw [hf]
  rfl

/-- The bounds are kept whatever block is looked at. -/
theorem lasts_bounded (className : String) (count height : Nat) (hg : h.Grounded)
    (hobject : h.superClass objectClass = none) :
    Lasts h className fun s frames _ _ => Bounded h count height s frames where
  framed inv hk := inv.framed hk
  taken hqueue _ inv := (inv.taken 0 hqueue).1
  edge hs hreachable he inv :=
    (inv.followEdge className hg hobject hs hreachable he rfl).imp_right fun ⟨hnone, hkept, hbounded, _⟩ =>
      ⟨hnone, hkept, hbounded⟩
  congr hkept htypes hqueue _ inv := inv.congr hkept htypes hqueue

/-- The bounds hold after any number of rounds, unless a stack has two heights. -/
theorem Bounded.after (className : String) (hg : h.Grounded) (hobject : h.superClass objectClass = none) {height : Nat}
    (n : Nat) (inv : Bounded h count height s s.allFrames) (hs : s.conflict = none) :
    (s.run h className n).conflict.isSome = true ∨
    Bounded h count height (s.run h className n) (s.run h className n).allFrames :=
  ((lasts_bounded className count height hg hobject).run (i := 0) n hs inv).imp_right fun ⟨_, _, hbounded⟩ => hbounded

end Keeping

end ControlFlow.Search

end ClassFile
