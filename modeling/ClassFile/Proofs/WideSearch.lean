import ClassFile.Proofs.SearchKeeping
import ClassFile.Proofs.SearchLoop
import ClassFile.Proofs.WideMerges

/-!
# Longs and doubles in the search

Halfway through the search a long or a double need not be followed by a slot without a usable value: what stood there may
have been joined with what a block left before its own input changed. What a block leaves is then not yet what it leaves at
last. So each input is compared with the last one of its block (`FrameType.Paired`): no usable value stands at last behind a
long or a double that is in both. Every merge keeps that, when the last inputs hand over to each other (`Balanced`), and of a
last input with itself it says what is wanted.
-/

namespace ClassFile

namespace ControlFlow.Search

/-- Inputs of blocks, and later ones of the same blocks. -/
def Later (frames frames' : Nat → Option Frame) : Prop :=
  ∀ j f, frames j = some f →
    ∃ g, frames' j = some g ∧ g.effect = f.effect ∧ (f.entered = true → g.entered = true ∧ f.Becomes g)

/-- No usable value is at last behind a long or a double that an input and the last one of its block hold. -/
def PairedWith (frames final : Nat → Option Frame) : Prop :=
  ∀ j f y, frames j = some f → f.entered = true → final j = some y →
    FrameType.Paired (f.locals.getD · .top) (y.locals.getD · .top)

/-- Inputs that hand over to each other, of blocks that put no usable value behind a long or a double. -/
structure Balanced (blocks : Blocks) (final : Nat → Option Frame) : Prop where
  handed : ∀ j y, final j = some y → y.entered = true → ∀ e ∈ (blocks.get j).edges, ∀ z,
    final (blocks.owner e.target) = some z → y.HandsOver z e.kind.handled
  leaves : ∀ j y (f : Frame), final j = some y → y.entered = true → f.effect = y.effect → f.entered = true →
    FrameType.Paired (f.locals.getD · .top) (y.locals.getD · .top) → FrameType.Paired f.leftLocal y.leftLocal

/-- What has come of inputs keeps usable values from standing behind longs and doubles, whatever the inputs are at last. -/
structure Leads (blocks : Blocks) (frames frames' : Nat → Option Frame) : Prop where
  later : Later frames frames'
  paired : ∀ final, Balanced blocks final → Later frames' final → PairedWith frames final → PairedWith frames' final

section Leads

variable {blocks : Blocks} {frames frames' frames'' final : Nat → Option Frame} {f g g' : Frame} {e : Edge}
  {i : Nat} {changed : Bool}

theorem Later.refl (frames : Nat → Option Frame) : Later frames frames :=
  fun _ f hf => ⟨f, hf, rfl, fun he => ⟨he, Frame.Becomes.refl f⟩⟩

/-- Inputs that come later twice come later. -/
theorem Later.trans (hl : Later frames frames') (hl' : Later frames' frames'') : Later frames frames'' := by
  intro j f hf
  obtain ⟨g, hg, heffect, hbecomes⟩ := hl j f hf
  obtain ⟨k, hk, heffect', hbecomes'⟩ := hl' j g hg
  refine ⟨k, hk, heffect'.trans heffect, fun he => ?_⟩
  obtain ⟨hge, hfg⟩ := hbecomes he
  obtain ⟨hke, hgk⟩ := hbecomes' hge
  exact ⟨hke, hfg.trans hgk⟩

theorem Leads.refl (blocks : Blocks) (frames : Nat → Option Frame) : Leads blocks frames frames :=
  ⟨.refl frames, fun _ _ _ hp => hp⟩

/-- What keeps usable values away twice keeps them away. -/
theorem Leads.trans (hl : Leads blocks frames frames') (hl' : Leads blocks frames' frames'') :
    Leads blocks frames frames'' :=
  ⟨hl.later.trans hl'.later, fun final hb hlater hp =>
    hl'.paired final hb hlater (hl.paired final hb (hl'.later.trans hlater) hp)⟩

/-- Inputs that are followed by the last ones of their blocks are paired with these, if no usable value is behind
their own longs and doubles. -/
theorem Later.pairedWith (hl : Later frames final)
    (hp : ∀ j f, frames j = some f → f.entered = true → FrameType.Paired (f.locals.getD · .top) (f.locals.getD · .top)) :
    PairedWith frames final := by
  intro j f y hf he hy k hwide hsame
  obtain ⟨y', hy', -, hbecomes⟩ := hl j f hf
  obtain rfl := Option.some.inj (hy.symm.trans hy')
  exact ((hbecomes he).2.locals (k + 1)).top (hp j f hf he k hwide rfl)

/-- A merge, when another input than the target's own stays as it is. -/
theorem leads_merge (hf : frames i = some f) (hfe : f.entered = true) (he : e ∈ (blocks.get i).edges)
    (hg : frames (blocks.owner e.target) = some g) (hmerges : f.Merges g g' e.kind.handled changed)
    (heffect : g'.effect = g.effect)
    (hentered : g'.entered = true) : Leads blocks frames (Function.update frames (blocks.owner e.target) (some g')) := by
  have hlater : Later frames (Function.update frames (blocks.owner e.target) (some g')) := by
    intro j x hx
    by_cases hj : j = blocks.owner e.target
    · obtain rfl := Option.some.inj (hg.symm.trans (hj ▸ hx))
      exact ⟨g', by rw [hj, Function.update_self], heffect, fun hge => ⟨hentered, hmerges.becomes hge⟩⟩
    · exact ⟨x, by rwa [Function.update_of_ne hj], rfl, fun hxe => ⟨hxe, .refl x⟩⟩
  refine ⟨hlater, fun final hb hfinal hp => ?_⟩
  intro j x z hx hxe hz
  by_cases hj : j = blocks.owner e.target
  · rw [hj, Function.update_self] at hx
    obtain rfl := Option.some.inj hx
    -- the last input of the block that hands over
    obtain ⟨y, hy, hye, hbecomes⟩ := hlater.trans hfinal i f hf
    obtain ⟨hyentered, hfy⟩ := hbecomes hfe
    have hhands := hb.handed i y hy hyentered e he z (hj ▸ hz)
    have hinput := hp i f y hf hfe hy
    intro k hwide hsame
    have hlast := hmerges.last k hwide
    dsimp only at hwide hsame ⊢
    rw [← hlast] at hwide hsame
    unfold Frame.handedLast at hwide hsame
    cases hhandled : e.kind.handled with
    | none =>
      rw [hhandled, if_neg (by simp)] at hwide hsame
      have hleft : y.leftLocal k = f.leftLocal k := by
        rw [← hsame]
        exact FrameType.eq_of_absorbs (hsame ▸ hfy.leftLocal hye hwide) (hsame ▸ hwide) (hhands.left k)
      have htop := hb.leaves i y f hy hyentered hye.symm hfe hinput k hwide hleft
      exact (hhands.left (k + 1)).top htop
    | some caught =>
      have hsome : e.kind.handled.isSome = true := by rw [hhandled]; rfl
      rw [if_pos hsome] at hwide hsame
      have hheld : y.locals.getD k .top = f.locals.getD k .top := by
        rw [← hsame]
        exact FrameType.eq_of_absorbs (hsame ▸ (hfy.locals k).wide (FrameType.madeWide_of_isWide hwide))
          (hsame ▸ hwide) (hhands.input hsome k)
      exact (hhands.input hsome (k + 1)).top (hinput k hwide hheld)
  · rw [Function.update_of_ne hj] at hx
    exact hp j x z hx hxe hz

end Leads

/-! ## Rounds -/

/-- What holds of the search and the inputs of all blocks while the edges `rest` of block `i` have not been followed yet:
blocks that have been entered and are not in the queue have handed over to those behind their edges. The search has started
with `known` types, and with blocks and inputs. -/
structure Hands (h : Hierarchy) (count height : Nat) (known : TypeTable) (blocks : Blocks) (start : Nat → Option Frame)
    (s : Search) (frames : Nat → Option Frame) (i : Nat) (rest : List Edge) : Prop where
  bounded : Bounded h count height s frames
  grows : known.Extends s.types
  graph : Blocks.SameGraph blocks s.blocks
  marks : MarksQueue s.blocks.size s.queue s.queued
  visited : ∀ j f, frames j = some f → f.entered = true → j ∈ s.queue ∨ (s.blocks.get j).reachable = true
  handed : ∀ j f, frames j = some f → f.entered = true → j ∉ s.queue → ∀ e ∈ (blocks.get j).edges,
    (∀ g, frames (blocks.owner e.target) = some g → g.entered = true ∧ f.HandsOver g e.kind.handled) ∨ j = i ∧ e ∈ rest
  leads : Leads blocks start frames

section Rounds

variable {h : Hierarchy} {className : String} {count height i : Nat} {blocks : Blocks}
  {start frames : Nat → Option Frame} {s s' : Search}
variable {rest : List Edge} {f g g' : Frame} {e : Edge} {changed : Bool} {queue : List Nat} {known : TypeTable}

/-- What holds of the search depends on inputs, types and the queue only. -/
theorem Hands.congr (hh : Hands h count height known blocks start s frames i rest) (hkept : Kept s.blocks s'.blocks)
    (htypes : s'.types = s.types) (hqueue : s'.queue = s.queue) (hqueued : s'.queued = s.queued) :
    Hands h count height known blocks start s' frames i rest := by
  obtain ⟨bounded, grows, graph, marks, visited, handed, leads⟩ := hh
  refine ⟨bounded.congr hkept htypes hqueue, htypes ▸ grows, graph.trans hkept.graph,
    ?_, fun j f hf he => ?_, hqueue ▸ handed, leads⟩
  · rwa [hkept.graph.size, hqueue, hqueued]
  · rw [hqueue, hkept.reachable]
    exact visited j f hf he

/-- A block without a frame takes nothing in. -/
theorem Hands.pass_none (hh : Hands h count height known blocks start s frames i (e :: rest))
    (htarget : frames (blocks.owner e.target) = none) :
    Hands h count height known blocks start s frames i rest := by
  refine { hh with handed := fun j f hf he hj e' he' => ?_ }
  rcases hh.handed j f hf he hj e' he' with hdone | ⟨rfl, hmem⟩
  · exact Or.inl hdone
  · rcases List.mem_cons.1 hmem with rfl | hmem
    · left
      intro g hg
      rw [htarget] at hg
      cases hg
    · exact Or.inr ⟨rfl, hmem⟩

/-- A block takes in what is handed over, and goes into the queue if its input changes. -/
theorem Hands.pass (hh : Hands h count height known blocks start s frames i (e :: rest)) (hf : frames i = some f)
    (hfe : f.entered = true) (he : e ∈ (blocks.get i).edges) (hg : frames (blocks.owner e.target) = some g)
    (hmerges : f.Merges g g' e.kind.handled changed)
    (hlowered : g.entered = false → changed = true) (heffect : g'.effect = g.effect) (hentered : g'.entered = true)
    (hkept : Kept s.blocks s'.blocks) (hext : s.types.Extends s'.types)
    (hqueue : (s'.queue, s'.queued) = enqueue s.queue s.queued changed (blocks.owner e.target))
    (hbounded : Bounded h count height s' (Function.update frames (blocks.owner e.target) (some g'))) :
    Hands h count height known blocks start s' (Function.update frames (blocks.owner e.target) (some g')) i rest := by
  have hqueue₁ : s'.queue = (enqueue s.queue s.queued changed (blocks.owner e.target)).1 := congrArg Prod.fst hqueue
  have hqueue₂ : s'.queued = (enqueue s.queue s.queued changed (blocks.owner e.target)).2 := congrArg Prod.snd hqueue
  have hin : changed = true → blocks.owner e.target ∈ s'.queue := by
    rintro rfl
    rw [hqueue₁]
    exact mem_enqueue_of_changed (hh.marks.mem _ (hh.bounded.bound _ g hg))
  have hstays : ∀ j, j ∈ s.queue → j ∈ s'.queue := fun j hj => hqueue₁ ▸ mem_enqueue hj
  refine ⟨hbounded, hh.grows.trans hext, hh.graph.trans hkept.graph,
    ?_, fun j x hx hxe => ?_, fun j x hx hxe hj e' he' => ?_,
    hh.leads.trans (leads_merge hf hfe he hg hmerges heffect hentered)⟩
  · rw [hkept.graph.size, hqueue₁, hqueue₂]
    exact hh.marks.enqueue changed _
  · rw [hkept.reachable]
    by_cases hj : j = blocks.owner e.target
    · by_cases hge : g.entered = true
      · exact (hh.visited j g (hj ▸ hg) hge).imp_left (hstays j)
      · exact Or.inl (hj ▸ hin (hlowered (Bool.eq_false_of_not_eq_true hge)))
    · rw [Function.update_of_ne hj] at hx
      exact (hh.visited j x hx hxe).imp_left (hstays j)
  · -- a block that is not in the queue has the input it had before
    have hbefore : frames j = some x := by
      by_cases hjt : j = blocks.owner e.target
      · subst hjt
        rw [Function.update_self] at hx
        have hsame := hmerges.unchanged (Bool.eq_false_of_not_eq_true fun hchanged => hj (hin hchanged))
        rw [hg, ← Option.some.inj hx, hsame]
      · rwa [Function.update_of_ne hjt] at hx
    rcases hh.handed j x hbefore hxe (fun hmem => hj (hstays j hmem)) e' he' with hdone | ⟨rfl, hmem⟩
    · left
      intro z hz
      by_cases ht : blocks.owner e'.target = blocks.owner e.target
      · rw [ht, Function.update_self] at hz
        obtain rfl := Option.some.inj hz
        obtain ⟨hge, hhands⟩ := hdone g (ht ▸ hg)
        exact ⟨hentered, fun k => hmerges.keeps hge k _ (hhands.left k),
          fun hsome k => hmerges.keeps hge k _ (hhands.input hsome k)⟩
      · rw [Function.update_of_ne ht] at hz
        exact hdone z hz
    · rcases List.mem_cons.1 hmem with rfl | hmem
      · left
        intro z hz
        rw [Function.update_self] at hz
        obtain rfl := Option.some.inj hz
        obtain rfl := Option.some.inj (hf.symm.trans hbefore)
        exact ⟨hentered, hmerges.handsOver⟩
      · exact Or.inr ⟨rfl, hmem⟩

/-- Taking a block from the queue leaves its edges to be followed. -/
theorem Hands.taken (hh : Hands h count height known blocks start s s.allFrames i []) {k : Nat}
    (hcons : s.queue = k :: queue) (hk : k < s.blocks.size) :
    Hands h count height known blocks start (s.taken k queue) s.allFrames k (s.blocks.get k).edges.toList := by
  have hmarks := hh.marks
  rw [hcons] at hmarks
  refine ⟨(hh.bounded.taken 0 hcons).1, hh.grows, hh.graph.trans taken_graph,
    ?_, fun j f hf he => ?_, fun j f hf he hj e he' => ?_, hh.leads⟩
  · have hsize : (s.taken k queue).blocks.size = s.blocks.size := taken_graph.size
    rw [hsize]
    exact hmarks.taken
  · rcases hh.visited j f hf he with hmem | hreach
    · rw [hcons] at hmem
      rcases List.mem_cons.1 hmem with rfl | hmem
      · right
        unfold Search.taken
        rw [Blocks.get_modify_self hk]
      · exact Or.inl hmem
    · exact Or.inr (reachable_taken hreach)
  · by_cases hjk : j = k
    · subst hjk
      refine Or.inr ⟨rfl, Array.mem_toList_iff.2 ?_⟩
      rwa [hh.graph.edges]
    · refine Or.inl ((hh.handed j f hf he ?_ e he').resolve_right fun hrest => nomatch hrest.2)
      rw [hcons]
      exact fun hmem => (List.mem_cons.1 hmem).elim hjk hj

/-- Following one edge keeps what holds of the search, unless it finds a stack of two heights. -/
theorem Hands.edge (hg : h.Grounded) (hobject : h.superClass objectClass = none) (hs : s.conflict = none)
    (hreachable : (s.blocks.get i).reachable = true) (he : e ∈ (s.blocks.get i).edges)
    (hh : Hands h count height known blocks start s (s.frames i f) i (e :: rest)) :
    let r := followEdge h className i (s, f) e
    r.1.conflict.isSome = true ∨
      r.1.conflict = none ∧ Kept s.blocks r.1.blocks ∧
      Hands h count height known blocks start r.1 (r.1.frames i r.2) i rest := by
  dsimp only
  have hf : s.frames i f i = some f := if_pos rfl
  obtain ⟨x, hx, hfe⟩ := hh.bounded.reached i (Or.inr hreachable)
  obtain rfl : f = x := Option.some.inj (hf.symm.trans hx)
  have howner : s.blocks.owner e.target = blocks.owner e.target := hh.graph.owner _
  cases htarget : s.frames i f (s.blocks.owner e.target) with
  | none =>
    obtain ⟨hkept, hframes, htypes, hqueue, hqueued, hconflict⟩ := followEdge_none h className hs htarget
    refine Or.inr ⟨hconflict, hkept, ?_⟩
    rw [hframes]
    exact (hh.pass_none (howner ▸ htarget)).congr hkept htypes hqueue hqueued
  | some g =>
    have hinput := hh.bounded.inputs i f hf hfe
    have hentered := hh.bounded.inputs _ g htarget
    obtain ⟨result, g', grown, hmerge, -, hext, hlowered⟩ := Frame.merge_lowered className hg hobject hh.bounded.consistent
      hinput (hh.bounded.effects i f hf) hentered (hh.bounded.handled i e he)
    rcases hh.bounded.followEdge className hg hobject hs hreachable he rfl with hsome | ⟨hnone, hkept, hbounded, -⟩
    · exact Or.inl hsome
    · cases result with
      | none => exact Or.inl (followEdge_conflict hs htarget (by rw [hmerge]))
      | some changed =>
        obtain ⟨-, hframes, htypes, hqueue, -⟩ := followEdge_some hs htarget hmerge
        have hlowered := hlowered changed rfl
        refine Or.inr ⟨hnone, hkept, ?_⟩
        rw [hframes, howner] at hbounded ⊢
        rw [howner] at hqueue htarget
        exact hh.pass hf hfe (by rwa [← hh.graph.edges]) htarget
          (Frame.merges_of_merge hmerge hinput hentered) hlowered.changes
          (by rw [hlowered.effect]; rfl) hlowered.input.entered hkept (htypes ▸ hext) hqueue hbounded

/-- It holds after any number of rounds. -/
theorem lasts_hands (hg : h.Grounded) (hobject : h.superClass objectClass = none) (className : String) (count height : Nat)
    (known : TypeTable) (blocks : Blocks) (start : Nat → Option Frame) :
    Lasts h className (Hands h count height known blocks start) where
  framed hh hk := hh.bounded.framed hk
  taken hcons hk hh := hh.taken hcons hk
  edge hs hreachable he hh := hh.edge hg hobject hs hreachable he
  congr hkept htypes hqueue hqueued hh := hh.congr hkept htypes hqueue hqueued

/-- When the search is done, no usable value stands in an input behind a long or a double. -/
theorem Hands.paired (hh : Hands h count height known blocks start s frames i []) (hqueue : s.queue = [])
    (hstart : ∀ j f, start j = some f → f.entered = true → FrameType.Paired (f.locals.getD · .top) (f.locals.getD · .top))
    (hleaves : ∀ j y (f : Frame), frames j = some y → y.entered = true → f.effect = y.effect → f.entered = true →
      FrameType.Paired (f.locals.getD · .top) (y.locals.getD · .top) → FrameType.Paired f.leftLocal y.leftLocal)
    {j : Nat} (hf : frames j = some f) (hfe : f.entered = true) :
    FrameType.Paired (f.locals.getD · .top) (f.locals.getD · .top) := by
  have hbalanced : Balanced blocks frames := by
    refine ⟨fun j y hy hye e he z hz => ?_, hleaves⟩
    have hnot : j ∉ s.queue := by
      rw [hqueue]
      exact List.not_mem_nil
    exact ((hh.handed j y hy hye hnot e he).resolve_right fun hrest => (nomatch hrest.2)) z hz |>.2
  exact hh.leads.paired frames hbalanced (.refl frames) (hh.leads.later.pairedWith hstart) j f f hf hfe hf

end Rounds

end ControlFlow.Search

end ClassFile
