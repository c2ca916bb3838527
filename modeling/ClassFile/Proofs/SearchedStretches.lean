import ClassFile.Proofs.FlowHandlers
import ClassFile.Proofs.FramedOffsets
import ClassFile.Proofs.SearchMarks

/-!
# Stretches that the search has reached

When the frames of a method have been computed, its blocks say which stretches of its code have been reached, and which ones
jumps or handlers lead to (`ControlFlow.Explored`). The search comes to a stretch on the edges of other stretches only, so
that it has reached nothing but what code leads to (`ControlFlow.Explored.searched`). The frames and the ranges of
unreachable code that come out are those of the stretches (`ControlFlow.collectBlocks_stretches`).
-/

namespace ClassFile

/-- Where the frames of an analysis stand. -/
def FrameAnalysis.offsets (a : FrameAnalysis) : List Nat :=
  a.frames.toList.map (·.offset)

/-- Whether a search has reached a stretch. -/
def Stretch.reachedIn (final : Blocks) (s : Stretch) : Bool :=
  (final.get s.block).reachable

/-- Whether a search has found that jumps or handlers lead to a stretch. -/
def Stretch.targetIn (final : Blocks) (s : Stretch) : Bool :=
  (final.get s.block).target

namespace ControlFlow

/-- What the search for the frames of a flow with handlers has left in its blocks: it has come to a block on an edge of the
flow, or because a handler starts there. -/
structure Explored (handlers : List Handler) (flow : ControlFlow) (final : Blocks) : Prop where
  size : flow.blocks.size ≤ final.size
  position : ∀ j < flow.blocks.size, (final.get j).position = (flow.blocks.get j).position
  owner : ∀ j < flow.blocks.size, final.owner j = flow.blocks.owner j
  successor : ∀ j < flow.blocks.size, (final.get j).successor = (flow.blocks.get j).successor
  target : ∀ j, (flow.blocks.get j).target = true → (final.get j).target = true
  marks : ∀ handler ∈ handlers, ∀ i, flow.blocks.labels[handler.handler]? = some i →
    (final.get (flow.blocks.owner i)).target = true
  store : ∀ j, (final.get j).store = ((final.get j).reachable && (final.get j).target)
  framed : ∀ j, (final.get j).reachable = true → (final.get j).frame.isSome = true
  reached : ∀ j, (final.get j).reachable = true → j = flow.first ∨
    (∃ i, (final.get i).reachable = true ∧ ∃ e ∈ (flow.blocks.get i).edges, final.owner e.target = j) ∨
    ∃ handler ∈ handlers, ∃ i, flow.blocks.labels[handler.handler]? = some i ∧ flow.blocks.owner i = j

/-- What the search leaves of the blocks of a flow as it was. -/
structure Kept (flow : ControlFlow) (final : Blocks) : Prop where
  size : flow.blocks.size ≤ final.size
  position : ∀ j < flow.blocks.size, (final.get j).position = (flow.blocks.get j).position
  successor : ∀ j < flow.blocks.size, (final.get j).successor = (flow.blocks.get j).successor

/-- What has been explored leaves the blocks where they were. -/
theorem Explored.kept {handlers : List Handler} {flow : ControlFlow} {final : Blocks} (he : Explored handlers flow final) :
    Kept flow final :=
  ⟨he.size, he.position, he.successor⟩

section Explored

variable {h : Hierarchy} {types : TypeTable} {flow : ControlFlow} {size : Nat} {c : Course} {handlers : List Handler}

/-- The search moves no block of a flow to which handlers have been added. -/
theorem Covered.kept {covered : ControlFlow} (hcovered : Covered handlers flow covered) {g : Frame} {s : Search}
    (hm : Search.Marked (covered.enteredWith g).blocks covered.first s) : Kept flow s.blocks := by
  have hmarked : ∀ {α : Type} (p : Block → α),
      (∀ (b : Block) (frame : Option Frame) (store reachable : Bool), p { b with frame, store, reachable } = p b) →
      ∀ j, p (s.blocks.get j) = p (covered.blocks.get j) := fun p hp j => by
    obtain ⟨frame, hj⟩ := hm.block j
    rw [hj]
    exact (hp _ _ _ _).trans (Blocks.get_modify_field p covered.blocks covered.first
      (hp (covered.blocks.get covered.first) (some g) (covered.blocks.get covered.first).store
      (covered.blocks.get covered.first).reachable) j)
  refine ⟨?_, fun j hj => ?_, fun j hj => ?_⟩
  · rw [hm.size, (graph_enteredWith covered g).size]
    exact hcovered.size
  · exact (hmarked Block.position (fun _ _ _ _ => rfl) j).trans (hcovered.position j hj)
  · exact (hmarked Block.successor (fun _ _ _ _ => rfl) j).trans (hcovered.successor j hj)

/-- What the search has marked, of the blocks of a flow to which handlers have been added. -/
theorem Covered.explored {covered : ControlFlow} (hcovered : Covered handlers flow covered)
    (hlabelled : flow.blocks.Labelled)
    (hnamed : ∀ handler ∈ handlers, (flow.blocks.labels[handler.handler]?).isSome) {g : Frame} {s : Search}
    (hm : Search.Marked (covered.enteredWith g).blocks covered.first s) : Explored handlers flow s.blocks := by
  have hentered : ∀ {α : Type} (p : Block → α), (∀ (b : Block) (frame : Option Frame), p { b with frame } = p b) →
      ∀ j, p ((covered.enteredWith g).blocks.get j) = p (covered.blocks.get j) := fun p hp j =>
    Blocks.get_modify_field p covered.blocks covered.first (hp _ _) j
  have hmarked : ∀ {α : Type} (p : Block → α),
      (∀ (b : Block) (frame : Option Frame) (store reachable : Bool), p { b with frame, store, reachable } = p b) →
      ∀ j, p (s.blocks.get j) = p (covered.blocks.get j) := fun p hp j => by
    obtain ⟨frame, hj⟩ := hm.block j
    exact ((congrArg p hj).trans (hp _ _ _ _)).trans (hentered p (fun b frame => hp b frame b.store b.reachable) j)
  have howner : ∀ j, s.blocks.owner j = covered.blocks.owner j := hmarked Block.owner fun _ _ _ _ => rfl
  have htarget := hmarked Block.target fun _ _ _ _ => rfl
  have hgraph := graph_enteredWith covered g
  -- a handler starts at the block that its label has in the flow
  have hlabel : ∀ handler ∈ handlers, ∀ i, covered.blocks.labels[handler.handler]? = some i →
      flow.blocks.labels[handler.handler]? = some i ∧ covered.blocks.owner i = flow.blocks.owner i := by
    intro handler hmem i hi
    obtain ⟨k, hk⟩ := Option.isSome_iff_exists.1 (hnamed handler hmem)
    obtain rfl := Option.some.inj (hi.symm.trans (hcovered.labels _ _ hk))
    exact ⟨hk, hcovered.owner i (hlabelled.bound _ i hk)⟩
  have hkept := hcovered.kept hm
  refine ⟨hkept.size, hkept.position, fun j hj => ?_,
    hkept.successor, fun j hj => ?_, fun handler hmem i hi => ?_, fun j => ?_,
    fun j hj => ?_, fun j hj => ?_⟩
  · exact (howner j).trans (hcovered.owner j hj)
  · exact (htarget j).trans (hcovered.target j hj)
  · obtain ⟨k, -, hname, hmark⟩ := hcovered.marks handler hmem
    obtain ⟨hk, hown⟩ := hlabel handler hmem k hname
    obtain rfl := Option.some.inj (hi.symm.trans hk)
    rw [htarget, ← hown]
    exact hmark
  · rw [hm.store, htarget]
    exact congrArg (_ && ·) (hentered Block.target (fun _ _ => rfl) j)
  · rw [hm.framed]
    exact (hm.reached j (Or.inr hj)).1
  · rcases (hm.reached j (Or.inr hj)).2 with rfl | ⟨i, hi, e, he, hleads⟩
    · exact Or.inl hcovered.first
    · rw [hgraph.edges] at he
      rw [hgraph.owner] at hleads
      rcases hcovered.edges i e he with he | ⟨-, handler, hmem, k, -, hname, hsame⟩
      · exact Or.inr (Or.inl ⟨i, hi, e, he, (howner _).trans hleads⟩)
      · obtain ⟨hk, hown⟩ := hlabel handler hmem k hname
        exact Or.inr (Or.inr ⟨handler, hmem, k, hk, hown.symm.trans (hsame.symm.trans hleads)⟩)

/-- Frames are collected from the blocks that the search leaves of the flow, to which handlers have been added. -/
theorem Stretched.collected (hs : flow.Stretched h types size c) (hu : flow.Unsolved h types) {m : Frame.Method}
    {codeLength : Nat} {analysis : FrameAnalysis} {flow' : ControlFlow} {types' : TypeTable}
    (hok : flow.computeFrames handlers m codeLength types h = (.ok analysis, flow', types')) :
    ∃ (covered : ControlFlow) (g : Frame) (s : Search) (n : Nat) (entry : ComputedFrame) (found : TypeTable),
      Covered handlers flow covered ∧ Search.Marked (covered.enteredWith g).blocks covered.first s ∧
      (s.blocks.chain flow.first).foldl (collectBlock codeLength s.blocks) (⟨n, #[entry], #[]⟩, found) =
      (analysis, types') := by
  have hcovered := covered_addFramedHandlers hs.owned hs.names.labelled types handlers
  have hhandled := hu.addFramedHandlers handlers
  rw [computeFrames_eq] at hok
  unfold prepare at hok
  generalize handlers.foldl addFramedHandler (flow, types) = r at hcovered hhandled hok
  obtain ⟨covered, found⟩ := r
  dsimp only at hcovered hhandled hok
  rw [enterFirst_eq] at hok
  dsimp only at hok
  generalize ((covered.blocks.get covered.first).frame.getD Frame.empty).enter found m = r at hok
  obtain ⟨g, grown, failure⟩ := r
  cases failure with
  | some e => cases hok
  | none =>
    have hfresh : ∀ j, ((covered.enteredWith g).blocks.get j).store = false ∧
      ((covered.enteredWith g).blocks.get j).reachable = false :=
      fun j => by
        refine ⟨?_, reachable_enteredWith hhandled g j⟩
        rw [← (hhandled.blocks j).store]
        exact Blocks.get_modify_field Block.store covered.blocks covered.first rfl j
    have hstart := Search.marked_beginSearch (covered.enteredWith g) grown hfresh
      (by rw [show (covered.enteredWith g).first = covered.first from rfl, first_enteredWith hhandled g]; rfl)
    have hrun := hstart.run rfl h m.className (roundBound h g.locals.size (covered.enteredWith g).blocks)
    dsimp only at hok
    generalize ((covered.enteredWith g).beginSearch grown).run h m.className
      (roundBound h g.locals.size (covered.enteredWith g).blocks) = s
      at hok hrun
    unfold conclude at hok
    rcases hrun with hsome | ⟨hnone, hm⟩
    · obtain ⟨offset, hoffset⟩ := Option.isSome_iff_exists.1 hsome
      rw [hoffset] at hok
      cases hok
    · rw [hnone] at hok
      change ((Except.ok _, _, _) : Except Error FrameAnalysis × ControlFlow × TypeTable) = _ at hok
      obtain ⟨hanalysis, hrest⟩ := Prod.mk.inj hok
      obtain ⟨-, rfl⟩ := Prod.mk.inj hrest
      obtain rfl := Except.ok.inj hanalysis
      have hfirst : covered.first = flow.first := hcovered.first
      exact ⟨covered, g, s, s.maxStack, ⟨0, g.locals, g.stack⟩, s.types, hcovered, hm, by rw [← hfirst]; rfl⟩

/-- Frames are collected from blocks that the search has left. -/
theorem Stretched.explored (hs : flow.Stretched h types size c) (hu : flow.Unsolved h types)
    (hnamed : ∀ handler ∈ handlers, (flow.blocks.labels[handler.handler]?).isSome) {m : Frame.Method} {codeLength : Nat}
    {analysis : FrameAnalysis} {flow' : ControlFlow} {types' : TypeTable}
    (hok : flow.computeFrames handlers m codeLength types h = (.ok analysis, flow', types')) :
    ∃ (final : Blocks) (n : Nat) (entry : ComputedFrame) (found : TypeTable), Explored handlers flow final ∧
      (final.chain flow.first).foldl (collectBlock codeLength final) (⟨n, #[entry], #[]⟩, found) = (analysis, types') := by
  obtain ⟨covered, g, s, n, entry, found, hcovered, hm, hcollected⟩ := hs.collected hu hok
  exact ⟨s.blocks, n, entry, found, hcovered.explored hs.names.labelled hnamed hm, hcollected⟩

end Explored

/-! ## What the search comes to -/

section Searched

variable {h : Hierarchy} {types : TypeTable} {flow : ControlFlow} {size : Nat} {c : Course}
  {handlers : List Handler} {final : Blocks}
variable {place : Label → Nat}

/-- Stretches with one block are one stretch. -/
theorem Stretched.eq_of_block (hs : flow.Stretched h types size c) {s s' : Stretch} (hmem : s ∈ c.all) (hmem' : s' ∈ c.all)
    (heq : s.block = s'.block) : s = s' := by
  obtain ⟨next, hholds⟩ := hs.holds hmem
  obtain ⟨next', hholds'⟩ := hs.holds hmem'
  have hstart : s.start = s'.start := by
    rw [← hholds.position, ← hholds'.position, heq]
  exact List.inj_on_of_nodup_map (hs.sorted.imp fun hlt => Nat.ne_of_lt hlt) hmem hmem' hstart

/-- Where a label stands that has been placed and does not only serve debug information. -/
theorem Stretched.placed (hs : flow.Stretched h types size c) {l : Label} {i p : Nat} (hl : flow.blocks.labels[l]? = some i)
    (hdebug : l.debug = false) (hp : flow.blocks.position l = some p) :
    ∃ s ∈ c.all, s.block = flow.blocks.owner i ∧ s.start = p ∧ s.followed = true := by
  unfold Blocks.position at hp
  rw [hl] at hp
  dsimp only at hp
  split at hp
  · rename_i hresolved
    obtain ⟨s, hmem, howner, hposition, hfollowed⟩ := (hs.names.known l i hl).placed hresolved hdebug
    exact ⟨s, hmem, howner.symm, hposition.symm.trans (Option.some.inj hp), hfollowed⟩
  · cases hp

/-- A label with a place has a block. -/
theorem labels_of_position {blocks : Blocks} {l : Label} {p : Nat} (hp : blocks.position l = some p) :
    ∃ i, blocks.labels[l]? = some i := by
  unfold Blocks.position at hp
  split at hp
  · rename_i i hi
    exact ⟨i, hi⟩
  · cases hp

/-- The search comes to a stretch if it is the first one, if a label stands there that something leads
to, or from the stretch before. -/
theorem Explored.arrives (he : Explored handlers flow final) (hs : flow.Stretched h types size c)
    (hleads : ∀ s ∈ c.all, ∀ l ∈ s.leads, l.debug = false ∧ flow.blocks.position l = some (place l) ∧ place l < size)
    (hhandlers : ∀ handler ∈ handlers, handler.handler.debug = false ∧ ∃ p < size,
      flow.blocks.position handler.handler = some p)
    {s' : Stretch} (hmem' : s' ∈ c.all) (hreached : (final.get s'.block).reachable = true) :
    s'.block = flow.first ∨ (s'.followed = true ∧ (final.get s'.block).target = true ∧ s'.start < size) ∨
      ∃ s before after, c.all = before ++ s :: s' :: after ∧ s.falls = true ∧ (final.get s.block).reachable = true := by
  -- a label that is led to stands at the stretch
  have hlabel : ∀ (l : Label) (i p : Nat), flow.blocks.labels[l]? = some i → l.debug = false →
    flow.blocks.position l = some p → p < size → flow.blocks.owner i = s'.block →
    (final.get (flow.blocks.owner i)).target = true → s'.followed = true ∧
    (final.get s'.block).target = true ∧ s'.start < size := by
    intro l i p hl hdebug hp hsize howner htarget
    obtain ⟨s, hmem, hblock, hstart, hfollowed⟩ := hs.placed hl hdebug hp
    obtain rfl := hs.eq_of_block hmem hmem' (hblock.trans howner)
    rw [howner] at htarget
    exact ⟨hfollowed, htarget, hstart ▸ hsize⟩
  rcases he.reached _ hreached with hfirst | ⟨i, hi, e, hedge, hto⟩ | ⟨handler, hhandler, i, hl, howner⟩
  · exact Or.inl hfirst
  · obtain ⟨s, hmem, rfl⟩ : ∃ s ∈ c.all, s.block = i := by
      by_contra hnone
      rw [hs.names.others i fun s hmem heq => hnone ⟨s, hmem, heq⟩] at hedge
      exact Array.not_mem_empty e hedge
    obtain ⟨before, rest, hall⟩ := List.append_of_mem hmem
    have hcase : ∀ next, s.Holds h types flow.blocks next → (∃ l ∈ s.leads, e.target = (flow.blocks.labels[l]?).getD 0) ∨
        s.falls = true ∧ next = some e.target := by
      intro next hholds
      have hedge := Array.mem_toList_iff.2 hedge
      rw [hholds.edges] at hedge
      rcases List.mem_append.1 hedge with hedge | hedge
      · obtain ⟨l, hl, rfl⟩ := List.mem_map.1 hedge
        exact Or.inl ⟨l, hl, rfl⟩
      · split at hedge
        · rename_i hfalls
          obtain ⟨k, hk, rfl⟩ := List.mem_map.1 hedge
          exact Or.inr ⟨hfalls, Option.mem_toList.1 hk⟩
        · exact absurd hedge List.not_mem_nil
    obtain ⟨next, hholds, hnext⟩ : ∃ next, s.Holds h types flow.blocks next ∧
        ∀ k, next = some k → ∃ t after, rest = t :: after ∧ t.block = k := by
      cases rest with
      | nil =>
        have hlast : c.last = s := by
          unfold Course.all at hall
          exact (List.append_singleton_inj.1 hall).2
        exact ⟨none, hlast ▸ hs.last, fun k hk => (nomatch hk)⟩
      | cons t after =>
        have hprecedes := List.isChain_iff_forall_rel_of_append_cons_cons.1 hs.chain hall
        exact ⟨some t.block, hprecedes.holds, fun k hk => ⟨t, after, rfl, Option.some.inj hk⟩⟩
    rcases hcase next hholds with ⟨l, hl, htarget⟩ | ⟨hfalls, hsome⟩
    · obtain ⟨hdebug, hp, hsize⟩ := hleads s hmem l hl
      obtain ⟨k, hk⟩ := Option.isSome_iff_exists.1 (hholds.named l hl)
      rw [hk, Option.getD_some] at htarget
      rw [htarget, he.owner k (hs.names.labelled.bound l k hk)] at hto
      exact Or.inr (Or.inl (hlabel l k _ hk hdebug hp hsize hto (he.target _ (hs.names.marked s hmem l hl k hk))))
    · obtain ⟨t, after, rfl, hblock⟩ := hnext _ hsome
      have hmemt : t ∈ c.all := by rw [hall]; simp
      obtain ⟨nextt, hholdst⟩ := hs.holds hmemt
      rw [← hblock, he.owner _ (hs.lt_size hmemt), show flow.blocks.owner t.block = t.block from hholdst.owner] at hto
      obtain rfl := hs.eq_of_block hmemt hmem' hto
      exact Or.inr (Or.inr ⟨s, before, after, hall, hfalls, hi⟩)
  · obtain ⟨hdebug, p, hsize, hp⟩ := hhandlers handler hhandler
    exact Or.inr (Or.inl (hlabel _ i p hl hdebug hp hsize howner (he.marks handler hhandler i hl)))

/-- The search has reached nothing but what code leads to. -/
theorem Explored.searched (he : Explored handlers flow final) (hs : flow.Stretched h types size c) (hc : c.Regular place)
    (hleads : ∀ s ∈ c.all, ∀ l ∈ s.leads, l.debug = false ∧ flow.blocks.position l = some (place l) ∧ place l < size)
    (hhandlers : ∀ handler ∈ handlers, handler.handler.debug = false ∧ ∃ p < size,
      flow.blocks.position handler.handler = some p) :
    c.Searched place size (·.reachedIn final) (·.targetIn final) := by
  obtain ⟨first, hhead, hblock, hzero⟩ := hs.first
  have hfirst : first ∈ c.all := List.mem_of_mem_head? hhead
  refine ⟨fun s' hmem' hreached => ?_, ?_, fun s hmem hjumped => ?_, fun s hmem l hl => ?_⟩
  · rcases he.arrives hs hleads hhandlers hmem' hreached with heq | ⟨hfollowed, -⟩ | ⟨s, before, after, hall, hfalls, -⟩
    · obtain rfl := hs.eq_of_block hfirst hmem' (hblock.trans heq.symm)
      exact hc.entered first hhead
    · exact hfollowed
    · exact ((List.isChain_iff_forall_rel_of_append_cons_cons.1 hc.cuts hall).goes hfalls).2
  · refine List.isChain_iff_forall_rel_of_append_cons_cons.2 fun s s' before after hall hreached => ?_
    have hlt := (List.isChain_iff_forall_rel_of_append_cons_cons.1 hs.chain hall).lt
    have hmem' : s' ∈ c.all := by rw [hall]; simp
    rcases he.arrives hs hleads hhandlers hmem'
      hreached with heq | ⟨-, htarget⟩ | ⟨t, before', after', hall', hfalls, hreached'⟩
    · obtain rfl := hs.eq_of_block hfirst hmem' (hblock.trans heq.symm)
      omega
    · exact Or.inl htarget
    · -- the stretch before is the same one
      have hnodup : (before ++ [s] ++ s' :: after).Nodup := by
        rw [List.append_assoc]
        change (before ++ s :: s' :: after).Nodup
        rw [← hall]
        exact List.Nodup.of_map _ (hs.sorted.imp fun hlt => Nat.ne_of_lt hlt)
      obtain ⟨-, hrest, hapart⟩ := List.nodup_append.1 hnodup
      have hsplit : (before ++ [s]) ++ s' :: after = (before' ++ [t]) ++ s' :: after' := by
        rw [List.append_assoc, List.append_assoc]
        exact hall.symm.trans hall'
      have hsame := (List.append_cons_inj_of_notMem (fun hmem => hapart s' hmem s' List.mem_cons_self rfl)
        (List.nodup_cons.1 hrest).1).1 hsplit
      rw [(List.append_singleton_inj.1 hsame.1).2]
      exact Or.inr ⟨hfalls, hreached'⟩
  · obtain ⟨next, hholds⟩ := hs.holds hmem
    exact he.target _ (hholds.target hjumped)
  · obtain ⟨hdebug, hp, -⟩ := hleads s hmem l hl
    obtain ⟨i, hi⟩ := labels_of_position hp
    obtain ⟨s', hmem', hblock, hstart, -⟩ := hs.placed hi hdebug hp
    refine ⟨s', hmem', hstart, ?_⟩
    unfold Stretch.targetIn
    rw [hblock]
    exact he.target _ (hs.names.marked s hmem l hl i hi)

end Searched

/-! ## What is collected -/

section Collected

variable {h : Hierarchy} {types : TypeTable} {flow : ControlFlow} {blocks : Blocks} {size : Nat}
  {c : Course} {ss : List Stretch}
variable {handlers : List Handler} {final : Blocks}

/-- The blocks of stretches in the order of the code. -/
structure Linked (final : Blocks) (size : Nat) (ss : List Stretch) : Prop where
  row : Stretch.Row size ss
  position : ∀ s ∈ ss, (final.get s.block).position = s.start
  successor : ss.IsChain fun s s' => (final.get s.block).successor = some s'.block
  last : ∀ s ∈ ss.getLast?, (final.get s.block).successor = none

/-- Stretches that come one right before another are in a row. -/
theorem row_of_chain {last : Stretch} (hchain : (ss ++ [last]).IsChain (Stretch.Precedes h types blocks))
    (hw : last.Within size) :
    Stretch.Row size (ss ++ [last]) := by
  induction ss with
  | nil => exact .last hw
  | cons s rest ih =>
    cases rest with
    | nil =>
      have hfirst := (List.isChain_cons_cons.1 hchain).1
      exact .cons hfirst.within hfirst.lt (.last hw)
    | cons next rest =>
      obtain ⟨hfirst, hrest⟩ := List.isChain_cons_cons.1 hchain
      exact .cons hfirst.within hfirst.lt (ih hrest)

/-- The stretches of code are in a row. -/
theorem Stretched.row (hs : flow.Stretched h types size c) : Stretch.Row size c.all :=
  row_of_chain hs.chain hs.within

/-- The blocks of the stretches are linked when frames have been computed. -/
theorem Kept.linked (he : Kept flow final) (hs : flow.Stretched h types size c) : Linked final size c.all := by
  refine ⟨hs.row, fun s hmem => ?_, ?_, fun s hmem => ?_⟩
  · obtain ⟨next, hholds⟩ := hs.holds hmem
    exact (he.position _ (hs.lt_size hmem)).trans hholds.position
  · refine List.isChain_iff_forall_rel_of_append_cons_cons.2 fun s s' before after hall => ?_
    have hprecedes := List.isChain_iff_forall_rel_of_append_cons_cons.1 hs.chain hall
    exact (he.successor _ hprecedes.holds.lt_size).trans hprecedes.holds.successor
  · unfold Course.all at hmem
    rw [List.getLast?_concat] at hmem
    obtain rfl := Option.some.inj hmem
    exact (he.successor _ hs.last.lt_size).trans hs.last.successor

/-- From its first block on, the chain of blocks goes through all stretches. -/
theorem chainFrom_stretches {s : Stretch} {fuel : Nat}
    (hsuccessor : (s :: ss).IsChain fun s s' => (final.get s.block).successor = some s'.block)
    (hlast : ∀ t ∈ (s :: ss).getLast?, (final.get t.block).successor = none) (hfuel : (s :: ss).length ≤ fuel) :
    final.chainFrom none fuel s.block = (s :: ss).map (·.block) := by
  induction ss generalizing s fuel with
  | nil =>
    obtain ⟨fuel, rfl⟩ := Nat.exists_eq_succ_of_ne_zero (Nat.ne_of_gt hfuel)
    rw [Blocks.chainFrom, if_neg (by simp), hlast s rfl]
    rfl
  | cons next rest ih =>
    obtain ⟨fuel, rfl⟩ := Nat.exists_eq_succ_of_ne_zero (Nat.ne_of_gt (Nat.lt_of_lt_of_le (Nat.succ_pos _) hfuel))
    obtain ⟨hnext, hrest⟩ := List.isChain_cons_cons.1 hsuccessor
    rw [Blocks.chainFrom, if_neg (by simp), hnext]
    dsimp only
    have hlast' : ∀ t ∈ (next :: rest).getLast?, (final.get t.block).successor = none := by
      rwa [List.getLast?_cons_cons] at hlast
    rw [ih hrest hlast' (Nat.le_of_succ_le_succ hfuel)]
    rfl

/-- There are no more stretches than blocks. -/
theorem Stretched.length_le (hs : flow.Stretched h types size c) : c.all.length ≤ flow.blocks.size := by
  have hnodup : (c.all.map (·.block)).Nodup := by
    refine List.Nodup.map_on (fun s hmem s' hmem' => hs.eq_of_block hmem hmem') ?_
    exact List.Nodup.of_map _ (hs.sorted.imp fun hlt => Nat.ne_of_lt hlt)
  have hsub : c.all.map (·.block) ⊆ List.range flow.blocks.size := by
    intro j hj
    obtain ⟨s, hmem, rfl⟩ := List.mem_map.1 hj
    exact List.mem_range.2 (hs.lt_size hmem)
  have hle := (hnodup.subperm hsub).length_le
  rwa [List.length_map, List.length_range] at hle

/-- A walk along the blocks finds the stretches in the order of the code. -/
theorem Kept.chain_eq (he : Kept flow final) (hs : flow.Stretched h types size c) :
    final.chain flow.first = c.all.map (·.block) := by
  obtain ⟨first, hhead, hblock, -⟩ := hs.first
  have hlinked := he.linked hs
  have hlength := Nat.le_trans hs.length_le he.size
  cases hall : c.all with
  | nil =>
    rw [hall] at hhead
    cases hhead
  | cons s rest =>
    rw [hall] at hhead hlinked hlength
    obtain rfl := Option.some.inj hhead
    rw [← hblock]
    exact chainFrom_stretches hlinked.successor hlinked.last hlength

/-- What a block gives rise to: a frame if the map must have one there, or else a frame and a range
if it is never reached. -/
theorem collectBlock_spec (size : Nat) (final : Blocks) (state : FrameAnalysis × TypeTable) (i : Nat) :
    let b := final.get i
    let stop := (b.successor.map fun next => (final.get next).position).getD size
    let lost := !b.reachable && decide (stop > b.position)
    (collectBlock size final state i).1.offsets =
        state.1.offsets ++ (if b.frame.isSome && b.store then [b.position] else []) ++ (if lost then [b.position] else []) ∧
      (collectBlock size final state i).1.dead.toList = state.1.dead.toList ++ if lost then
        [(b.position, stop)] else [] := by
  obtain ⟨⟨maxStack, frames, dead⟩, types⟩ := state
  dsimp only
  unfold collectBlock FrameAnalysis.offsets
  dsimp only
  generalize final.get i = b
  generalize (b.successor.map fun next => (final.get next).position).getD size = stop
  cases hlost : (!b.reachable && decide (stop > b.position)) with
  | true => cases b.frame <;> cases b.store <;> simp
  | false => cases b.frame <;> cases b.store <;> simp

/-- What is collected from the block of a stretch: frames where the map must have one, or where the
stretch is never reached. -/
def framesIn (final : Blocks) (s : Stretch) : List Nat :=
  (if (final.get s.block).frame.isSome && (final.get s.block).store then [s.start] else []) ++
    if s.lost (·.reachedIn final) then [s.start] else []

/-- What the block of a stretch gives rise to. -/
theorem collectBlock_stretch {s : Stretch} {stop : Nat} (hposition : (final.get s.block).position = s.start)
    (hw : s.Within stop) (hstop : ((final.get s.block).successor.map fun next => (final.get next).position).getD size = stop)
    (state : FrameAnalysis × TypeTable) :
    (collectBlock size final state s.block).1.offsets = state.1.offsets ++ framesIn final s ∧
      (collectBlock size final state s.block).1.dead.toList =
        state.1.dead.toList ++ if s.lost (·.reachedIn final) then [(s.start, stop)] else [] := by
  have hlost : (!(final.get s.block).reachable && decide (stop > s.start)) = s.lost (·.reachedIn final) := by
    unfold Stretch.lost Stretch.reachedIn
    cases hbody : s.body with
    | nil => simp [hw.empty.1 hbody]
    | cons x xs =>
      have hne : s.start ≠ stop := fun heq => absurd (hw.empty.2 heq) (by simp [hbody])
      simp [Nat.lt_of_le_of_ne hw.extent hne]
  obtain ⟨hoffsets, hdead⟩ := collectBlock_spec size final state s.block
  rw [hstop, hposition, hlost] at hoffsets hdead
  exact ⟨hoffsets.trans (List.append_assoc _ _ _), hdead⟩

/-- Frames and unreachable ranges are those of the stretches. -/
theorem collectBlocks_stretches (hl : Linked final size ss) (state : FrameAnalysis × TypeTable) :
    ((ss.map (·.block)).foldl (collectBlock size final) state).1.offsets = state.1.offsets ++ ss.flatMap (framesIn final) ∧
      ((ss.map (·.block)).foldl (collectBlock size final) state).1.dead.toList =
        state.1.dead.toList ++ Stretch.ranges (Stretch.lost (·.reachedIn final)) size ss := by
  obtain ⟨hrow, hposition, hsuccessor, hlast⟩ := hl
  induction hrow generalizing state with
  | @last s hw =>
    have hstop : ((final.get s.block).successor.map fun next => (final.get next).position).getD size = size := by
      rw [hlast s rfl]
      rfl
    obtain ⟨hoffsets, hdead⟩ := collectBlock_stretch (hposition s List.mem_cons_self) hw hstop state
    refine ⟨?_, hdead.trans ?_⟩
    · rw [List.flatMap_singleton]
      exact hoffsets
    · simp [Stretch.ranges, Stretch.border]
  | @cons s next rest hw hlt hrest ih =>
    obtain ⟨hnext, hsuccessor⟩ := List.isChain_cons_cons.1 hsuccessor
    have hstop : ((final.get s.block).successor.map fun next => (final.get next).position).getD size = next.start := by
      rw [hnext]
      exact hposition next (List.mem_cons_of_mem s List.mem_cons_self)
    obtain ⟨hoffsets, hdead⟩ := collectBlock_stretch (hposition s List.mem_cons_self) hw hstop state
    have hlast' : ∀ t ∈ (next :: rest).getLast?, (final.get t.block).successor = none := by
      rwa [List.getLast?_cons_cons] at hlast
    obtain ⟨hoffsets', hdead'⟩ := ih (collectBlock size final state s.block)
      (fun t ht => hposition t (List.mem_cons_of_mem s ht)) hsuccessor
      hlast'
    rw [List.map_cons, List.foldl_cons]
    refine ⟨?_, ?_⟩
    · rw [hoffsets', hoffsets, List.append_assoc, ← List.flatMap_cons]
    · rw [hdead', hdead, List.append_assoc]
      rfl

/-- A stretch has one frame, if it is reached where jumps or handlers lead or never reached. -/
theorem Explored.framesIn_eq (he : Explored handlers flow final) (s : Stretch) :
    framesIn final s = if s.framed (·.reachedIn final) (·.targetIn final) then [s.start] else [] := by
  have hstored : ((final.get s.block).frame.isSome && (final.get s.block).store) =
    (s.reachedIn final && s.targetIn final) := by
    unfold Stretch.reachedIn Stretch.targetIn
    rw [he.store]
    cases hr : (final.get s.block).reachable with
    | false => exact Bool.and_false _
    | true => rw [he.framed _ hr, Bool.true_and]
  -- a stretch is reached or lost, and not both
  have honce : ∀ reached target empty : Bool,
      ((if reached && target then [s.start] else []) ++ if !reached && !empty then [s.start] else []) =
        if reached && target || !reached && !empty then [s.start] else [] := by
    intro reached target empty
    cases reached <;> cases target <;> cases empty <;> rfl
  unfold framesIn
  rw [hstored]
  exact honce _ _ _

/-- The unreachable ranges of a flow in stretches are those of stretches. -/
theorem Stretched.dead_eq (hs : flow.Stretched h types size c) (hu : flow.Unsolved h types) {m : Frame.Method}
    {analysis : FrameAnalysis} {flow' : ControlFlow} {types' : TypeTable}
    (hok : flow.computeFrames handlers m size types h = (.ok analysis, flow', types')) :
    ∃ final, analysis.dead.toList = Stretch.ranges (Stretch.lost (·.reachedIn final)) size c.all := by
  obtain ⟨covered, g, s, n, entry, found, hcovered, hm, hcollected⟩ := hs.collected hu hok
  have hkept := hcovered.kept hm
  obtain ⟨-, hdead⟩ := collectBlocks_stretches (hkept.linked hs) (⟨n, #[entry], #[]⟩, found)
  rw [← hkept.chain_eq hs, hcollected] at hdead
  exact ⟨s.blocks, hdead⟩

/-- What is computed of a flow in stretches: behind the one of the entry, frames stand where stretches have them, and the
ranges of unreachable code are those of stretches. -/
theorem Stretched.computeFrames (hs : flow.Stretched h types size c) (hu : flow.Unsolved h types)
    (hnamed : ∀ handler ∈ handlers, (flow.blocks.labels[handler.handler]?).isSome) {m : Frame.Method}
    {analysis : FrameAnalysis} {flow' : ControlFlow} {types' : TypeTable}
    (hok : flow.computeFrames handlers m size types h = (.ok analysis, flow', types')) :
    ∃ final, Explored handlers flow final ∧ analysis.offsets.tail = c.frames (·.reachedIn final) (·.targetIn final) ∧
      analysis.dead.toList = Stretch.ranges (Stretch.lost (·.reachedIn final)) size c.all := by
  obtain ⟨final, n, entry, found, he, hcollected⟩ := hs.explored hu hnamed hok
  have hsplit : ∀ (p : Stretch → Bool) (ss : List Stretch),
      (ss.flatMap fun s => if p s then [s.start] else []) = (ss.filter p).map (·.start) := by
    intro p ss
    induction ss with
    | nil => rfl
    | cons s rest ih => cases hp : p s <;> simp [hp, ih]
  obtain ⟨hoffsets, hdead⟩ := collectBlocks_stretches (he.kept.linked hs) (⟨n, #[entry], #[]⟩, found)
  rw [← he.kept.chain_eq hs, hcollected] at hoffsets hdead
  rw [funext he.framesIn_eq, hsplit] at hoffsets
  refine ⟨final, he, ?_, hdead⟩
  rw [hoffsets]
  rfl

end Collected

end ControlFlow

end ClassFile
