import ClassFile.Proofs.SearchedStretches

/-!
# Ranges of handlers

A handler adds an edge to the block of every stretch from where its range starts up to where this stops, and no handler takes
an edge away (`ControlFlow.Stretched.handled`).
-/

namespace ClassFile

namespace ControlFlow

section Ranges

variable {h : Hierarchy} {types : TypeTable} {flow : ControlFlow} {size : Nat} {c : Course}
  {handlers : List Handler} {handler : Handler}
variable {blocks : Blocks} {ss : List Stretch} {s t : Stretch}

/-- Edges are added to all blocks of a list, and none is taken away. -/
theorem mem_edges_addEdges (flow : ControlFlow) (e : Edge) (bs : List Nat) {e' : Edge} {j : Nat} (hj : j < flow.blocks.size)
    (he : e' ∈ (flow.blocks.get j).edges ∨ j ∈ bs ∧ e' = e) : e' ∈ ((flow.addEdges e bs).blocks.get j).edges := by
  unfold ControlFlow.addEdges
  induction bs generalizing flow with
  | nil => exact he.resolve_right fun hmem => List.not_mem_nil hmem.1
  | cons i rest ih =>
    rw [List.foldl_cons]
    refine ih _ (by rwa [modify_eq, Blocks.size_modify]) ?_
    rw [modify_eq]
    dsimp only
    rw [Blocks.get_modify]
    split
    · rename_i hi
      rcases he with he | ⟨hmem, rfl⟩
      · exact Or.inl (Array.mem_push.2 (Or.inl (hi.1 ▸ he)))
      · exact Or.inl (Array.mem_push_self)
    · rename_i hi
      refine he.imp_right fun hmem => ⟨(List.mem_cons.1 hmem.1).resolve_left fun heq => hi ⟨heq, heq ▸ hj⟩, hmem.2⟩

/-- Only blocks of the arena have edges. -/
theorem lt_size_of_edge {e : Edge} {j : Nat} (he : e ∈ (blocks.get j).edges) : j < blocks.size := by
  refine Nat.lt_of_not_le fun hle => ?_
  rw [Blocks.get_of_size_le hle] at he
  exact Array.not_mem_empty e he

/-- A handler takes no edge away. -/
theorem edges_addFramedHandler (flow : ControlFlow) (types : TypeTable) (handler : Handler) {e : Edge} {j : Nat}
    (he : e ∈ (flow.blocks.get j).edges) : e ∈ ((addFramedHandler (flow, types) handler).1.blocks.get j).edges := by
  have hindex := flow.blocks.calm_index handler.handler
  have hmark : (flow.index handler.handler).2.blocks.Calm
    ((flow.index handler.handler).2.markTarget (flow.index handler.handler).1).blocks :=
    Blocks.Calm.modify _ _ fun _ => ⟨rfl, rfl, rfl, rfl, rfl, rfl, rfl, fun _ => rfl⟩
  have hmarked : flow.blocks.Calm ((flow.index handler.handler).2.markTarget (flow.index handler.handler).1).blocks :=
    hindex.trans hmark
  have hj := lt_size_of_edge he
  unfold ControlFlow.addFramedHandler coveredBlocks
  dsimp only
  generalize (flow.index handler.handler).2.markTarget (flow.index handler.handler).1 = marked at *
  have hcalm := hmarked.trans ((marked.blocks.calm_index handler.start).trans
    ((marked.index handler.start).2.blocks.calm_index handler.stop))
  exact mem_edges_addEdges _ _ _ (Nat.lt_of_lt_of_le hj hcalm.size) (Or.inl ((hcalm.get j hj).edges.symm ▸ he))

/-- Adding handlers takes no edge away. -/
theorem edges_addFramedHandlers (flow : ControlFlow) (types : TypeTable) (handlers : List Handler) {e : Edge} {j : Nat}
    (he : e ∈ (flow.blocks.get j).edges) : e ∈ ((handlers.foldl addFramedHandler (flow, types)).1.blocks.get j).edges := by
  induction handlers generalizing flow types with
  | nil => exact he
  | cons handler rest ih =>
    rw [List.foldl_cons]
    exact ih _ _ (edges_addFramedHandler flow types handler he)

/-- A label that a handler is the first to name has a block of its own. -/
theorem named_addFramedHandler (flow : ControlFlow) (types : TypeTable) (handler : Handler) {l : Label} {i : Nat}
    (hl : (addFramedHandler (flow, types) handler).1.blocks.labels[l]? = some i) :
    flow.blocks.labels[l]? = some i ∨ flow.blocks.size ≤ i ∧ i < (addFramedHandler (flow, types) handler).1.blocks.size ∧
      (addFramedHandler (flow, types) handler).1.blocks.owner i = i := by
  have hindex := flow.blocks.calm_index handler.handler
  have hmark : (flow.index handler.handler).2.blocks.Calm
    ((flow.index handler.handler).2.markTarget (flow.index handler.handler).1).blocks :=
    Blocks.Calm.modify _ _ fun _ => ⟨rfl, rfl, rfl, rfl, rfl, rfl, rfl, fun _ => rfl⟩
  have hmarked : flow.blocks.Calm ((flow.index handler.handler).2.markTarget (flow.index handler.handler).1).blocks :=
    hindex.trans hmark
  unfold ControlFlow.addFramedHandler coveredBlocks at hl ⊢
  dsimp only at hl ⊢
  generalize (flow.index handler.handler).2.markTarget (flow.index handler.handler).1 = marked at *
  have hcalm : flow.blocks.Calm ((marked.index handler.start).2.index handler.stop).2.blocks :=
    hmarked.trans ((marked.blocks.calm_index handler.start).trans
      ((marked.index handler.start).2.blocks.calm_index handler.stop))
  generalize ((marked.index handler.start).2.index handler.stop).2 = ranged at *
  obtain ⟨-, -, hjoined⟩ := joined_addEdges ranged
    ⟨.exception (.object (types.addNormal (handler.catchType.getD throwableClass)).1),
    marked.blocks.owner (flow.index handler.handler).1⟩
    (ranged.blocks.chainFrom (some (ranged.blocks.owner ((marked.index handler.start).2.index handler.stop).1))
    ranged.blocks.size (ranged.blocks.owner (marked.index handler.start).1))
  rw [hjoined.labels] at hl
  rw [hjoined.size]
  refine (hcalm.named l i hl).imp_right fun ⟨hle, hlt, _⟩ => ⟨hle, hlt, ?_⟩
  obtain ⟨edges, hget, -⟩ := hjoined.block i
  exact (congrArg Block.owner hget).trans ((hcalm.added i hle).2.2 hlt).owner

/-- A label that has a block after handlers were added had it before, or its block is a new one that owns itself. -/
theorem named_addFramedHandlers (ho : flow.blocks.Owned) (hlabelled : flow.blocks.Labelled) (types : TypeTable)
    (handlers : List Handler)
    {l : Label} {i : Nat} (hl : (handlers.foldl addFramedHandler (flow, types)).1.blocks.labels[l]? = some i) :
    flow.blocks.labels[l]? = some i ∨ flow.blocks.size ≤ i ∧
    (handlers.foldl addFramedHandler (flow, types)).1.blocks.owner i = i := by
  induction handlers generalizing flow types with
  | nil => exact Or.inl hl
  | cons handler rest ih =>
    obtain ⟨hcovered, howned, hlabelled'⟩ := covered_addFramedHandler ho hlabelled types handler
    have hnamed := fun i => named_addFramedHandler flow types handler (l := l) (i := i)
    rw [List.foldl_cons] at hl ⊢
    generalize addFramedHandler (flow, types) handler = state at *
    rcases ih howned hlabelled' state.2 hl with hl | ⟨hle, howner⟩
    · refine (hnamed i hl).imp_right fun ⟨hle, hlt, howner⟩ => ⟨hle, ?_⟩
      exact ((covered_addFramedHandlers howned hlabelled' state.2 rest).owner i hlt).trans howner
    · exact Or.inr ⟨Nat.le_trans hcovered.size hle, howner⟩

/-- The chain of blocks goes on through stretches as long as none of them has the block where it stops. -/
theorem mem_chainFrom {stop : Option Nat} {fuel : Nat}
    (hsuccessor : (s :: ss).IsChain fun s s' => (blocks.get s.block).successor = some s'.block)
    (hstop : ∀ x ∈ s :: ss, stop ≠ some x.block) (hfuel : (s :: ss).length ≤ fuel) (hmem : t ∈ s :: ss) :
    t.block ∈ blocks.chainFrom stop fuel s.block := by
  induction ss generalizing s fuel with
  | nil =>
    obtain ⟨fuel, rfl⟩ := Nat.exists_eq_succ_of_ne_zero (Nat.ne_of_gt hfuel)
    obtain rfl := List.mem_singleton.1 hmem
    rw [Blocks.chainFrom, if_neg (hstop t hmem)]
    exact List.mem_cons_self
  | cons next rest ih =>
    obtain ⟨fuel, rfl⟩ := Nat.exists_eq_succ_of_ne_zero (Nat.ne_of_gt (Nat.lt_of_lt_of_le (Nat.succ_pos _) hfuel))
    obtain ⟨hnext, hrest⟩ := List.isChain_cons_cons.1 hsuccessor
    rw [Blocks.chainFrom, if_neg (hstop s List.mem_cons_self), hnext]
    rcases List.mem_cons.1 hmem with rfl | hmem
    · exact List.mem_cons_self
    · exact List.mem_cons_of_mem _ (ih hrest (fun x hx => hstop x (List.mem_cons_of_mem s hx))
        (Nat.le_of_succ_le_succ hfuel) hmem)

/-- A handler adds an edge to each block of its range. -/
theorem exists_edge_addFramedHandler (types : TypeTable) {start stop target : Nat}
    (hstart : flow.blocks.labels[handler.start]? = some start) (hstop : flow.blocks.labels[handler.stop]? = some stop)
    (htarget : flow.blocks.labels[handler.handler]? = some target) {j : Nat} (hj : j < flow.blocks.size)
    (hmem : j ∈ flow.blocks.chainFrom (some (flow.blocks.owner stop)) flow.blocks.size (flow.blocks.owner start)) :
    ∃ e ∈ ((addFramedHandler (flow, types) handler).1.blocks.get j).edges, e.kind.handled.isSome = true ∧
      e.target = flow.blocks.owner target := by
  have hmarked : ∀ {α : Type} (p : Block → α), (∀ (b : Block), p { b with target := true } = p b) →
      ∀ j, p ((flow.markTarget target).blocks.get j) = p (flow.blocks.get j) := fun p hp j =>
    Blocks.get_modify_field p flow.blocks (flow.blocks.owner target) (hp _) j
  have howner : ∀ j, (flow.markTarget target).blocks.owner j = flow.blocks.owner j := hmarked Block.owner fun _ => rfl
  have hsize : (flow.markTarget target).blocks.size = flow.blocks.size := Blocks.size_modify _ _ _
  have hchain : ∀ stop fuel i, (flow.markTarget target).blocks.chainFrom stop fuel i =
    flow.blocks.chainFrom stop fuel i := by
    intro stop fuel
    induction fuel with
    | zero => exact fun _ => rfl
    | succ fuel ih =>
      intro i
      rw [Blocks.chainFrom, Blocks.chainFrom, hmarked Block.successor (fun _ => rfl) i]
      split
      · rfl
      · cases (flow.blocks.get i).successor with
        | none => rfl
        | some next => exact congrArg (i :: ·) (ih next)
  unfold ControlFlow.addFramedHandler coveredBlocks
  dsimp only
  rw [index_known htarget]
  dsimp only
  rw [index_known (show (flow.markTarget target).blocks.labels[handler.start]? = some start from hstart)]
  dsimp only
  rw [index_known (show (flow.markTarget target).blocks.labels[handler.stop]? = some stop from hstop)]
  dsimp only
  rw [howner, howner, howner, hsize, hchain]
  exact ⟨_, mem_edges_addEdges _ _ _ (hsize ▸ hj) (Or.inr ⟨hmem, rfl⟩), rfl, rfl⟩

/-- A handler leads from the block of each stretch of its range to its own block. -/
theorem Stretched.handled (hs : flow.Stretched h types size c) (hmem : handler ∈ handlers) {start stop target : Nat}
    (hstart : flow.blocks.labels[handler.start]? = some start) (hstop : flow.blocks.labels[handler.stop]? = some stop)
    (htarget : flow.blocks.labels[handler.handler]? = some target) {s₀ : Stretch} (hmem₀ : s₀ ∈ c.all)
    (howner₀ : flow.blocks.owner start = s₀.block) (hmem' : s ∈ c.all) (hle : s₀.start ≤ s.start)
    (hbefore : ∀ s₁ ∈ c.all, s₁.block = flow.blocks.owner stop → s.start < s₁.start) :
    let covered := (handlers.foldl addFramedHandler (flow, types)).1
    ∃ e ∈ (covered.blocks.get s.block).edges, e.kind.handled.isSome = true ∧ covered.blocks.owner e.target =
      flow.blocks.owner target := by
  dsimp only
  -- the stretches of the range up to this one
  obtain ⟨before, rest, hall⟩ := List.append_of_mem hmem₀
  have hsorted := hs.sorted
  rw [hall, List.map_append, List.map_cons, List.pairwise_append] at hsorted
  have hlater : s ∈ s₀ :: rest := by
    rw [hall] at hmem'
    refine (List.mem_append.1 hmem').resolve_left fun hmem => ?_
    have hlt := hsorted.2.2 _ (List.mem_map_of_mem hmem) s₀.start List.mem_cons_self
    omega
  obtain ⟨mid, after, hrest⟩ := List.append_of_mem hlater
  have hupto : ∀ x ∈ mid ++ [s], x.start ≤ s.start := by
    intro x hx
    rcases List.mem_append.1 hx with hx | hx
    · have hrange := hsorted.2.1
      rw [← List.map_cons, hrest, List.map_append, List.pairwise_append] at hrange
      exact Nat.le_of_lt (hrange.2.2 _ (List.mem_map_of_mem hx) s.start List.mem_cons_self)
    · rw [List.mem_singleton.1 hx]
  have hin : ∀ x ∈ mid ++ [s], x ∈ c.all := by
    intro x hx
    rw [hall, hrest]
    refine List.mem_append_right _ ?_
    rw [List.append_cons]
    exact List.mem_append_left _ hx
  have hsuccessor : (mid ++ [s]).IsChain fun s s' => (flow.blocks.get s.block).successor = some s'.block := by
    have hchain := hs.chain
    rw [hall, hrest, List.append_cons] at hchain
    exact (List.isChain_append.1 (List.isChain_append.1 hchain).2.1).1.imp fun _ _ hp => hp.holds.successor
  obtain ⟨ss, hss⟩ : ∃ ss, mid ++ [s] = s₀ :: ss := by
    cases mid with
    | nil =>
      obtain ⟨rfl, -⟩ := List.cons.inj hrest
      exact ⟨[], rfl⟩
    | cons x mid =>
      obtain ⟨rfl, -⟩ := List.cons.inj hrest
      exact ⟨mid ++ [s], rfl⟩
  rw [hss] at hin hupto hsuccessor
  have hlast : s ∈ s₀ :: ss := hss ▸ List.mem_append_right _ (List.mem_singleton_self s)
  have hlength : (s₀ :: ss).length ≤ flow.blocks.size := by
    refine Nat.le_trans ?_ hs.length_le
    rw [← hss, hall, hrest]
    simp only [List.length_append, List.length_cons, List.length_nil]
    omega
  -- the flow that the handlers before this one have left
  obtain ⟨first, last, rfl⟩ := List.append_of_mem hmem
  have hcovered := covered_addFramedHandlers hs.owned hs.names.labelled types first
  have hall := covered_addFramedHandlers hs.owned hs.names.labelled types (first ++ handler :: last)
  have hbound := hs.names.labelled.bound
  rw [List.foldl_append, List.foldl_cons] at hall ⊢
  generalize first.foldl addFramedHandler (flow, types) = r at hcovered hall ⊢
  obtain ⟨covered, middle⟩ := r
  dsimp only at hcovered hall ⊢
  have hlt : ∀ x ∈ s₀ :: ss, x.block < flow.blocks.size := fun x hx => hs.lt_size (hin x hx)
  have hown : ∀ {l : Label} {i : Nat}, flow.blocks.labels[l]? = some i →
    covered.blocks.owner i = flow.blocks.owner i := fun hl =>
    hcovered.owner _ (hbound _ _ hl)
  obtain ⟨e, he, hhandled, heq⟩ := exists_edge_addFramedHandler middle (hcovered.labels _ _ hstart)
    (hcovered.labels _ _ hstop) (hcovered.labels _ _ htarget) (Nat.lt_of_lt_of_le (hlt s hlast) hcovered.size) (by
      rw [hown hstart, hown hstop, howner₀]
      refine mem_chainFrom ?_ (fun x hx heq => ?_) (Nat.le_trans hlength hcovered.size) hlast
      · refine List.isChain_iff_forall_rel_of_append_cons_cons.2 fun x x' before after hsplit => ?_
        rw [hcovered.successor _ (hlt x (by rw [hsplit]; simp))]
        exact List.isChain_iff_forall_rel_of_append_cons_cons.1 hsuccessor hsplit
      · have := hbefore x (hin x hx) (Option.some.inj heq).symm
        have := hupto x hx
        omega)
  refine ⟨e, edges_addFramedHandlers _ _ last he, hhandled, ?_⟩
  obtain ⟨howned, hself⟩ := hs.owned _ _ htarget
  rw [heq, hown htarget]
  exact (hall.owner _ howned).trans hself

end Ranges

end ControlFlow

end ClassFile
