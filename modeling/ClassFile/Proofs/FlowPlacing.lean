import ClassFile.Proofs.FlowStretches

/-!
# Where stretches of code start

A block that is placed where the last stretch starts shares its block; otherwise the last stretch ends there and another one
starts. Behind an instruction that does not go on a stretch starts to which nothing leads. What is placed may have a label,
which then has its place (`Stretched.label`), or none (`Stretched.split`).
-/

namespace ClassFile

namespace ControlFlow

section Extend

variable {h : Hierarchy} {types : TypeTable} {flow flow' : ControlFlow} {size : Nat} {c : Course} {i : Nat}

/-- A block can be placed: it has a number, no stretch has it, and if it has a label, then one that can be led to. -/
structure Spare (flow : ControlFlow) (c : Course) (i : Nat) : Prop where
  lt : i < flow.blocks.size
  idle : (flow.blocks.get i).Idle i
  apart : ∀ s ∈ c.all, s.block ≠ i
  debug : (flow.blocks.get i).debug = false
  named : ∀ l : Label, flow.blocks.labels[l]? = some i → l.debug = false

/-- The last stretch ends, and a block starts behind it. -/
theorem Stretched.extend (hs : flow.Stretched h types size c) {falls followed jumped : Bool} (hlt : c.last.start < size)
    (hframed : flow'.analysis = flow.analysis) (hfirst : flow'.first = flow.first) (hprevious : flow'.previous = some i)
    (hcurrent : flow'.current = if followed then some i else none) (hlabels : flow'.blocks.labels = flow.blocks.labels)
    (hsize : flow.blocks.size ≤ flow'.blocks.size) (hapart : ∀ s ∈ c.all, s.block ≠ i)
    (hget : ∀ j, j ≠ c.last.block → j ≠ i → flow'.blocks.get j = flow.blocks.get j)
    (hbefore : flow'.blocks.get c.last.block = { flow.blocks.get c.last.block with
      successor := some i
      edges := if falls then (flow.blocks.get c.last.block).edges.push ⟨.normal 0, i⟩
        else (flow.blocks.get c.last.block).edges })
    (howner : (flow'.blocks.get i).owner = i) (hposition : (flow'.blocks.get i).position = size)
    (hresolved : (flow'.blocks.get i).resolved = true) (hedges : (flow'.blocks.get i).edges = #[])
    (hframe : (flow'.blocks.get i).frame = some Frame.empty) (hsuccessor : (flow'.blocks.get i).successor = none)
    (hjumped : jumped = true → (flow'.blocks.get i).target = true)
    (hnamed : ∀ l : Label, flow.blocks.labels[l]? = some i → followed = true ∧ l.debug = false ∧
      (flow'.blocks.get i).debug = false ∧
      (flow.blocks.get i).owner = i ∧ ((flow.blocks.get i).target = true → (flow'.blocks.get i).target = true)) :
    flow'.Stretched h types size ⟨c.done ++ [{ c.last with falls }], { block := i, start := size, followed, jumped }⟩ := by
  have hrest := TypeTable.Extends.refl types
  have hlast : { c.last with falls }.Holds h types flow'.blocks (some i) := by
    have hold := hs.last
    refine ⟨?_, ?_, ?_, fun l hl => by rw [hlabels]; exact hold.named l hl, ?_, ?_, ?_⟩
    all_goals
      dsimp only
      rw [hbefore]
    · exact hold.owner
    · exact hold.position
    · have hleads := hold.edges
      have hsame : c.last.edges flow'.blocks none = c.last.edges flow.blocks none :=
        Stretch.edges_congr hold.named fun _ _ h => hlabels.symm ▸ h
      unfold Stretch.edges at hleads hsame ⊢
      simp only [Option.toList_none, List.map_nil, ite_self, List.append_nil] at hleads hsame
      cases falls with
      | true => simp only [if_true, Array.toList_push, hleads, hsame, Option.toList_some, List.map_cons, List.map_nil]
      | false => simp only [Bool.false_eq_true, if_false, List.append_nil, hleads, hsame]
    · exact hold.frame
    · exact hold.target
  have hchain : (c.done ++ [{ c.last with falls }]).IsChain (Stretch.Precedes h types flow'.blocks) := by
    refine hs.chain_last hrest hs.consistent hlabels (fun s hmem => ?_) rfl rfl
    exact hget _ (hs.block_ne hmem) (hapart s (Course.mem_all.2 (Or.inl hmem)))
  have hfirst' : ∃ s, (c.done ++ { c.last with falls } :: [{ block := i, start := size, followed, jumped }]).head? = some s ∧
      s.block = flow.first ∧ s.start = 0 := hs.first_last (by rfl) (by rfl) _
  rw [← List.singleton_append, ← List.append_assoc] at hfirst'
  refine ⟨hframed.trans hs.framed, hfirst ▸ hfirst', hprevious, hcurrent, hs.consistent, ?_,
    ⟨howner, hposition, hsuccessor, fun l hl =>
    absurd hl List.not_mem_nil, by rw [hedges]; rfl, ⟨_, hframe, .nil hs.consistent⟩, hjumped⟩,
    ⟨Nat.le_refl _, ⟨fun _ => rfl, fun _ => rfl⟩, fun x hx => (nomatch hx), fun x hx => absurd hx List.not_mem_nil⟩, ?_⟩
  · refine List.isChain_append.2 ⟨hchain, List.isChain_singleton _, ?_⟩
    intro s hmem s' hs'
    obtain rfl := Option.some.inj hs'
    rw [List.getLast?_concat] at hmem
    obtain rfl := Option.some.inj hmem
    exact ⟨hlast, ⟨hs.within.extent, hs.within.empty, hs.within.head, hs.within.inside⟩, hlt⟩
  · refine hs.names.change ⟨hsize, hlabels, ?_, ?_, ?_, hapart, ?_, ?_, ?_, fun _ => hedges⟩
    · intro s hmem
      rcases Course.mem_all.1 hmem with hmem | rfl
      · exact ⟨s, Course.mem_all.2 (Or.inl (List.mem_append_left _ hmem)), rfl, rfl, fun hf => hf⟩
      · exact ⟨_, Course.mem_all.2 (Or.inl (List.mem_append_right _ (List.mem_singleton.2 rfl))), rfl, rfl, fun hf => hf⟩
    · intro s hmem
      rcases Course.mem_all.1 hmem with hmem | rfl
      · rcases List.mem_append.1 hmem with hmem | hmem
        · exact Or.inl ⟨s, Course.mem_all.2 (Or.inl hmem), rfl⟩
        · exact Or.inl ⟨c.last, c.last_mem_all, List.mem_singleton.1 hmem ▸ rfl⟩
      · exact Or.inr rfl
    · intro s hmem l hl
      rcases Course.mem_all.1 hmem with hmem | rfl
      · rcases List.mem_append.1 hmem with hmem | hmem
        · exact Or.inl ⟨s, Course.mem_all.2 (Or.inl hmem), hl⟩
        · obtain rfl := List.mem_singleton.1 hmem
          exact Or.inl ⟨c.last, c.last_mem_all, hl⟩
      · exact absurd hl List.not_mem_nil
    · intro j hji
      by_cases hj : j = c.last.block
      · subst hj
        rw [hbefore]
        exact ⟨rfl, rfl, rfl, rfl, fun ht => ht⟩
      · rw [hget j hj hji]
        exact ⟨rfl, rfl, rfl, rfl, fun ht => ht⟩
    · exact fun j hji hnot => hget j (fun heq => hnot _ c.last_mem_all heq.symm) hji
    · intro l hl
      obtain ⟨hfollowed, hd, hd', hown, htarget⟩ := hnamed l hl
      have hown' : flow'.blocks.owner i = i := howner
      exact ⟨hd, hd', hresolved, ⟨_, Course.last_mem_all _, howner, hposition, hfollowed⟩, hown, hown'.symm ▸ htarget⟩

/-- Where frames are computed, a block starts behind code that does not go on. -/
theorem noSuccessor_framed {j : Nat} (hframed : flow.analysis = .frames) (hprevious : flow.previous = some j) :
    flow.noSuccessor size = { flow with
      blocks := ((⟨flow.blocks.arena.push { owner := flow.blocks.size }, flow.blocks.labels⟩ : Blocks).modify
      flow.blocks.size fun b => { b with frame := some Frame.empty, resolved := true, position := size }).modify j
          fun b => { b with successor := some flow.blocks.size }
      previous := some flow.blocks.size, current := none } := by
  obtain ⟨analysis, blocks, first, current, previous, height, peak⟩ := flow
  obtain rfl : analysis = .frames := hframed
  obtain rfl : previous = some j := hprevious
  rfl

/-- Code ends that does not go on. -/
theorem Stretched.noSuccessor (hs : flow.Stretched h types size c) (hlt : c.last.start < size) :
    (flow.noSuccessor size).Stretched h types size (c.stop flow.blocks.size size) := by
  have hblock := hs.last.lt_size
  have hsize : (flow.blocks.arena.push { owner := flow.blocks.size }).size = flow.blocks.size + 1 := Array.size_push _
  have hne : flow.blocks.size ≠ c.last.block := Nat.ne_of_gt hblock
  rw [noSuccessor_framed hs.framed hs.previous]
  have hbefore := fun (j : Nat) => Blocks.get_push flow.blocks { owner := flow.blocks.size } flow.blocks.labels j
  have hgrown : Blocks.size ⟨flow.blocks.arena.push { owner := flow.blocks.size }, flow.blocks.labels⟩ =
    flow.blocks.size + 1 := hsize
  change ControlFlow.Stretched h types _ size ⟨c.done ++ [{ c.last with falls := false }],
    { block := flow.blocks.size, start := size, followed := false, jumped := false }⟩
  refine hs.extend hlt rfl rfl rfl rfl rfl ?_
    (fun s hmem heq => absurd (hs.lt_size hmem) (by omega)) ?_ ?_ ?_ ?_ ?_ ?_ ?_ ?_ (fun hj => (nomatch hj)) ?_
  · simp only [Blocks.size_modify, hgrown, Nat.le_succ]
  · intro j hjl hji
    simp only [Blocks.get_modify, Blocks.size_modify, hbefore, hjl, hji, false_and, if_false]
  · simp only [Blocks.get_modify, Blocks.size_modify, hbefore, hgrown, Ne.symm hne, false_and, if_false, true_and,
      Nat.lt_succ_of_lt hblock, if_true, Bool.false_eq_true]
  all_goals try simp only [Blocks.get_modify, Blocks.size_modify, hbefore, hgrown, hne, false_and, if_false, true_and,
      Nat.lt_succ_self, if_true]
  exact fun l hl => absurd (hs.names.labelled.bound l _ hl) (Nat.lt_irrefl _)

/-- A block shares that of the last stretch, which starts where the code ends. -/
theorem Stretched.share {jumped : Bool} (hs : flow.Stretched h types size c) (hspare : flow.Spare c i)
    (hjumped : jumped = true → (flow.blocks.get i).target = true) (hstart : c.last.start = size)
    (hframed : flow'.analysis = flow.analysis) (hfirst : flow'.first = flow.first)
    (hprevious : flow'.previous = flow.previous)
    (hcurrent : flow'.current = some c.last.block) (hlabels : flow'.blocks.labels = flow.blocks.labels)
    (hsize : flow.blocks.size ≤ flow'.blocks.size)
    (hget : ∀ j, j ≠ c.last.block → j ≠ i → flow'.blocks.get j = flow.blocks.get j)
    (hlast : flow'.blocks.get c.last.block =
      { flow.blocks.get c.last.block with target := (flow.blocks.get c.last.block).target || (flow.blocks.get i).target })
    (howner : (flow'.blocks.get i).owner = c.last.block) (hposition : (flow'.blocks.get i).position = size)
    (hresolved : (flow'.blocks.get i).resolved = true) (hedges : (flow'.blocks.get i).edges = #[])
    (hdebug : (flow'.blocks.get i).debug = false) :
    flow'.Stretched h types size ⟨c.done, { c.last with followed := true, jumped := c.last.jumped || jumped }⟩ := by
  have hrest := TypeTable.Extends.refl types
  have hall : ∀ s ∈ Course.all ⟨c.done, { c.last with followed := true, jumped := c.last.jumped || jumped }⟩,
      ∃ s' ∈ c.all, s'.block = s.block ∧ s'.leads = s.leads := by
    intro s hmem
    rcases Course.mem_all.1 hmem with hmem | rfl
    · exact ⟨s, Course.mem_all.2 (Or.inl hmem), rfl, rfl⟩
    · exact ⟨c.last, c.last_mem_all, rfl, rfl⟩
  have hold := hs.last
  have hfirst' : ∃ s, (c.done ++ { c.last with followed := true, jumped := c.last.jumped || jumped } :: []).head? = some s ∧
      s.block = flow.first ∧ s.start = 0 := hs.first_last (by rfl) (by rfl) []
  refine ⟨hframed.trans hs.framed, hfirst ▸ hfirst',
    hprevious.trans hs.previous, hcurrent, hs.consistent,
    hs.chain_last hrest hs.consistent hlabels (fun s hmem => ?_) rfl rfl, ?_,
    ⟨hs.within.extent, hs.within.empty, hs.within.head, hs.within.inside⟩, ?_⟩
  · exact hget _ (hs.block_ne hmem) (hspare.apart s (Course.mem_all.2 (Or.inl hmem)))
  · have hkept : Stretch.Holds h types flow'.blocks none { c.last with followed := true } := by
      have hsame : Stretch.Holds h types flow.blocks none { c.last with followed := true } :=
        ⟨hold.owner, hold.position, hold.successor, hold.named, hold.edges, hold.frame, hold.target⟩
      refine hsame.congr hrest hs.consistent
        (fun _ _ h => hlabels.symm ▸ h) ?_ ?_ ?_ ?_ ?_ ?_
      all_goals
        dsimp only
        rw [hlast]
      exact fun ht => Bool.or_eq_true_iff.2 (Or.inl ht)
    refine ⟨hkept.owner, hkept.position, hkept.successor, hkept.named, hkept.edges, hkept.frame, fun hj => ?_⟩
    rcases Bool.or_eq_true_iff.1 hj with hj | hj
    · exact hkept.target hj
    · dsimp only
      rw [hlast]
      exact Bool.or_eq_true_iff.2 (Or.inr (hjumped hj))
  · refine hs.names.change ⟨hsize, hlabels, ?_, ?_, ?_, hspare.apart, ?_, ?_, ?_, fun _ => hedges⟩
    · intro s hmem
      rcases Course.mem_all.1 hmem with hmem | rfl
      · exact ⟨s, Course.mem_all.2 (Or.inl hmem), rfl, rfl, fun hf => hf⟩
      · exact ⟨_, Course.last_mem_all _, rfl, rfl, fun _ => rfl⟩
    · intro s hmem
      obtain ⟨s', hmem', hblock, -⟩ := hall s hmem
      exact Or.inl ⟨s', hmem', hblock⟩
    · intro s hmem l hl
      obtain ⟨s', hmem', -, hleads⟩ := hall s hmem
      exact Or.inl ⟨s', hmem', hleads ▸ hl⟩
    · intro j hji
      by_cases hj : j = c.last.block
      · subst hj
        rw [hlast]
        refine ⟨rfl, rfl, rfl, rfl, fun ht => ?_⟩
        dsimp only
        rw [ht, Bool.true_or]
      · rw [hget j hj hji]
        exact ⟨rfl, rfl, rfl, rfl, fun ht => ht⟩
    · exact fun j hji hnot => hget j (fun heq => hnot _ c.last_mem_all heq.symm) hji
    · intro l hl
      have hown : flow'.blocks.owner i = c.last.block := howner
      refine ⟨hspare.named l hl, hdebug, hresolved, ⟨_, Course.last_mem_all _, howner, hposition.trans hstart.symm, rfl⟩,
        hspare.idle.owner, fun ht => ?_⟩
      rw [hown, hlast]
      dsimp only
      rw [ht, Bool.or_true]

/-- A block is placed where the last one starts. -/
theorem placeFramed_shared {j position : Nat} (hprevious : flow.previous = some j)
    (hcurrent : flow.current = none ∨ flow.current = some j) (hstarts : (flow.blocks.get j).position = position) :
    flow.placeFramed i position = { flow with
      blocks := (flow.blocks.modify j fun b => { b with target := b.target || (flow.blocks.get i).target }).modify i
        fun b => { b with owner := j, frame := if flow.current.isSome then b.frame else none }
      current := some j } := by
  obtain ⟨analysis, blocks, first, current, previous, height, peak⟩ := flow
  obtain rfl : previous = some j := hprevious
  have hhere : ((blocks.get j).position == position) = true := beq_iff_eq.2 hstarts
  unfold ControlFlow.placeFramed
  rcases hcurrent with hcurrent | hcurrent
  all_goals
    dsimp only at hcurrent
    subst hcurrent
    dsimp only
    first
    | rw [Option.filter_none]
      dsimp only [ControlFlow.addEdge]
      rw [Option.filter_some, if_pos hhere]
      rfl
    | rw [Option.filter_some, if_pos hhere]
      rfl

/-- A block is placed behind the last one. -/
theorem placeFramed_behind {j position : Nat} (hprevious : flow.previous = some j)
    (hcurrent : flow.current = none ∨ flow.current = some j) (hstarts : (flow.blocks.get j).position ≠ position) :
    flow.placeFramed i position = { flow with
      blocks := ((flow.addEdge (.normal 0) i).blocks.modify i fun b =>
        { b with frame := some (b.frame.getD Frame.empty) }).modify j fun b => { b with successor := some i }
      previous := some i, current := some i } := by
  obtain ⟨analysis, blocks, first, current, previous, height, peak⟩ := flow
  obtain rfl : previous = some j := hprevious
  have hhere : ¬((blocks.get j).position == position) = true := fun h => hstarts (beq_iff_eq.1 h)
  unfold ControlFlow.placeFramed
  rcases hcurrent with hcurrent | hcurrent
  · dsimp only at hcurrent
    subst hcurrent
    dsimp only
    rw [Option.filter_none]
    dsimp only [ControlFlow.addEdge]
    rw [Option.filter_some, if_neg hhere]
    rfl
  · dsimp only at hcurrent
    subst hcurrent
    dsimp only
    rw [Option.filter_some, if_neg hhere]
    dsimp only [ControlFlow.addEdge, ControlFlow.modify]
    rw [Option.filter_some, if_neg hhere]
    rfl

/-- A block is placed where the code ends. -/
theorem Stretched.placeFramed (hs : flow.Stretched h types size c) (hspare : flow.Spare c i) {jumped : Bool}
    (hjumped : jumped = true → (flow.blocks.get i).target = true) (code : Bytes) :
    ((flow.resolve i size code).1.placeFramed i size).Stretched h types size (c.place i size jumped) := by
  have hne : c.last.block ≠ i := hspare.apart _ c.last_mem_all
  have hlt := hs.last.lt_size
  have hi := hspare.lt
  have hidle := hspare.idle
  have hcurrent : flow.current = none ∨ flow.current = some c.last.block := by
    rw [hs.current]
    split
    · exact Or.inr rfl
    · exact Or.inl rfl
  have hposition : ((flow.resolve i size code).1.blocks.get c.last.block).position = c.last.start :=
    (congrArg Block.position (Blocks.get_modify_of_ne flow.blocks hne _)).trans hs.last.position
  by_cases hstart : c.last.start = size
  · have hplaced : (flow.resolve i size code).1.placeFramed i size = _ :=
      placeFramed_shared hs.previous hcurrent (hposition.trans hstart)
    have hcourse : c.place i size jumped = ⟨c.done, { c.last with followed := true, jumped := c.last.jumped || jumped }⟩ :=
      if_pos hstart
    rw [hplaced, hcourse]
    refine hs.share hspare hjumped hstart rfl rfl rfl rfl rfl ?_ ?_ ?_ ?_ ?_ ?_ ?_ ?_
    all_goals dsimp only [ControlFlow.resolve, Blocks.resolve]
    · simp only [Blocks.size_modify, Nat.le_refl]
    · intro j hjl hji
      simp only [Blocks.get_modify, hjl, hji, false_and, if_false]
    all_goals simp only [Blocks.get_modify, Blocks.size_modify, hne, Ne.symm hne, hlt, hi, false_and,
      if_false, and_self, if_true]
    · exact hidle.edges
    · exact hspare.debug
  · have hplaced : (flow.resolve i size code).1.placeFramed i size = _ :=
      placeFramed_behind hs.previous hcurrent fun h => hstart (hposition.symm.trans h)
    have hcourse : c.place i size jumped =
        ⟨c.done ++ [{ c.last with falls := c.last.followed }], { block := i, start := size, followed := true, jumped }⟩ :=
        if_neg hstart
    have hnow : (flow.resolve i size code).1.current = if c.last.followed then some c.last.block else none := hs.current
    rw [hplaced, hcourse]
    unfold ControlFlow.addEdge
    rw [hnow]
    cases c.last.followed
    all_goals
      refine hs.extend (Nat.lt_of_le_of_ne hs.within.extent hstart) rfl rfl rfl rfl rfl ?_ hspare.apart ?_ ?_ ?_ ?_
        ?_ ?_ ?_ ?_ ?_ ?_
      all_goals dsimp only [ControlFlow.resolve, Blocks.resolve, ControlFlow.modify]
      · simp only [Blocks.size_modify, Nat.le_refl, if_true, Bool.false_eq_true, if_false]
      · intro j hjl hji
        simp only [Blocks.get_modify, hjl, hji, false_and, if_false, if_true, Bool.false_eq_true]
      all_goals simp only [Blocks.get_modify, Blocks.size_modify, hne, Ne.symm hne, hlt, hi, false_and,
        if_false, and_self, if_true, Bool.false_eq_true]
      · exact hidle.owner
      · exact hidle.edges
      · rw [hidle.frame]
        rfl
      · exact hidle.successor
      · exact hjumped
      · exact fun l hl => ⟨trivial, hspare.named l hl, hspare.debug, hidle.owner, fun ht => ht⟩

/-- A block without a label can be made and is still to be placed. -/
theorem Stretched.fresh (hs : flow.Stretched h types size c) :
    flow.fresh.2.Stretched h types size c ∧ flow.fresh.2.Spare c flow.fresh.1 := by
  have hcalm := flow.blocks.calm_fresh
  have hsize : flow.fresh.2.blocks.size = flow.blocks.size + 1 := Array.size_push _
  have hlt : flow.fresh.1 < flow.fresh.2.blocks.size := hsize ▸ Nat.lt_succ_self _
  have hget : flow.fresh.2.blocks.get flow.fresh.1 = { owner := flow.blocks.size } :=
    (Blocks.get_push _ _ _ _).trans (if_pos rfl)
  refine ⟨hs.keep hcalm, hlt, (hcalm.added _ (Nat.le_refl _)).2.2 hlt, fun s hmem heq => ?_, by rw [hget], fun l hl => ?_⟩
  · exact absurd (hs.lt_size hmem) (by rw [heq]; exact Nat.lt_irrefl _)
  · exact absurd (hs.names.labelled.bound l _ hl) (Nat.lt_irrefl _)

/-- A block that jumps lead to can be placed as before. -/
theorem Spare.markTarget (hspare : flow.Spare c i) (j : Nat) : (flow.markTarget j).Spare c i := by
  have hlike := (Blocks.Calm.modify flow.blocks (flow.blocks.owner j) (f := fun b => { b with target := true })
    fun _ => ⟨rfl, rfl, rfl, rfl, rfl, rfl, rfl, fun _ => rfl⟩).get i hspare.lt
  have hidle := hspare.idle
  refine ⟨?_, ⟨hlike.owner.trans hidle.owner, hlike.edges.trans hidle.edges, hlike.frame.trans hidle.frame,
    hlike.successor.trans hidle.successor⟩, hspare.apart, hlike.debug.trans hspare.debug, hspare.named⟩
  rw [ControlFlow.markTarget, ControlFlow.modify_eq]
  dsimp only
  rw [Blocks.size_modify]
  exact hspare.lt

/-- A block that is placed starts a stretch, unless the last one starts there too. -/
theorem Stretched.place {code : Bytes} (hs : flow.Stretched h types code.size c) (hspare : flow.Spare c i) {jumped : Bool}
    (hjumped : jumped = true → (flow.blocks.get i).target = true) :
    (flow.place i code).1.Stretched h types code.size (c.place i code.size jumped) := by
  have hdebug : ((flow.resolve i code.size code).1.blocks.get i).debug = false :=
    (Blocks.get_modify_field Block.debug flow.blocks i rfl i).trans hspare.debug
  have hframed : (flow.resolve i code.size code).1.analysis = .frames := hs.framed
  have hplace : (flow.place i code).1 = (flow.resolve i code.size code).1.placeFramed i code.size := by
    unfold ControlFlow.place
    dsimp only
    rw [hdebug, if_neg Bool.false_ne_true, hframed]
  rw [hplace]
  exact hs.placeFramed hspare hjumped code

/-- Splitting a block starts a stretch. -/
theorem Stretched.split {code : Bytes} (hs : flow.Stretched h types code.size c) :
    (flow.split code).1.Stretched h types code.size (c.place flow.blocks.size code.size false) :=
  hs.fresh.1.place hs.fresh.2 fun hj => (nomatch hj)

/-- A label that serves debug information only gets its place. -/
theorem Stretched.resolve {l : Label} {i : Nat} (hs : flow.Stretched h types size c) (hl : flow.blocks.labels[l]? = some i)
    (hdebug : l.debug = true) (code : Bytes) : (flow.resolve i size code).1.Stretched h types size c := by
  obtain ⟨hidle, hapart⟩ := (hs.names.known l i hl).idle (Or.inr hdebug)
  have hblocks : (flow.resolve i size code).1.blocks =
      flow.blocks.modify i fun b => { b with resolved := true, position := size, references := #[] } := rfl
  have hget : ∀ j ≠ i, (flow.resolve i size code).1.blocks.get j = flow.blocks.get j :=
    fun j hj => Blocks.get_modify_of_ne _ hj _
  have howner : ∀ j, (flow.resolve i size code).1.blocks.owner j = flow.blocks.owner j :=
    fun j => Blocks.get_modify_field Block.owner flow.blocks i rfl j
  have hholds : ∀ s ∈ c.all, ∀ next, s.Holds h types flow.blocks next →
    s.Holds h types (flow.resolve i size code).1.blocks next :=
    fun s hmem next hold => hold.same (TypeTable.Extends.refl _) hs.consistent (fun _ _ h => h) (hget _ (hapart s hmem))
  refine ⟨hs.framed, hs.first, hs.previous, hs.current, hs.consistent, ?_, ?_, hs.within,
    hs.names.labelled.modify i _, ?_, ?_, ?_⟩
  · exact hs.chain.imp_of_mem_imp fun s s' hmem _ hp => ⟨hholds s hmem _ hp.holds, hp.within, hp.lt⟩
  · exact hholds _ c.last_mem_all _ hs.last
  · intro s hmem l' hl' j hj
    rw [howner]
    exact (Blocks.get_modify_field Block.target flow.blocks i rfl _).trans (hs.names.marked s hmem l' hl' j hj)
  · intro l' j hj
    by_cases hji : j = i
    · subst hji
      obtain rfl := hs.names.labelled.unique l' l j hj hl
      refine ⟨(Blocks.get_modify_field Block.debug flow.blocks j rfl j).trans (hs.names.known l' j hl).debug,
        fun _ hd => absurd (hdebug.symm.trans hd) (fun e => nomatch e), fun _ => ⟨?_, hapart⟩⟩
      rw [hblocks, Blocks.get_modify_self (hs.names.labelled.bound l' j hl)]
      exact ⟨hidle.owner, hidle.edges, hidle.frame, hidle.successor⟩
    · rw [hget j hji]
      exact hs.names.known l' j hj
  · intro j hj
    exact (Blocks.get_modify_field Block.edges flow.blocks i rfl j).trans (hs.names.others j hj)

/-- A label is placed, for the first time. -/
theorem Stretched.label {code : Bytes} (hs : flow.Stretched h types code.size c) {l : Label}
    (hnew : flow.blocks.position l = none) :
    (flow.label l code).1.Stretched h types code.size (if l.debug then c else c.place (flow.index l).1 code.size false) := by
  have hindexed := hs.index l
  have hname := flow.labels_index l
  have hneutral := flow.neutral_index l
  have hresolved : ((flow.index l).2.blocks.get (flow.index l).1).resolved = false :=
    Blocks.resolved_eq_false hname ((hneutral.position l).trans hnew)
  have hknown := hindexed.names.known l _ hname
  unfold ControlFlow.label
  dsimp only
  cases hdebug : l.debug with
  | true =>
    have hplace : ((flow.index l).2.place (flow.index l).1 code).1 =
      ((flow.index l).2.resolve (flow.index l).1 code.size code).1 := by
      have hd : (((flow.index l).2.resolve (flow.index l).1 code.size code).1.blocks.get (flow.index l).1).debug = true :=
        (Blocks.get_modify_field Block.debug (flow.index l).2.blocks (flow.index l).1 rfl _).trans
          (hknown.debug.trans hdebug)
      unfold ControlFlow.place
      dsimp only
      rw [hd, if_pos rfl]
    rw [hplace, if_pos rfl]
    exact hindexed.resolve hname hdebug code
  | false =>
    obtain ⟨hidle, hapart⟩ := hknown.idle (Or.inl hresolved)
    rw [if_neg Bool.false_ne_true]
    refine hindexed.place ⟨hindexed.names.labelled.bound l _ hname, hidle, hapart,
      hknown.debug.trans hdebug, fun l' hl' => ?_⟩ fun hj => (nomatch hj)
    rw [hindexed.names.labelled.unique l' l _ hl' hname]
    exact hdebug

/-- At the start the first block stands for the first stretch. -/
theorem stretched_start (hc : TypeTable.Consistent h types) : (start .frames).Stretched h types 0 Course.start := by
  have hstart : start .frames = ⟨.frames,
      ⟨#[{ pushed := true, resolved := true, frame := some Frame.empty }], ∅⟩, 0, some 0, some 0, 0, 0⟩ := rfl
  have hnone : ∀ (l : Label) (i : Nat), ¬((∅ : Std.HashMap Label Nat)[l]? = some i) := fun l i h => by simp at h
  rw [hstart]
  refine ⟨rfl, ⟨_, rfl, rfl, rfl⟩, rfl, rfl, hc, List.isChain_singleton _,
    ⟨rfl, rfl, rfl, fun l hl => absurd hl List.not_mem_nil, rfl, ⟨_, rfl, .nil hc⟩, fun hj => (nomatch hj)⟩,
    ⟨Nat.le_refl _, ⟨fun _ => rfl, fun _ => rfl⟩, fun x hx => (nomatch hx), fun x hx => absurd hx List.not_mem_nil⟩,
    ⟨fun l i h => absurd h (hnone l i), fun l _ i h => absurd h (hnone l i)⟩,
    ?_, fun l i h => absurd h (hnone l i), fun i hi => ?_⟩
  · intro s hmem l hl
    obtain rfl : s = _ := List.mem_singleton.1 hmem
    exact absurd hl List.not_mem_nil
  · cases i with
    | zero => exact absurd rfl (hi _ (Course.last_mem_all _))
    | succ i => rfl

end Extend

end ControlFlow

end ClassFile
