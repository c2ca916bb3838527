import ClassFile.Proofs.StretchCuts
import ClassFile.Proofs.FoundFrames
import ClassFile.Proofs.FrameTracking
import ClassFile.Proofs.HandlerRanges
import Mathlib.Algebra.BigOperators.Ring.List
import Mathlib.Algebra.Ring.Nat

/-!
# What the search has found of stretches

The blocks that the search comes to are those of stretches that are followed (`ControlFlow.Found.exists_stretch`). Their
frames have followed the instructions of the stretches (`ControlFlow.Found.traced`), and their stacks are no higher than
what all instructions put there.
-/

namespace ClassFile

open ControlFlow.Search (total enteredHeight)

/-- A frame that does what another one does, with an input of its own. -/
theorem Frame.eq_on_of_effect {f g : Frame} (he : f.effect = g.effect) (hf : f.entered = true) :
    f = g.on f.locals f.stack := by
  obtain ⟨locals, stack, outLocals, outStack, consumed, peak, constructed, entered⟩ := f
  obtain ⟨locals', stack', outLocals', outStack', consumed', peak', constructed', entered'⟩ := g
  simp only [Frame.effect, Frame.mk.injEq] at he
  simp_all [Frame.on]

namespace ControlFlow

section Found

variable {h : Hierarchy} {types found : TypeTable} {flow covered : ControlFlow} {size count : Nat}
  {c : Course} {handlers : List Handler}
variable {className : String} {final : Blocks} {place : Label → Nat} {s : Stretch}

/-- A block with a frame that shares the block of a label is that of a stretch that is followed. -/
theorem Stretched.exists_named (hs : flow.Stretched h types size c) {l : Label} {i : Nat}
    (hl : flow.blocks.labels[l]? = some i) (hframe : (flow.blocks.get (flow.blocks.owner i)).frame.isSome = true) :
    ∃ s ∈ c.all, s.block = flow.blocks.owner i ∧ s.followed = true := by
  have hknown := hs.names.known l i hl
  by_cases hr : (flow.blocks.get i).resolved = true ∧ l.debug = false
  · obtain ⟨s, hmem, howner, -, hfollowed⟩ := hknown.placed hr.1 hr.2
    exact ⟨s, hmem, howner.symm, hfollowed⟩
  · rw [not_and, Bool.not_eq_false] at hr
    obtain ⟨hidle, -⟩ := hknown.idle ((Bool.eq_false_or_eq_true _).symm.imp_right hr)
    rw [show flow.blocks.owner i = i from hidle.owner, hidle.frame] at hframe
    cases hframe

/-- An edge of a flow leads to the block of a stretch that is followed, if this has a frame. -/
theorem Stretched.exists_behind (hs : flow.Stretched h types size c) (hc : c.Regular place) {i : Nat} {e : Edge}
    (he : e ∈ (flow.blocks.get i).edges) : e.target < flow.blocks.size ∧
      ((flow.blocks.get (flow.blocks.owner e.target)).frame.isSome = true →
        ∃ s ∈ c.all, s.block = flow.blocks.owner e.target ∧ s.followed = true) := by
  obtain ⟨s, hmem, rfl⟩ : ∃ s ∈ c.all, s.block = i := by
    by_contra hnone
    rw [hs.names.others i fun s hmem heq => hnone ⟨s, hmem, heq⟩] at he
    exact Array.not_mem_empty e he
  obtain ⟨before, rest, hall⟩ := List.append_of_mem hmem
  obtain ⟨next, hholds, hnext⟩ : ∃ next, s.Holds h types flow.blocks next ∧ ∀ k, next = some k →
    ∃ t after, rest = t :: after ∧ t.block = k := by
    cases rest with
    | nil =>
      have hlast : c.last = s := by
        unfold Course.all at hall
        exact (List.append_singleton_inj.1 hall).2
      exact ⟨none, hlast ▸ hs.last, fun k hk => (nomatch hk)⟩
    | cons t after =>
      exact ⟨some t.block, (List.isChain_iff_forall_rel_of_append_cons_cons.1 hs.chain hall).holds,
        fun k hk => ⟨t, after, rfl, Option.some.inj hk⟩⟩
  have hedge := Array.mem_toList_iff.2 he
  rw [hholds.edges] at hedge
  rcases List.mem_append.1 hedge with hedge | hedge
  · obtain ⟨l, hl, rfl⟩ := List.mem_map.1 hedge
    obtain ⟨k, hk⟩ := Option.isSome_iff_exists.1 (hholds.named l hl)
    dsimp only
    rw [hk, Option.getD_some]
    exact ⟨hs.names.labelled.bound l k hk, hs.exists_named hk⟩
  · split at hedge
    · rename_i hfalls
      obtain ⟨k, hk, rfl⟩ := List.mem_map.1 hedge
      obtain ⟨t, after, rfl, hblock⟩ := hnext k (Option.mem_toList.1 hk)
      have hmemt : t ∈ c.all := by rw [hall]; simp
      obtain ⟨nextt, hholdst⟩ := hs.holds hmemt
      dsimp only
      rw [← hblock]
      exact ⟨hholdst.lt_size, fun _ => ⟨t, hmemt, hholdst.owner.symm,
        ((List.isChain_iff_forall_rel_of_append_cons_cons.1 hc.cuts hall).goes hfalls).2⟩⟩
    · exact absurd hedge List.not_mem_nil

/-- The search gives frames to no other blocks than those that have one. -/
theorem Found.isSome_frame (hf : Found h className count covered final found) (hcovered : Covered handlers flow covered)
    (j : Nat) :
    (final.get j).frame.isSome = (flow.blocks.get j).frame.isSome := by
  rw [← hcovered.frame, ← Option.isSome_map (f := Frame.effect), hf.effects, Option.isSome_map]

/-- The search comes to the blocks of stretches that are followed. -/
theorem Found.exists_stretch (hf : Found h className count covered final found) (hcovered : Covered handlers flow covered)
    (hs : flow.Stretched h types size c) (hc : c.Regular place)
    (hnamed : ∀ (l : Label) (i : Nat), covered.blocks.labels[l]? = some i →
      flow.blocks.labels[l]? = some i ∨ flow.blocks.size ≤ i ∧ covered.blocks.owner i = i) {j : Nat}
    (hj : (final.get j).reachable = true) :
    ∃ s ∈ c.all, s.block = j ∧ s.followed = true := by
  have hframe : (flow.blocks.get j).frame.isSome = true := by
    obtain ⟨f, hframe, -⟩ := hf.framed j hj
    rw [← hf.isSome_frame hcovered, hframe]
    rfl
  rcases hf.reached j hj with rfl | ⟨i, hi, e, he, rfl⟩
  · obtain ⟨first, hhead, hblock, -⟩ := hs.first
    exact ⟨first, List.mem_of_mem_head? hhead, hblock.trans hcovered.first.symm, hc.entered first hhead⟩
  · rcases hcovered.edges i e he with he | ⟨-, handler, hmem, k, -, hname, hsame⟩
    · obtain ⟨hlt, hbehind⟩ := hs.exists_behind hc he
      rw [show covered.blocks.owner e.target = flow.blocks.owner e.target from hcovered.owner _ hlt] at hframe ⊢
      exact hbehind hframe
    · rw [hsame] at hframe ⊢
      rcases hnamed _ _ hname with hk | ⟨hle, howner⟩
      · rw [show covered.blocks.owner k = flow.blocks.owner k from
          hcovered.owner k (hs.names.labelled.bound _ _ hk)] at hframe ⊢
        exact hs.exists_named hk hframe
      · -- the block of a label that only the handler names has no frame
        rw [howner, Blocks.get_of_size_le hle] at hframe
        cases hframe

/-- The frame of a block that the search comes to has followed the instructions of its stretch. -/
theorem Found.traced (hf : Found h className count covered final found) (hcovered : Covered handlers flow covered)
    (hs : flow.Stretched h types size c) (hmem : s ∈ c.all) {f : Frame} (hframe : (final.get s.block).frame = some f)
    (hentered : f.entered = true) :
    ∃ g : Frame, g.Traced h types s.operations ∧ f = g.on f.locals f.stack := by
  obtain ⟨next, hholds⟩ := hs.holds hmem
  obtain ⟨g, hg, htraced⟩ := hholds.frame
  have heffect := hf.effects s.block
  rw [hcovered.frame, hframe, hg, Option.map_some, Option.map_some] at heffect
  exact ⟨g, htraced, Frame.eq_on_of_effect (Option.some.inj heffect) hentered⟩

/-- All blocks that the search has come to put no more than six slots for each instruction on the stack. -/
theorem Found.total_le (hf : Found h className count covered final found) (hcovered : Covered handlers flow covered)
    (hs : flow.Stretched h types size c) (hc : c.Regular place)
    (hnamed : ∀ (l : Label) (i : Nat), covered.blocks.labels[l]? = some i →
      flow.blocks.labels[l]? = some i ∨ flow.blocks.size ≤ i ∧ covered.blocks.owner i = i) :
    total enteredHeight final.size (fun j => (final.get j).frame) ≤ 6 * c.items.length := by
  have hnodup : (c.all.map (·.block)).Nodup := by
    refine List.Nodup.map_on (fun s hmem s' hmem' => hs.eq_of_block hmem hmem') ?_
    exact List.Nodup.of_map _ (hs.sorted.imp fun hlt => Nat.ne_of_lt hlt)
  have hsupport : ∀ j ∈ Finset.range final.size, ((final.get j).frame.map enteredHeight).getD 0 ≠ 0 →
      j ∈ (c.all.map (·.block)).toFinset := by
    rintro j - hpos
    obtain ⟨f, hframe, hentered⟩ : ∃ f, (final.get j).frame = some f ∧ f.entered = true := by
      cases hframe : (final.get j).frame with
      | none =>
        rw [hframe] at hpos
        exact absurd rfl hpos
      | some f =>
        refine ⟨f, rfl, Bool.eq_true_of_not_eq_false fun hnot => hpos ?_⟩
        rw [hframe, Option.map_some, Option.getD_some, enteredHeight, if_neg (by simp [hnot])]
    obtain ⟨s, hmem, hblock, -⟩ := hf.exists_stretch hcovered hs hc hnamed (hf.visited j f hframe hentered)
    exact List.mem_toFinset.2 (List.mem_map.2 ⟨s, hmem, hblock⟩)
  have hstretch : ∀ s ∈ c.all, ((final.get s.block).frame.map enteredHeight).getD 0 ≤ 6 * s.body.length := by
    intro s hmem
    cases hframe : (final.get s.block).frame with
    | none => exact Nat.zero_le _
    | some f =>
      rw [Option.map_some, Option.getD_some, enteredHeight]
      split
      · rename_i hentered
        obtain ⟨g, htraced, heq⟩ := hf.traced hcovered hs hmem hframe hentered
        have hle := htraced.size_le
        have hlength : s.operations.length ≤ s.body.length := by
          rw [(hc.plain s hmem).operations]
          split <;> simp
        rw [show f.outStack = g.outStack by rw [heq]; rfl]
        omega
      · exact Nat.zero_le _
  unfold total
  calc ∑ j ∈ Finset.range final.size, ((final.get j).frame.map enteredHeight).getD 0
      ≤ ∑ j ∈ (c.all.map (·.block)).toFinset, ((final.get j).frame.map enteredHeight).getD 0 :=
      Finset.sum_le_sum_of_ne_zero hsupport
    _ = (c.all.map fun s => ((final.get s.block).frame.map enteredHeight).getD 0).sum := by
      rw [List.sum_toFinset _ hnodup, List.map_map]
      rfl
    _ ≤ (c.all.map fun s => 6 * s.body.length).sum := List.sum_le_sum hstretch
    _ = 6 * c.items.length := by
      unfold Course.items
      rw [List.length_flatMap]
      exact List.sum_map_mul_left c.all (fun s => s.body.length) 6

end Found

end ControlFlow

end ClassFile
