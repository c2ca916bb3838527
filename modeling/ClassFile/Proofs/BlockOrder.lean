import ClassFile.Proofs.CodeStretches

/-!
# The order of blocks

Blocks that start code are linked in the order of the code, from the first one to the last one that was placed
(`ControlFlow.Lined`). They own themselves. Every other block waits for its place, marks a position for debug information
only, or shares the block of the line that starts where it was placed. Where frames are computed, no two blocks of the line
start at one position; where only the stack height is computed, they may.

Most of what a control flow does moves no block (`ControlFlow.Steady`). A block comes onto the line when it is placed
(`Lined.place`) and, where frames are computed, behind code that does not go on (`Lined.noSuccessor`).
-/

namespace ClassFile

/-- What says where a block stands is the same of two blocks. -/
structure Block.Steady (b b' : Block) : Prop where
  debug : b'.debug = b.debug
  resolved : b'.resolved = b.resolved
  position : b'.position = b.position
  owner : b'.owner = b.owner
  successor : b'.successor = b.successor

/-- A block that has a number and has not been placed. -/
structure Block.Unplaced (i : Nat) (b : Block) : Prop where
  resolved : b.resolved = false
  owner : b.owner = i
  successor : b.successor = none

theorem Block.Steady.refl (b : Block) : b.Steady b :=
  ⟨rfl, rfl, rfl, rfl, rfl⟩

theorem Block.Steady.trans {b b' b'' : Block} (h : b.Steady b') (h' : b'.Steady b'') : b.Steady b'' :=
  ⟨h'.debug.trans h.debug, h'.resolved.trans h.resolved, h'.position.trans h.position, h'.owner.trans h.owner,
    h'.successor.trans h.successor⟩

/-- Blocks that are alike stand in the same place. -/
theorem Block.Like.steady {b b' : Block} (h : b.Like b') : b.Steady b' :=
  ⟨h.debug, h.resolved, h.position, h.owner, h.successor⟩

namespace Blocks

/-- Blocks are added, and those that there were stand where they stood. -/
structure Steady (blocks later : Blocks) : Prop where
  size : blocks.size ≤ later.size
  labels : ∀ (l : Label) (i : Nat), blocks.labels[l]? = some i → later.labels[l]? = some i
  labelled : blocks.Labelled → later.Labelled
  get : ∀ j < blocks.size, (blocks.get j).Steady (later.get j)
  added : ∀ j, blocks.size ≤ j → j < later.size → (later.get j).Unplaced j
  named : ∀ (l : Label) (i : Nat), later.labels[l]? = some i →
    blocks.labels[l]? = some i ∨ blocks.size ≤ i ∧ i < later.size ∧ (later.get i).debug = l.debug

variable {blocks later later' : Blocks}

/-- An arena in which nothing was placed has moved no block. -/
theorem Calm.steady (h : blocks.Calm later) : blocks.Steady later := by
  refine ⟨h.size, h.labels, h.labelled, fun j hj => (h.get j hj).steady, fun j hj hlt => ?_, h.named⟩
  obtain ⟨hresolved, -, hidle⟩ := h.added j hj
  exact ⟨hresolved, (hidle hlt).owner, (hidle hlt).successor⟩

theorem Steady.refl (blocks : Blocks) : blocks.Steady blocks :=
  (Calm.refl blocks).steady

theorem Steady.trans (h : blocks.Steady later) (h' : later.Steady later') : blocks.Steady later' := by
  refine ⟨Nat.le_trans h.size h'.size, fun l i hl => h'.labels l i (h.labels l i hl), fun hl => h'.labelled (h.labelled hl),
    fun j hj => (h.get j hj).trans (h'.get j (Nat.lt_of_lt_of_le hj h.size)), fun j hj hlt => ?_, fun l i hl => ?_⟩
  · by_cases hold : j < later.size
    · have hunplaced := h.added j hj hold
      have hsteady := h'.get j hold
      exact ⟨hsteady.resolved.trans hunplaced.resolved, hsteady.owner.trans hunplaced.owner,
        hsteady.successor.trans hunplaced.successor⟩
    · exact h'.added j (Nat.le_of_not_lt hold) hlt
  · rcases h'.named l i hl with hold | ⟨hle, hlt, hdebug⟩
    · refine (h.named l i hold).imp_right fun ⟨hle, hlt, hdebug⟩ => ?_
      exact ⟨hle, Nat.lt_of_lt_of_le hlt h'.size, (h'.get i hlt).debug.trans hdebug⟩
    · exact .inr ⟨Nat.le_trans h.size hle, hlt, hdebug⟩

/-- A change of one block that does not move it. -/
theorem steady_modify (blocks : Blocks) (i : Nat) {f : Block → Block} (hf : ∀ b : Block, b.Steady (f b)) :
    blocks.Steady (blocks.modify i f) := by
  have hsize := size_modify blocks i f
  refine ⟨Nat.le_of_eq hsize.symm, fun _ _ h => h, fun hl => hl.modify i f, fun j _ => ?_,
    fun j hj hlt => ?_, fun _ _ h => .inl h⟩
  · rw [get_modify]
    split
    · rename_i hj
      rw [hj.1]
      exact hf _
    · exact Block.Steady.refl _
  · exact absurd (hsize ▸ hlt) (Nat.not_lt.2 hj)

end Blocks

/-! ## What moves no block -/

/-- A change of a control flow that moves no block. The current block may have ended. -/
structure ControlFlow.Steady (flow later : ControlFlow) : Prop where
  analysis : later.analysis = flow.analysis
  first : later.first = flow.first
  previous : later.previous = flow.previous
  current : ∀ i, later.current = some i → flow.current = some i
  blocks : flow.blocks.Steady later.blocks

namespace ControlFlow

section Steady

variable {flow later later' : ControlFlow}

theorem Steady.refl (flow : ControlFlow) : flow.Steady flow :=
  ⟨rfl, rfl, rfl, fun _ h => h, .refl _⟩

theorem Steady.trans (h : flow.Steady later) (h' : later.Steady later') : flow.Steady later' :=
  ⟨h'.analysis.trans h.analysis, h'.first.trans h.first,
    h'.previous.trans h.previous, fun i hi => h.current i (h'.current i hi),
    h.blocks.trans h'.blocks⟩

variable (flow)

/-- A flow with an arena in which no block moves moves none. -/
theorem steady_blocks {blocks : Blocks} (h : flow.blocks.Steady blocks) : flow.Steady { flow with blocks } :=
  ⟨rfl, rfl, rfl, fun _ h => h, h⟩

/-- Heights of the stack move no block. -/
theorem steady_heights (height peak : Int) : flow.Steady { flow with height, peak } :=
  ⟨rfl, rfl, rfl, fun _ h => h, .refl _⟩

/-- A change of a block that does not move it moves none. -/
theorem steady_modify (i : Nat) {f : Block → Block} (hf : ∀ b : Block, b.Steady (f b)) : flow.Steady (flow.modify i f) :=
  flow.steady_blocks (flow.blocks.steady_modify i hf)

/-- A change of the current frame moves no block. -/
theorem steady_mapFrame (f : Frame → Frame) : flow.Steady (flow.mapFrame f) := by
  unfold mapFrame
  split
  · rename_i i _
    exact (flow.steady_modify i (f := fun b => { b with frame := none }) fun _ => ⟨rfl, rfl, rfl, rfl, rfl⟩).trans
      (steady_modify _ i fun _ => ⟨rfl, rfl, rfl, rfl, rfl⟩)
  · exact .refl _

/-- Running an instruction on the current frame moves no block. -/
theorem steady_stepFrame (types : TypeTable) (f : Frame → TypeTable → Frame × TypeTable × Option Error) :
    flow.Steady (flow.stepFrame types f).1 := by
  unfold stepFrame
  split
  · rename_i i _
    have htaken := flow.steady_modify i (f := fun b => { b with frame := none }) fun _ => ⟨rfl, rfl, rfl, rfl, rfl⟩
    dsimp only
    split
    · exact htaken.trans (steady_modify _ i fun _ => ⟨rfl, rfl, rfl, rfl, rfl⟩)
    · exact htaken
  · exact .refl _

theorem steady_addEdge (kind : EdgeKind) (target : Nat) : flow.Steady (flow.addEdge kind target) := by
  unfold addEdge
  split
  · exact flow.steady_modify _ fun _ => ⟨rfl, rfl, rfl, rfl, rfl⟩
  · exact .refl _

theorem steady_markTarget (i : Nat) : flow.Steady (flow.markTarget i) :=
  flow.steady_modify _ fun _ => ⟨rfl, rfl, rfl, rfl, rfl⟩

/-- Naming a label may add a block, but moves none. -/
theorem steady_index (label : Label) : flow.Steady (flow.index label).2 :=
  flow.steady_blocks (flow.blocks.calm_index label).steady

/-- A new block for the code behind a jump moves none. -/
theorem steady_fresh : flow.Steady flow.fresh.2 :=
  flow.steady_blocks flow.blocks.calm_fresh.steady

theorem steady_putReference (label : Label) (origin : Nat) (code : Bytes) (wide : Bool) :
    flow.Steady (flow.putReference label origin code wide).1 :=
  flow.steady_blocks (flow.blocks.calm_putReference label origin code wide).steady

theorem steady_follow (types : TypeTable) (f : Frame → TypeTable → Frame × TypeTable × Option Error) (delta : Int) :
    flow.Steady (flow.follow types f delta).1 := by
  unfold follow
  split
  · split
    · exact flow.steady_stepFrame types f
    · exact flow.steady_heights _ _
  · exact .refl _

theorem steady_switchEdge (kind : EdgeKind) (label : Label) : flow.Steady (switchEdge kind flow label) := by
  have hedge := (flow.steady_index label).trans (steady_addEdge _ kind (flow.index label).1)
  unfold switchEdge
  dsimp only
  split
  · exact hedge.trans (steady_markTarget _ _)
  · exact hedge

theorem steady_switchEdges (kind : EdgeKind) (labels : List Label) : flow.Steady (labels.foldl (switchEdge kind) flow) := by
  induction labels generalizing flow with
  | nil => exact .refl _
  | cons label rest ih => exact (flow.steady_switchEdge kind label).trans (ih _)

theorem steady_jump (op : UInt8) (label : Label) : flow.Steady (flow.jump op label).2 := by
  have hindex := flow.steady_index label
  unfold jump
  split
  · dsimp only
    split
    · exact ((hindex.trans (steady_mapFrame _ _)).trans (steady_markTarget _ _)).trans (steady_addEdge _ _ _)
    · exact (hindex.trans (steady_heights _ _ _)).trans (steady_addEdge _ _ _)
  · exact .refl _

end Steady

end ControlFlow

/-! ## The line -/

/-- How the positions lie at which a block starts and at which the next one does. -/
def Analysis.Orders (analysis : Analysis) (p q : Nat) : Prop :=
  match analysis with
  | .frames => p < q
  | .maxStack => p ≤ q

/-- Blocks that start one behind the other do so across others. -/
theorem Analysis.Orders.trans {analysis : Analysis} {p q r : Nat} (h : analysis.Orders p q) (h' : analysis.Orders q r) :
    analysis.Orders p r := by
  cases analysis with
  | frames => exact Nat.lt_trans h h'
  | maxStack => exact Nat.le_trans h h'

namespace ControlFlow

/-- A block of the line has been placed, at most where the code ends, and owns itself. -/
structure Heads (blocks : Blocks) (size i : Nat) : Prop where
  lt : i < blocks.size
  debug : (blocks.get i).debug = false
  resolved : (blocks.get i).resolved = true
  owner : blocks.owner i = i
  position : (blocks.get i).position ≤ size

/-- A block that is not on the line shares one of the line if it was placed, unless it serves debug information only. -/
structure Aside (blocks : Blocks) (line : List Nat) (i : Nat) : Prop where
  successor : (blocks.get i).successor = none
  own : (blocks.get i).resolved = false ∨ (blocks.get i).debug = true → blocks.owner i = i
  shared : (blocks.get i).resolved = true → (blocks.get i).debug = false →
    blocks.owner i ∈ line ∧ (blocks.get (blocks.owner i)).position = (blocks.get i).position

/-- A block is followed by another one, which starts behind it. -/
structure Leads (analysis : Analysis) (blocks : Blocks) (i j : Nat) : Prop where
  successor : (blocks.get i).successor = some j
  orders : analysis.Orders (blocks.get i).position (blocks.get j).position

/-- The blocks that start code, in the order of the code that has been written up to a position. -/
structure Lined (flow : ControlFlow) (size : Nat) (line : List Nat) : Prop where
  head : line.head? = some flow.first
  nodup : line.Nodup
  previous : flow.previous = line.getLast?
  current : ∀ i, flow.current = some i → flow.previous = some i
  linked : line.IsChain (Leads flow.analysis flow.blocks)
  last : ∀ i ∈ line.getLast?, (flow.blocks.get i).successor = none
  heads : ∀ i ∈ line, Heads flow.blocks size i
  aside : ∀ i < flow.blocks.size, i ∉ line → Aside flow.blocks line i
  labelled : flow.blocks.Labelled
  debug : ∀ (l : Label) (i : Nat), flow.blocks.labels[l]? = some i → (flow.blocks.get i).debug = l.debug

variable {flow later : ControlFlow} {size size' : Nat} {line : List Nat} {i j : Nat}

/-- What moves no block leaves the line as it is, and the code may grow. -/
theorem Lined.steady (h : flow.Lined size line) (hs : flow.Steady later) (hle : size ≤ size') : later.Lined size' line := by
  have hget : ∀ i ∈ line, (flow.blocks.get i).Steady (later.blocks.get i) := fun i hi => hs.blocks.get i (h.heads i hi).lt
  refine ⟨hs.first ▸ h.head, h.nodup, hs.previous.trans h.previous,
    fun i hi => hs.previous.trans (h.current i (hs.current i hi)), ?_,
    fun i hi => (hget i (List.mem_of_mem_getLast? hi)).successor.trans (h.last i hi), fun i hi => ?_, fun i hi hnot => ?_,
    hs.blocks.labelled h.labelled, fun l i hl => ?_⟩
  · refine h.linked.imp_of_mem_imp fun i j hi hj hleads => ⟨(hget i hi).successor.trans hleads.successor, ?_⟩
    rw [hs.analysis, (hget i hi).position, (hget j hj).position]
    exact hleads.orders
  · have hheads := h.heads i hi
    exact ⟨Nat.lt_of_lt_of_le hheads.lt hs.blocks.size, (hget i hi).debug.trans hheads.debug,
      (hget i hi).resolved.trans hheads.resolved, (hget i hi).owner.trans hheads.owner,
      (hget i hi).position ▸ Nat.le_trans hheads.position hle⟩
  · by_cases hold : i < flow.blocks.size
    · have haside := h.aside i hold hnot
      have hsteady := hs.blocks.get i hold
      refine ⟨hsteady.successor.trans haside.successor, fun hown => ?_, fun hresolved hdebug => ?_⟩
      · rw [hsteady.resolved, hsteady.debug] at hown
        exact hsteady.owner.trans (haside.own hown)
      · rw [hsteady.resolved] at hresolved
        rw [hsteady.debug] at hdebug
        obtain ⟨hmem, hposition⟩ := haside.shared hresolved hdebug
        have howner : later.blocks.owner i = flow.blocks.owner i := hsteady.owner
        rw [howner, (hget _ hmem).position, hsteady.position]
        exact ⟨hmem, hposition⟩
    · have hunplaced := hs.blocks.added i (Nat.le_of_not_lt hold) hi
      exact ⟨hunplaced.successor, fun _ => hunplaced.owner,
        fun hresolved => absurd (hunplaced.resolved.symm.trans hresolved) Bool.false_ne_true⟩
  · rcases hs.blocks.named l i hl with hold | ⟨-, -, hdebug⟩
    · exact (hs.blocks.get i (h.labelled.bound l i hold)).debug.trans (h.debug l i hold)
    · exact hdebug

/-- A block that can be placed: it has a number, is not on the line, and if it has a label, then one that can be led to. -/
structure Free (flow : ControlFlow) (line : List Nat) (i : Nat) : Prop where
  lt : i < flow.blocks.size
  apart : i ∉ line
  debug : (flow.blocks.get i).debug = false
  owner : (flow.blocks.get i).owner = i
  successor : (flow.blocks.get i).successor = none

/-- There is always a last block. -/
theorem Lined.exists_last (h : flow.Lined size line) : ∃ j, line.getLast? = some j := by
  cases hlast : line.getLast? with
  | none =>
    rw [List.getLast?_eq_none_iff.1 hlast] at h
    cases h.head
  | some j => exact ⟨j, rfl⟩

/-- A block comes onto the line behind the last one. -/
theorem Lined.push (h : flow.Lined size line) {last : Nat} (hlast : line.getLast? = some last)
    (hanalysis : later.analysis = flow.analysis) (hfirst : later.first = flow.first) (hprevious : later.previous = some i)
    (hcurrent : ∀ j, later.current = some j → j = i) (hlabels : later.blocks.labels = flow.blocks.labels)
    (hsize : flow.blocks.size ≤ later.blocks.size) (hadded : ∀ j < later.blocks.size, j ≠ i → j < flow.blocks.size)
    (hapart : i ∉ line) (hget : ∀ j ≠ i, j ≠ last → (flow.blocks.get j).Steady (later.blocks.get j))
    (hbefore : Block.Steady { flow.blocks.get last with successor := some i } (later.blocks.get last))
    (hheads : Heads later.blocks size i) (hsuccessor : (later.blocks.get i).successor = none)
    (horders : flow.analysis.Orders (flow.blocks.get last).position (later.blocks.get i).position)
    (hdebug : ∀ l : Label, flow.blocks.labels[l]? = some i → l.debug = false) : later.Lined size (line ++ [i]) := by
  have hmem := List.mem_of_getLast? hlast
  -- but for its successor the last block so far stays as it is too
  have hstands : ∀ j ≠ i, (later.blocks.get j).debug = (flow.blocks.get j).debug ∧
      (later.blocks.get j).resolved = (flow.blocks.get j).resolved ∧
      (later.blocks.get j).position = (flow.blocks.get j).position ∧
      later.blocks.owner j = flow.blocks.owner j := by
    intro j hji
    by_cases hjl : j = last
    · subst hjl
      exact ⟨hbefore.debug, hbefore.resolved, hbefore.position, hbefore.owner⟩
    · have hsteady := hget j hji hjl
      exact ⟨hsteady.debug, hsteady.resolved, hsteady.position, hsteady.owner⟩
  have hne : ∀ j ∈ line, j ≠ i := fun j hj heq => hapart (heq ▸ hj)
  refine ⟨?_, ?_, ?_, ?_, ?_, ?_, ?_, ?_, ?_, ?_⟩
  · rw [List.head?_append, h.head, hfirst]
    rfl
  · refine List.nodup_append.2 ⟨h.nodup, List.nodup_singleton i, fun j hj k hk => ?_⟩
    rw [List.mem_singleton.1 hk]
    exact hne j hj
  · rw [hprevious, List.getLast?_concat]
  · intro j hj
    rw [hprevious, hcurrent j hj]
  · refine List.isChain_append.2 ⟨h.linked.imp_of_mem_imp fun j k hj hk hleads => ?_, List.isChain_singleton _, ?_⟩
    · have hjl : j ≠ last := by
        rintro rfl
        cases (h.last j hlast).symm.trans hleads.successor
      refine ⟨(hget j (hne j hj) hjl).successor.trans hleads.successor, ?_⟩
      rw [hanalysis, (hstands j (hne j hj)).2.2.1, (hstands k (hne k hk)).2.2.1]
      exact hleads.orders
    · intro j hj k hk
      obtain rfl := Option.some.inj (hlast.symm.trans hj)
      obtain rfl := Option.some.inj hk
      refine ⟨hbefore.successor, ?_⟩
      rw [hanalysis, (hstands last (hne last hmem)).2.2.1]
      exact horders
  · intro j hj
    rw [List.getLast?_concat] at hj
    obtain rfl := Option.some.inj hj
    exact hsuccessor
  · intro j hj
    rcases List.mem_append.1 hj with hj | hj
    · have hold := h.heads j hj
      obtain ⟨hd, hr, hp, ho⟩ := hstands j (hne j hj)
      exact ⟨Nat.lt_of_lt_of_le hold.lt hsize, hd.trans hold.debug, hr.trans hold.resolved,
        ho.trans hold.owner, hp ▸ hold.position⟩
    · rw [List.mem_singleton.1 hj]
      exact hheads
  · intro j hj hnot
    rw [List.mem_append, List.mem_singleton, not_or] at hnot
    obtain ⟨hd, hr, hp, ho⟩ := hstands j hnot.2
    have hold := h.aside j (hadded j hj hnot.2) hnot.1
    refine ⟨(hget j hnot.2 fun heq => hnot.1 (heq ▸ hmem)).successor.trans hold.successor, fun hown => ?_,
      fun hresolved hdebug => ?_⟩
    · rw [hr, hd] at hown
      exact ho.trans (hold.own hown)
    · obtain ⟨howner, hposition⟩ := hold.shared (hr ▸ hresolved) (hd ▸ hdebug)
      rw [ho, (hstands _ (hne _ howner)).2.2.1, hp]
      exact ⟨List.mem_append_left _ howner, hposition⟩
  · refine ⟨fun l j hj => ?_, fun l l' j hj hj' => ?_⟩
    · rw [hlabels] at hj
      exact Nat.lt_of_lt_of_le (h.labelled.bound l j hj) hsize
    · rw [hlabels] at hj hj'
      exact h.labelled.unique l l' j hj hj'
  · intro l j hj
    rw [hlabels] at hj
    by_cases hji : j = i
    · subst hji
      exact hheads.debug.trans (hdebug l hj).symm
    · exact (hstands j hji).1.trans (h.debug l j hj)

/-- A block that is placed shares the last one of the line, which starts there already. -/
theorem Lined.share (h : flow.Lined size line) {last : Nat} (hlast : line.getLast? = some last)
    (hanalysis : later.analysis = flow.analysis) (hfirst : later.first = flow.first) (hprevious : later.previous = some last)
    (hcurrent : ∀ j, later.current = some j → j = last) (hlabels : later.blocks.labels = flow.blocks.labels)
    (hsize : later.blocks.size = flow.blocks.size) (hapart : i ∉ line)
    (hget : ∀ j ≠ i, (flow.blocks.get j).Steady (later.blocks.get j))
    (hdebug : (later.blocks.get i).debug = false) (hresolved : (later.blocks.get i).resolved = true)
    (howner : later.blocks.owner i = last) (hposition : (later.blocks.get i).position = (flow.blocks.get last).position)
    (hsuccessor : (later.blocks.get i).successor = none)
    (hnamed : ∀ l : Label, flow.blocks.labels[l]? = some i → l.debug = false) : later.Lined size line := by
  have hmem := List.mem_of_getLast? hlast
  have hne : ∀ j ∈ line, j ≠ i := fun j hj heq => hapart (heq ▸ hj)
  refine ⟨hfirst ▸ h.head, h.nodup, hprevious.trans hlast.symm,
    fun j hj => by rw [hprevious, hcurrent j hj], ?_, ?_, ?_, ?_, ?_, ?_⟩
  · refine h.linked.imp_of_mem_imp fun j k hj hk hleads => ?_
    refine ⟨(hget j (hne j hj)).successor.trans hleads.successor, ?_⟩
    rw [hanalysis, (hget j (hne j hj)).position, (hget k (hne k hk)).position]
    exact hleads.orders
  · exact fun j hj => (hget j (hne j (List.mem_of_getLast? hj))).successor.trans (h.last j hj)
  · intro j hj
    have hold := h.heads j hj
    have hsteady := hget j (hne j hj)
    exact ⟨hsize.symm ▸ hold.lt, hsteady.debug.trans hold.debug, hsteady.resolved.trans hold.resolved,
      hsteady.owner.trans hold.owner, hsteady.position ▸ hold.position⟩
  · intro j hj hnot
    by_cases hji : j = i
    · subst hji
      refine ⟨hsuccessor, fun hown => ?_, fun _ _ => ?_⟩
      · rw [hresolved, hdebug] at hown
        rcases hown with hown | hown <;> cases hown
      · rw [howner, (hget last (hne last hmem)).position, hposition]
        exact ⟨hmem, rfl⟩
    · have hold := h.aside j (hsize ▸ hj) hnot
      have hsteady := hget j hji
      refine ⟨hsteady.successor.trans hold.successor, fun hown => ?_, fun hresolved hdebug => ?_⟩
      · rw [hsteady.resolved, hsteady.debug] at hown
        exact hsteady.owner.trans (hold.own hown)
      · obtain ⟨hmem', hposition'⟩ := hold.shared (hsteady.resolved ▸ hresolved) (hsteady.debug ▸ hdebug)
        have howner' : later.blocks.owner j = flow.blocks.owner j := hsteady.owner
        rw [howner', (hget _ (hne _ hmem')).position, hsteady.position]
        exact ⟨hmem', hposition'⟩
  · refine ⟨fun l j hj => ?_, fun l l' j hj hj' => ?_⟩
    · rw [hlabels] at hj
      exact hsize.symm ▸ h.labelled.bound l j hj
    · rw [hlabels] at hj hj'
      exact h.labelled.unique l l' j hj hj'
  · intro l j hj
    rw [hlabels] at hj
    by_cases hji : j = i
    · subst hji
      exact hdebug.trans (hnamed l hj).symm
    · exact (hget j hji).debug.trans (h.debug l j hj)

/-! ## Steps -/

/-- A step that keeps the order of the code. Where only the stack height is computed, these blocks come
onto the line and no others. -/
structure Grown (flow later : ControlFlow) (size : Nat) (line added : List Nat) : Prop where
  analysis : later.analysis = flow.analysis
  labels : ∀ (l : Label) (i : Nat), flow.blocks.labels[l]? = some i → later.blocks.labels[l]? = some i
  lined : ∃ line', later.Lined size line' ∧ (flow.analysis = .maxStack → line' = line ++ added)

/-- Where no block moves, the line stays as it is, up to a later position too. -/
theorem Lined.stays (h : flow.Lined size line) (hs : flow.Steady later) (hle : size ≤ size') :
    flow.Grown later size' line [] :=
  ⟨hs.analysis, hs.blocks.labels, line, h.steady hs hle, fun _ => (List.append_nil line).symm⟩

/-- A step behind others that have moved no block. -/
theorem Steady.grown {last : ControlFlow} {added : List Nat} (hs : flow.Steady later)
    (h : later.Grown last size line added) :
    flow.Grown last size line added :=
  ⟨h.analysis.trans hs.analysis, fun l i hl => h.labels l i (hs.blocks.labels l i hl), h.lined.imp fun _ hline =>
    ⟨hline.1, fun hmeasured => hline.2 (hs.analysis.trans hmeasured)⟩⟩

/-- A step behind another one. -/
theorem Grown.trans {last : ControlFlow} {added added' : List Nat} (h : flow.Grown later size line added)
    (h' : ∀ line', later.Lined size line' → later.Grown last size' line' added') :
    flow.Grown last size' line (added ++ added') := by
  obtain ⟨line', hlined, hline⟩ := h.lined
  obtain ⟨hanalysis, hlabels, line'', hlined', hline'⟩ := h' line' hlined
  refine ⟨hanalysis.trans h.analysis, fun l i hl => hlabels l i (h.labels l i hl), line'', hlined', fun hmeasured => ?_⟩
  rw [hline' (h.analysis.trans hmeasured), hline hmeasured, List.append_assoc]

/-- Where frames are computed, nothing is said of the blocks that come onto the line. -/
theorem Grown.framed {added : List Nat} (h : flow.Grown later size line added) (hframed : flow.analysis = .frames)
    (added' : List Nat) :
    flow.Grown later size line added' :=
  ⟨h.analysis, h.labels, h.lined.imp fun _ hline => ⟨hline.1, fun hmeasured => nomatch hframed.symm.trans hmeasured⟩⟩

/-! ## Code that does not go on -/

/-- Where only the stack height is computed, nothing is placed behind code that does not go on. -/
theorem steady_noSuccessor (hmeasured : flow.analysis = .maxStack) (position : Nat) :
    flow.Steady (flow.noSuccessor position) := by
  have hended : ∀ later : ControlFlow, flow.Steady later → flow.Steady { later with current := none } :=
    fun later hs => ⟨hs.analysis, hs.first, hs.previous, fun i hi => (nomatch hi), hs.blocks⟩
  unfold ControlFlow.noSuccessor
  rw [hmeasured]
  refine hended _ ?_
  split
  · exact flow.steady_modify _ fun _ => ⟨rfl, rfl, rfl, rfl, rfl⟩
  · exact .refl flow

/-- Where frames are computed, a block comes onto the line behind code that does not go on. -/
theorem Lined.noSuccessor (h : flow.Lined size line) (hlt : size < size') :
    flow.Grown (flow.noSuccessor size') size' line [] := by
  cases hanalysis : flow.analysis with
  | maxStack => exact h.stays (steady_noSuccessor hanalysis size') (Nat.le_of_lt hlt)
  | frames =>
    obtain ⟨last, hlast⟩ := h.exists_last
    have hheads := h.heads last (List.mem_of_getLast? hlast)
    have hne : flow.blocks.size ≠ last := Nat.ne_of_gt hheads.lt
    have hgrown : Blocks.size ⟨flow.blocks.arena.push { owner := flow.blocks.size }, flow.blocks.labels⟩ =
      flow.blocks.size + 1 :=
      Array.size_push _
    have hget := fun (j : Nat) => Blocks.get_push flow.blocks { owner := flow.blocks.size } flow.blocks.labels j
    rw [noSuccessor_framed hanalysis (h.previous.trans hlast)]
    refine ⟨rfl, fun _ _ hl => hl, line ++ [flow.blocks.size], ?_, fun hmeasured => nomatch hanalysis.symm.trans hmeasured⟩
    refine (h.steady (.refl flow) (Nat.le_of_lt hlt)).push hlast rfl rfl rfl (fun j hj => nomatch hj) rfl
      ?_ ?_ (fun hmem => ?_) ?_ ?_ ⟨?_, ?_, ?_, ?_, ?_⟩ ?_ ?_ fun l hl => absurd (h.labelled.bound l _ hl) (Nat.lt_irrefl _)
    · simp only [Blocks.size_modify, hgrown, Nat.le_succ]
    · intro j hj hji
      simp only [Blocks.size_modify, hgrown] at hj
      omega
    · exact Nat.lt_irrefl _ (h.heads _ hmem).lt
    · intro j hji hjl
      simp only [Blocks.get_modify, Blocks.size_modify, hget, hjl, hji, false_and, if_false]
      exact .refl _
    · simp only [Blocks.get_modify, Blocks.size_modify, hget, hgrown, Ne.symm hne, false_and, if_false, true_and,
        Nat.lt_succ_of_lt hheads.lt, if_true]
      exact .refl _
    all_goals try simp only [Blocks.owner, Blocks.get_modify, Blocks.size_modify, hget, hgrown, hne,
      false_and, if_false, true_and, Nat.lt_succ_self, if_true, Nat.le_refl]
    rw [hanalysis]
    exact Nat.lt_of_le_of_lt hheads.position hlt

/-! ## Placing -/

/-- Putting a block behind the last one links it there and makes it the last. -/
theorem append_eq {last : Nat} (i : Nat) (hprevious : flow.previous = some last) :
    flow.append i = { flow with
      blocks := flow.blocks.modify last fun b => { b with successor := some i }, previous := some i } := by
  unfold ControlFlow.append
  rw [hprevious]
  rfl

/-- Two flows that differ in what moves no block get the same block behind the last one. -/
theorem Steady.append {last : Nat} (hs : flow.Steady later) (hprevious : flow.previous = some last)
    (hlt : last < flow.blocks.size)
    (i : Nat) : Steady { flow.append i with current := some i } { later.append i with current := some i } := by
  rw [append_eq i hprevious, append_eq i (hs.previous.trans hprevious)]
  have hlater := Nat.lt_of_lt_of_le hlt hs.blocks.size
  have hb := hs.blocks
  refine ⟨hs.analysis, hs.first, rfl, fun j hj => hj, ?_,
    hb.labels, fun hl => (hb.labelled ⟨fun l j hj => ?_, hl.unique⟩).modify _ _,
    fun j hj => ?_, fun j hj hj' => ?_, fun l j hj => ?_⟩
  · simpa only [Blocks.size_modify] using hb.size
  · simpa only [Blocks.size_modify] using hl.bound l j hj
  · simp only [Blocks.size_modify] at hj
    have hsteady := hb.get j hj
    simp only [Blocks.get_modify, hlt, hlater, and_true]
    split
    · rename_i hjl
      subst hjl
      exact ⟨hsteady.debug, hsteady.resolved, hsteady.position, hsteady.owner, rfl⟩
    · exact hsteady
  · simp only [Blocks.size_modify] at hj hj'
    rw [Blocks.get_modify_of_ne _ (by omega)]
    exact hb.added j hj hj'
  · simp only [Blocks.size_modify]
    refine (hb.named l j hj).imp_right fun ⟨hle, hlt', hdebug⟩ => ⟨hle, hlt', ?_⟩
    rw [Blocks.get_modify_of_ne _ (by omega)]
    exact hdebug

/-- A block that gets its place comes onto the line. -/
theorem Lined.append (h : flow.Lined size line) (hfree : flow.Free line i) {last : Nat} (hlast : line.getLast? = some last)
    (horders : flow.analysis.Orders (flow.blocks.get last).position size) (code : Bytes) :
    Lined { (flow.resolve i size code).1.append i with current := some i } size (line ++ [i]) := by
  have hheads := h.heads last (List.mem_of_getLast? hlast)
  have hne : last ≠ i := fun heq => hfree.apart (heq ▸ List.mem_of_getLast? hlast)
  have hprevious : (flow.resolve i size code).1.previous = some last := h.previous.trans hlast
  rw [append_eq i hprevious]
  dsimp only [ControlFlow.resolve, Blocks.resolve]
  refine h.push hlast rfl rfl rfl (fun j hj => (Option.some.inj hj).symm) rfl ?_ ?_ hfree.apart ?_ ?_
    ⟨?_, ?_, ?_, ?_, ?_⟩ ?_ ?_ ?_
  · simp only [Blocks.size_modify, Nat.le_refl]
  · intro j hj _
    simpa only [Blocks.size_modify] using hj
  · intro j hji hjl
    simp only [Blocks.get_modify, hjl, hji, false_and, if_false]
    exact .refl _
  · simp only [Blocks.get_modify, Blocks.size_modify, hne, hheads.lt, false_and, if_false, true_and, if_true]
    exact .refl _
  all_goals try simp only [Blocks.owner, Blocks.get_modify, Blocks.size_modify, Ne.symm hne, hfree.lt,
    false_and, if_false, true_and, if_true, Nat.le_refl]
  · exact hfree.debug
  · exact hfree.owner
  · exact hfree.successor
  · exact horders
  · exact fun l hl => (h.debug l i hl).symm.trans hfree.debug

/-- Where frames are computed, a block that is placed where the last one starts shares it. -/
theorem Lined.placeFramed (h : flow.Lined size line) (hframed : flow.analysis = .frames) (hfree : flow.Free line i)
    (code : Bytes) :
    flow.Grown ((flow.resolve i size code).1.placeFramed i size) size line [i] := by
  obtain ⟨last, hlast⟩ := h.exists_last
  have hheads := h.heads last (List.mem_of_getLast? hlast)
  have hne : last ≠ i := fun heq => hfree.apart (heq ▸ List.mem_of_getLast? hlast)
  have hprevious : (flow.resolve i size code).1.previous = some last := h.previous.trans hlast
  have hcurrent : (flow.resolve i size code).1.current = none ∨ (flow.resolve i size code).1.current = some last := by
    cases hnow : flow.current with
    | none => exact .inl hnow
    | some j => exact .inr (hnow.trans ((h.current j hnow).symm.trans (h.previous.trans hlast)))
  have hkept : (flow.resolve i size code).1.blocks.get last = flow.blocks.get last :=
    Blocks.get_modify_of_ne flow.blocks hne _
  by_cases hstarts : (flow.blocks.get last).position = size
  · rw [placeFramed_shared hprevious hcurrent ((congrArg Block.position hkept).trans hstarts)]
    refine ⟨rfl, fun _ _ hl => hl, line, ?_, fun hmeasured => nomatch hframed.symm.trans hmeasured⟩
    dsimp only [ControlFlow.resolve, Blocks.resolve]
    refine h.share hlast rfl rfl (h.previous.trans hlast) (fun j hj => (Option.some.inj hj).symm) rfl ?_
      hfree.apart ?_ ?_ ?_ ?_ ?_ ?_ ?_
    · simp only [Blocks.size_modify]
    · intro j hji
      rw [Blocks.get_modify_of_ne _ hji, Blocks.get_modify]
      split
      · rename_i hjl
        rw [hjl.1, Blocks.get_modify_of_ne _ hne]
        exact ⟨rfl, rfl, rfl, rfl, rfl⟩
      · rw [Blocks.get_modify_of_ne _ hji]
        exact .refl _
    all_goals try simp only [Blocks.owner, Blocks.get_modify, Blocks.size_modify, Ne.symm hne, hfree.lt,
      false_and, if_false, true_and, if_true]
    · exact hfree.debug
    · exact hstarts.symm
    · exact hfree.successor
    · exact fun l hl => (h.debug l i hl).symm.trans hfree.debug
  · have hbehind := h.append hfree hlast (by rw [hframed]; exact Nat.lt_of_le_of_ne hheads.position hstarts) code
    have hedge := ((flow.resolve i size code).1.steady_addEdge (.normal 0) i).trans
      (steady_modify _ i (f := fun b => { b with frame := some (b.frame.getD Frame.empty) }) fun _ =>
        ⟨rfl, rfl, rfl, rfl, rfl⟩)
    have hplaced : (flow.resolve i size code).1.placeFramed i size =
      { (((flow.resolve i size code).1.addEdge (.normal 0) i).modify i
        fun b => { b with frame := some (b.frame.getD Frame.empty) }).append i with current := some i } := by
      rw [placeFramed_behind hprevious hcurrent fun heq => hstarts ((congrArg Block.position hkept).symm.trans heq)]
      obtain ⟨analysis, blocks, first, current, previous, height, peak⟩ := flow
      obtain rfl : previous = some last := hprevious
      cases current <;> rfl
    have hs := hedge.append hprevious ((Blocks.size_modify flow.blocks i _).symm ▸ hheads.lt) i
    rw [hplaced]
    refine ⟨hs.analysis.trans (append_eq i hprevious ▸ rfl), fun l j hl => hs.blocks.labels l j ?_, line ++ [i],
      hbehind.steady hs (Nat.le_refl size), fun _ => rfl⟩
    rw [append_eq i hprevious]
    exact hl

/-- Where only the stack height is computed, a block is placed behind the last one. -/
theorem placeMeasured_eq (flow : ControlFlow) (i : Nat) : ∃ left : ControlFlow, flow.Steady left ∧
    flow.placeMeasured i = { left.append i with current := some i, height := 0, peak := 0 } := by
  unfold ControlFlow.placeMeasured
  cases flow.current with
  | none => exact ⟨flow, .refl flow, rfl⟩
  | some j =>
    let peak := flow.peak
    have hended := flow.steady_modify j (f := fun b => { b with peak }) fun _ => ⟨rfl, rfl, rfl, rfl, rfl⟩
    exact ⟨_, hended.trans (steady_addEdge _ (.normal flow.height) i), rfl⟩

/-- Where only the stack height is computed, what is placed always comes onto the line. -/
theorem Lined.placeMeasured (h : flow.Lined size line) (hmeasured : flow.analysis = .maxStack) (hfree : flow.Free line i)
    (code : Bytes) :
    flow.Grown ((flow.resolve i size code).1.placeMeasured i) size line [i] := by
  obtain ⟨last, hlast⟩ := h.exists_last
  have hheads := h.heads last (List.mem_of_getLast? hlast)
  have hprevious : (flow.resolve i size code).1.previous = some last := h.previous.trans hlast
  have hbehind := h.append hfree hlast (by rw [hmeasured]; exact hheads.position) code
  obtain ⟨left, hs, hplaced⟩ := placeMeasured_eq (flow.resolve i size code).1 i
  have hs := (hs.append hprevious ((Blocks.size_modify flow.blocks i _).symm ▸ hheads.lt) i).trans (steady_heights _ 0 0)
  rw [hplaced]
  refine ⟨hs.analysis.trans (append_eq i hprevious ▸ rfl), fun l j hl => hs.blocks.labels l j ?_, line ++ [i],
    hbehind.steady hs (Nat.le_refl size), fun _ => rfl⟩
  rw [append_eq i hprevious]
  exact hl

/-- A block is placed where the code ends. -/
theorem Lined.place {code : Bytes} (h : flow.Lined code.size line) (hfree : flow.Free line i) :
    flow.Grown (flow.place i code).1 code.size line [i] := by
  have hdebug : ((flow.resolve i code.size code).1.blocks.get i).debug = false :=
    (Blocks.get_modify_field Block.debug flow.blocks i rfl i).trans hfree.debug
  have hanalysis : (flow.resolve i code.size code).1.analysis = flow.analysis := rfl
  unfold ControlFlow.place
  dsimp only
  rw [hdebug, if_neg Bool.false_ne_true, hanalysis]
  cases hmode : flow.analysis with
  | frames => exact h.placeFramed hmode hfree code
  | maxStack => exact h.placeMeasured hmode hfree code

/-- A new block for the code behind a jump is not on the line, and can be placed. -/
theorem Lined.fresh (h : flow.Lined size line) : flow.fresh.2.Lined size line ∧ flow.fresh.2.Free line flow.fresh.1 := by
  have hlt : flow.fresh.1 < flow.fresh.2.blocks.size := by
    have hsize : flow.fresh.2.blocks.size = flow.blocks.size + 1 := Array.size_push _
    exact hsize ▸ Nat.lt_succ_self _
  have hget : flow.fresh.2.blocks.get flow.fresh.1 = { owner := flow.blocks.size } :=
    (Blocks.get_push _ _ _ _).trans (if_pos rfl)
  exact ⟨h.steady flow.steady_fresh (Nat.le_refl size), hlt, fun hmem => Nat.lt_irrefl _ (h.heads _ hmem).lt,
    congrArg Block.debug hget, congrArg Block.owner hget, congrArg Block.successor hget⟩

/-- A block that jumps lead to can be placed as before. -/
theorem Free.markTarget (hfree : flow.Free line i) (j : Nat) : (flow.markTarget j).Free line i := by
  have hs := (flow.steady_markTarget j).blocks
  have hsteady := hs.get i hfree.lt
  exact ⟨Nat.lt_of_lt_of_le hfree.lt hs.size, hfree.apart, hsteady.debug.trans hfree.debug, hsteady.owner.trans hfree.owner,
    hsteady.successor.trans hfree.successor⟩

/-- Splitting the current block keeps the order of the code. -/
theorem Lined.split {code : Bytes} (h : flow.Lined code.size line) (hframed : flow.analysis = .frames) :
    flow.Grown (flow.split code).1 code.size line [] :=
  flow.steady_fresh.grown ((h.fresh.1.place h.fresh.2).framed (flow.steady_fresh.analysis.trans hframed) [])

/-- A label that serves debug information only gets its place and moves nothing else. -/
theorem Lined.mark (h : flow.Lined size line) {l : Label} (hl : flow.blocks.labels[l]? = some i) (hdebug : l.debug = true)
    (code : Bytes) :
    (flow.resolve i size code).1.Lined size line := by
  have hserves : (flow.blocks.get i).debug = true := (h.debug l i hl).trans hdebug
  have hapart : i ∉ line := fun hmem => Bool.false_ne_true ((h.heads i hmem).debug.symm.trans hserves)
  have hne : ∀ j ∈ line, j ≠ i := fun j hj heq => hapart (heq ▸ hj)
  have hget : ∀ j ≠ i, (flow.resolve i size code).1.blocks.get j = flow.blocks.get j :=
    fun j hj => Blocks.get_modify_of_ne _ hj _
  have hsize : (flow.resolve i size code).1.blocks.size = flow.blocks.size := Blocks.size_modify _ _ _
  have hkept : ((flow.resolve i size code).1.blocks.get i).debug = true :=
    (Blocks.get_modify_field Block.debug flow.blocks i rfl i).trans hserves
  refine ⟨h.head, h.nodup, h.previous, h.current, ?_, fun j hj => ?_, fun j hj => ?_, fun j hj hnot => ?_,
    h.labelled.modify i _, fun l' j hl' => ?_⟩
  · refine h.linked.imp_of_mem_imp fun j k hj hk hleads => ?_
    refine ⟨(hget j (hne j hj)).symm ▸ hleads.successor, ?_⟩
    rw [hget j (hne j hj), hget k (hne k hk)]
    exact hleads.orders
  · rw [hget j (hne j (List.mem_of_getLast? hj))]
    exact h.last j hj
  · have hold := h.heads j hj
    have hsame := hget j (hne j hj)
    exact ⟨hsize.symm ▸ hold.lt, hsame.symm ▸ hold.debug, hsame.symm ▸ hold.resolved,
      (congrArg Block.owner hsame).trans hold.owner, hsame.symm ▸ hold.position⟩
  · by_cases hji : j = i
    · subst hji
      have hold := h.aside j (hsize ▸ hj) hnot
      refine ⟨(Blocks.get_modify_field Block.successor flow.blocks j rfl j).trans hold.successor,
        fun _ => ?_, fun _ hd => ?_⟩
      · exact (Blocks.get_modify_field Block.owner flow.blocks j rfl j).trans (hold.own (Or.inr hserves))
      · exact absurd (hd.symm.trans hkept) Bool.false_ne_true
    · have hold := h.aside j (hsize ▸ hj) hnot
      have hsame := hget j hji
      have howner : (flow.resolve i size code).1.blocks.owner j = flow.blocks.owner j := congrArg Block.owner hsame
      refine ⟨hsame.symm ▸ hold.successor, fun hown => howner.trans (hold.own (hsame ▸ hown)), fun hr hd => ?_⟩
      obtain ⟨hmem, hposition⟩ := hold.shared (hsame ▸ hr) (hsame ▸ hd)
      rw [howner, hget _ (hne _ hmem), hsame]
      exact ⟨hmem, hposition⟩
  · exact (Blocks.get_modify_field Block.debug flow.blocks i rfl j).trans (h.debug l' j hl')

/-- A label is placed, for the first time. -/
theorem Lined.label {code : Bytes} (h : flow.Lined code.size line) {l : Label} (hnew : flow.blocks.position l = none) :
    flow.Grown (flow.label l code).1 code.size line (if l.debug then [] else [(flow.index l).1]) ∧
      (flow.label l code).1.blocks.labels[l]? = some (flow.index l).1 := by
  have hs := flow.steady_index l
  have hindexed := h.steady hs (Nat.le_refl code.size)
  have hname := flow.labels_index l
  have hresolved : ((flow.index l).2.blocks.get (flow.index l).1).resolved = false :=
    Blocks.resolved_eq_false hname (((flow.neutral_index l).position l).trans hnew)
  have hserves := hindexed.debug l _ hname
  unfold ControlFlow.label
  dsimp only
  cases hdebug : l.debug with
  | true =>
    have hplace : ((flow.index l).2.place (flow.index l).1 code).1 =
      ((flow.index l).2.resolve (flow.index l).1 code.size code).1 := by
      have hd : (((flow.index l).2.resolve (flow.index l).1 code.size code).1.blocks.get (flow.index l).1).debug = true :=
        (Blocks.get_modify_field Block.debug (flow.index l).2.blocks (flow.index l).1 rfl _).trans (hserves.trans hdebug)
      unfold ControlFlow.place
      dsimp only
      rw [hd, if_pos rfl]
    rw [hplace, if_pos rfl]
    exact ⟨⟨hs.analysis, hs.blocks.labels, line, hindexed.mark hname hdebug code, fun _ => (List.append_nil line).symm⟩,
      hname⟩
  | false =>
    have hapart : (flow.index l).1 ∉ line := fun hmem =>
      Bool.false_ne_true (hresolved.symm.trans (hindexed.heads _ hmem).resolved)
    have hlt := hindexed.labelled.bound l _ hname
    have haside := hindexed.aside _ hlt hapart
    rw [if_neg Bool.false_ne_true]
    have hplaced := hindexed.place ⟨hlt, hapart, hserves.trans hdebug, haside.own (Or.inl hresolved), haside.successor⟩
    exact ⟨hs.grown hplaced, hplaced.labels l _ hname⟩

/-! ## Following instructions -/

/-- What has been written at the end of the code is followed, and may not go on. -/
theorem Lined.ends (h : flow.Lined size line) (hs : flow.Steady later) (hlt : size < size') (stops : Bool) :
    flow.Grown (if stops then later.noSuccessor size' else later) size' line [] := by
  cases stops with
  | true => exact hs.grown ((h.steady hs (Nat.le_refl size)).noSuccessor hlt)
  | false => exact h.stays hs (Nat.le_of_lt hlt)

/-- An instruction without operands keeps the order of the code. -/
theorem Lined.bare (h : flow.Lined size line) (op : UInt8) (hlt : size < size') :
    flow.Grown (flow.bare op size') size' line [] := by
  unfold ControlFlow.bare
  split
  · refine h.ends ?_ hlt _
    split
    · exact flow.steady_mapFrame _
    · exact flow.steady_heights _ _
  · exact h.stays (.refl flow) (Nat.le_of_lt hlt)

theorem steady_immediate (flow : ControlFlow) (op : UInt8) (operand : Int32) : flow.Steady (flow.immediate op operand) := by
  unfold ControlFlow.immediate
  split
  · split
    · exact flow.steady_mapFrame _
    · split
      · exact .refl flow
      · exact flow.steady_heights _ _
  · exact .refl flow

/-- Moving a local keeps the order of the code. -/
theorem Lined.moveLocal (h : flow.Lined size line) (op : UInt8) (slot : Nat) (hlt : size < size') :
    flow.Grown (flow.moveLocal op slot size') size' line [] := by
  unfold ControlFlow.moveLocal
  split
  · refine h.ends ?_ hlt _
    split
    · exact flow.steady_mapFrame _
    · exact flow.steady_heights _ _
  · exact h.stays (.refl flow) (Nat.le_of_lt hlt)

/-- A switch keeps the order of the code. -/
theorem Lined.switch (h : flow.Lined size line) (defaultLabel : Label) (labels : List Label) (hlt : size < size') :
    flow.Grown (flow.switch defaultLabel labels size') size' line [] := by
  unfold ControlFlow.switch
  split
  · refine h.ends ?_ hlt true
    split
    · exact (flow.steady_mapFrame _).trans (steady_switchEdges _ _ _)
    · exact (flow.steady_heights _ _).trans (steady_switchEdges _ _ _)
  · exact h.stays (.refl flow) (Nat.le_of_lt hlt)

/-- Behind a jump a block is placed only where frames are computed, and only if the code may go on. -/
theorem Lined.endJump {code : Bytes} (h : flow.Lined size line) (op : UInt8) (next : Option Bool)
    (hnext : next ≠ none → op ≠ Opcode.goto ∧ flow.analysis = .frames) (hlt : size < code.size) :
    flow.Grown (flow.endJump op next code).1 code.size line [] := by
  unfold ControlFlow.endJump
  split
  · cases next with
    | none => exact h.ends (.refl flow) hlt _
    | some isTarget =>
      obtain ⟨hop, hframed⟩ := hnext (Option.some_ne_none _)
      have hgoes : (op == Opcode.goto) = false := beq_eq_false_iff_ne.2 hop
      dsimp only
      rw [hgoes, if_neg Bool.false_ne_true]
      have hwritten := (h.fresh.1).steady (.refl _) (Nat.le_of_lt hlt)
      cases isTarget with
      | false =>
        exact flow.steady_fresh.grown ((hwritten.place h.fresh.2).framed (flow.steady_fresh.analysis.trans hframed) [])
      | true =>
        have hs := flow.steady_fresh.trans (steady_markTarget flow.fresh.2 flow.fresh.1)
        have hmarked := h.steady hs (Nat.le_of_lt hlt)
        exact hs.grown ((hmarked.place (h.fresh.2.markTarget _)).framed (hs.analysis.trans hframed) [])
  · exact h.stays (.refl flow) (Nat.le_of_lt hlt)

end ControlFlow

end ClassFile
