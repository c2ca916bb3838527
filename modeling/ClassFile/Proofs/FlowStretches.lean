import ClassFile.Proofs.CodeDecoding
import ClassFile.Proofs.FlowDrafting
import Mathlib.Data.List.Chain

/-!
# Stretches of code and their blocks

Where frames are computed, the blocks of a method stand for stretches of its code, one after the other, each with the
instructions between its start and the start of the next one (`Course`). The frame of a block has followed the instructions
of its stretch, and its edges go where these lead and, unless the last one does not go on, to the next block. A label that
has been placed shares the block of the stretch that starts there. Code behind an instruction that does not go on belongs to
a stretch of its own, which is not followed unless a label is placed at its start: nothing leads to it.
-/

namespace ClassFile

namespace Instruction

/-- An instruction that stands at an offset, as a frame follows it. -/
def operation (offset : Nat) : Instruction → Frame.Operation
  | bare op => .bare op
  | immediate op operand => .immediate op operand
  | moveLocal op slot => .moveLocal op slot
  | typed op name => .typed op name offset
  | field op _ _ descriptor => .field op descriptor
  | invoke op r => .invoke op r.name r.descriptor
  | invokeDynamic _ descriptor _ _ => .invokeDynamic descriptor
  | jump op _ => .jump op
  | constant value => .constant value
  | increment slot _ => .increment slot
  | tableSwitch _ _ _ _ => .switch
  | lookupSwitch _ _ _ => .switch
  | multiArray descriptor dimensions => .multiArray descriptor dimensions

/-- Whether code does not go on behind an instruction. -/
def ends : Instruction → Bool
  | bare op => Opcode.isReturn op || op == Opcode.athrow
  | moveLocal op _ => op == Opcode.ret
  | jump op _ => op == Opcode.goto
  | tableSwitch _ _ _ _ => true
  | lookupSwitch _ _ _ => true
  | _ => false

/-- Whether code may go on elsewhere than behind an instruction, and may come back. -/
def branches : Instruction → Bool
  | jump op _ => op != Opcode.goto
  | _ => false

/-- Whether an instruction is a conditional jump: one that is too far passes over a wide jump. -/
def conditional : Instruction → Bool
  | jump op _ => op != Opcode.goto && op != Opcode.jsr
  | _ => false

end Instruction

/-- A stretch of code, with what its block knows of it. -/
structure Stretch where
  block : Nat
  /-- The offset at which the stretch starts. -/
  start : Nat
  /-- Whether the instructions are followed. -/
  followed : Bool
  /-- Whether a jump leads to the start whose label does not stand there: it passes over another jump. -/
  jumped : Bool := false
  /-- The instructions, each with the offset at which it stands. -/
  body : List (Nat × Instruction) := []
  /-- What the frame of the block has followed. -/
  operations : List Frame.Operation := []
  /-- The labels that the block leads to. -/
  leads : List Label := []
  /-- Whether the block leads to the next one. -/
  falls : Bool := false
  deriving Inhabited

/-- The stretches of code that has been written, of which the last one may go on. -/
structure Course where
  done : List Stretch
  last : Stretch

namespace Course

/-- All stretches, in the order of the code. -/
def all (c : Course) : List Stretch :=
  c.done ++ [c.last]

/-- The instructions of all stretches. -/
def items (c : Course) : List (Nat × Instruction) :=
  c.all.flatMap (·.body)

/-- An instruction is followed, if the last stretch is. -/
def execute (c : Course) (o : Frame.Operation) : Course :=
  ⟨c.done, { c.last with operations := if c.last.followed then c.last.operations ++ [o] else c.last.operations }⟩

/-- The last stretch leads to a label, if it is followed. -/
def lead (c : Course) (l : Label) : Course :=
  ⟨c.done, { c.last with leads := if c.last.followed then c.last.leads ++ [l] else c.last.leads }⟩

/-- An instruction is written at an offset. -/
def write (c : Course) (offset : Nat) (i : Instruction) : Course :=
  ⟨c.done, { c.last with body := c.last.body ++ [(offset, i)] }⟩

/-- The last stretch ends at an offset, and a block starts there to which nothing leads. -/
def stop (c : Course) (block offset : Nat) : Course :=
  ⟨c.done ++ [{ c.last with falls := false }], { block, start := offset, followed := false }⟩

/-- What stands at an offset is followed: in the last stretch if it starts there, or else in a new one. -/
def place (c : Course) (block offset : Nat) (jumped : Bool) : Course :=
  if c.last.start = offset then ⟨c.done, { c.last with followed := true, jumped := c.last.jumped || jumped }⟩
  else ⟨c.done ++ [{ c.last with falls := c.last.followed }], { block, start := offset, followed := true, jumped }⟩

/-- Before anything is written, there is one stretch. -/
def start : Course :=
  ⟨[], { block := 0, start := 0, followed := true }⟩

/-- A stretch is the last one or one of those that are done. -/
theorem mem_all {c : Course} {s : Stretch} : s ∈ c.all ↔ s ∈ c.done ∨ s = c.last := by
  simp [all]

theorem last_mem_all (c : Course) : c.last ∈ c.all :=
  mem_all.2 (Or.inr rfl)

end Course

/-- The frame of a block that has followed instructions one by one, while the type table grew. -/
inductive Frame.Traced (h : Hierarchy) : TypeTable → List Frame.Operation → Frame → Prop where
  | nil {types : TypeTable} (hc : TypeTable.Consistent h types) : Traced h types [] Frame.empty
  | step {types : TypeTable} {is : List Frame.Operation} {f : Frame} (ht : Traced h types is f) (i : Frame.Operation) :
    Traced h (f.execute types i).2.1 (is ++ [i]) (f.execute types i).1
  | grow {types later : TypeTable} {is : List Frame.Operation} {f : Frame} (ht : Traced h types is f)
    (hext : types.Extends later) (hc : TypeTable.Consistent h later) : Traced h later is f

/-- A frame that has followed instructions belongs to a block that has not been entered. -/
theorem Frame.Traced.unentered {h : Hierarchy} {types : TypeTable} {is : List Frame.Operation} {f : Frame}
    (ht : f.Traced h types is) :
    TypeTable.Consistent h types ∧ f.Unentered types := by
  induction ht with
  | nil hc => exact ⟨hc, Frame.unentered_empty _⟩
  | step _ i ih =>
    have hd := ih.2.execute ih.1 i
    exact ⟨hd.consistent, hd.unentered⟩
  | grow _ hext hc ih => exact ⟨hc, ih.2.mono hext⟩

namespace Stretch

/-- The edges of the block of a stretch, which another block follows or none. -/
def edges (blocks : Blocks) (next : Option Nat) (s : Stretch) : List Edge :=
  s.leads.map (fun l => ⟨.normal 0, (blocks.labels[l]?).getD 0⟩) ++ if s.falls then next.toList.map (⟨.normal 0, ·⟩) else []

/-- The block of a stretch is as its instructions have left it. -/
structure Holds (h : Hierarchy) (types : TypeTable) (blocks : Blocks) (next : Option Nat) (s : Stretch) : Prop where
  owner : (blocks.get s.block).owner = s.block
  position : (blocks.get s.block).position = s.start
  successor : (blocks.get s.block).successor = next
  named : ∀ l ∈ s.leads, (blocks.labels[l]?).isSome
  edges : (blocks.get s.block).edges.toList = s.edges blocks next
  frame : ∃ f, (blocks.get s.block).frame = some f ∧ f.Traced h types s.operations
  target : s.jumped = true → (blocks.get s.block).target = true

/-- The instructions of a stretch stand between its start and an offset. -/
structure Within (stop : Nat) (s : Stretch) : Prop where
  extent : s.start ≤ stop
  empty : s.body = [] ↔ s.start = stop
  head : ∀ x ∈ s.body.head?, x.1 = s.start
  inside : ∀ x ∈ s.body, s.start ≤ x.1 ∧ x.1 < stop

/-- A stretch comes right before another one. -/
structure Precedes (h : Hierarchy) (types : TypeTable) (blocks : Blocks) (s s' : Stretch) : Prop where
  holds : s.Holds h types blocks (some s'.block)
  within : s.Within s'.start
  lt : s.start < s'.start

section Holds

variable {h : Hierarchy} {types later : TypeTable} {blocks blocks' : Blocks} {next : Option Nat} {s : Stretch}

/-- The block of a stretch is one of the arena. -/
theorem Holds.lt_size (hs : s.Holds h types blocks next) : s.block < blocks.size := by
  obtain ⟨f, hf, -⟩ := hs.frame
  exact Blocks.lt_size_of_frame hf

/-- Edges hang on the numbers of the labels only. -/
theorem edges_congr (hnamed : ∀ l ∈ s.leads, (blocks.labels[l]?).isSome)
    (hlabels : ∀ (l : Label) (i : Nat), blocks.labels[l]? = some i → blocks'.labels[l]? = some i) :
    s.edges blocks' next = s.edges blocks next := by
  unfold Stretch.edges
  congr 1
  refine List.map_congr_left fun l hl => ?_
  obtain ⟨i, hi⟩ := Option.isSome_iff_exists.1 (hnamed l hl)
  rw [hi, hlabels l i hi]

/-- A change that leaves the block of a stretch alone. -/
theorem Holds.congr (hs : s.Holds h types blocks next) (hext : types.Extends later) (hc : TypeTable.Consistent h later)
    (hlabels : ∀ (l : Label) (i : Nat), blocks.labels[l]? = some i → blocks'.labels[l]? = some i)
    (howner : (blocks'.get s.block).owner = (blocks.get s.block).owner)
    (hposition : (blocks'.get s.block).position = (blocks.get s.block).position)
    (hsuccessor : (blocks'.get s.block).successor = (blocks.get s.block).successor)
    (hedges : (blocks'.get s.block).edges = (blocks.get s.block).edges)
    (hframe : (blocks'.get s.block).frame = (blocks.get s.block).frame)
    (htarget : (blocks.get s.block).target = true → (blocks'.get s.block).target = true) : s.Holds h later blocks' next := by
  refine ⟨howner.trans hs.owner, hposition.trans hs.position, hsuccessor.trans hs.successor, fun l hl => ?_, ?_, ?_,
    fun hjumped => htarget (hs.target hjumped)⟩
  · obtain ⟨i, hi⟩ := Option.isSome_iff_exists.1 (hs.named l hl)
    exact Option.isSome_iff_exists.2 ⟨i, hlabels l i hi⟩
  · rw [hedges, hs.edges, edges_congr hs.named hlabels]
  · obtain ⟨f, hf, ht⟩ := hs.frame
    exact ⟨f, hframe.trans hf, ht.grow hext hc⟩

/-- A change of the arena that leaves the block of a stretch as it is. -/
theorem Holds.same (hs : s.Holds h types blocks next) (hext : types.Extends later) (hc : TypeTable.Consistent h later)
    (hlabels : ∀ (l : Label) (i : Nat), blocks.labels[l]? = some i → blocks'.labels[l]? = some i)
    (hget : blocks'.get s.block = blocks.get s.block) : s.Holds h later blocks' next :=
  hs.congr hext hc hlabels (by rw [hget]) (by rw [hget]) (by rw [hget]) (by rw [hget]) (by rw [hget])
    fun ht => hget.symm ▸ ht

end Holds

end Stretch

/-- A block that has been given a number, and nothing else. -/
structure Block.Idle (i : Nat) (b : Block) : Prop where
  owner : b.owner = i
  edges : b.edges = #[]
  frame : b.frame = none
  successor : b.successor = none

namespace Course

/-- What is known of the block of a label: once the label has been placed it shares the block of the stretch that starts
there, and this is followed. A label that serves debug information only shares none. -/
structure Knows (c : Course) (l : Label) (i : Nat) (b : Block) : Prop where
  debug : b.debug = l.debug
  placed : b.resolved = true → l.debug = false → ∃ s ∈ c.all, b.owner = s.block ∧ b.position = s.start ∧ s.followed = true
  idle : b.resolved = false ∨ l.debug = true → b.Idle i ∧ ∀ s ∈ c.all, s.block ≠ i

/-- Labels have blocks of their own or share those of stretches, and where a stretch leads to is
marked. Other blocks lead nowhere. -/
structure Names (c : Course) (blocks : Blocks) : Prop where
  labelled : blocks.Labelled
  marked : ∀ s ∈ c.all, ∀ l ∈ s.leads, ∀ i, blocks.labels[l]? = some i → (blocks.get (blocks.owner i)).target = true
  known : ∀ (l : Label) (i : Nat), blocks.labels[l]? = some i → c.Knows l i (blocks.get i)
  others : ∀ i, (∀ s ∈ c.all, s.block ≠ i) → (blocks.get i).edges = #[]

/-- A block that shares that of no stretch is its own owner. -/
theorem Names.owner_eq {c : Course} {blocks : Blocks} (hn : c.Names blocks) {l : Label} {i : Nat}
    (hi : blocks.labels[l]? = some i) (hnot : ∀ s ∈ c.all, s.block ≠ blocks.owner i) : blocks.owner i = i := by
  have hknown := hn.known l i hi
  by_cases hr : (blocks.get i).resolved = true ∧ l.debug = false
  · obtain ⟨s, hmem, howner, -, -⟩ := hknown.placed hr.1 hr.2
    exact absurd howner.symm (hnot s hmem)
  · rw [not_and, Bool.not_eq_false] at hr
    exact (hknown.idle ((Bool.eq_false_or_eq_true _).symm.imp_right hr)).1.owner

/-- A change of stretches and blocks that moves no stretch; a block that no stretch had may be placed. -/
structure Changes (c c' : Course) (blocks blocks' : Blocks) (i : Nat) : Prop where
  size : blocks.size ≤ blocks'.size
  labels : blocks'.labels = blocks.labels
  back : ∀ s ∈ c.all, ∃ s' ∈ c'.all, s.block = s'.block ∧ s.start = s'.start ∧ (s.followed = true → s'.followed = true)
  forth : ∀ s' ∈ c'.all, (∃ s ∈ c.all, s.block = s'.block) ∨ s'.block = i
  leads : ∀ s' ∈ c'.all, ∀ l ∈ s'.leads, (∃ s ∈ c.all, l ∈ s.leads) ∨
    ∀ j, blocks.labels[l]? = some j → (blocks.get (blocks.owner j)).target = true
  fresh : ∀ s ∈ c.all, s.block ≠ i
  kept : ∀ j ≠ i, (blocks'.get j).debug = (blocks.get j).debug ∧ (blocks'.get j).resolved = (blocks.get j).resolved ∧
    (blocks'.get j).position = (blocks.get j).position ∧ (blocks'.get j).owner = (blocks.get j).owner ∧
    ((blocks.get j).target = true → (blocks'.get j).target = true)
  apart : ∀ j ≠ i, (∀ s ∈ c.all, s.block ≠ j) → blocks'.get j = blocks.get j
  placed : ∀ l : Label, blocks.labels[l]? = some i → l.debug = false ∧ (blocks'.get i).debug = false ∧
    (blocks'.get i).resolved = true ∧
    (∃ s' ∈ c'.all, (blocks'.get i).owner = s'.block ∧ (blocks'.get i).position = s'.start ∧ s'.followed = true) ∧
    blocks.owner i = i ∧ ((blocks.get i).target = true → (blocks'.get (blocks'.owner i)).target = true)
  edges : (∀ s' ∈ c'.all, s'.block ≠ i) → (blocks'.get i).edges = #[]

/-- What labels name is not changed by a step that moves no stretch. -/
theorem Names.change {c c' : Course} {blocks blocks' : Blocks} {i : Nat} (hn : c.Names blocks)
    (hc : c.Changes c' blocks blocks' i) :
    c'.Names blocks' := by
  have hlabels : ∀ (l : Label) (j : Nat), blocks'.labels[l]? = some j → blocks.labels[l]? = some j := fun l j hj => by
    rwa [hc.labels] at hj
  refine ⟨⟨fun l j hj => Nat.lt_of_lt_of_le (hn.labelled.bound l j (hlabels l j hj)) hc.size,
    fun l l' j hj hj' => hn.labelled.unique l l' j (hlabels l j hj) (hlabels l' j hj')⟩, ?_, ?_, ?_⟩
  · intro s' hmem l hl j hj
    have hold : (blocks.get (blocks.owner j)).target = true := by
      rcases hc.leads s' hmem l hl with ⟨s, hmem, hl⟩ | hmarked
      · exact hn.marked s hmem l hl j (hlabels l j hj)
      · exact hmarked j (hlabels l j hj)
    by_cases hji : j = i
    · subst hji
      obtain ⟨-, -, -, -, howner, htarget⟩ := hc.placed l (hlabels l j hj)
      exact htarget (howner ▸ hold)
    · have howner : blocks'.owner j = blocks.owner j := (hc.kept j hji).2.2.2.1
      rw [howner]
      refine (hc.kept _ fun how => hji ?_).2.2.2.2 hold
      rw [← how, hn.owner_eq (hlabels l j hj) fun s hmem => how ▸ hc.fresh s hmem]
  · intro l j hj
    by_cases hji : j = i
    · subst hji
      obtain ⟨hd, hd', hr, hplaced, -, -⟩ := hc.placed l (hlabels l j hj)
      refine ⟨hd'.trans hd.symm, fun _ _ => hplaced, fun h => ?_⟩
      rw [hr, hd] at h
      rcases h with h | h <;> cases h
    · obtain ⟨hdebug, hresolved, hposition, howner, -⟩ := hc.kept j hji
      have hknown := hn.known l j (hlabels l j hj)
      refine ⟨hdebug.trans hknown.debug, fun hr hd => ?_, fun hr => ?_⟩
      · obtain ⟨s, hmem, howns, hstands, hfollowed⟩ := hknown.placed (hresolved ▸ hr) hd
        obtain ⟨s', hmem', hblock, hstart, hfollows⟩ := hc.back s hmem
        exact ⟨s', hmem', howner.trans (howns.trans hblock), hposition.trans (hstands.trans hstart), hfollows hfollowed⟩
      · obtain ⟨hidle, hnot⟩ := hknown.idle (hresolved ▸ hr)
        refine ⟨hc.apart j hji hnot ▸ hidle, fun s' hmem heq => ?_⟩
        rcases hc.forth s' hmem with ⟨s, hmem', hblock⟩ | hblock
        · exact hnot s hmem' (hblock.trans heq)
        · exact hji (heq.symm.trans hblock)
  · intro j hj
    by_cases hji : j = i
    · subst hji
      exact hc.edges hj
    · have hnot : ∀ s ∈ c.all, s.block ≠ j := by
        intro s hmem heq
        obtain ⟨s', hmem', hblock, -, -⟩ := hc.back s hmem
        exact hj s' hmem' (hblock.symm.trans heq)
      rw [hc.apart j hji hnot]
      exact hn.others j hnot

end Course

namespace ControlFlow

/-- The blocks of a flow stand for stretches of the code that has been written, up to an offset. -/
structure Stretched (h : Hierarchy) (types : TypeTable) (flow : ControlFlow) (size : Nat) (c : Course) : Prop where
  framed : flow.analysis = .frames
  first : ∃ s, c.all.head? = some s ∧ s.block = flow.first ∧ s.start = 0
  previous : flow.previous = some c.last.block
  current : flow.current = if c.last.followed then some c.last.block else none
  consistent : TypeTable.Consistent h types
  chain : c.all.IsChain (Stretch.Precedes h types flow.blocks)
  last : c.last.Holds h types flow.blocks none
  within : c.last.Within size
  names : c.Names flow.blocks

section Stretched

variable {h : Hierarchy} {types later : TypeTable} {flow : ControlFlow} {size : Nat} {c : Course}

/-- Stretches start one behind the other. -/
theorem Stretched.sorted (hs : flow.Stretched h types size c) : (c.all.map (·.start)).Pairwise (· < ·) := by
  rw [← List.isChain_iff_pairwise, List.isChain_map]
  exact hs.chain.imp fun _ _ hp => hp.lt

/-- A stretch that is done comes right before another one. -/
theorem Stretched.holds_done (hs : flow.Stretched h types size c) {s : Stretch} (hmem : s ∈ c.done) :
    ∃ s', s.Precedes h types flow.blocks s' := by
  obtain ⟨before, after, hsplit⟩ := List.append_of_mem hmem
  have hchain := hs.chain
  rw [Course.all, hsplit, List.append_assoc, List.cons_append] at hchain
  cases after with
  | nil => exact ⟨_, (List.isChain_append_cons_cons.1 hchain).2.1⟩
  | cons s' after => exact ⟨s', (List.isChain_append_cons_cons.1 hchain).2.1⟩

/-- The block of each stretch is as its instructions have left it. -/
theorem Stretched.holds (hs : flow.Stretched h types size c) {s : Stretch} (hmem : s ∈ c.all) :
    ∃ next, s.Holds h types flow.blocks next := by
  rcases Course.mem_all.1 hmem with hmem | rfl
  · obtain ⟨s', hp⟩ := hs.holds_done hmem
    exact ⟨_, hp.holds⟩
  · exact ⟨none, hs.last⟩

/-- Stretches with one block are one stretch. -/
theorem Stretched.block_ne (hs : flow.Stretched h types size c) {s : Stretch} (hmem : s ∈ c.done) :
    s.block ≠ c.last.block := by
  intro heq
  have hlt : s.start < c.last.start := by
    have hsorted := hs.sorted
    rw [Course.all, List.map_append, List.pairwise_append] at hsorted
    exact hsorted.2.2 _ (List.mem_map.2 ⟨s, hmem, rfl⟩) _ (by simp)
  obtain ⟨s', hp⟩ := hs.holds_done hmem
  have hstart := hp.holds.position
  rw [heq, hs.last.position] at hstart
  omega

end Stretched

end ControlFlow

/-! ## Changes that no stretch sees -/

/-- Two blocks that differ at most in what waits for their position and in what is marked. -/
structure Block.Like (b b' : Block) : Prop where
  debug : b'.debug = b.debug
  resolved : b'.resolved = b.resolved
  position : b'.position = b.position
  owner : b'.owner = b.owner
  successor : b'.successor = b.successor
  edges : b'.edges = b.edges
  frame : b'.frame = b.frame
  target : b.target = true → b'.target = true

theorem Block.Like.refl (b : Block) : b.Like b :=
  ⟨rfl, rfl, rfl, rfl, rfl, rfl, rfl, fun h => h⟩

theorem Block.Like.trans {b b' b'' : Block} (h : b.Like b') (h' : b'.Like b'') : b.Like b'' :=
  ⟨h'.debug.trans h.debug, h'.resolved.trans h.resolved, h'.position.trans h.position, h'.owner.trans h.owner,
    h'.successor.trans h.successor, h'.edges.trans h.edges, h'.frame.trans h.frame, fun ht => h'.target (h.target ht)⟩

/-- Blocks are added, for labels or without one, and others are marked. -/
structure Blocks.Calm (blocks blocks' : Blocks) : Prop where
  size : blocks.size ≤ blocks'.size
  labels : ∀ (l : Label) (i : Nat), blocks.labels[l]? = some i → blocks'.labels[l]? = some i
  labelled : blocks.Labelled → blocks'.Labelled
  get : ∀ j < blocks.size, (blocks.get j).Like (blocks'.get j)
  added : ∀ j, blocks.size ≤ j → (blocks'.get j).resolved = false ∧ (blocks'.get j).edges = #[] ∧
    (j < blocks'.size → (blocks'.get j).Idle j)
  named : ∀ (l : Label) (i : Nat), blocks'.labels[l]? = some i →
    blocks.labels[l]? = some i ∨ blocks.size ≤ i ∧ i < blocks'.size ∧ (blocks'.get i).debug = l.debug

namespace Blocks

variable {blocks blocks' blocks'' : Blocks}

theorem Calm.refl (blocks : Blocks) : blocks.Calm blocks := by
  refine ⟨Nat.le_refl _, fun _ _ h => h, fun h => h, fun j _ => Block.Like.refl _, fun j hj => ?_, fun _ _ h => Or.inl h⟩
  rw [get_of_size_le hj]
  exact ⟨rfl, rfl, fun h => absurd h (Nat.not_lt.2 hj)⟩

theorem Calm.trans (h : blocks.Calm blocks') (h' : blocks'.Calm blocks'') : blocks.Calm blocks'' := by
  refine ⟨Nat.le_trans h.size h'.size, fun l i hl => h'.labels l i (h.labels l i hl), fun hl => h'.labelled (h.labelled hl),
    fun j hj => (h.get j hj).trans (h'.get j (Nat.lt_of_lt_of_le hj h.size)), fun j hj => ?_, fun l i hl => ?_⟩
  · by_cases hlt : j < blocks'.size
    · obtain ⟨hresolved, hedges, hidle⟩ := h.added j hj
      have hlike := h'.get j hlt
      have hold := hidle hlt
      exact ⟨hlike.resolved.trans hresolved, hlike.edges.trans hedges, fun _ => ⟨hlike.owner.trans hold.owner,
        hlike.edges.trans hold.edges, hlike.frame.trans hold.frame, hlike.successor.trans hold.successor⟩⟩
    · exact h'.added j (Nat.le_of_not_lt hlt)
  · rcases h'.named l i hl with hl | ⟨hle, hlt, hdebug⟩
    · rcases h.named l i hl with hl | ⟨hle, hlt, hdebug⟩
      · exact Or.inl hl
      · exact Or.inr ⟨hle, Nat.lt_of_lt_of_le hlt h'.size, (h'.get i hlt).debug.trans hdebug⟩
    · exact Or.inr ⟨Nat.le_trans h.size hle, hlt, hdebug⟩

/-- A change of one block that no stretch sees. -/
theorem Calm.modify (blocks : Blocks) (i : Nat) {f : Block → Block} (hf : ∀ b : Block, b.Like (f b)) :
    blocks.Calm (blocks.modify i f) := by
  have hsize := size_modify blocks i f
  refine ⟨Nat.le_of_eq hsize.symm, fun _ _ h => h, fun hl => hl.modify i f, fun j _ => ?_,
    fun j hj => ?_, fun _ _ h => Or.inl h⟩
  · rw [get_modify]
    split
    · rename_i hj
      rw [hj.1]
      exact hf _
    · exact Block.Like.refl _
  · have hnot : ¬(j = i ∧ i < blocks.size) := fun h => absurd (h.1.symm ▸ h.2) (Nat.not_lt.2 hj)
    rw [get_modify, if_neg hnot, get_of_size_le hj]
    exact ⟨rfl, rfl, fun h => absurd h (by rw [hsize]; exact Nat.not_lt.2 hj)⟩

/-- A new block is idle, and so are all behind it. -/
theorem get_push_new (blocks : Blocks) (debug : Bool) (labels : Std.HashMap Label Nat) {j : Nat} (hj : blocks.size ≤ j) :
    (get ⟨blocks.arena.push { debug, owner := blocks.size }, labels⟩ j).resolved = false ∧
      (get ⟨blocks.arena.push { debug, owner := blocks.size }, labels⟩ j).edges = #[] ∧
      (j < size ⟨blocks.arena.push { debug, owner := blocks.size }, labels⟩ →
        (get ⟨blocks.arena.push { debug, owner := blocks.size }, labels⟩ j).Idle j) := by
  rw [get_push]
  split
  · rename_i hlast
    exact ⟨rfl, rfl, fun _ => ⟨hlast.symm, rfl, rfl, rfl⟩⟩
  · rename_i hlast
    rw [get_of_size_le hj]
    refine ⟨rfl, rfl, fun hlt => ?_⟩
    have hsize : size ⟨blocks.arena.push { debug, owner := blocks.size }, labels⟩ = blocks.size + 1 := Array.size_push _
    omega

/-- A block without a label is added, and nothing else changes. -/
theorem calm_fresh (blocks : Blocks) : blocks.Calm blocks.fresh.2 := by
  have hsize : blocks.fresh.2.size = blocks.size + 1 := Array.size_push _
  refine ⟨by omega, fun _ _ h => h, blocks.neutral_fresh.labelled, fun j hj => ?_,
    fun j hj => blocks.get_push_new false blocks.labels hj, fun _ _ h => Or.inl h⟩
  have hget : blocks.fresh.2.get j = blocks.get j := (get_push blocks _ _ j).trans (if_neg (Nat.ne_of_lt hj))
  rw [hget]
  exact Block.Like.refl _

/-- Naming a label adds a block at most. -/
theorem calm_index (blocks : Blocks) (label : Label) : blocks.Calm (blocks.index label).2 := by
  have hneutral := blocks.neutral_index label
  have hsize := blocks.size_index_le label
  cases hl : blocks.labels[label]? with
  | some i =>
    have heq : (blocks.index label).2 = blocks := by
      unfold Blocks.index
      rw [hl]
    rw [heq]
    exact Calm.refl blocks
  | none =>
    have heq : (blocks.index label).2 =
        ⟨blocks.arena.push { debug := label.debug, owner := blocks.size }, blocks.labels.insert label blocks.size⟩ := by
      unfold Blocks.index
      rw [hl]
      rfl
    rw [heq] at hneutral hsize ⊢
    refine ⟨hsize, hneutral.labels, hneutral.labelled, fun j hj => ?_, fun j hj => blocks.get_push_new label.debug _ hj,
      fun l i hi => ?_⟩
    · rw [get_push, if_neg (Nat.ne_of_lt hj)]
      exact Block.Like.refl _
    · rw [Std.HashMap.getElem?_insert] at hi
      split at hi
      · rename_i hlabel
        obtain rfl := Option.some.inj hi
        obtain rfl : label = l := by simpa using hlabel
        refine Or.inr ⟨Nat.le_refl _, ?_, ?_⟩
        · change _ < (blocks.arena.push _).size
          rw [Array.size_push]
          exact Nat.lt_succ_self _
        · rw [get_push, if_pos rfl]
      · exact Or.inl hi

/-- A distance that waits for its label is all that changes. -/
theorem calm_putReference (blocks : Blocks) (label : Label) (origin : Nat) (code : Bytes) (wide : Bool) :
    blocks.Calm (blocks.putReference label origin code wide).1 := by
  have hindex := blocks.calm_index label
  unfold Blocks.putReference
  dsimp only
  split
  · exact hindex
  · exact hindex.trans (Calm.modify _ _ fun _ => ⟨rfl, rfl, rfl, rfl, rfl, rfl, rfl, fun ht => ht⟩)

end Blocks

namespace ControlFlow

section Calm

variable {h : Hierarchy} {types later : TypeTable} {flow : ControlFlow} {size : Nat} {c : Course}

/-- The blocks of stretches are blocks of the arena. -/
theorem Stretched.lt_size (hs : flow.Stretched h types size c) {s : Stretch} (hmem : s ∈ c.all) :
    s.block < flow.blocks.size := by
  obtain ⟨next, hholds⟩ := hs.holds hmem
  exact hholds.lt_size

/-- The labels of blocks that are added have not been placed. -/
theorem Stretched.names_calm (hs : flow.Stretched h types size c) {blocks : Blocks} (hcalm : flow.blocks.Calm blocks) :
    c.Names blocks := by
  have hn := hs.names
  refine ⟨hcalm.labelled hn.labelled, ?_, ?_, ?_⟩
  · intro s hmem l hl i hi
    obtain ⟨next, hholds⟩ := hs.holds hmem
    obtain ⟨i', hi'⟩ := Option.isSome_iff_exists.1 (hholds.named l hl)
    obtain rfl := Option.some.inj ((hcalm.labels l i' hi').symm.trans hi)
    have hmarked := hn.marked s hmem l hl i' hi'
    have howner : blocks.owner i' = flow.blocks.owner i' := (hcalm.get i' (hn.labelled.bound l i' hi')).owner
    rw [howner]
    refine (hcalm.get _ ?_).target hmarked
    refine Nat.lt_of_not_le fun hle => ?_
    rw [Blocks.get_of_size_le hle] at hmarked
    cases hmarked
  · intro l i hi
    rcases hcalm.named l i hi with hi | ⟨hle, hlt, hdebug⟩
    · have hlike := hcalm.get i (hn.labelled.bound l i hi)
      have hknown := hn.known l i hi
      refine ⟨hlike.debug.trans hknown.debug, fun hr hd => ?_, fun hr => ?_⟩
      · rw [hlike.resolved] at hr
        obtain ⟨s, hmem, howner, hposition, hfollowed⟩ := hknown.placed hr hd
        exact ⟨s, hmem, hlike.owner.trans howner, hlike.position.trans hposition, hfollowed⟩
      · rw [hlike.resolved] at hr
        obtain ⟨hidle, hne⟩ := hknown.idle hr
        exact ⟨⟨hlike.owner.trans hidle.owner, hlike.edges.trans hidle.edges, hlike.frame.trans hidle.frame,
          hlike.successor.trans hidle.successor⟩, hne⟩
    · obtain ⟨hresolved, hedges, hidle⟩ := hcalm.added i hle
      refine ⟨hdebug, fun hr => ?_, fun _ => ⟨hidle hlt, fun s hmem he => ?_⟩⟩
      · exact absurd (hresolved.symm.trans hr) Bool.false_ne_true
      · exact absurd (hs.lt_size hmem) (Nat.not_lt.2 (he ▸ hle))
  · intro j hj
    by_cases hlt : j < flow.blocks.size
    · exact (hcalm.get j hlt).edges.trans (hn.others j hj)
    · exact (hcalm.added j (Nat.le_of_not_lt hlt)).2.1

/-- Nothing of the stretches hangs on blocks that are added or marked. -/
theorem Stretched.calm (hs : flow.Stretched h types size c) {blocks : Blocks} (hcalm : flow.blocks.Calm blocks)
    (hext : types.Extends later) (hc : TypeTable.Consistent h later) : Stretched h later { flow with blocks } size c := by
  have hholds : ∀ (s : Stretch) (next : Option Nat), s.Holds h types flow.blocks next → s.Holds h later blocks next := by
    intro s next hs'
    have hlike := hcalm.get s.block hs'.lt_size
    exact hs'.congr hext hc hcalm.labels hlike.owner hlike.position hlike.successor hlike.edges hlike.frame hlike.target
  exact ⟨hs.framed, hs.first, hs.previous, hs.current, hc,
    hs.chain.imp fun s s' hp => ⟨hholds s _ hp.holds, hp.within, hp.lt⟩, hholds _ _ hs.last, hs.within, hs.names_calm hcalm⟩

/-- A step that adds and marks blocks keeps all stretches. -/
theorem Stretched.keep (hs : flow.Stretched h types size c) {blocks : Blocks} (hcalm : flow.blocks.Calm blocks) :
    Stretched h types { flow with blocks } size c :=
  hs.calm hcalm (TypeTable.Extends.refl _) hs.consistent

/-- Naming a label keeps all stretches. -/
theorem Stretched.index (hs : flow.Stretched h types size c) (l : Label) : (flow.index l).2.Stretched h types size c :=
  hs.keep (flow.blocks.calm_index l)

theorem Stretched.markTarget (hs : flow.Stretched h types size c) (i : Nat) : (flow.markTarget i).Stretched h types size c :=
  hs.keep (Blocks.Calm.modify _ _ fun _ => ⟨rfl, rfl, rfl, rfl, rfl, rfl, rfl, fun _ => rfl⟩)

theorem Stretched.putReference (hs : flow.Stretched h types size c) (label : Label) (origin : Nat) (code : Bytes)
    (wide : Bool) :
    (flow.putReference label origin code wide).1.Stretched h types size c :=
  hs.keep (flow.blocks.calm_putReference label origin code wide)

end Calm

/-! ## Changes of the last stretch -/

section Last

variable {h : Hierarchy} {types later : TypeTable} {flow flow' : ControlFlow} {size size' : Nat}
  {c : Course} {last : Stretch}

/-- What comes before the last stretch hangs on its block and its start only. -/
theorem Stretched.chain_last (hs : flow.Stretched h types size c) (hext : types.Extends later)
    (hc : TypeTable.Consistent h later) (hlabels : flow'.blocks.labels = flow.blocks.labels)
    (hget : ∀ s ∈ c.done, flow'.blocks.get s.block = flow.blocks.get s.block)
    (hblock : last.block = c.last.block) (hstart : last.start = c.last.start) :
    (c.done ++ [last]).IsChain (Stretch.Precedes h later flow'.blocks) := by
  obtain ⟨hdone, -, hlast⟩ := List.isChain_append.1 hs.chain
  have hprecedes : ∀ s ∈ c.done, ∀ s', s.Precedes h types flow.blocks s' → s.Precedes h later flow'.blocks s' :=
    fun s hmem s' hp => ⟨hp.holds.same hext hc (fun _ _ h => hlabels ▸ h) (hget s hmem), hp.within, hp.lt⟩
  refine List.isChain_append.2 ⟨hdone.imp_of_mem_imp fun s s' hmem _ => hprecedes s hmem s', List.isChain_singleton _, ?_⟩
  intro s hmem s' hs'
  obtain rfl := Option.some.inj hs'
  have hp := hprecedes s (List.mem_of_mem_getLast? hmem) _ (hlast s hmem c.last rfl)
  exact ⟨hblock ▸ hp.holds, hstart ▸ hp.within, hstart ▸ hp.lt⟩

/-- What comes first stays first while the last stretch changes. -/
theorem Stretched.first_last (hs : flow.Stretched h types size c) (hblock : last.block = c.last.block)
    (hstart : last.start = c.last.start) (rest : List Stretch) :
    ∃ s, (c.done ++ last :: rest).head? = some s ∧ s.block = flow.first ∧ s.start = 0 := by
  obtain ⟨s, hhead, hsblock, hsstart⟩ := hs.first
  unfold Course.all at hhead
  cases hdone : c.done with
  | nil =>
    rw [hdone] at hhead
    obtain rfl := Option.some.inj hhead
    exact ⟨last, rfl, hblock.trans hsblock, hstart.trans hsstart⟩
  | cons s' rest' =>
    rw [hdone] at hhead
    exact ⟨s, hhead, hsblock, hsstart⟩

/-- Only the last stretch changes, and the block that it has. -/
theorem Stretched.relast (hs : flow.Stretched h types size c) (hext : types.Extends later)
    (hc : TypeTable.Consistent h later) (hframed : flow'.analysis = flow.analysis) (hfirst : flow'.first = flow.first)
    (hprevious : flow'.previous = flow.previous) (hcurrent : flow'.current = if last.followed then some last.block else none)
    (hblock : last.block = c.last.block) (hstart : last.start = c.last.start)
    (hfollowed : last.followed = c.last.followed) (hsize : flow'.blocks.size = flow.blocks.size)
    (hlabels : flow'.blocks.labels = flow.blocks.labels) (hget : ∀ j ≠ c.last.block, flow'.blocks.get j = flow.blocks.get j)
    (hdebug : (flow'.blocks.get c.last.block).debug = (flow.blocks.get c.last.block).debug)
    (hresolved : (flow'.blocks.get c.last.block).resolved = (flow.blocks.get c.last.block).resolved)
    (htarget : (flow.blocks.get c.last.block).target = true → (flow'.blocks.get c.last.block).target = true)
    (hlast : last.Holds h later flow'.blocks none) (hwithin : last.Within size')
    (hmarked : ∀ l ∈ last.leads, ∀ i, flow.blocks.labels[l]? = some i →
      (flow.blocks.get (flow.blocks.owner i)).target = true) :
    flow'.Stretched h later size' ⟨c.done, last⟩ := by
  refine ⟨hframed.trans hs.framed, hfirst ▸ hs.first_last hblock hstart [],
    (hprevious.trans hs.previous).trans (congrArg some hblock.symm),
    hcurrent, hc, hs.chain_last hext hc hlabels (fun s hmem => hget _ (hs.block_ne hmem)) hblock hstart, hlast, hwithin, ?_⟩
  refine hs.names.change (i := flow.blocks.size) ⟨Nat.le_of_eq hsize.symm, hlabels, ?_, ?_, ?_, ?_, ?_, ?_, ?_, ?_⟩
  · intro s hmem
    rcases Course.mem_all.1 hmem with hmem | rfl
    · exact ⟨s, Course.mem_all.2 (Or.inl hmem), rfl, rfl, fun hf => hf⟩
    · exact ⟨last, Course.last_mem_all _, hblock.symm, hstart.symm, fun hf => hfollowed.trans hf⟩
  · intro s hmem
    rcases Course.mem_all.1 hmem with hmem | rfl
    · exact Or.inl ⟨s, Course.mem_all.2 (Or.inl hmem), rfl⟩
    · exact Or.inl ⟨c.last, c.last_mem_all, hblock.symm⟩
  · intro s hmem l hl
    rcases Course.mem_all.1 hmem with hmem | rfl
    · exact Or.inl ⟨s, Course.mem_all.2 (Or.inl hmem), hl⟩
    · exact Or.inr (hmarked l hl)
  · exact fun s hmem => Nat.ne_of_lt (hs.lt_size hmem)
  · intro j _
    by_cases hj : j = c.last.block
    · subst hj
      refine ⟨hdebug, hresolved, ?_, ?_, htarget⟩
      · rw [hs.last.position, ← hstart, ← hlast.position, hblock]
      · rw [hs.last.owner, ← hblock, hlast.owner]
    · rw [hget j hj]
      exact ⟨rfl, rfl, rfl, rfl, fun ht => ht⟩
  · exact fun j _ hnot => hget j fun heq => hnot _ c.last_mem_all heq.symm
  · exact fun l hl => absurd (hs.names.labelled.bound l _ hl) (Nat.lt_irrefl _)
  · intro _
    rw [Blocks.get_of_size_le (Nat.le_of_eq hsize)]

/-- Running an instruction changes the current frame and nothing else. -/
theorem stepFrame_eq {i : Nat} {f : Frame} (hcurrent : flow.current = some i) (hf : (flow.blocks.get i).frame = some f)
    (types : TypeTable) (g : Frame → TypeTable → Frame × TypeTable × Option Error) :
    flow.stepFrame types g =
      ({ flow with blocks := (flow.blocks.modify i fun b => { b with frame := none }).modify i fun b =>
        { b with frame := some (g f types).1 } },
        (g f types).2.1, (g f types).2.2) := by
  obtain ⟨analysis, blocks, first, current, previous, height, peak⟩ := flow
  obtain rfl : current = some i := hcurrent
  unfold stepFrame
  dsimp only at hf ⊢
  rw [hf]
  rfl

/-- An instruction is followed by the frame of the last stretch. -/
theorem Stretched.stepFrame (hs : flow.Stretched h types size c) (o : Frame.Operation) :
    (flow.stepFrame types fun f types => f.execute types o).1.Stretched h
      (flow.stepFrame types fun f types => f.execute types o).2.1
      size (c.execute o) := by
  obtain ⟨f, hf, htraced⟩ := hs.last.frame
  have hlt := hs.last.lt_size
  cases hfollowed : c.last.followed with
  | false =>
    have hstep : flow.stepFrame types (fun f types => f.execute types o) = (flow, types, none) := by
      unfold ControlFlow.stepFrame
      rw [hs.current, hfollowed]
      rfl
    have hcourse : c.execute o = c := by
      unfold Course.execute
      rw [hfollowed]
      rfl
    rw [hstep, hcourse]
    exact hs
  | true =>
    have hcurrent : flow.current = some c.last.block := by
      rw [hs.current, hfollowed]
      rfl
    have hgrown := htraced.unentered.2.execute htraced.unentered.1 o
    rw [stepFrame_eq hcurrent hf]
    unfold Course.execute
    rw [if_pos hfollowed]
    refine hs.relast hgrown.grown hgrown.consistent rfl rfl rfl (hcurrent.trans (if_pos hfollowed).symm) rfl
      rfl rfl ?_ rfl ?_ ?_ ?_ ?_ ?_ ⟨hs.within.extent, hs.within.empty, hs.within.head, hs.within.inside⟩ fun l hl =>
        hs.names.marked _ c.last_mem_all l hl
    · simp only [Blocks.size_modify]
    · intro j hj
      simp only [Blocks.get_modify, hj, false_and, if_false]
    all_goals simp only [Blocks.get_modify, Blocks.size_modify, hlt, and_self, if_true]
    · exact fun ht => ht
    · have hget : ∀ b : Block, b = ((flow.blocks.modify c.last.block fun b => { b with frame := none }).modify c.last.block
          fun b => { b with frame := some (f.execute types o).1 }).get c.last.block →
          b = { flow.blocks.get c.last.block with frame := some (f.execute types o).1 } := by
        rintro _ rfl
        simp only [Blocks.get_modify, Blocks.size_modify, hlt, and_self, if_true]
      have hblock := hget _ rfl
      refine ⟨?_, ?_, ?_, hs.last.named, ?_, ⟨(f.execute types o).1, ?_, htraced.step o⟩, ?_⟩
      all_goals
        dsimp only
        rw [hblock]
      · exact hs.last.owner
      · exact hs.last.position
      · exact hs.last.successor
      · exact hs.last.edges
      · exact hs.last.target

/-- A frame changes as an instruction says that looks at no types. -/
theorem Stretched.mapFrame (hs : flow.Stretched h types size c) {o : Frame.Operation} {g : Frame → Frame}
    (ho : ∀ (f : Frame) (types : TypeTable), f.execute types o = (g f, types, none)) :
    (flow.mapFrame g).Stretched h types size (c.execute o) := by
  have hstep := hs.stepFrame o
  have hsame : (flow.stepFrame types fun f types => f.execute types o) = (flow.mapFrame g, types, none) := by
    cases hcurrent : flow.current with
    | none =>
      unfold ControlFlow.stepFrame ControlFlow.mapFrame
      rw [hcurrent]
    | some i =>
      have hlast : i = c.last.block := by
        have hflow := hs.current
        rw [hcurrent] at hflow
        split at hflow
        · exact Option.some.inj hflow
        · cases hflow
      obtain ⟨f, hf, -⟩ := hs.last.frame
      rw [← hlast] at hf
      rw [stepFrame_eq hcurrent hf, ho]
      obtain ⟨analysis, blocks, first, current, previous, height, peak⟩ := flow
      obtain rfl : current = some i := hcurrent
      unfold ControlFlow.mapFrame
      dsimp only at hf ⊢
      rw [hf]
      rfl
  rw [hsame] at hstep
  exact hstep

/-- The block of the last stretch gets an edge to that of a label which is marked. -/
theorem Stretched.addEdge (hs : flow.Stretched h types size c) {l : Label} {i : Nat} (hl : flow.blocks.labels[l]? = some i)
    (hmarked : (flow.blocks.get (flow.blocks.owner i)).target = true) :
    (flow.addEdge (.normal 0) i).Stretched h types size (c.lead l) := by
  have hlt := hs.last.lt_size
  cases hfollowed : c.last.followed with
  | false =>
    have hedge : flow.addEdge (.normal 0) i = flow := by
      unfold ControlFlow.addEdge
      rw [hs.current, hfollowed]
      rfl
    have hcourse : c.lead l = c := by
      unfold Course.lead
      rw [hfollowed]
      rfl
    rw [hedge, hcourse]
    exact hs
  | true =>
    have hcurrent : flow.current = some c.last.block := by
      rw [hs.current, hfollowed]
      rfl
    have hedge : flow.addEdge (.normal 0) i = flow.modify c.last.block fun b =>
      { b with edges := b.edges.push ⟨.normal 0, i⟩ } := by
      unfold ControlFlow.addEdge
      rw [hcurrent]
    have hblock : (flow.modify c.last.block fun b => { b with edges := b.edges.push ⟨.normal 0, i⟩ }).blocks.get
      c.last.block =
        { flow.blocks.get c.last.block with edges := (flow.blocks.get c.last.block).edges.push ⟨.normal 0, i⟩ } :=
      Blocks.get_modify_self hlt _
    rw [hedge]
    unfold Course.lead
    rw [if_pos hfollowed]
    refine hs.relast (TypeTable.Extends.refl _) hs.consistent rfl rfl rfl
      (hcurrent.trans (if_pos hfollowed).symm) rfl rfl rfl (Blocks.size_modify _ _ _) rfl
      (fun j hj => Blocks.get_modify_of_ne _ hj _) ?_ ?_ ?_ ?_
      ⟨hs.within.extent, hs.within.empty, hs.within.head, hs.within.inside⟩ ?_
    · rw [hblock]
    · rw [hblock]
    · rw [hblock]
      exact fun ht => ht
    · refine ⟨?_, ?_, ?_, ?_, ?_, ?_, ?_⟩
      · rw [hblock]
        exact hs.last.owner
      · rw [hblock]
        exact hs.last.position
      · rw [hblock]
        exact hs.last.successor
      · intro l' hl'
        rcases List.mem_append.1 hl' with hl' | hl'
        · exact hs.last.named l' hl'
        · obtain rfl := List.mem_singleton.1 hl'
          exact Option.isSome_iff_exists.2 ⟨i, hl⟩
      · have hold := hs.last.edges
        have hlabel : (flow.modify c.last.block fun b => { b with edges := b.edges.push ⟨.normal 0, i⟩ }).blocks.labels[l]? =
          some i := hl
        rw [hblock, Array.toList_push, hold]
        unfold Stretch.edges
        simp only [Option.toList_none, List.map_nil, ite_self, List.append_nil, List.map_append, List.map_cons,
          hlabel, Option.getD_some]
        rfl
      · rw [hblock]
        exact hs.last.frame
      · rw [hblock]
        exact hs.last.target
    · intro l' hl' i' hi'
      rcases List.mem_append.1 hl' with hl' | hl'
      · exact hs.names.marked _ c.last_mem_all l' hl' i' hi'
      · obtain rfl := List.mem_singleton.1 hl'
        obtain rfl := Option.some.inj (hl.symm.trans hi')
        exact hmarked

/-- An instruction is written at the end of the code. -/
theorem Stretched.write (hs : flow.Stretched h types size c) (i : Instruction) (hsize : size < size') :
    flow.Stretched h types size' (c.write size i) := by
  have hle := hs.within.extent
  change flow.Stretched h types size' ⟨c.done, (c.write size i).last⟩
  refine hs.relast (TypeTable.Extends.refl _) hs.consistent rfl rfl rfl hs.current rfl rfl rfl rfl
    rfl (fun _ _ => rfl) rfl rfl (fun ht => ht)
    ⟨hs.last.owner, hs.last.position, hs.last.successor, hs.last.named, hs.last.edges, hs.last.frame, hs.last.target⟩ ?_
    fun l hl => hs.names.marked _ c.last_mem_all l hl
  refine ⟨?_, ?_, ?_, ?_⟩
  · change c.last.start ≤ size'
    omega
  · change c.last.body ++ [(size, i)] = [] ↔ c.last.start = size'
    refine ⟨fun h => absurd h (by simp), fun h => ?_⟩
    omega
  · change ∀ x ∈ (c.last.body ++ [(size, i)]).head?, x.1 = c.last.start
    cases hbody : c.last.body with
    | nil =>
      rintro x hx
      obtain rfl := Option.some.inj hx
      exact (hs.within.empty.1 hbody).symm
    | cons y rest =>
      rintro x hx
      exact hs.within.head x (hbody ▸ hx)
  · intro x hx
    rcases List.mem_append.1 hx with hx | hx
    · have := hs.within.inside x hx
      exact ⟨this.1, by omega⟩
    · obtain rfl := List.mem_singleton.1 hx
      exact ⟨hle, hsize⟩

end Last

end ControlFlow

end ClassFile
