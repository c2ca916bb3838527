import ClassFile.Proofs.SearchRounds
import ClassFile.Proofs.TypeWords

/-!
# Frames are a solution of the data flow equations

When frames have been computed, every block that is reached has handed over all that it leaves: merging its frame once more
into the frame behind any of its edges changes nothing. What a method is entered with has been taken in by its first block,
unless a parameter has no value.
-/

namespace ClassFile

namespace ControlFlow

/-! ## The solution -/

/-- Every block that has been reached has a frame, and merging it once more into the frame behind any
edge changes nothing. -/
def Solved (blocks : Blocks) (className : String) (h : Hierarchy) (types : TypeTable) : Prop :=
  ∀ i, (blocks.get i).reachable = true → ∃ f, (blocks.get i).frame = some f ∧ ∀ e ∈ (blocks.get i).edges,
    ∀ g, (blocks.get (blocks.owner e.target)).frame = some g →
      ∃ grown, f.merge g e.kind.handled className h types = (some false, g, grown)

/-- The words of all types in the frames of blocks that have been reached say which types they are. -/
def Told (blocks : Blocks) : Prop :=
  ∀ i f, (blocks.get i).reachable = true → (blocks.get i).frame = some f → f.Told

/-- Merging what a method is entered with changes nothing in a block. A handler may have another height of the stack. -/
def TakesEntry (blocks : Blocks) (first : Nat) (className : String) (h : Hierarchy) (types : TypeTable)
    (entry : ComputedFrame) : Prop :=
  ∃ g result grown, (blocks.get first).frame = some g ∧
    (Frame.entering entry.locals entry.stack).merge g none className h types = (result, g, grown) ∧
    (result = some false ∨ Search.HandlerBlock blocks first)

/-- No handler is also entered by plain flow with another height of the stack than that of one exception. -/
def HandlersAlone (blocks : Blocks) : Prop :=
  ∀ i f, (blocks.get i).reachable = true → (blocks.get i).frame = some f → ∀ e ∈ (blocks.get i).edges,
    e.kind.handled = none → Search.HandlerBlock blocks (blocks.owner e.target) → f.heightAfter = 1

section Solution

variable {h : Hierarchy} {types grown : TypeTable} {className : String} {count first i : Nat} {s : Search}
variable {entry : Array FrameType}

/-- Once the queue is empty, all blocks are settled. -/
theorem Search.Invariant.solved (hg : h.Grounded) (hobject : h.superClass objectClass = none)
    (inv : Search.Invariant h className count first entry s s.allFrames i []) (hqueue : s.queue = [])
    (halone : HandlersAlone s.blocks) (hc : TypeTable.Consistent h grown) (hext : s.types.Extends grown) :
    Solved s.blocks className h grown := by
  intro j hj
  obtain ⟨f, hf, hfe⟩ := inv.reached j (Or.inr hj)
  have hentered := inv.entered j f hf hfe
  have hsane := inv.sane j f hf
  refine ⟨f, hf, fun e he g hgf => ?_⟩
  have hhandled := inv.handled j e he
  rcases inv.settled j f hf hj (by rw [hqueue]; exact List.not_mem_nil) e he with hsettled | ⟨-, hnone⟩
  · obtain ⟨hge, htakes | ⟨hnone, hzero, hblock⟩⟩ := hsettled g hgf
    · exact Frame.merge_of_takes hg hobject hc (hentered.mono hext) (hsane.mono hext) ((inv.entered _ g hgf hge).mono hext)
        (fun x hx => (hhandled x hx).mono hext) (htakes.mono hext hentered hsane hhandled)
    · have hone := halone j f hj hf e he hnone hblock
      omega
  · cases hnone

/-- The types in the frames of reached blocks are types of the table, and told by their words if that is roomy. -/
theorem Search.Invariant.told (inv : Search.Invariant h className count first entry s s.allFrames i [])
    (hext : s.types.Extends grown) (hroomy : grown.Roomy) : Told s.blocks := by
  intro j f hj hf t ht
  obtain ⟨f', hf', hfe⟩ := inv.reached j (Or.inr hj)
  obtain rfl := Option.some.inj (hf'.symm.trans hf)
  have hentered := inv.entered j f' hf hfe
  rcases ht with ht | ht
  · exact ((hentered.locals t ht).mono hext).told hroomy
  · exact ((hentered.stack t ht).mono hext).told hroomy

/-- What a method is entered with has been taken in by the first block. -/
theorem Search.Invariant.takesEntry (hg : h.Grounded) (hobject : h.superClass objectClass = none)
    (inv : Search.Invariant h className entry.size first entry s s.allFrames i [])
    (hc : TypeTable.Consistent h grown) (hext : s.types.Extends grown) (offset : Nat) :
    TakesEntry s.blocks first className h grown ⟨offset, entry, #[]⟩ := by
  obtain ⟨g, hgf, hge, hcovers, hstack⟩ := inv.entry
  have hcovers := hcovers.mono hext
  have hentered : g.Entered grown entry.size := (inv.entered first g hgf hge).mono hext
  have hsource : (Frame.entering entry #[]).Entered grown entry.size := by
    refine ⟨rfl, rfl, fun t ht => ?_, fun t ht => absurd ht (Array.not_mem_empty t)⟩
    obtain ⟨j, hj⟩ := Array.getElem?_of_mem ht
    exact (hcovers j t hj).1
  have hsane : (Frame.entering entry #[]).Sane grown :=
    ⟨fun t ht => absurd ht (Array.not_mem_empty t), fun t ht => absurd ht (Array.not_mem_empty t)⟩
  have hlocals : ∀ j < entry.size, Frame.HoldsAbove h grown g.locals j
      ((Frame.entering entry #[]).constructedName grown className ((Frame.entering entry #[]).leftLocal j)) := by
    intro j hj
    have hget := Array.getElem?_eq_getElem hj
    obtain ⟨hheld, habove⟩ := hcovers j _ hget
    have hleft : (Frame.entering entry #[]).leftLocal j = entry[j] := by
      change entry.getD j .top = _
      rw [Array.getD_eq_getD_getElem?, hget, Option.getD_some]
    have hname : (Frame.entering entry #[]).constructedName grown className entry[j] = entry[j].named grown := by
      simp [Frame.constructedName, Frame.entering, hheld.settled]
    rwa [hleft, hname]
  rcases hstack with hempty | hblock
  · have htakes : (Frame.entering entry #[]).Takes h grown className g none :=
      ⟨hlocals, fun _ => ⟨by rw [hempty]; rfl, fun j hj => absurd hj (Nat.not_lt_zero j)⟩,
        fun x hx => absurd hx (Option.not_mem_none x)⟩
    obtain ⟨later, hmerged⟩ := Frame.merge_of_takes hg hobject hc hsource hsane hentered
      (fun x hx => absurd hx (Option.not_mem_none x)) htakes
    exact ⟨g, some false, later, hgf, hmerged, Or.inl rfl⟩
  · obtain ⟨result, later, hmerged⟩ := Frame.merge_of_locals hg hobject hc hsource hsane hentered rfl hlocals
    exact ⟨g, result, later, hgf, hmerged, Or.inr hblock⟩

/-- Gathering the frames leaves the one at the entry first, and the type table may grow. -/
theorem collectBlocks_spec (codeLength : Nat) (blocks : Blocks) (bs : List Nat) (state : FrameAnalysis × TypeTable)
    {entered : ComputedFrame} (hc : TypeTable.Consistent h state.2) (hentered : state.1.frames[0]? = some entered) :
    let r := bs.foldl (collectBlock codeLength blocks) state
    TypeTable.Consistent h r.2 ∧ state.2.Extends r.2 ∧ r.1.frames[0]? = some entered := by
  induction bs generalizing state with
  | nil => exact ⟨hc, TypeTable.Extends.refl _, hentered⟩
  | cons i rest ih =>
    have hpush : ∀ (frames : Array ComputedFrame) x, frames[0]? = some entered → (frames.push x)[0]? = some entered := by
      intro frames x hframes
      have hlt := (Array.getElem?_eq_some_iff.1 hframes).1
      rw [Array.getElem?_push, if_neg (Nat.ne_of_lt hlt), hframes]
    have hstep : TypeTable.Consistent h (collectBlock codeLength blocks state i).2 ∧
        state.2.Extends (collectBlock codeLength blocks state i).2 ∧
        (collectBlock codeLength blocks state i).1.frames[0]? = some entered := by
      obtain ⟨⟨maxStack, frames, dead⟩, types⟩ := state
      have hended : ∀ frames : Array ComputedFrame, frames[0]? = some entered →
          let stop := ((blocks.get i).successor.map fun next => (blocks.get next).position).getD codeLength
          let r : FrameAnalysis × TypeTable := if !(blocks.get i).reachable && stop > (blocks.get i).position then
            (⟨max maxStack 1, frames.push ⟨(blocks.get i).position, #[], #[.object (types.addNormal throwableClass).1]⟩,
              dead.push ((blocks.get i).position, stop)⟩, (types.addNormal throwableClass).2)
            else (⟨maxStack, frames, dead⟩, types)
          TypeTable.Consistent h r.2 ∧ types.Extends r.2 ∧ r.1.frames[0]? = some entered := by
        intro frames hframes
        dsimp only
        split
        · exact ⟨hc.add _, (TypeTable.addNormal_spec hc.sound throwableClass).2.1, hpush _ _ hframes⟩
        · exact ⟨hc, TypeTable.Extends.refl _, hframes⟩
      unfold collectBlock
      dsimp only
      cases (blocks.get i).frame with
      | none => exact hended frames hentered
      | some frame =>
        refine hended (if (blocks.get i).store then
          frames.push ⟨(blocks.get i).position, frame.locals, frame.stack⟩ else frames) ?_
        split
        · exact hpush _ _ hentered
        · exact hentered
    obtain ⟨hc', hext, hentered'⟩ := ih _ hstep.1 hstep.2.2
    exact ⟨hc', hstep.2.1.trans hext, hentered'⟩

/-- Frames that have been computed are a solution, of types that their words tell apart. -/
theorem Unsolved.computeFrames (hg : h.Grounded) (hobject : h.superClass objectClass = none) {flow flow' : ControlFlow}
    (hu : flow.Unsolved h types) (handlers : List Handler) {m : Frame.Method} (hm : m.TakesValues) {codeLength : Nat}
    {analysis : FrameAnalysis} {types' : TypeTable}
    (hok : flow.computeFrames handlers m codeLength types h = (.ok analysis, flow', types')) (hroomy : types'.Roomy)
    (halone : HandlersAlone flow'.blocks) :
    Solved flow'.blocks m.className h types' ∧ Told flow'.blocks ∧
      ∃ entered, analysis.frames[0]? = some entered ∧ TakesEntry flow'.blocks flow'.first m.className h types' entered := by
  obtain ⟨handled, found, g, grown, failure, hprepare, hhandled, hc, hext, hsane, hstack, hinput, hentered⟩ :=
    hu.prepare handlers m
  rw [computeFrames_eq, hprepare] at hok
  cases failure with
  | some e => cases hok
  | none =>
    dsimp only at hok
    obtain ⟨rounds, hle, hdone, -, hrounds⟩ := hhandled.ends hg hobject m.className hc hext hsane hstack hinput
    have hrun := (hhandled.beginSearch m.className hc hext hsane (hentered hm) hstack).run hg hobject rounds rfl
    rw [hrounds _ (Nat.le_refl _)] at hrun
    rw [hrounds _ hle] at hok
    generalize (Search.step h m.className)^[rounds] ((handled.enteredWith g).beginSearch grown) = s at hok hrun hdone
    unfold conclude at hok
    rcases hrun with hsome | ⟨hnone, inv⟩
    · obtain ⟨offset, hoffset⟩ := Option.isSome_iff_exists.1 hsome
      rw [hoffset] at hok
      cases hok
    · have hqueue : s.queue = [] := by simpa [Search.isDone, hnone] using hdone
      rw [hnone, hstack] at hok
      dsimp only at hok
      obtain ⟨hc', hext', hentered'⟩ := collectBlocks_spec codeLength s.blocks (s.blocks.chain handled.first)
        (⟨s.maxStack, #[⟨0, g.locals, #[]⟩], #[]⟩, s.types) inv.consistent rfl
      change ((Except.ok _, _, _) : Except Error FrameAnalysis × ControlFlow × TypeTable) = _ at hok
      obtain ⟨hanalysis, hrest⟩ := Prod.mk.inj hok
      obtain ⟨rfl, rfl⟩ := Prod.mk.inj hrest
      obtain rfl := Except.ok.inj hanalysis
      exact ⟨inv.solved hg hobject hqueue halone hc' hext', inv.told hext' hroomy, _, hentered',
        inv.takesEntry hg hobject hc' hext' 0⟩

/-- Frames that have been computed of a flow driven by whatever events are a solution of its data flow equations, with what
the method is entered with, as long as the type table has room for its numbers. -/
theorem computeFrames_solves (hg : h.Grounded) (hobject : h.superClass objectClass = none) (hr : TypeTable.Reached h types)
    {events : List FlowEvent} {flow flow' : ControlFlow} {driven solved : TypeTable}
    (hdriven : (start .frames).driveAll types events = (flow, driven)) {handlers : List Handler} {m : Frame.Method}
    (hm : m.TakesValues) {codeLength : Nat} {analysis : FrameAnalysis}
    (hok : flow.computeFrames handlers m codeLength driven h = (.ok analysis, flow', solved)) (hroomy : solved.Roomy)
    (halone : HandlersAlone flow'.blocks) :
    Solved flow'.blocks m.className h solved ∧ Told flow'.blocks ∧
      ∃ entered, analysis.frames[0]? = some entered ∧ TakesEntry flow'.blocks flow'.first m.className h solved entered := by
  have hu := (unsolved_start hr.consistent).driveAll events
  rw [hdriven] at hu
  exact hu.computeFrames hg hobject handlers hm hok hroomy halone

end Solution

/-! ## A loop -/

/-- A label that starts the code and that a jump leads back to. -/
def loopLabel : Label := ⟨0, false⟩

/-- The code of the loop. -/
def loopCode : Bytes :=
  #[3, 54, 0, 167, 255, 253]

/-- A loop that stores an int in the first local. -/
def storingLoop : List FlowEvent :=
  [.label loopLabel #[], .bare 3 1, .moveLocal Opcode.istore 0 3, .jump Opcode.goto loopLabel,
    .endJump Opcode.goto none loopCode]

/-- A static method with one local. -/
def loopMethod (descriptor : String) : Frame.Method :=
  ⟨"a/A", "m", descriptor, true, false, 1⟩

/-- The only label, of the second block. -/
def loopLabels : Std.HashMap Label Nat :=
  (∅ : Std.HashMap Label Nat).insert loopLabel 1

/-- The frame of the block of the loop. -/
def loopFrame : Frame :=
  { outLocals := #[.integer], peak := 1 }

/-- The flow inside the loop. -/
def loopFlow (f : Frame) : ControlFlow :=
  { analysis := .frames
    blocks := ⟨#[{ pushed := true, resolved := true, frame := some f }, { resolved := true, owner := 0 }], loopLabels⟩
    first := 0, current := some 0, previous := some 0, height := 0, peak := 0 }

/-- The flow behind the loop, with what has been found out of its block. -/
def loopEnd (f : Frame) (found : Bool) : ControlFlow :=
  let loop : Block :=
    { pushed := true, resolved := true, target := true, store := found, reachable := found, successor := some 2
      edges := #[⟨.normal 0, 1⟩], frame := some f }
  let behind : Block := { resolved := true, position := 6, owner := 2, frame := some Frame.empty }
  { analysis := .frames, blocks := ⟨#[loop, { resolved := true, owner := 0 }, behind], loopLabels⟩
    first := 0, current := none, previous := some 2, height := 0, peak := 0 }

/-- The events of the loop leave two blocks, of which the second leads to itself. -/
theorem drive_storingLoop : (start .frames).driveAll .empty storingLoop = (loopEnd loopFrame false, .empty) := by
  have hlabel : ((start .frames).label loopLabel #[]).1 = loopFlow {} := by
    rw [label, index_new Std.HashMap.getElem?_empty]
    rfl
  have hmove : ∀ f : Frame,
      ((loopFlow f).bare 3 1).moveLocal Opcode.istore 0 3 = loopFlow ((f.bare 3).moveLocal Opcode.istore 0) := fun _ => rfl
  have hframe : (({} : Frame).bare 3).moveLocal Opcode.istore 0 = loopFrame := by decide +kernel
  have hindex : (loopFlow loopFrame).index loopLabel = (1, loopFlow loopFrame) :=
    index_known Std.HashMap.getElem?_insert_self
  have hjump : (((loopFlow loopFrame).jump Opcode.goto loopLabel).2.endJump Opcode.goto none loopCode).1 =
      loopEnd loopFrame false := by
    rw [jump, hindex]
    rfl
  change (((((((start .frames).label loopLabel #[]).1.bare 3 1).moveLocal Opcode.istore 0 3).jump
    Opcode.goto loopLabel).2.endJump Opcode.goto none loopCode).1, TypeTable.empty) = _
  rw [hlabel, hmove, hframe, hjump]

/-- The frame of the block of the loop, entered with one local. -/
def loopInput (t : FrameType) : Frame :=
  { loopFrame with locals := #[t], entered := true }

/-- The loop takes in that an int is stored, whatever a method without usable parameter or with an int is entered with. -/
theorem computeFrames_storingLoop (descriptor : String) (t : FrameType)
    (henter : loopFrame.enter .empty (loopMethod descriptor) = (loopInput t, .empty, none))
    (ht : t = .unset ∨ t = .integer) :
    (loopEnd loopFrame false).computeFrames [] (loopMethod descriptor) 6 .empty .empty =
      (.ok ⟨1, #[⟨0, #[t], #[]⟩, ⟨0, #[.integer], #[]⟩], #[]⟩, loopEnd (loopInput .integer) true, .empty) := by
  have hentered : (loopEnd loopFrame false).enterFirst .empty (loopMethod descriptor) =
      ((loopEnd loopFrame false).enteredWith (loopInput t), loopInput t, .empty, none) := by
    have hframe : ((loopEnd loopFrame false).blocks.get (loopEnd loopFrame false).first).frame.getD Frame.empty =
      loopFrame := rfl
    rw [enterFirst_eq, hframe, henter]
  unfold ControlFlow.computeFrames
  rw [List.foldl_nil]
  dsimp only
  rw [hentered]
  rcases ht with rfl | rfl
  · rfl
  · rfl

/-- There are no handlers. -/
theorem not_handlerBlock_loopEnd (f : Frame) (found : Bool) (i : Nat) : ¬Search.HandlerBlock (loopEnd f found).blocks i := by
  rintro ⟨j, -, e, he, hhandled, -⟩
  match j with
  | 0 =>
    obtain rfl := Array.mem_singleton.1 he
    cases hhandled
  | 1 => exact Array.not_mem_empty e he
  | 2 => exact Array.not_mem_empty e he
  | j + 3 =>
    rw [Blocks.get_of_size_le (Nat.le_add_left 3 j)] at he
    exact Array.not_mem_empty e he

/-- The loop has no handlers. -/
theorem handlersAlone_loopEnd (f : Frame) (found : Bool) : HandlersAlone (loopEnd f found).blocks :=
  fun _ _ _ _ _ _ _ hblock => absurd hblock (not_handlerBlock_loopEnd f found _)

theorem parameterTypes_int : Descriptor.parameterTypes "(I)V" = ["I"] := by
  have hchars : "(I)V".toList.drop 1 = ['I', ')', 'V'] := by decide
  rw [Descriptor.parameterTypes, hchars]
  simp [Descriptor.parameterChars, Descriptor.skipBrackets, Descriptor.takeBrackets, Descriptor.splitElement]

theorem parameterTypes_void : Descriptor.parameterTypes "(V)V" = ["V"] := by
  have hchars : "(V)V".toList.drop 1 = ['V', ')', 'V'] := by decide
  rw [Descriptor.parameterTypes, hchars]
  simp [Descriptor.parameterChars, Descriptor.skipBrackets, Descriptor.takeBrackets, Descriptor.splitElement]

/-- The loop of a method with an int as parameter. -/
theorem computeFrames_solves_storingLoop :
    Solved (loopEnd (loopInput .integer) true).blocks "a/A" .empty .empty ∧ Told (loopEnd (loopInput .integer) true).blocks ∧
      ∃ entered, (#[⟨0, #[.integer], #[]⟩, ⟨0, #[.integer], #[]⟩] : Array ComputedFrame)[0]? = some entered ∧
        TakesEntry (loopEnd (loopInput .integer) true).blocks 0 "a/A" .empty .empty entered := by
  have henter : loopFrame.enter .empty (loopMethod "(I)V") = (loopInput .integer, .empty, none) := by
    unfold Frame.enter
    rw [show (loopMethod "(I)V").descriptor = "(I)V" from rfl, parameterTypes_int]
    rfl
  have hvalues : (loopMethod "(I)V").TakesValues := by
    intro p hp
    rw [show (loopMethod "(I)V").descriptor = "(I)V" from rfl, parameterTypes_int] at hp
    obtain rfl := List.mem_singleton.1 hp
    decide
  exact computeFrames_solves Hierarchy.grounded_empty Std.HashMap.getElem?_empty .empty drive_storingLoop hvalues
    (computeFrames_storingLoop "(I)V" .integer henter (Or.inr rfl)) (by decide : 0 ≤ 2 ^ 20) (handlersAlone_loopEnd _ true)

/-- The loop of a method whose parameter has no value: the frame of its block does not take in what
the method is entered with. -/
theorem not_takesEntry_storingLoop :
    Hierarchy.empty.Grounded ∧ Hierarchy.empty.superClass objectClass = none ∧ TypeTable.Reached .empty .empty ∧
      TypeTable.empty.Roomy ∧ (start .frames).driveAll .empty storingLoop = (loopEnd loopFrame false, .empty) ∧
      (loopEnd loopFrame false).computeFrames [] (loopMethod "(V)V") 6 .empty .empty =
        (.ok ⟨1, #[⟨0, #[.unset], #[]⟩, ⟨0, #[.integer], #[]⟩], #[]⟩, loopEnd (loopInput .integer) true, .empty) ∧
      HandlersAlone (loopEnd (loopInput .integer) true).blocks ∧
      ¬TakesEntry (loopEnd (loopInput .integer) true).blocks 0 "a/A" .empty .empty ⟨0, #[.unset], #[]⟩ := by
  have henter : loopFrame.enter .empty (loopMethod "(V)V") = (loopInput .unset, .empty, none) := by
    unfold Frame.enter
    rw [show (loopMethod "(V)V").descriptor = "(V)V" from rfl, parameterTypes_void]
    rfl
  refine ⟨Hierarchy.grounded_empty, Std.HashMap.getElem?_empty, .empty, by decide, drive_storingLoop,
    computeFrames_storingLoop "(V)V" .unset henter (Or.inl rfl), handlersAlone_loopEnd _ true, ?_⟩
  rintro ⟨g, result, grown, hg, hmerged, -⟩
  obtain rfl : loopInput .integer = g := Option.some.inj hg
  have htop : (Frame.entering #[.unset] #[]).merge (loopInput .integer) none "a/A" .empty .empty =
      (some true, loopInput .top, .empty) := rfl
  rw [htop] at hmerged
  have hsame : loopInput .top = loopInput .integer := (Prod.mk.inj (Prod.mk.inj hmerged).2).1
  exact absurd hsame (by decide +kernel)

end ControlFlow

end ClassFile
