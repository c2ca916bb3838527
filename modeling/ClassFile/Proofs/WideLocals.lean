import ClassFile.Proofs.BlockOperations
import ClassFile.Proofs.FoundStretches
import ClassFile.Proofs.StackMapFormat
import ClassFile.Proofs.WideSearch
import ClassFile.Proofs.WideStores

/-!
# Locals behind longs and doubles

In frames that have been computed, no usable value stands behind a long or a double
(`ControlFlow.secondHalves_computeFrames`), if no store of a value of one slot finds a long or a double and increments find
ints. A stack map leaves out the slot behind a long or a double, so that it says all of the locals.
-/

namespace ClassFile

/-! ## Slots that are left out -/

namespace StackMap

/-- Slots again from those that are listed, when it is known how many there are. -/
def restoreSlots (n : Nat) (listed : List FrameType) : List FrameType :=
  (listed.flatMap fun t => if t.isWide then [t, .top] else [t]).take n

/-- From the slots that are listed all slots come back, if what stands behind a long or a double is not usable. -/
theorem restoreSlots_significantSlots {slots : List FrameType}
    (hslots : slots.IsChain fun t u => t.isWide = true → u = .top) :
    restoreSlots slots.length (significantSlots slots) = slots := by
  unfold restoreSlots
  induction slots using significantSlots.induct with
  | case1 => rfl
  | case2 t =>
    unfold significantSlots
    by_cases hwide : t.isWide = true <;> simp [hwide]
  | case3 t u rest ih ih' =>
    obtain ⟨hfirst, hrest⟩ := List.isChain_cons_cons.1 hslots
    by_cases hwide : t.isWide = true
    · obtain rfl := hfirst hwide
      rw [significantSlots, if_pos hwide, List.flatMap_cons, if_pos hwide, List.length_cons,
        List.length_cons, List.cons_append, List.cons_append, List.nil_append, List.take_succ_cons,
        List.take_succ_cons, ih hrest.tail]
    · rw [significantSlots, if_neg hwide, List.flatMap_cons, if_neg hwide, List.length_cons,
        List.cons_append, List.nil_append, List.take_succ_cons, ih' hrest]

end StackMap

/-- Behind each long and each double but one in the last slot, no usable value stands: the slots that are
listed say what all slots hold. -/
structure FrameType.SecondHalves (slots : Array FrameType) : Prop where
  followed : slots.toList.IsChain fun t u => t.isWide = true → u = .top
  restored : StackMap.restoreSlots slots.size (StackMap.significantSlots slots.toList) = slots.toList

/-- Slots that are paired with themselves have unusable second halves. -/
theorem FrameType.Paired.secondHalves {slots : Array FrameType}
    (hp : FrameType.Paired (slots.getD · .top) (slots.getD · .top)) :
    FrameType.SecondHalves slots := by
  have hfollowed : slots.toList.IsChain fun t u => t.isWide = true → u = .top := by
    refine List.isChain_iff_getElem.2 fun i hi hwide => ?_
    have hi : i + 1 < slots.size := by simpa using hi
    have htop := hp i
    dsimp only at htop
    rw [Array.getD_eq_getD_getElem?, Array.getD_eq_getD_getElem?, Array.getElem?_eq_getElem hi,
      Array.getElem?_eq_getElem (Nat.lt_of_succ_lt hi)] at htop
    exact htop hwide rfl
  exact ⟨hfollowed, by simpa using StackMap.restoreSlots_significantSlots hfollowed⟩

/-! ## The entry -/

namespace Frame

/-- Behind each long and each double there is a slot that holds no usable value. -/
def Spaced (locals : Array FrameType) : Prop :=
  ∀ i, (locals.getD i .top).isWide = true → locals[i + 1]? = some .top

section Entry

variable {a b locals grown : Array FrameType} {types later : TypeTable} {f g : Frame} {m : Method} {t : FrameType}

/-- Slots with gaps behind longs and doubles have them one behind the other. -/
theorem Spaced.append (ha : Spaced a) (hb : Spaced b) : Spaced (a ++ b) := by
  intro i hwide
  rw [Array.getD_eq_getD_getElem?] at hwide
  by_cases hi : i < a.size
  · rw [Array.getElem?_append_left hi, ← Array.getD_eq_getD_getElem?] at hwide
    have htop := ha i hwide
    rwa [Array.getElem?_append_left (Array.getElem?_eq_some_iff.1 htop).1]
  · rw [Array.getElem?_append_right (Nat.le_of_not_lt hi), ← Array.getD_eq_getD_getElem?] at hwide
    rw [Array.getElem?_append_right (by omega), show i + 1 - a.size = i - a.size + 1 by omega]
    exact hb _ hwide

/-- Where there are gaps, no usable value stands behind a long or a double. -/
theorem Spaced.paired (hs : Spaced locals) : FrameType.Paired (locals.getD · .top) (locals.getD · .top) := by
  intro i hwide _
  dsimp only
  rw [Array.getD_eq_getD_getElem?, hs i hwide]
  rfl

/-- A slot that is no long or double needs no gap. -/
theorem spaced_singleton (ht : t.isWide = false) : Spaced #[t] := by
  intro i hwide
  match i with
  | 0 => exact nomatch ht.symm.trans hwide
  | i + 1 => cases hwide

/-- Unusable slots need no gaps. -/
theorem spaced_replicate (n : Nat) : Spaced (Array.replicate n .top) := by
  intro i hwide
  rw [Array.getD_eq_getD_getElem?, Array.getElem?_replicate] at hwide
  split at hwide <;> cases hwide

/-- A parameter takes one slot or two. -/
theorem Spaced.parameter (hs : Spaced locals) (t : FrameType) :
    Spaced (if t.isWide then (locals.push t).push .top else locals.push t) := by
  split
  · have hboth : Spaced #[t, .top] := by
      intro i hwide
      match i with
      | 0 => rfl
      | 1 => cases hwide
      | i + 2 => cases hwide
    rw [Array.push_eq_append, Array.push_eq_append, Array.append_assoc]
    exact hs.append hboth
  · rename_i hnarrow
    have happend := hs.append (spaced_singleton (Bool.eq_false_of_not_eq_true hnarrow))
    rwa [← Array.push_eq_append] at happend

/-- The parameters of a method have gaps behind longs and doubles. -/
theorem spaced_parameterLocals (types : TypeTable) (hs : Spaced locals) (ps : List String) :
    Spaced (parameterLocals locals types ps).1 := by
  induction ps generalizing locals types with
  | nil => exact hs
  | cons p rest ih =>
    unfold parameterLocals
    split
    · exact ih _ (hs.parameter _)
    · exact hs

/-- A method is entered with gaps behind longs and doubles. -/
theorem spaced_enter (henter : f.enter types m = (g, later, none)) : Spaced g.locals := by
  have hreceiver : Spaced (if m.isStatic then ((#[], types) : Array FrameType × TypeTable)
      else if m.isConstructor then (#[FrameType.uninitializedThis], types)
      else (#[FrameType.object (types.addNormal m.className).1], (types.addNormal m.className).2)).1 := by
    split
    · exact fun i hwide => nomatch hwide
    · split
      · exact spaced_singleton rfl
      · exact spaced_singleton rfl
  unfold Frame.enter at henter
  dsimp only at henter
  generalize (if m.isStatic then ((#[], types) : Array FrameType × TypeTable) else if m.isConstructor then
    (#[FrameType.uninitializedThis], types)
    else (#[FrameType.object (types.addNormal m.className).1], (types.addNormal m.className).2)) =
      receiver at henter hreceiver
  have hparameters := spaced_parameterLocals receiver.2 hreceiver (Descriptor.parameterTypes m.descriptor)
  generalize parameterLocals receiver.1 receiver.2 (Descriptor.parameterTypes m.descriptor) = r at henter hparameters
  obtain ⟨locals, grown, e⟩ := r
  cases e with
  | some e => cases henter
  | none =>
    obtain ⟨rfl, -⟩ := Prod.mk.inj henter
    exact hparameters.append (spaced_replicate _)

end Entry

end Frame

namespace ControlFlow

/-- In the blocks that are reached, stores of values of one slot find no long or double and increments find ints, when the
instructions that a block has followed are executed one by one in its computed frame. -/
def Fitting (types : TypeTable) (followed : Nat → List Frame.Operation) (blocks : Blocks) : Prop :=
  ∀ j f, (blocks.get j).reachable = true → (blocks.get j).frame = some f → ∀ before i after,
    followed j = before ++ i :: after → ((Frame.entering f.locals f.stack).run types before).1.Fits i

/-! ## The finished search -/

section Finished

variable {h : Hierarchy} {types middle grown driven solved : TypeTable} {flow covered flow' : ControlFlow}
  {m : Frame.Method} {codeLength : Nat}
variable {analysis : FrameAnalysis} {g : Frame} {s : Search} {handlers : List Handler}

/-- Frames that are gathered are those of blocks that have been looked at, or have no locals. -/
theorem locals_collectBlocks (codeLength : Nat) (blocks : Blocks) (bs : List Nat) (state : FrameAnalysis × TypeTable)
    {c : ComputedFrame} (hc : c ∈ (bs.foldl (collectBlock codeLength blocks) state).1.frames) :
    c ∈ state.1.frames ∨ c.locals = #[] ∨ ∃ j f, (blocks.get j).frame = some f ∧ (blocks.get j).store = true ∧
    c.locals = f.locals := by
  induction bs generalizing state with
  | nil => exact Or.inl hc
  | cons i rest ih =>
    rw [List.foldl_cons] at hc
    refine (ih _ hc).elim (fun hc => ?_) Or.inr
    obtain ⟨⟨maxStack, frames, dead⟩, types⟩ := state
    -- the frame of the block itself, and then that of code that is not reached
    have hstored : ∀ frames' : Array ComputedFrame, (∀ c ∈ frames', c ∈ frames ∨
        ∃ j f, (blocks.get j).frame = some f ∧ (blocks.get j).store = true ∧ c.locals = f.locals) →
        c ∈ (if !(blocks.get i).reachable &&
            decide (((blocks.get i).successor.map fun next => (blocks.get next).position).getD codeLength >
              (blocks.get i).position) then
          ((⟨max maxStack 1, frames'.push ⟨(blocks.get i).position, #[], #[.object (types.addNormal throwableClass).1]⟩,
            dead.push ((blocks.get i).position,
            ((blocks.get i).successor.map fun next => (blocks.get next).position).getD codeLength)⟩,
            (types.addNormal throwableClass).2) : FrameAnalysis × TypeTable)
          else (⟨maxStack, frames', dead⟩, types)).1.frames →
        c ∈ frames ∨ c.locals = #[] ∨ ∃ j f, (blocks.get j).frame = some f ∧ (blocks.get j).store = true ∧
          c.locals = f.locals := by
      intro frames' hframes hc
      split at hc
      · rcases Array.mem_push.1 hc with hc | rfl
        · exact (hframes c hc).imp_right Or.inr
        · exact Or.inr (Or.inl rfl)
      · exact (hframes c hc).imp_right Or.inr
    unfold collectBlock at hc
    dsimp only at hc
    cases hframe : (blocks.get i).frame with
    | none =>
      rw [hframe] at hc
      exact hstored frames (fun c hc => Or.inl hc) hc
    | some f =>
      rw [hframe] at hc
      refine hstored (if (blocks.get i).store then frames.push ⟨(blocks.get i).position, f.locals, f.stack⟩ else frames)
        (fun c hc => ?_) hc
      split at hc
      · rename_i hstore
        rcases Array.mem_push.1 hc with hc | rfl
        · exact Or.inl hc
        · exact Or.inr ⟨i, f, hframe, hstore, rfl⟩
      · exact Or.inl hc

/-- What holds of a search when it begins. -/
theorem Unsolved.hands (hu : flow.Unsolved h types) (hc : TypeTable.Consistent h grown) (hext : types.Extends grown)
    (hsane : g.Sane grown) (hinput : g.InputListed grown g.locals.size) (hstack : g.stack = #[]) :
    Search.Hands h g.locals.size (heightBound (flow.enteredWith g).blocks) grown (flow.enteredWith g).blocks
      ((flow.enteredWith g).beginSearch grown).allFrames ((flow.enteredWith g).beginSearch grown)
      ((flow.enteredWith g).beginSearch grown).allFrames flow.first [] := by
  have hfirst : ∀ j f, ((flow.enteredWith g).blocks.get j).frame = some f → f.entered = true →
      j ∈ ((flow.enteredWith g).beginSearch grown).queue := by
    intro j f hf hfe
    obtain ⟨rfl, -⟩ := entered_enteredWith hu g hf hfe
    exact List.mem_singleton_self _
  exact ⟨hu.bounded hc hext hsane hinput hstack, .refl _, .refl _, Search.marksQueue_beginSearch _ grown,
    fun j f hf hfe => Or.inl (hfirst j f hf hfe), fun j f hf hfe hnot => absurd (hfirst j f hf hfe) hnot, .refl _ _⟩

/-- When the search ends, no edge is left to be followed, and what holds of its inputs holds at last. -/
theorem Ended.hands (he : Ended h m codeLength covered middle grown g s flow' analysis types) (hg : h.Grounded)
    (hobject : h.superClass objectClass = none) :
    ∃ k, Search.Hands h g.locals.size (heightBound (covered.enteredWith g).blocks) grown (covered.enteredWith g).blocks
      ((covered.enteredWith g).beginSearch grown).allFrames s s.allFrames k [] := by
  have hstart := he.unsolved.hands he.consistent he.grows he.sane he.input he.stack
  obtain ⟨n, hrun⟩ := he.run
  have hlasts := Search.lasts_hands hg hobject m.className g.locals.size (heightBound (covered.enteredWith g).blocks) grown
    (covered.enteredWith g).blocks ((covered.enteredWith g).beginSearch grown).allFrames
  rcases hlasts.run n rfl hstart with hsome | ⟨-, hends⟩
  · rw [hrun, he.conflict] at hsome
    cases hsome
  · rwa [hrun] at hends

/-- What the instructions of a block do is the same when the search begins, whatever its first block is entered with. -/
theorem Ended.effect (he : Ended h m codeLength covered middle grown g s flow' analysis types) {j : Nat} {f : Frame}
    (hf : ((covered.enteredWith g).blocks.get j).frame = some f) :
    f.effect = ((covered.blocks.get j).frame.getD Frame.empty).effect := by
  unfold enteredWith at hf
  rw [modify_eq] at hf
  dsimp only at hf
  rw [Blocks.get_modify] at hf
  split at hf
  · rename_i hj
    obtain rfl := Option.some.inj hf
    have heffect := Frame.effect_enter ((covered.blocks.get covered.first).frame.getD Frame.empty) middle m
    rwa [he.enter, ← hj.1] at heffect
  · rw [hf]
    rfl

/-- Blocks that have been entered with an input and, at last, with another one put no usable value behind a long or a double,
if their instructions find what they take in the last one. -/
theorem Ended.leaves (he : Ended h m codeLength covered middle grown g s flow' analysis solved) {k height : Nat}
    {blocks : Blocks}
    (hh : Search.Hands h g.locals.size height grown blocks ((covered.enteredWith g).beginSearch grown).allFrames
      s s.allFrames k [])
    {followed : Nat → List Frame.Operation} (hfollowing : covered.Following h driven followed)
    (hsolved : TypeTable.Consistent h solved)
    (hext : driven.Extends solved) {j : Nat} {f y : Frame} (hy : s.allFrames j = some y) (hye : y.entered = true)
    (hfits : ∀ before i after, followed j = before ++ i :: after →
      ((Frame.entering y.locals y.stack).run solved before).1.Fits i)
    (heffect : f.effect = y.effect) (hfe : f.entered = true)
    (hp : FrameType.Paired (f.locals.getD · .top) (y.locals.getD · .top)) :
    FrameType.Paired f.leftLocal y.leftLocal := by
  have hframe : ((covered.enteredWith g).blocks.get j).frame.isSome = true := by
    rw [← he.marked.framed, show (s.blocks.get j).frame = some y from hy]
    rfl
  obtain ⟨f₀, hf₀⟩ := Option.isSome_iff_exists.1 hframe
  obtain ⟨y', hy', hsame, -⟩ := hh.leads.later j f₀ hf₀
  obtain rfl := Option.some.inj (hy.symm.trans hy')
  have hbase := hsame.trans (he.effect hf₀)
  rw [Frame.eq_on_of_effect (heffect.trans hbase) hfe, Frame.eq_on_of_effect hbase hye]
  exact (hfollowing j).paired hsolved hext hfits hp

/-- No usable value stands behind a long or a double in the frame of a block that has been entered, if the instructions of
all blocks that are reached find what they take. -/
theorem Ended.secondHalves (he : Ended h m codeLength covered middle grown g s flow' analysis solved) {k height : Nat}
    (hh : Search.Hands h g.locals.size height grown (covered.enteredWith g).blocks
      ((covered.enteredWith g).beginSearch grown).allFrames s
      s.allFrames k [])
    {followed : Nat → List Frame.Operation} (hfollowing : covered.Following h driven followed)
    (hsolved : TypeTable.Consistent h solved)
    (hext : driven.Extends solved) (hfits : Fitting solved followed flow'.blocks) {j : Nat} {f : Frame}
    (hf : (s.blocks.get j).frame = some f) (hfe : f.entered = true) : FrameType.SecondHalves f.locals := by
  have hentry : FrameType.Paired (g.locals.getD · .top) (g.locals.getD · .top) := (Frame.spaced_enter he.enter).paired
  refine (hh.paired he.queue (fun i x hx hxe => ?_) (fun i y x hy hye heffect hxe hp => ?_) hf hfe).secondHalves
  · obtain ⟨-, rfl⟩ := entered_enteredWith he.unsolved g hx hxe
    exact hentry
  · have hreach : (s.blocks.get i).reachable = true := by
      refine (hh.visited i y hy hye).resolve_left ?_
      rw [he.queue]
      exact List.not_mem_nil
    rw [← he.blocks] at hreach
    have hy' : (flow'.blocks.get i).frame = some y := he.blocks ▸ hy
    exact he.leaves hh hfollowing hsolved hext hy hye (hfits i y hreach hy') heffect hxe hp

end Finished

section Locals

variable {h : Hierarchy} {types driven solved : TypeTable} {flow flow' : ControlFlow} {m : Frame.Method} {codeLength : Nat}
variable {analysis : FrameAnalysis} {handlers : List Handler} {events : List FlowEvent}

/-- In the frame of every block that is reached, and in all frames that are written, that of the entry among them, no usable
value stands behind a long or a double, so that the slots that are listed say what all locals hold. -/
theorem secondHalves_computeFrames (hg : h.Grounded) (hobject : h.superClass objectClass = none)
    (hc : TypeTable.Consistent h types) (hdriven : (start .frames).driveAll types events = (flow, driven))
    (hok : flow.computeFrames handlers m codeLength driven h = (.ok analysis, flow', solved))
    (hfits : Fitting solved ((start .frames).followsAll types (fun _ => []) events) flow'.blocks) :
    (∀ j, (flow'.blocks.get j).reachable = true →
      ∃ f, (flow'.blocks.get j).frame = some f ∧ f.entered = true ∧ FrameType.SecondHalves f.locals) ∧
    ∀ frame ∈ analysis.frames, FrameType.SecondHalves frame.locals := by
  have hu := (unsolved_start hc).driveAll events
  have hfollowing := (following_start hc).driveAll (unsolved_start hc) events
  rw [hdriven] at hu hfollowing
  obtain ⟨grown, g, s, he⟩ := hu.ended hg hobject hok
  have hsame := sameFrames_addFramedHandlers flow driven handlers
  have hadded := extends_addFramedHandlers hu.consistent flow handlers
  generalize handlers.foldl ControlFlow.addFramedHandler (flow, driven) = r at he hsame hadded
  obtain ⟨covered, middle⟩ := r
  dsimp only at he hsame hadded hfollowing
  have hfollowing : covered.Following h driven ((start .frames).followsAll types (fun _ => []) events) := fun j => by
    rw [hsame.frame]
    exact hfollowing j
  obtain ⟨k, hh⟩ := he.hands hg hobject
  obtain ⟨hsolved, hext, -⟩ := collectBlocks_spec codeLength flow'.blocks (flow'.blocks.chain flow'.first)
    (⟨s.maxStack, #[⟨0, g.locals, g.stack⟩], #[]⟩, s.types) hh.bounded.consistent rfl
  rw [he.collected] at hsolved hext
  have hext : driven.Extends solved := ((hadded.trans he.grows).trans hh.grows).trans hext
  have hreached : ∀ j, (s.blocks.get j).reachable = true →
      ∃ f, (s.blocks.get j).frame = some f ∧ f.entered = true ∧ FrameType.SecondHalves f.locals := by
    intro j hj
    obtain ⟨f, hf, hfe⟩ := hh.bounded.reached j (Or.inr hj)
    exact ⟨f, hf, hfe, he.secondHalves hh hfollowing hsolved hext hfits hf hfe⟩
  refine ⟨he.blocks.symm ▸ hreached, fun c hcmem => ?_⟩
  have hcollected := he.collected
  rw [he.blocks] at hcollected
  have hgathered := locals_collectBlocks codeLength s.blocks (s.blocks.chain flow'.first)
    (⟨s.maxStack, #[⟨0, g.locals, g.stack⟩], #[]⟩, s.types) (c := c) (by rwa [hcollected])
  rcases hgathered with hc | hc | ⟨j, f, hf, hstore, hc⟩
  · obtain rfl := Array.mem_singleton.1 hc
    exact (Frame.spaced_enter he.enter).paired.secondHalves
  · rw [hc]
    exact FrameType.Paired.secondHalves fun i hwide => nomatch hwide
  · rw [hc]
    have hreach : (s.blocks.get j).reachable = true := by
      rw [he.marked.store] at hstore
      exact (Bool.and_eq_true_iff.1 hstore).1
    obtain ⟨f', hf', -, hhalves⟩ := hreached j hreach
    obtain rfl := Option.some.inj (hf.symm.trans hf')
    exact hhalves

end Locals

/-! ## An overlapped long -/

/-- A body that stores a long over the second half of its parameter, and then an int over the second half of
that long, which it increments. -/
def overlappingBody : List FlowEvent :=
  [.bare 9 1, .moveLocal Opcode.lstore 1 3, .split #[9, 55, 1], .bare 3 4, .moveLocal Opcode.istore 2 6,
    .increment 2, .bare 177 10]

/-- A static method with a long as parameter and with three locals. -/
def overlappingMethod : Frame.Method :=
  ⟨"a/A", "m", "(J)V", true, false, 3⟩

/-- The frame of the first block, in which the parameter is lost. -/
def longStored : Frame :=
  { outLocals := #[⟨0, .localSlot 0 true⟩, .long, .top], peak := 2 }

/-- The frame of the second block, in which the long is lost. -/
def intStored : Frame :=
  { outLocals := #[.unset, ⟨0, .localSlot 1 true⟩, .integer], peak := 1 }

/-- The flow inside the first block. -/
def overlappingFirst (f : Frame) : ControlFlow :=
  { analysis := .frames, blocks := ⟨#[{ pushed := true, resolved := true, frame := some f }], ∅⟩
    first := 0, current := some 0, previous := some 0, height := 0, peak := 0 }

/-- The flow inside the second block. -/
def overlappingSecond (f g : Frame) : ControlFlow :=
  let first : Block := { pushed := true, resolved := true, successor := some 1, edges := #[⟨.normal 0, 1⟩], frame := some f }
  let second : Block := { resolved := true, position := 3, owner := 1, frame := some g }
  { analysis := .frames, blocks := ⟨#[first, second], ∅⟩
    first := 0, current := some 1, previous := some 1, height := 0, peak := 0 }

/-- The flow behind both blocks, with what has been found out of them. -/
def overlappingFlow (f g : Frame) (found : Bool) : ControlFlow :=
  let first : Block :=
    { pushed := true, resolved := true, reachable := found, successor := some 1,
      edges := #[⟨.normal 0, 1⟩], frame := some f }
  let second : Block :=
    { resolved := true, position := 3, owner := 1, reachable := found, successor := some 2, frame := some g }
  let behind : Block := { resolved := true, position := 10, owner := 2, frame := some Frame.empty }
  { analysis := .frames, blocks := ⟨#[first, second, behind], ∅⟩
    first := 0, current := none, previous := some 2, height := 0, peak := 0 }

/-- What the two blocks are driven to, and the instructions that they have followed. -/
theorem drive_overlappingBody :
    (start .frames).driveAll .empty overlappingBody = (overlappingFlow longStored intStored false, .empty) ∧
      (start .frames).followsAll .empty (fun _ => []) overlappingBody 0 = [.bare 9, .moveLocal Opcode.lstore 1] ∧
      (start .frames).followsAll .empty (fun _ => []) overlappingBody 1 =
        [.bare 3, .moveLocal Opcode.istore 2, .increment 2, .bare 177] := by
  have hstart : start .frames = overlappingFirst .empty := rfl
  have hlconst : ∀ f, (overlappingFirst f).drive .empty (.bare 9 1) = (overlappingFirst (f.bare 9), .empty) := fun _ => rfl
  have hlstore : ∀ f, (overlappingFirst f).drive .empty (.moveLocal Opcode.lstore 1 3) =
    (overlappingFirst (f.moveLocal Opcode.lstore 1), .empty) :=
    fun _ => rfl
  have hsplit : ∀ f, (overlappingFirst f).drive .empty (.split #[9, 55, 1]) = (overlappingSecond f .empty, .empty) := by
    intro f
    rfl
  have hiconst : ∀ f g, (overlappingSecond f g).drive .empty (.bare 3 4) = (overlappingSecond f (g.bare 3), .empty) :=
    fun _ _ => rfl
  have histore : ∀ f g, (overlappingSecond f g).drive .empty (.moveLocal Opcode.istore 2 6) =
      (overlappingSecond f (g.moveLocal Opcode.istore 2), .empty) := fun _ _ => rfl
  have hiinc : ∀ f g, (overlappingSecond f g).drive .empty (.increment 2) = (overlappingSecond f (g.increment 2), .empty) :=
    fun _ _ => rfl
  have hreturn : ∀ f g, (overlappingSecond f g).drive .empty (.bare 177 10) =
    (overlappingFlow f (g.bare 177) false, .empty) := by
    intro f g
    rfl
  have hlong : (Frame.empty.bare 9).moveLocal Opcode.lstore 1 = longStored := by decide +kernel
  have hint : (((Frame.empty.bare 3).moveLocal Opcode.istore 2).increment 2).bare 177 = intStored := by decide +kernel
  unfold overlappingBody
  refine ⟨?_, ?_, ?_⟩
  · simp only [driveAll, hstart, hlconst, hlstore, hsplit, hiconst, histore, hiinc, hreturn, hlong, hint]
  · simp only [followsAll, follows, hstart, hlconst, hlstore, hsplit, hiconst, histore, hiinc, hreturn]
    rfl
  · simp only [followsAll, follows, hstart, hlconst, hlstore, hsplit, hiconst, histore, hiinc, hreturn]
    rfl

/-- The search finds the long of the first block whole, and cut in the second one. -/
theorem computeFrames_overlappingFlow :
    (overlappingFlow longStored intStored false).computeFrames [] overlappingMethod 10 .empty .empty =
    (.ok ⟨2, #[⟨0, #[.long, .top, .top], #[]⟩], #[]⟩,
      overlappingFlow (longStored.on #[.long, .top, .top] #[]) (intStored.on #[.top, .long, .top] #[]) true, .empty) := by
  have hparameters : Descriptor.parameterTypes "(J)V" = ["J"] := by
    have hchars : "(J)V".toList.drop 1 = ['J', ')', 'V'] := by decide
    rw [Descriptor.parameterTypes, hchars]
    simp [Descriptor.parameterChars, Descriptor.skipBrackets, Descriptor.takeBrackets, Descriptor.splitElement]
  have henter : longStored.enter .empty overlappingMethod = (longStored.on #[.long, .top, .top] #[], .empty, none) := by
    unfold Frame.enter
    rw [show overlappingMethod.descriptor = "(J)V" from rfl, hparameters]
    rfl
  have hentered : (overlappingFlow longStored intStored false).enterFirst .empty overlappingMethod =
      ((overlappingFlow longStored intStored false).enteredWith (longStored.on #[.long, .top, .top] #[]),
        longStored.on #[.long, .top, .top] #[], .empty, none) := by
    have hframe : ((overlappingFlow longStored intStored false).blocks.get
      (overlappingFlow longStored intStored false).first).frame.getD
        Frame.empty = longStored := rfl
    rw [enterFirst_eq, hframe, henter]
  unfold ControlFlow.computeFrames
  rw [List.foldl_nil]
  dsimp only
  rw [hentered]
  rfl

/-- In the computed frames, the store of an int does not find a long, and the increment finds an int. -/
theorem fitting_overlappingFlow : Fitting .empty ((start .frames).followsAll .empty (fun _ => []) overlappingBody)
    (overlappingFlow (longStored.on #[.long, .top, .top] #[]) (intStored.on #[.top, .long, .top] #[]) true).blocks := by
  intro j f hreach hf before i after hsplits
  match j with
  | 0 =>
    obtain rfl := Option.some.inj hf
    rw [drive_overlappingBody.2.1] at hsplits
    match before with
    | [] =>
      cases hsplits
      exact trivial
    | [_] =>
      cases hsplits
      exact fun hnarrow => absurd hnarrow (by decide)
    | _ :: _ :: _ :: _ => cases hsplits
  | 1 =>
    obtain rfl := Option.some.inj hf
    rw [drive_overlappingBody.2.2] at hsplits
    match before with
    | [] =>
      cases hsplits
      exact trivial
    | [_] =>
      cases hsplits
      intro _
      decide +kernel
    | [_, _] =>
      cases hsplits
      change Frame.leftLocal _ _ = _
      decide +kernel
    | [_, _, _] =>
      cases hsplits
      exact trivial
    | _ :: _ :: _ :: _ :: _ :: _ => cases hsplits
  | 2 => cases hreach
  | j + 3 =>
    rw [Blocks.get_of_size_le (Nat.le_add_left 3 j)] at hreach
    cases hreach

/-- A long in the first two locals, which then moves on by one. -/
theorem secondHalves_overlappingBody :
    (overlappingFlow longStored intStored false).computeFrames [] overlappingMethod 10 .empty .empty =
        (.ok ⟨2, #[⟨0, #[.long, .top, .top], #[]⟩], #[]⟩,
          overlappingFlow (longStored.on #[.long, .top, .top] #[]) (intStored.on #[.top, .long, .top] #[]) true, .empty) ∧
      Fitting .empty ((start .frames).followsAll .empty (fun _ => []) overlappingBody)
        (overlappingFlow (longStored.on #[.long, .top, .top] #[]) (intStored.on #[.top, .long, .top] #[]) true).blocks ∧
      FrameType.SecondHalves #[.long, .top, .top] ∧ FrameType.SecondHalves #[.top, .long, .top] := by
  have hboth := secondHalves_computeFrames Hierarchy.grounded_empty Std.HashMap.getElem?_empty
    (TypeTable.consistent_empty .empty) drive_overlappingBody.1 computeFrames_overlappingFlow fitting_overlappingFlow
  obtain ⟨f, hf, -, hsecond⟩ := hboth.1 1 rfl
  obtain rfl := Option.some.inj hf
  have hentry := hboth.2 ⟨0, #[.long, .top, .top], #[]⟩ (Array.mem_singleton.2 rfl)
  exact ⟨computeFrames_overlappingFlow, fitting_overlappingFlow, hentry, hsecond⟩

end ControlFlow

end ClassFile
