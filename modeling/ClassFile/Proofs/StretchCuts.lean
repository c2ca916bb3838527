import ClassFile.Proofs.CodeStretches

/-!
# Where stretches are cut

The stretches of a method hold the instructions that it has recorded, in their order (`Course.Run.items_eq`). A stretch
that is followed is cut where code may go on elsewhere than behind an instruction, and leads on unless its last
instruction does not (`Course.Regular`). What is followed hangs on the instructions alone: on the frame, and on the
labels that the block leads to.
-/

namespace ClassFile

/-- What a stretch knows of its instructions: no code is led to from inside. -/
structure Stretch.Plain (s : Stretch) : Prop where
  inner : s.followed = true → ∀ x ∈ s.body.dropLast, x.2.ends = false ∧ x.2.branches = false
  operations : s.operations = if s.followed then s.body.map fun x => x.2.operation x.1 else []
  leads : s.leads = if s.followed then s.body.flatMap fun x => x.2.labels else []

/-- A stretch is cut from the next one, once labels have their places. -/
structure Stretch.Cut (place : Label → Nat) (s s' : Stretch) : Prop where
  goes : s.falls = true → s.followed = true ∧ s'.followed = true
  ends : s.followed = true → ∀ x ∈ s.body.getLast?, x.2.ends = !s.falls
  jumped : s.followed = true → ∀ x ∈ s.body.getLast?, ∀ op l, x.2 = .jump op l → x.2.conditional = true →
    (place l : Int) - x.1 < MethodDraft.minDistance → s'.jumped = true ∧ s'.start = x.1 + 8

/-- Stretches are cut where their instructions say, and the last one is not cut yet. The first one is followed. -/
structure Course.Regular (place : Label → Nat) (c : Course) : Prop where
  entered : ∀ s ∈ c.all.head?, s.followed = true
  cuts : c.all.IsChain (Stretch.Cut place)
  plain : ∀ s ∈ c.all, s.Plain
  whole : c.last.followed = true → ∀ x ∈ c.last.body, x.2.ends = false ∧ x.2.branches = false

namespace Instruction

/-- A conditional jump may lead elsewhere. -/
theorem branches_of_conditional {i : Instruction} (h : i.conditional = true) : i.branches = true := by
  cases i with
  | jump op l => exact (Bool.and_eq_true_iff.1 h).1
  | _ => exact h

/-- What may come back does not end the code. -/
theorem ends_of_branches {i : Instruction} (h : i.branches = true) : i.ends = false := by
  cases i with
  | jump op l => exact beq_eq_false_iff_ne.2 (bne_iff_ne.1 h)
  | _ => cases h

end Instruction

namespace Course

section Regular

variable {place : Label → Nat} {c : Course} {last : Stretch} {offset stop block next : Nat} {i : Instruction}

/-- Stretches stay cut while the last one gets more. -/
theorem Regular.cuts_last (hr : c.Regular place) (hfollowed : c.last.followed = true → last.followed = true)
    (hjumped : c.last.jumped = true → last.jumped = true) (hstart : last.start = c.last.start) :
    (c.done ++ [last]).IsChain (Stretch.Cut place) := by
  obtain ⟨hdone, -, hlast⟩ := List.isChain_append.1 hr.cuts
  refine List.isChain_append.2 ⟨hdone, List.isChain_singleton _, fun s hmem s' hs' => ?_⟩
  obtain rfl := Option.some.inj hs'
  have hcut := hlast s hmem c.last rfl
  refine ⟨fun hf => ⟨(hcut.goes hf).1, hfollowed (hcut.goes hf).2⟩, hcut.ends, fun hf x hx op l hi hcond hfar => ?_⟩
  obtain ⟨hj, hbehind⟩ := hcut.jumped hf x hx op l hi hcond hfar
  exact ⟨hjumped hj, hstart.trans hbehind⟩

/-- The first stretch stays followed while the last one gets more. -/
theorem Regular.entered_last (hr : c.Regular place) (hfollowed : c.last.followed = true → last.followed = true)
    (rest : List Stretch) :
    ∀ s ∈ (c.done ++ last :: rest).head?, s.followed = true := by
  have hentered := hr.entered
  unfold all at hentered
  intro s hs
  cases hdone : c.done with
  | nil =>
    rw [hdone] at hentered hs
    obtain rfl := Option.some.inj hs
    exact hfollowed (hentered _ rfl)
  | cons first done =>
    rw [hdone] at hentered hs
    exact hentered s hs

/-- The last stretch is cut, and another one starts without instructions. -/
theorem Regular.extend (hr : c.Regular place) {new : Stretch} (hfollowed : last.followed = c.last.followed)
    (hjumped : last.jumped = c.last.jumped) (hstart : last.start = c.last.start) (hplain : last.Plain)
    (hcut : last.Cut place new) (hnew : new.body = [])
    (hoperations : new.operations = []) (hleads : new.leads = []) : Regular place ⟨c.done ++ [last], new⟩ := by
  have hchain : (c.done ++ [last]).IsChain (Stretch.Cut place) :=
    hr.cuts_last (fun hf => hfollowed.trans hf) (fun hj => hjumped.trans hj) hstart
  have hentered := hr.entered_last (fun hf => hfollowed.trans hf) [new]
  rw [List.append_cons] at hentered
  refine ⟨hentered, List.isChain_append.2 ⟨hchain, List.isChain_singleton _, fun s hmem s' hs' => ?_⟩,
    fun s hmem => ?_, fun _ x hx => ?_⟩
  · obtain rfl := Option.some.inj hs'
    rw [List.getLast?_concat] at hmem
    obtain rfl := Option.some.inj hmem
    exact hcut
  · rcases mem_all.1 hmem with hmem | rfl
    · rcases List.mem_append.1 hmem with hmem | hmem
      · exact hr.plain s (mem_all.2 (Or.inl hmem))
      · obtain rfl := List.mem_singleton.1 hmem
        exact hplain
    · refine ⟨fun _ x hx => ?_, ?_, ?_⟩
      · rw [hnew] at hx
        exact absurd hx List.not_mem_nil
      · rw [hnew, hoperations]
        exact (ite_self _).symm
      · rw [hnew, hleads]
        exact (ite_self _).symm
  · rw [hnew] at hx
    exact absurd hx List.not_mem_nil

/-- What stands at an offset is followed from then on: nothing stands there yet. -/
theorem Regular.placed (hr : c.Regular place) (hempty : c.last.body = [] ↔ c.last.start = offset) (jumped : Bool) :
    (c.place block offset jumped).Regular place := by
  have hplain := hr.plain _ c.last_mem_all
  unfold Course.place
  split
  · rename_i hstart
    have hbody := hempty.2 hstart
    refine ⟨hr.entered_last (fun _ => rfl) [], hr.cuts_last (fun _ => rfl) (fun hj => by simp [hj]) rfl, fun s hmem => ?_,
      fun _ x hx => ?_⟩
    · rcases mem_all.1 hmem with hmem | rfl
      · exact hr.plain s (mem_all.2 (Or.inl hmem))
      · have hoperations := hplain.operations
        have hleads := hplain.leads
        rw [hbody] at hoperations hleads
        refine ⟨fun _ x hx => ?_, ?_, ?_⟩
        · exact absurd (List.mem_of_mem_dropLast hx) (by simp [hbody])
        · simpa [hbody] using hoperations
        · simpa [hbody] using hleads
    · exact absurd hx (by simp [hbody])
  · refine hr.extend rfl rfl rfl ⟨hplain.inner, hplain.operations, hplain.leads⟩ ⟨fun hf => ⟨hf, rfl⟩, fun hf x hx => ?_,
      fun hf x hx op l hi hcond _ => ?_⟩ rfl rfl rfl
    · have hx' := (hr.whole hf x (List.mem_of_mem_getLast? hx)).1
      dsimp only at hf ⊢
      rw [hx', hf]
      rfl
    · have hx' := (hr.whole hf x (List.mem_of_mem_getLast? hx)).2
      rw [Instruction.branches_of_conditional hcond] at hx'
      cases hx'

/-- An instruction is part of the last stretch. -/
theorem Regular.plain_written (hr : c.Regular place) (offset : Nat) (i : Instruction) : (c.written offset i).last.Plain := by
  have hplain := hr.plain _ c.last_mem_all
  rw [written_eq]
  refine ⟨fun hf x hx => ?_, ?_, ?_⟩
  · rw [List.dropLast_concat] at hx
    exact hr.whole hf x hx
  · dsimp only
    rw [hplain.operations]
    cases c.last.followed <;> simp
  · dsimp only
    rw [hplain.leads]
    cases c.last.followed <;> simp

/-- An instruction is followed and written, and the stretch is cut behind it if it says so. -/
theorem Regular.follow (hr : c.Regular place) {splits jumped : Bool} (hsize : offset < stop)
    (hstart : c.last.start ≤ offset) (hjumped : ∀ op l, i = .jump op l → i.conditional = true →
      (place l : Int) - offset < MethodDraft.minDistance → jumped = true ∧ stop = offset + 8) :
    (c.follow offset stop block next splits jumped i).Regular place := by
  have hwritten := hr.plain_written offset i
  have heq := written_eq c offset i
  have hlast : ∀ x ∈ (c.last.body ++ [(offset, i)]).getLast?, x = (offset, i) := by
    intro x hx
    rw [List.getLast?_concat] at hx
    exact (Option.some.inj hx).symm
  unfold Course.follow
  dsimp only
  generalize c.written offset i = w at hwritten heq
  -- the stretch is cut from one that is placed behind it
  have hcut : ∀ new : Stretch, new.followed = true → new.jumped = jumped → new.start = stop →
    (c.last.followed = true → i.ends = false) →
      { w.last with falls := w.last.followed }.Cut place new := by
    intro new hnew hnewjumped hnewstart hends
    subst heq
    refine ⟨fun hf => ⟨hf, hnew⟩, fun hf x hx => ?_, fun hf x hx op l hi hcond hfar => ?_⟩
    · obtain rfl := hlast x hx
      dsimp only at hf ⊢
      rw [hends hf, hf]
      rfl
    · obtain rfl := hlast x hx
      obtain ⟨hj, hbehind⟩ := hjumped op l hi hcond hfar
      exact ⟨hnewjumped.trans hj, hnewstart.trans hbehind⟩
  have hstopped : i.ends = true → (w.stop block stop).Regular place := by
    intro hends
    subst heq
    refine hr.extend rfl rfl rfl ⟨hwritten.inner, hwritten.operations, hwritten.leads⟩
      ⟨fun hf => (nomatch hf), fun _ x hx => ?_, fun _ x hx op l hi hcond _ => ?_⟩ rfl rfl rfl
    · obtain rfl := hlast x hx
      exact hends
    · obtain rfl := hlast x hx
      rw [Instruction.ends_of_branches (Instruction.branches_of_conditional hcond)] at hends
      cases hends
  by_cases hends : (c.last.followed && i.ends) = true
  · rw [if_pos hends]
    have hended := hstopped (Bool.and_eq_true_iff.1 hends).2
    split
    · exact hended.placed ⟨fun _ => rfl, fun _ => rfl⟩ jumped
    · exact hended
  · rw [if_neg hends]
    have hnot : c.last.followed = true → i.ends = false := by
      intro hf
      rw [hf, Bool.true_and] at hends
      exact Bool.eq_false_of_not_eq_true hends
    split
    · unfold Course.place
      have hbehind : w.last.start ≠ stop := by
        subst heq
        dsimp only
        omega
      rw [if_neg hbehind]
      subst heq
      exact hr.extend rfl rfl rfl ⟨hwritten.inner, hwritten.operations, hwritten.leads⟩ (hcut _ rfl rfl rfl hnot) rfl rfl rfl
    · rename_i hwhole
      rw [Bool.or_eq_true_iff, not_or, Bool.not_eq_true] at hwhole
      have hchain : (c.done ++ [w.last]).IsChain (Stretch.Cut place) :=
        hr.cuts_last (fun hf => by subst heq; exact hf) (fun hj => by subst heq; exact hj) (by subst heq; rfl)
      have hentered : ∀ s ∈ (c.done ++ [w.last]).head?, s.followed = true :=
        hr.entered_last (fun hf => by subst heq; exact hf) []
      subst heq
      refine ⟨hentered, hchain, fun s hmem => ?_, fun hf x hx => ?_⟩
      · rcases mem_all.1 hmem with hmem | rfl
        · exact hr.plain s (mem_all.2 (Or.inl hmem))
        · exact hwritten
      · rcases List.mem_append.1 hx with hx | hx
        · exact hr.whole hf x hx
        · obtain rfl := List.mem_singleton.1 hx
          have hbranches := hwhole.1
          dsimp only at hf
          rw [hf, Bool.true_and] at hbranches
          exact ⟨hnot hf, hbranches⟩

/-- Before anything is written, nothing is cut. -/
theorem regular_start (place : Label → Nat) : Course.start.Regular place := by
  refine ⟨fun s hs => Option.some.inj hs ▸ rfl,
    List.isChain_singleton _, fun s hmem => ?_, fun _ x hx => absurd hx List.not_mem_nil⟩
  obtain rfl : s = _ := List.mem_singleton.1 hmem
  exact ⟨fun _ x hx => absurd hx List.not_mem_nil, rfl, rfl⟩

end Regular

/-! ## Instructions of stretches -/

section Items

variable (c : Course) (offset stop block next : Nat) (splits jumped : Bool) (i : Instruction)

/-- The instructions are those of the stretches that are done and of the last one. -/
theorem items_eq : c.items = c.done.flatMap (·.body) ++ c.last.body := by
  unfold items all
  rw [List.flatMap_append, List.flatMap_singleton]

/-- Placing a block adds no instruction. -/
theorem items_place : (c.place block offset jumped).items = c.items := by
  unfold Course.place
  split
  · rw [items_eq, items_eq]
  · simp [items_eq]

/-- Ending a stretch adds no instruction. -/
theorem items_stop : (c.stop block offset).items = c.items := by
  unfold Course.stop
  simp [items_eq]

/-- Following an instruction adds it behind all others. -/
theorem items_follow : (c.follow offset stop block next splits jumped i).items = c.items ++ [(offset, i)] := by
  have hwritten : (c.written offset i).items = c.items ++ [(offset, i)] := by
    rw [written_eq]
    simp [items_eq]
  have hended : (if c.last.followed && i.ends then (c.written offset i).stop block stop else c.written offset i).items =
      c.items ++ [(offset, i)] := by
    split
    · rw [items_stop, hwritten]
    · exact hwritten
  unfold Course.follow
  dsimp only
  split
  · rw [items_place, hended]
  · exact hended

end Items

end Course

namespace MethodDraft

/-- The instruction of an event, with the offset at which it is recorded. -/
def item (m : MethodDraft) : CodeEvent → List (Nat × Instruction)
  | .instruction i => [(m.code.size, i)]
  | _ => []

/-- The instructions of events, each with the offset at which it is recorded. -/
def items (ctx : Context) (m : MethodDraft) : List CodeEvent → List (Nat × Instruction)
  | [] => []
  | e :: rest => m.item e ++ items (m.record ctx e).1 (m.record ctx e).2 rest

variable {ctx : Context} {m : MethodDraft} {es : List CodeEvent}

/-- The listing of events is that of their instructions. -/
theorem listing_eq (place : Label → Nat) :
    m.listing ctx place es = (m.items ctx es).flatMap fun x => x.2.decoded place x.1 := by
  induction es generalizing ctx m with
  | nil => rfl
  | cons e rest ih =>
    unfold MethodDraft.listing MethodDraft.items
    rw [List.flatMap_append, ih]
    cases e with
    | instruction i =>
      unfold MethodDraft.item
      rw [List.flatMap_singleton]
    | _ => rfl

/-- An instruction with an offset is one of some event. -/
theorem mem_of_mem_items {x : Nat × Instruction} (h : x ∈ m.items ctx es) : .instruction x.2 ∈ es := by
  induction es generalizing ctx m with
  | nil => exact absurd h List.not_mem_nil
  | cons e rest ih =>
    rcases List.mem_append.1 h with h | h
    · cases e with
      | instruction i =>
        obtain rfl := List.mem_singleton.1 h
        exact List.mem_cons_self
      | _ => exact absurd h List.not_mem_nil
    · exact List.mem_cons_of_mem e (ih h)

end MethodDraft

namespace Course

section Run

variable {h : Hierarchy} {ctx : Context} {m : MethodDraft} {c c' : Course} {es : List CodeEvent}

/-- Stretches hold the instructions of what has been recorded. -/
theorem Run.items_eq (hrun : Run h ctx m c es c') : c'.items = c.items ++ m.items ctx es := by
  induction hrun with
  | nil => exact (List.append_nil _).symm
  | @cons ctx m c c' e rest _ block next _ ih =>
    have hrecord : (c.record ctx m block next e).items = c.items ++ m.item e := by
      cases e with
      | instruction i => exact items_follow _ _ _ _ _ _ _ _
      | label l =>
        unfold Course.record
        dsimp only
        split
        · exact (List.append_nil _).symm
        · rw [items_place]
          exact (List.append_nil _).symm
      | _ => exact (List.append_nil _).symm
    rw [ih, hrecord, List.append_assoc]
    rfl

/-- Stretches are cut where their instructions say. -/
theorem Run.regular {places : Label → Option Nat} {ps : List CodePiece} {place : Label → Nat} (hrun : Run h ctx m c es c')
    (hlaid : m.Laid places ps) (hnodup : (es.filterMap CodeEvent.placed?).Nodup)
    (hnew : ∀ l ∈ es.filterMap CodeEvent.placed?, places l = none) (hok : (m.recordAll ctx es).1.failure = none)
    (hsize : (m.recordAll ctx es).2.code.size ≤ MethodDraft.maxCodeLength)
    (hplace : ∀ i, .instruction i ∈ es → ∀ l ∈ i.labels, m.placesAfter ctx places es l = some (place l))
    (hr : c.Regular place) :
    c'.Regular place := by
  induction hrun generalizing places ps with
  | nil => exact hr
  | @cons ctx m c c' e rest hs block next _ ih =>
    have hall := hlaid.recordAll hnodup hnew hok
    obtain ⟨hnodup', hnew', hrecorded⟩ := hlaid.recordFirst hnodup hnew hok
    refine ih hrecorded hnodup' hnew' hok hsize (fun i hi => hplace i (List.mem_cons_of_mem e hi)) ?_
    cases e with
    | instruction i =>
      have hkept : ∀ l p, places l = some p → m.placesAfter ctx places (.instruction i :: rest) l = some p := by
        intro l p hp
        rw [MethodDraft.placesAfter_of_notMem (fun hl => nomatch (hnew l hl).symm.trans hp), hp]
      have hwritten : Emission.allPieces m.code.size (m.emission ctx (.instruction i)) =
          i.pieces (i.operand ctx.pool).1 (m.isFar i) m.code.size := List.append_nil _
      unfold MethodDraft.emissions at hall
      rw [Emission.allPieces_append, hwritten] at hall
      have hreadable := hlaid.readable hall hsize hkept (hplace i List.mem_cons_self)
      refine hr.follow (MethodDraft.size_lt_instruction ctx hlaid i) hs.within.extent ?_
      rintro op l rfl hcond hfar
      rw [hcond, Bool.and_true]
      have hisFar : m.isFar (.jump op l) = true := by
        refine Bool.eq_true_of_not_eq_false fun hnear => ?_
        have hreach := (hreadable.near op l rfl hnear).1
        have hlower : (place l : Int) - m.code.size < -0x8000 := hfar
        omega
      -- the negated jump has three bytes, and the wide one that it passes over has five
      have hlong : CodePiece.totalSize ((Instruction.jump op l).pieces
        ((Instruction.jump op l).operand ctx.pool).1 true m.code.size) =
          8 := by
        change CodePiece.totalSize (Instruction.jumpPieces op l true m.code.size) = 8
        unfold Instruction.jumpPieces
        have hop : (op != Opcode.goto && op != Opcode.jsr) = true := hcond
        rw [if_pos rfl, if_pos hop]
        rfl
      have hbehind := hlaid.size_record hrecorded
      rw [hwritten, hisFar, hlong] at hbehind
      exact ⟨hisFar, hbehind⟩
    | label l =>
      unfold Course.record
      dsimp only
      split
      · exact hr
      · exact hr.placed hs.within.empty false
    | _ => exact hr

end Run

end Course

end ClassFile
