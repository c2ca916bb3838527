import ClassFile.Proofs.FrameAgreement

/-!
# Leaving a block

A block that is entered from one frame only is entered with what the locals and the stack of that frame come to. Joining into
slots of which nothing is known keeps the types, and constructors that have been called have run.
-/

namespace ClassFile

namespace Frame

section Leaving

variable {className : String} {later : List TypeEntry} {f : Frame} {types : TypeTable} {t : FrameType}

/-- A type that is known without input is one of a value once it has settled in a slot. -/
theorem concrete_settled {n : List TypeEntry} (h : t.Known types n 0 0) : t.settled.Concrete types := by
  obtain ⟨d, s⟩ := t
  refine ⟨numbered_settled h.numbered, ?_, ?_⟩
  · have hp := h.place
    cases s with
    | localSlot n b => exact absurd hp (Nat.not_lt_zero n)
    | stackSlot n b =>
      obtain ⟨h₁, h₂⟩ := hp
      omega
    | straySlot k n b => exact hp.elim
    | unset => exact hp.elim
    | _ => rfl
  · unfold FrameType.settled
    split
    · exact fun _ => rfl
    · rename_i hne
      exact fun e => absurd e hne

/-- An object that is waiting for its constructor has been constructed exactly if something that stands for it has been. -/
theorem WellFormed.mem_constructed (h : f.WellFormed types later) {grown : TypeTable} (hg : types.Extends grown)
    (hs : grown.Sound) (ht : t.Numbered grown) (hu : t.shape = .uninitializedThis ∨ ∃ i, t.shape = .uninitialized i) :
    t.settled.named grown ∈ f.constructed.toList.map (f.said types) ↔
      (f.constructed.any fun c => f.resolve c == t) = true := by
  have hsaid : ∀ c ∈ f.constructed, f.said types c = (f.resolve c).settled.named grown := fun c hc =>
    (FrameType.named_of_extends hg (numbered_settled (h.known_resolve (h.constructed c hc)).numbered)).symm
  rw [List.mem_map, Array.any_eq_true']
  constructor
  · rintro ⟨c, hc, hcn⟩
    have hc' := Array.mem_toList_iff.1 hc
    refine ⟨c, hc', beq_iff_eq.2 ?_⟩
    rw [hsaid c hc'] at hcn
    revert hcn
    generalize f.resolve c = r
    intro hcn
    obtain ⟨d, s⟩ := r
    obtain ⟨d', s'⟩ := t
    rcases hu with rfl | ⟨i, rfl⟩
    · obtain ⟨hd, hs'⟩ := NamedType.mk.inj hcn
      cases s <;> cases hs'
      cases hd
      rfl
    · obtain ⟨hd, hs'⟩ := NamedType.mk.inj hcn
      obtain ⟨e, he⟩ := ht
      cases s with
      | uninitialized j =>
        have hj : grown.get? j = some e := (NamedShape.uninitialized.inj hs').trans he
        obtain rfl := hs.get?_inj hj he
        cases hd
        rfl
      | _ => cases hs'
  · rintro ⟨c, hc, hct⟩
    refine ⟨c, Array.mem_toList_iff.2 hc, ?_⟩
    rw [hsaid c hc, beq_iff_eq.1 hct]

/-- What an object becomes if the block has called its constructor, by name. -/
theorem WellFormed.afterConstructor (h : f.WellFormed types later) {grown : TypeTable} (hg : types.Extends grown)
    (hs : grown.Sound) (ht : t.Known grown [] 0 0) :
    (f.afterConstructor grown className t).2.Sound ∧ grown.Extends (f.afterConstructor grown className t).2 ∧
      (f.afterConstructor grown className t).1.Known (f.afterConstructor grown className t).2 [] 0 0 ∧
      (f.afterConstructor grown className t).1.settled.named (f.afterConstructor grown className t).2 =
        NamedType.afterAll className (f.constructed.toList.map (f.said types)) (t.settled.named grown) := by
  have hclass : ∀ name : String, (t.settled.named grown).initialized className = ⟨0, .object name⟩ →
      (t.shape = .uninitializedThis ∨ ∃ i, t.shape = .uninitialized i) →
      let r : FrameType × TypeTable :=
        (if f.constructed.any fun c => f.resolve c == t then .object (grown.addNormal name).1 else t,
          (grown.addNormal name).2)
      r.2.Sound ∧ grown.Extends r.2 ∧ r.1.Known r.2 [] 0 0 ∧ r.1.settled.named r.2 =
        NamedType.afterAll className (f.constructed.toList.map (f.said types)) (t.settled.named grown) := by
    intro name hname hu
    obtain ⟨hs', hg', hi⟩ := TypeTable.addNormal_spec hs name
    have hmem := h.mem_constructed hg hs ht.numbered hu
    refine ⟨hs', hg', ?_⟩
    by_cases hany : (f.constructed.any fun c => f.resolve c == t) = true
    · dsimp only
      rw [if_pos hany, NamedType.afterAll, if_pos (hmem.2 hany), hname]
      refine ⟨FrameType.known_of_isValue rfl ⟨_, hi⟩, ?_⟩
      simp [FrameType.settled, FrameType.object, FrameType.named, Shape.named, TypeTable.name, hi, TypeEntry.name]
    · dsimp only
      rw [if_neg hany, NamedType.afterAll, if_neg fun e => hany (hmem.1 e)]
      exact ⟨ht.mono hg' fun e he => he, FrameType.named_of_extends hg' (numbered_settled ht.numbered)⟩
  have hself : (t.settled.named grown).initialized className = t.settled.named grown →
      grown.Sound ∧ grown.Extends grown ∧ t.Known grown [] 0 0 ∧ t.settled.named grown =
        NamedType.afterAll className (f.constructed.toList.map (f.said types)) (t.settled.named grown) := by
    intro hfix
    refine ⟨hs, TypeTable.Extends.refl grown, ht, ?_⟩
    unfold NamedType.afterAll
    rw [hfix, ite_self]
  unfold Frame.afterConstructor
  by_cases hempty : f.constructed.isEmpty = true
  · rw [if_pos hempty]
    refine ⟨hs, TypeTable.Extends.refl grown, ht, ?_⟩
    have hnil : f.constructed.toList = [] := by simpa using hempty
    rw [hnil]
    rfl
  · rw [if_neg hempty]
    dsimp only
    split
    · exact hclass className rfl (Or.inl rfl)
    · rename_i i
      refine hclass (grown.name i) ?_ (Or.inr ⟨i, rfl⟩)
      rfl
    · rename_i hthis huninit
      exact hself (FrameType.initialized_named grown className hthis huninit)

/-- A slot holds a type of a value that is a certain one by name. -/
def Holds (types : TypeTable) (slots : Array FrameType) (i : Nat) (n : NamedType) : Prop :=
  ∃ t, slots[i]? = some t ∧ t.Concrete types ∧ t.named types = n

/-- Joining into slots of which nothing is known. -/
theorem joinSlots_unset (h : Hierarchy) {incoming : Nat → TypeTable → FrameType × TypeTable} {S : Nat → NamedType}
    (count i : Nat) (slots : Array FrameType) (changed : Bool) (types : TypeTable) (hs : types.Sound)
    (hin : ∀ j, i ≤ j → j < i + count → ∀ grown : TypeTable, types.Extends grown → grown.Sound →
      (incoming j grown).2.Sound ∧ grown.Extends (incoming j grown).2 ∧
      (incoming j grown).1.Known (incoming j grown).2 [] 0 0 ∧
        (incoming j grown).1.settled.named (incoming j grown).2 = S j)
    (hsize : i + count ≤ slots.size) (hunset : ∀ j, i ≤ j → slots.getD j .unset = .unset) :
    let r := joinSlots h incoming count i slots changed types
    r.2.2.Sound ∧ types.Extends r.2.2 ∧ r.1.size = slots.size ∧ (changed = true → r.2.1 = true) ∧
      (∀ j < i, r.1[j]? = slots[j]?) ∧ ∀ j, i ≤ j → j < i + count → Holds r.2.2 r.1 j (S j) := by
  induction count generalizing i slots changed types with
  | zero => exact ⟨hs, TypeTable.Extends.refl types, rfl, id, fun _ _ => rfl, fun j h₁ h₂ => by omega⟩
  | succ count ih =>
    obtain ⟨hs', hg, hknown, hnamed⟩ := hin i (Nat.le_refl _) (by omega) types (TypeTable.Extends.refl types) hs
    have hmerge : FrameType.mergeInto h (incoming i types).2 (slots.getD i .unset) (incoming i types).1 =
        ((incoming i types).1.settled, true, (incoming i types).2) := by
      rw [hunset i (Nat.le_refl _)]
      exact FrameType.mergeInto_unset h _ hknown.shape_ne_unset
    unfold joinSlots
    dsimp only
    rw [hmerge]
    dsimp only
    obtain ⟨rs, rg, rsize, rchanged, rbefore, rafter⟩ := ih (i + 1)
      (slots.setIfInBounds i (incoming i types).1.settled) (changed || true) (incoming i types).2 hs'
      (fun j h₁ h₂ grown hgrown => hin j (by omega) (by omega) grown (hg.trans hgrown))
      (by rw [Array.size_setIfInBounds]; omega)
      (fun j hj => by
        rw [Array.getD_eq_getD_getElem?, Array.getElem?_setIfInBounds, if_neg (by omega), ← Array.getD_eq_getD_getElem?]
        exact hunset j (by omega))
    refine ⟨rs, hg.trans rg, ?_, fun _ => rchanged (Bool.or_true _), ?_, ?_⟩
    · rw [rsize, Array.size_setIfInBounds]
    · intro j hj
      rw [rbefore j (by omega), Array.getElem?_setIfInBounds, if_neg (by omega)]
    · intro j h₁ h₂
      by_cases hji : j = i
      · subst hji
        have hset := rbefore j (Nat.lt_succ_self j)
        rw [Array.getElem?_setIfInBounds, if_pos rfl, if_pos (by omega)] at hset
        have hconcrete := concrete_settled hknown
        refine ⟨_, hset, ⟨hconcrete.numbered.mono rg, hconcrete.shape, hconcrete.null⟩, ?_⟩
        rw [FrameType.named_of_extends rg hconcrete.numbered, hnamed]
      · exact rafter j (by omega) (by omega)

/-- A slot holds the same type for a table that has grown. -/
theorem Holds.mono {grown : TypeTable} {slots : Array FrameType} {i : Nat} {n : NamedType} (h : Holds types slots i n)
    (hg : types.Extends grown) : Holds grown slots i n := by
  obtain ⟨t, ht, hc, hn⟩ := h
  refine ⟨t, ht, ⟨hc.numbered.mono hg, hc.shape, hc.null⟩, ?_⟩
  rw [FrameType.named_of_extends hg hc.numbered, hn]

/-- Slots that hold types of values. -/
theorem named_of_holds {slots : Array FrameType} {S : Nat → NamedType} {n : Nat} (hsize : slots.size = n)
    (h : ∀ j < n, Holds types slots j (S j)) :
    (∀ t ∈ slots, t.Concrete types) ∧ slots.toList.map (FrameType.named types) = (List.range n).map S := by
  constructor
  · intro t ht
    obtain ⟨j, hj, rfl⟩ := Array.mem_iff_getElem.1 ht
    obtain ⟨u, hu, hc, -⟩ := h j (hsize ▸ hj)
    rw [Array.getElem?_eq_getElem hj] at hu
    exact Option.some.inj hu ▸ hc
  · apply List.ext_getElem?
    intro j
    by_cases hj : j < n
    · obtain ⟨u, hu, -, hn⟩ := h j hj
      simp [hj, hu, hn]
    · simp [hj, hsize]

/-- Where nothing is known beforehand, slots come to hold what joins them. -/
theorem joinSlots_replicate (h : Hierarchy) {incoming : Nat → TypeTable → FrameType × TypeTable} {S : Nat → NamedType}
    (count : Nat) (changed : Bool) (types : TypeTable) (hs : types.Sound)
    (hin : ∀ j < count, ∀ grown : TypeTable, types.Extends grown → grown.Sound →
      (incoming j grown).2.Sound ∧ grown.Extends (incoming j grown).2 ∧
      (incoming j grown).1.Known (incoming j grown).2 [] 0 0 ∧
        (incoming j grown).1.settled.named (incoming j grown).2 = S j) :
    let r := joinSlots h incoming count 0 (Array.replicate count .unset) changed types
    r.2.2.Sound ∧ types.Extends r.2.2 ∧ r.1.size = count ∧ (changed = true → r.2.1 = true) ∧
      ∀ j < count, Holds r.2.2 r.1 j (S j) := by
  have hunset : ∀ j, 0 ≤ j → (Array.replicate count FrameType.unset).getD j .unset = .unset := by
    intro j _
    rw [Array.getD_eq_getD_getElem?, Array.getElem?_replicate]
    split <;> rfl
  obtain ⟨rs, rg, rsize, rchanged, -, rafter⟩ := joinSlots_unset h count 0 (Array.replicate count .unset) changed types hs
    (fun j _ hj => hin j (by omega)) (by simp) hunset
  exact ⟨rs, rg, by rw [rsize, Array.size_replicate], rchanged, fun j hj => rafter j (Nat.zero_le _) (by omega)⟩

/-- What the block leaves in a local is what is known of it, after the constructors. -/
theorem WellFormed.localAfter_eq (h : f.WellFormed types later) (grown : TypeTable) (i : Nat) :
    f.localAfter grown className i = f.afterConstructor grown className (f.resolve (f.current i)) := by
  have hinput := resolve_of_known f (h.known_input i)
  unfold localAfter current
  cases f.outLocals[i]? with
  | none => simp only [hinput]
  | some t =>
    by_cases hu : t.isUnset = true
    · simp only [hu, if_true, hinput]
    · simp [hu]

/-- The stack from below is what is left of the input and then what the block has put there. -/
theorem reverse_pending (f : Frame) : f.pending.reverse = f.stack.toList.take f.untouched ++ f.outStack.toList := by
  simp [pending]

/-- What the block leaves in a slot of the stack is what is pending there, after the constructors. -/
theorem WellFormed.stackAfter_eq (h : f.WellFormed types later) (grown : TypeTable) (i : Nat) :
    f.stackAfter grown className i = f.afterConstructor grown className (f.resolve (f.pending.reverse.getD i .top)) := by
  have hlen : (f.stack.toList.take f.untouched).length = f.untouched := by
    simp [untouched]
  unfold stackAfter
  dsimp only
  rw [reverse_pending, List.getD_eq_getElem?_getD]
  by_cases hlt : i < f.untouched
  · have hsize : i < f.stack.size := Nat.lt_of_lt_of_le hlt (Nat.sub_le _ _)
    rw [if_pos hlt, List.getElem?_append_left (by rw [hlen]; exact hlt), List.getElem?_take,
      if_pos hlt, Array.getElem?_toList, ← Array.getD_eq_getD_getElem?]
    have hknown : (f.stack.getD i .top).Known types later 0 0 := by
      rw [Array.getD_eq_getD_getElem?, Array.getElem?_eq_getElem hsize]
      exact h.stack _ (Array.getElem_mem hsize)
    rw [resolve_of_known f hknown]
  · rw [if_neg hlt, List.getElem?_append_right (by rw [hlen]; exact Nat.le_of_not_lt hlt), hlen, Array.getElem?_toList,
      ← Array.getD_eq_getD_getElem?]

/-- The frame behind a block that is its only way in. -/
theorem WellFormed.leave (hw : f.WellFormed types later) (className : String) (h : Hierarchy) :
    ∃ locals stack grown, f.merge Frame.empty none className h types = (some true, entering locals stack, grown) ∧
      grown.Sound ∧ types.Extends grown ∧ (∀ t ∈ locals, t.Concrete grown) ∧ (∀ t ∈ stack, t.Concrete grown) ∧
      locals.toList.map (FrameType.named grown) =
        (List.range f.locals.size).map (fun i => f.value types className (f.current i)) ∧
      stack.toList.map (FrameType.named grown) = (f.pending.map (f.value types className)).reverse := by
  have hlocal : ∀ j < f.locals.size, ∀ grown : TypeTable, types.Extends grown → grown.Sound →
      (f.localAfter grown className j).2.Sound ∧ grown.Extends (f.localAfter grown className j).2 ∧
        (f.localAfter grown className j).1.Known (f.localAfter grown className j).2 [] 0 0 ∧
        (f.localAfter grown className j).1.settled.named (f.localAfter grown className j).2 =
          f.value types className (f.current j) := by
    intro j _ grown hg hs
    have hknown := hw.known_resolve (hw.known_current j)
    rw [hw.localAfter_eq, value, said, ← FrameType.named_of_extends hg (numbered_settled hknown.numbered)]
    exact hw.afterConstructor hg hs (hknown.mono hg fun e he => absurd he List.not_mem_nil)
  have hstack : ∀ j < f.heightAfter, ∀ grown : TypeTable, types.Extends grown → grown.Sound →
      (f.stackAfter grown className j).2.Sound ∧ grown.Extends (f.stackAfter grown className j).2 ∧
        (f.stackAfter grown className j).1.Known (f.stackAfter grown className j).2 [] 0 0 ∧
        (f.stackAfter grown className j).1.settled.named (f.stackAfter grown className j).2 =
          f.value types className (f.pending.reverse.getD j .top) := by
    intro j hj grown hg hs
    have hmem : f.pending.reverse.getD j .top ∈ f.pending := by
      have hlt : j < f.pending.reverse.length := by rwa [List.length_reverse, length_pending]
      rw [List.getD_eq_getElem?_getD, List.getElem?_eq_getElem hlt]
      exact List.mem_reverse.1 (List.getElem_mem hlt)
    have hknown := hw.known_resolve (hw.known_pending hmem)
    rw [hw.stackAfter_eq, value, said, ← FrameType.named_of_extends hg (numbered_settled hknown.numbered)]
    exact hw.afterConstructor hg hs (hknown.mono hg fun e he => absurd he List.not_mem_nil)
  obtain ⟨ls, lg, lsize, lchanged, lholds⟩ := joinSlots_replicate h f.locals.size true types hw.sound hlocal
  have hjoined := lchanged rfl
  rcases hlocals : joinSlots h (fun i types => f.localAfter types className i) f.locals.size 0
    (Array.replicate f.locals.size .unset) true types with ⟨locals, changed, grown⟩
  rw [hlocals] at ls lg lsize lholds hjoined
  dsimp only at ls lg lsize lholds hjoined
  subst hjoined
  obtain ⟨ss, sg, ssize, schanged, sholds⟩ := joinSlots_replicate h f.heightAfter true grown ls
    fun j hj grown' hg hs => hstack j hj grown' (lg.trans hg) hs
  have hjoined := schanged rfl
  rcases hstacked : joinSlots h (fun i types => f.stackAfter types className i) f.heightAfter 0
    (Array.replicate f.heightAfter .unset) true grown with ⟨stack, changed, grown'⟩
  rw [hstacked] at ss sg ssize sholds hjoined
  dsimp only at ss sg ssize sholds hjoined
  subst hjoined
  obtain ⟨lconcrete, lnamed⟩ := named_of_holds lsize fun j hj => (lholds j hj).mono sg
  obtain ⟨sconcrete, snamed⟩ := named_of_holds ssize sholds
  refine ⟨locals, stack, grown', ?_, ss, lg.trans sg, lconcrete, sconcrete, lnamed, ?_⟩
  · simp [merge, Frame.empty, hlocals, hstacked, entering]
  · rw [snamed, ← List.map_reverse]
    apply List.ext_getElem?
    intro j
    have hlen : f.pending.reverse.length = f.heightAfter := by rw [List.length_reverse, length_pending]
    by_cases hj : j < f.heightAfter
    · have hlt : j < f.pending.reverse.length := hlen ▸ hj
      rw [List.getElem?_map, List.getElem?_map, List.getElem?_range hj, List.getElem?_eq_getElem hlt, Option.map_some,
        Option.map_some, List.getD_eq_getElem?_getD, List.getElem?_eq_getElem hlt, Option.getD_some]
    · rw [List.getElem?_eq_none (by simp; omega), List.getElem?_eq_none (by rw [List.length_map, hlen]; omega)]

end Leaving

end Frame

end ClassFile
