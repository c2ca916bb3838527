import ClassFile.Proofs.FrameTracking

/-!
# Types of two slots where paths meet

A slot holds a long or a double after a join only if that is what joined it, and held nothing else before. Once it holds
an object or no usable value, it never holds a long or a double again. Nothing is asked of the types, which may have lost
more dimensions than they had.
-/

namespace ClassFile

namespace FrameType

/-- Classes, arrays of them, and no usable value: a slot that holds one of these holds nothing of two slots from then on. -/
def Narrow (t : FrameType) : Prop :=
  t.shape.isObject = true ∨ t.shape = .top

/-- A long or a double under whatever dimensions. -/
def MadeWide (t : FrameType) : Prop :=
  t.shape = .long ∨ t.shape = .double

/-- What a slot may hold later on, as far as it goes for longs and doubles. -/
structure Becomes (t u : FrameType) : Prop where
  wide : t.MadeWide → u = t ∨ u.Narrow
  narrow : t.Narrow → u.Narrow
  top : t = top → u = top

/-- A slot holds what it may hold after another type has joined it. -/
structure Absorbs (slot t : FrameType) : Prop where
  wide : slot.isWide = true → t = slot ∨ t = unset
  unset : slot = unset → t = unset
  top : t = top → slot = top

/-- No usable value stands behind what is a long or a double at both times. -/
def Paired (earlier later : Nat → FrameType) : Prop :=
  ∀ i, (earlier i).isWide = true → later i = earlier i → later (i + 1) = top

section Joins

variable {h : Hierarchy} {types : TypeTable} {s t u slot incoming : FrameType}

/-- A long or a double is one whatever its dimensions. -/
theorem madeWide_of_isWide (ht : t.isWide = true) : t.MadeWide := by
  rcases Bool.or_eq_true_iff.1 ht with ht | ht
  · exact Or.inl (by rw [eq_of_beq ht]; rfl)
  · exact Or.inr (by rw [eq_of_beq ht]; rfl)

/-- What takes one slot for good is no long and no double. -/
theorem Narrow.not_madeWide (ht : t.Narrow) : ¬t.MadeWide := by
  rintro (hlong | hdouble)
  · rcases ht with ht | ht <;> rw [hlong] at ht <;> cases ht
  · rcases ht with ht | ht <;> rw [hdouble] at ht <;> cases ht

/-- What takes one slot for good takes one slot. -/
theorem Narrow.isWide (ht : t.Narrow) : t.isWide = false :=
  Bool.eq_false_of_not_eq_true fun hwide => ht.not_madeWide (madeWide_of_isWide hwide)

/-- What takes one slot for good is set. -/
theorem Narrow.ne_unset (ht : t.Narrow) : t ≠ unset := by
  rintro rfl
  rcases ht with ht | ht <;> cases ht

theorem narrow_top : top.Narrow :=
  Or.inr rfl

theorem Becomes.refl (t : FrameType) : t.Becomes t :=
  ⟨fun _ => Or.inl rfl, id, id⟩

/-- What a slot may hold later on it may hold after that. -/
theorem Becomes.trans (hst : s.Becomes t) (htu : t.Becomes u) : s.Becomes u := by
  refine ⟨fun hs => ?_, fun hs => htu.narrow (hst.narrow hs), fun hs => htu.top (hst.top hs)⟩
  rcases hst.wide hs with rfl | ht
  · exact htu.wide hs
  · exact Or.inr (htu.narrow ht)

/-- What held a long or a double and holds no other one, and not nothing at all, holds it still. -/
theorem eq_of_absorbs (hb : u = t ∨ u.Narrow) (ht : t.isWide = true) (ha : t.Absorbs u) : u = t :=
  hb.resolve_right fun hnarrow => hnarrow.not_madeWide
    (madeWide_of_isWide ((ha.wide ht).resolve_right hnarrow.ne_unset ▸ ht))

/-! ## Joins -/

/-- Where references meet, the slot holds one or nothing usable. -/
theorem narrow_mergeReference (h : Hierarchy) (types : TypeTable) (slot incoming : FrameType) :
    (mergeReference h types slot incoming).1.Narrow ∧ (incoming = top → (mergeReference h types slot incoming).1 = top) := by
  unfold mergeReference
  split
  · rename_i hobjects
    refine ⟨Or.inl rfl, ?_⟩
    rintro rfl
    simp [top, Shape.isObject] at hobjects
  · split
    · rename_i hreference
      refine ⟨Or.inl rfl, ?_⟩
      rintro rfl
      cases hreference
    · exact ⟨narrow_top, fun _ => rfl⟩

/-- The type after a join is the one before, the one that joins, or one that is never wide again. -/
theorem mergeInto_cases (h : Hierarchy) (types : TypeTable) (slot incoming : FrameType) :
    let joined := (mergeInto h types slot incoming).1
    joined = slot ∧ (incoming.settled = slot ∨ incoming = slot ∨ slot.isReference = true ∧ incoming.settled = null) ∨
      joined = incoming.settled ∧ (slot = unset ∨ slot = null ∧ incoming.settled.isReference = true) ∨
      joined.Narrow ∧ slot ≠ unset ∧ (slot = top ∨ incoming.settled = top → joined = top) := by
  have hsettled : (if incoming.shape == .null then null else incoming) = incoming.settled := by
    unfold settled
    split <;> simp_all
  dsimp only
  unfold mergeInto
  rw [hsettled]
  split
  · rename_i heq
    exact Or.inl ⟨rfl, Or.inr (Or.inl (eq_of_beq heq).symm)⟩
  · dsimp only
    split
    · rename_i heq
      exact Or.inl ⟨rfl, Or.inl (eq_of_beq heq).symm⟩
    · split
      · rename_i hunset
        exact Or.inr (Or.inl ⟨rfl, Or.inl (eq_of_beq hunset)⟩)
      · rename_i hset
        have hne : slot ≠ unset := fun heq => hset (beq_iff_eq.2 heq)
        split
        · rename_i hreference
          split
          · rename_i hnull
            exact Or.inl ⟨rfl, Or.inr (Or.inr ⟨hreference, eq_of_beq hnull⟩)⟩
          · obtain ⟨hnarrow, htop⟩ := narrow_mergeReference h types slot incoming.settled
            refine Or.inr (Or.inr ⟨hnarrow, hne, ?_⟩)
            rintro (rfl | hincoming)
            · cases hreference
            · exact htop hincoming
        · split
          · rename_i hnull
            obtain ⟨hslot, hincoming⟩ := Bool.and_eq_true_iff.1 hnull
            exact Or.inr (Or.inl ⟨rfl, Or.inr ⟨eq_of_beq hslot, hincoming⟩⟩)
          · exact Or.inr (Or.inr ⟨narrow_top, hne, fun _ => rfl⟩)

/-- A join that is said to change nothing does not. -/
theorem mergeInto_unchanged (h : Hierarchy) (types : TypeTable) (slot incoming : FrameType) :
    (mergeInto h types slot incoming).2.1 = false → (mergeInto h types slot incoming).1 = slot := by
  have hjoined : ∀ joined : FrameType, (joined != slot) = false → joined = slot := fun joined hsame => by simpa using hsame
  unfold mergeInto
  generalize (if incoming.shape == .null then null else incoming) = settled
  dsimp only
  split
  · exact fun _ => rfl
  · split
    · exact fun _ => rfl
    · split
      · exact fun hsame => (nomatch hsame)
      · split
        · split
          · exact fun _ => rfl
          · exact hjoined _
        · split
          · exact fun hsame => (nomatch hsame)
          · exact hjoined _

/-- Only the null type settles as another one. -/
theorem eq_of_settled_eq (hs : t.settled = s) (hne : s ≠ null) : t = s := by
  unfold settled at hs
  split at hs
  · exact absurd hs.symm hne
  · exact hs

/-- The null type takes one slot. -/
theorem ne_null_of_isWide (ht : t.isWide = true) : t ≠ null := by
  rintro rfl
  cases ht

/-- What is a long or a double after a join has joined the slot, which held the same or nothing. -/
theorem eq_of_mergeInto_isWide (hwide : (mergeInto h types slot incoming).1.isWide = true) :
    incoming = (mergeInto h types slot incoming).1 ∧ (slot = (mergeInto h types slot incoming).1 ∨ slot = unset) := by
  have hne := ne_null_of_isWide hwide
  have hreference : (mergeInto h types slot incoming).1.isReference = false := by
    rcases Bool.or_eq_true_iff.1 hwide with hw | hw <;> rw [eq_of_beq hw] <;> rfl
  rcases mergeInto_cases h types slot incoming with ⟨hsame, hincoming⟩ | ⟨hjoined, hslot⟩ | ⟨hnarrow, -, -⟩
  · rw [hsame] at hne hreference ⊢
    refine ⟨?_, Or.inl rfl⟩
    rcases hincoming with hincoming | hincoming | ⟨hslot, -⟩
    · exact eq_of_settled_eq hincoming hne
    · exact hincoming
    · exact absurd (hslot.symm.trans hreference) (by decide)
  · refine ⟨eq_of_settled_eq hjoined.symm hne, ?_⟩
    rcases hslot with hslot | ⟨-, hincoming⟩
    · exact Or.inr hslot
    · rw [hjoined] at hreference
      exact absurd (hincoming.symm.trans hreference) (by decide)
  · exact absurd (madeWide_of_isWide hwide) hnarrow.not_madeWide

/-- A slot of which nothing is known after a join has been joined by nothing. -/
theorem eq_unset_of_mergeInto (hunset : (mergeInto h types slot incoming).1 = unset) : incoming = unset ∧ slot = unset := by
  rcases mergeInto_cases h types slot incoming with ⟨hsame, hincoming⟩ | ⟨hjoined, hslot⟩ | ⟨hnarrow, -, -⟩
  · obtain rfl := hsame.symm.trans hunset
    refine ⟨?_, rfl⟩
    rcases hincoming with hincoming | hincoming | ⟨hslot, -⟩
    · exact eq_of_settled_eq hincoming (by decide)
    · exact hincoming
    · cases hslot
  · have hincoming : incoming.settled = unset := hjoined.symm.trans hunset
    refine ⟨eq_of_settled_eq hincoming (by decide), ?_⟩
    rcases hslot with hslot | ⟨-, hreference⟩
    · exact hslot
    · rw [hincoming] at hreference
      cases hreference
  · exact absurd hunset hnarrow.ne_unset

/-- No usable value stays where it has been, or has joined. -/
theorem mergeInto_eq_top (htop : slot = top ∨ incoming = top) : (mergeInto h types slot incoming).1 = top := by
  have hincoming : incoming = top → incoming.settled = top := by
    rintro rfl
    rfl
  rcases mergeInto_cases h types slot incoming with ⟨hsame, hsays⟩ | ⟨hjoined, hslot⟩ | ⟨-, -, hnarrow⟩
  · rw [hsame]
    rcases htop with htop | rfl
    · exact htop
    · rcases hsays with hsays | hsays | ⟨-, hsays⟩
      · exact hsays.symm
      · exact hsays.symm
      · cases hsays
  · rw [hjoined]
    rcases htop with rfl | htop
    · rcases hslot with hslot | ⟨hslot, -⟩ <;> cases hslot
    · exact hincoming htop
  · exact hnarrow (htop.imp_right hincoming)

/-- A slot goes on to what a join makes of it. -/
theorem becomes_mergeInto (h : Hierarchy) (types : TypeTable) (slot incoming : FrameType) :
    slot.Becomes (mergeInto h types slot incoming).1 := by
  refine ⟨fun hwide => ?_, fun hnarrow => ?_, fun htop => mergeInto_eq_top (Or.inl htop)⟩
  all_goals rcases mergeInto_cases h types slot incoming with ⟨hsame, -⟩ | ⟨-, hslot⟩ | ⟨hnever, -, -⟩
  · exact Or.inl hsame
  · rcases hslot with rfl | ⟨rfl, -⟩ <;> rcases hwide with hwide | hwide <;> cases hwide
  · exact Or.inr hnever
  · rwa [hsame]
  · rcases hslot with rfl | ⟨rfl, -⟩ <;> rcases hnarrow with hnarrow | hnarrow <;> cases hnarrow
  · exact hnever

/-- No usable value takes in anything. -/
theorem absorbs_of_top (t : FrameType) : top.Absorbs t :=
  ⟨fun hwide => (nomatch hwide), fun hunset => (nomatch congrArg shape hunset), fun _ => rfl⟩

/-- After a type has joined it, a slot holds what it may hold. -/
theorem absorbs_mergeInto (h : Hierarchy) (types : TypeTable) (slot incoming : FrameType) :
    (mergeInto h types slot incoming).1.Absorbs incoming :=
  ⟨fun hwide => Or.inl (eq_of_mergeInto_isWide hwide).1, fun hunset => (eq_unset_of_mergeInto hunset).1,
    fun htop => mergeInto_eq_top (Or.inr htop)⟩

/-- What has joined a slot stays in it when something else joins. -/
theorem Absorbs.mergeInto (ha : slot.Absorbs t) (h : Hierarchy) (types : TypeTable) (incoming : FrameType) :
    (FrameType.mergeInto h types slot incoming).1.Absorbs t := by
  refine ⟨fun hwide => ?_, fun hunset => ha.unset (eq_unset_of_mergeInto hunset).2,
    fun htop => mergeInto_eq_top (Or.inl (ha.top htop))⟩
  rcases (eq_of_mergeInto_isWide hwide).2 with hslot | hslot
  · rw [← hslot] at hwide ⊢
    exact ha.wide hwide
  · exact Or.inr (ha.unset hslot)

end Joins

end FrameType

end ClassFile
