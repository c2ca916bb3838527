import ClassFile.Proofs.TypeOrder

/-!
# Joining types

A type that joins a slot takes the slot up to a type above both, and a slot that is above the type already stays as it is.
The type table may grow meanwhile; it remembers common superclasses, which have to be those of the hierarchy.
-/

namespace ClassFile

namespace TypeTable

/-- A table that finds exactly its entries, and remembers the common superclasses of a hierarchy. -/
structure Consistent (h : Hierarchy) (types : TypeTable) : Prop where
  sound : types.Sound
  merged : ∀ i j k, types.merged[(i, j)]? = some k → ∃ a b, types.get? i = some a ∧ types.get? j = some b ∧
    types.get? k = some (.normal (h.commonSuperClass a.name b.name))

section Consistent

variable {h : Hierarchy} {types : TypeTable}

/-- The empty table is consistent with any classes. -/
theorem consistent_empty (h : Hierarchy) : Consistent h .empty :=
  ⟨sound_empty, fun i j k hk => by simp [empty] at hk⟩

/-- An entry more leaves the superclasses alone that the table remembers. -/
theorem merged_add (types : TypeTable) (e : TypeEntry) : (types.add e).2.merged = types.merged := by
  unfold add
  split <;> rfl

/-- An entry more leaves a table consistent. -/
theorem Consistent.add (hc : Consistent h types) (e : TypeEntry) : Consistent h (types.add e).2 := by
  obtain ⟨hs, hg, -⟩ := add_spec hc.sound e
  refine ⟨hs, fun i j k hk => ?_⟩
  rw [merged_add] at hk
  obtain ⟨a, b, ha, hb, hk⟩ := hc.merged i j k hk
  exact ⟨a, b, hg.get? ha, hg.get? hb, hg.get? hk⟩

/-- A number names what its entry names. -/
theorem name_eq {i : Nat} {e : TypeEntry} (hi : types.get? i = some e) : types.name i = e.name := by
  rw [name, hi]
  rfl

/-- Two classes meet at the number of a common superclass. -/
theorem Consistent.mergedType (hc : Consistent h types) {i j : Nat} {a b : TypeEntry} (hi : types.get? i = some a)
    (hj : types.get? j = some b) :
    ∃ k grown, types.mergedType h i j = (k, grown) ∧ Consistent h grown ∧ types.Extends grown ∧
      (grown.get? k = some (.normal (h.commonSuperClass a.name b.name)) ∨
        grown.get? k = some (.normal (h.commonSuperClass b.name a.name))) := by
  have hordered : ∃ x y, types.get? (min i j) = some x ∧ types.get? (max i j) = some y ∧
      (x = a ∧ y = b ∨ x = b ∧ y = a) := by
    by_cases hij : i ≤ j
    · exact ⟨a, b, by rwa [Nat.min_eq_left hij], by rwa [Nat.max_eq_right hij], Or.inl ⟨rfl, rfl⟩⟩
    · have hji := Nat.le_of_not_le hij
      exact ⟨b, a, by rwa [Nat.min_eq_right hji], by rwa [Nat.max_eq_left hji], Or.inr ⟨rfl, rfl⟩⟩
  obtain ⟨x, y, hx, hy, hxy⟩ := hordered
  have hnames : ∀ k (grown : TypeTable), grown.get? k = some (.normal (h.commonSuperClass x.name y.name)) →
      grown.get? k = some (.normal (h.commonSuperClass a.name b.name)) ∨
        grown.get? k = some (.normal (h.commonSuperClass b.name a.name)) := by
    intro k grown hk
    rcases hxy with ⟨rfl, rfl⟩ | ⟨rfl, rfl⟩
    · exact Or.inl hk
    · exact Or.inr hk
  unfold TypeTable.mergedType
  dsimp only
  cases hfound : types.merged[(min i j, max i j)]? with
  | some k =>
    obtain ⟨x', y', hx', hy', hk⟩ := hc.merged _ _ k hfound
    rw [hx] at hx'
    rw [hy] at hy'
    obtain rfl := Option.some.inj hx'
    obtain rfl := Option.some.inj hy'
    exact ⟨k, types, rfl, hc, Extends.refl types, hnames k types hk⟩
  | none =>
    rw [name_eq hx, name_eq hy]
    obtain ⟨hs, hg, hk⟩ := addNormal_spec hc.sound (h.commonSuperClass x.name y.name)
    refine ⟨_, _, rfl, ⟨hs, ?_⟩, hg, hnames _ _ hk⟩
    intro i' j' k' hk'
    dsimp only at hk'
    rw [Std.HashMap.getElem?_insert] at hk'
    split at hk'
    · rename_i heq
      obtain ⟨rfl, rfl⟩ := Prod.mk.inj (eq_of_beq heq)
      obtain rfl := Option.some.inj hk'
      exact ⟨x, y, hg.get? hx, hg.get? hy, hk⟩
    · rw [addNormal, merged_add] at hk'
      obtain ⟨a', b', ha', hb', hk'⟩ := hc.merged i' j' k' hk'
      exact ⟨a', b', hg.get? ha', hg.get? hb', hg.get? hk'⟩

/-- A table as it comes to be: entries are added, and common superclasses of two of them. -/
inductive Reached (h : Hierarchy) : TypeTable → Prop where
  | empty : Reached h .empty
  | add {types : TypeTable} (e : TypeEntry) : Reached h types → Reached h (types.add e).2
  | merge {types : TypeTable} {i j : Nat} : Reached h types → i < types.size → j < types.size →
      Reached h (types.mergedType h i j).2

/-- A table as it comes to be is consistent. -/
theorem Reached.consistent (hr : Reached h types) : Consistent h types := by
  induction hr with
  | empty => exact consistent_empty h
  | add e _ ih => exact ih.add e
  | merge _ hi hj ih =>
    obtain ⟨k, grown, hmerged, hc, -⟩ := ih.mergedType (Array.getElem?_eq_getElem hi) (Array.getElem?_eq_getElem hj)
    rwa [hmerged]

end Consistent

end TypeTable

namespace FrameType

/-- A type whose number, if it has one, is that of a class or of an allocated object of the table. -/
structure Listed (types : TypeTable) (t : FrameType) : Prop where
  normal : ∀ i, t.shape = .object i → ∃ name, types.get? i = some (.normal name)
  entry : ∀ i, t.shape = .uninitialized i → ∃ e, types.get? i = some e

/-- A type of a value that the table knows, whatever the input of a block is. -/
structure Meaningful (types : TypeTable) (t : FrameType) : Prop where
  concrete : t.shape.isConcrete = true
  normal : ∀ i, t.shape = .object i → ∃ name, types.get? i = some (.normal name)
  entry : ∀ i, t.shape = .uninitialized i → ∃ e, types.get? i = some e

/-- What a slot of a block that has been entered holds. -/
structure Held (types : TypeTable) (t : FrameType) : Prop extends Meaningful types t where
  settled : t.settled = t

section Held

variable {h : Hierarchy} {types grown : TypeTable} {s t : FrameType}

/-- The number of a type of the table stands for an entry. -/
theorem Listed.numbered (ht : t.Listed types) : t.Numbered types := by
  obtain ⟨d, s⟩ := t
  cases s with
  | object i => exact (ht.normal i rfl).imp' _ fun _ hname => hname
  | uninitialized i => exact ht.entry i rfl
  | _ => trivial

/-- A type of the table is one when the table has grown. -/
theorem Listed.mono (ht : t.Listed types) (hg : types.Extends grown) : t.Listed grown :=
  ⟨fun i hi => (ht.normal i hi).imp fun _ hname => hg.get? hname, fun i hi => (ht.entry i hi).imp fun _ he => hg.get? he⟩

/-- A type of the same shape is one of the table, whatever its dimensions. -/
theorem Listed.of_shape (ht : t.Listed types) (hs : s.shape = t.shape) : s.Listed types :=
  ⟨fun i hi => ht.normal i (hs ▸ hi), fun i hi => ht.entry i (hs ▸ hi)⟩

theorem listed_null : null.Listed types :=
  ⟨fun _ hi => (nomatch hi), fun _ hi => (nomatch hi)⟩

/-- A type of the table is one when it has settled. -/
theorem Listed.settled (ht : t.Listed types) : t.settled.Listed types := by
  unfold FrameType.settled
  split
  · exact listed_null
  · exact ht

/-- A type that means something is one of the table. -/
theorem Meaningful.listed (ht : t.Meaningful types) : t.Listed types :=
  ⟨ht.normal, ht.entry⟩

/-- The number of a type that means something stands for an entry. -/
theorem Meaningful.numbered (ht : t.Meaningful types) : t.Numbered types :=
  ht.listed.numbered

/-- A type that means something does so when the table has grown. -/
theorem Meaningful.mono (ht : t.Meaningful types) (hg : types.Extends grown) : t.Meaningful grown :=
  ⟨ht.concrete, fun i hi => (ht.normal i hi).imp fun _ hname => hg.get? hname,
    fun i hi => (ht.entry i hi).imp fun _ he => hg.get? he⟩

/-- What a slot holds it holds when the table has grown. -/
theorem Held.mono (ht : t.Held types) (hg : types.Extends grown) : t.Held grown :=
  ⟨ht.toMeaningful.mono hg, ht.settled⟩

/-- A type that means something is set. -/
theorem Meaningful.shape_ne_unset (ht : t.Meaningful types) : t.shape ≠ .unset := by
  intro e
  have := ht.concrete
  rw [e] at this
  cases this

/-- A type that means something can be held by a slot once it has settled. -/
theorem Meaningful.settled (ht : t.Meaningful types) : t.settled.Held types := by
  refine ⟨?_, settled_settled t⟩
  unfold FrameType.settled
  split
  · exact ⟨rfl, fun i hi => (nomatch hi), fun i hi => (nomatch hi)⟩
  · exact ht

/-- Types of one table that are one by name are one. -/
theorem Listed.eq_of_named (hs : types.Sound) (ht : t.Listed types) {u : FrameType} (hu : u.Listed types)
    (he : t.named types = u.named types) : t = u := by
  obtain ⟨d, x⟩ := t
  obtain ⟨d', y⟩ := u
  obtain ⟨rfl, hshape⟩ := NamedType.mk.inj he
  refine congrArg _ ?_
  cases x with
  | object i =>
    obtain ⟨name, hi⟩ := ht.normal i rfl
    cases y with
    | object j =>
      obtain ⟨name', hj⟩ := hu.normal j rfl
      have hname := NamedShape.object.inj hshape
      rw [TypeTable.name_eq hi, TypeTable.name_eq hj] at hname
      obtain rfl : name = name' := hname
      rw [hs.get?_inj hi hj]
    | _ => cases hshape
  | uninitialized i =>
    obtain ⟨e, hi⟩ := ht.entry i rfl
    cases y with
    | uninitialized j =>
      have hj : types.get? j = some e := (NamedShape.uninitialized.inj hshape).symm.trans hi
      rw [hs.get?_inj hi hj]
    | _ => cases hshape
  | _ =>
    cases y <;> cases hshape
    rfl

/-- Types that mean something are the same if they are so by name. -/
theorem Meaningful.eq_of_named (hs : types.Sound) (ht : t.Meaningful types) {u : FrameType} (hu : u.Meaningful types)
    (he : t.named types = u.named types) : t = u :=
  ht.listed.eq_of_named hs hu.listed he

/-- Whether a type is a class is seen from its name. -/
theorem isObject_named (types : TypeTable) (t : FrameType) : (t.named types).isObject = t.shape.isObject := by
  obtain ⟨d, s⟩ := t
  cases s <;> rfl

/-- Whether a type is a reference is seen from its name. -/
theorem isReference_named (types : TypeTable) (t : FrameType) : (t.named types).isReference = t.isReference := by
  rw [NamedType.isReference, isObject_named]
  rfl

/-- The array of objects to which a reference can be widened is seen from its name. -/
theorem widenedDims_named (types : TypeTable) (t : FrameType) : (t.named types).widenedDims = t.widenedDims := by
  rw [NamedType.widenedDims, isObject_named]
  rfl

/-- A class by its number and by its name. -/
theorem named_object {i : Nat} {name : String} (hi : types.get? i = some (.normal name)) (d : BitVec 4) :
    named types ⟨d, .object i⟩ = ⟨d, .object name⟩ := by
  rw [named, Shape.named, TypeTable.name_eq hi]
  rfl

/-- A slot can hold a class of the table, and arrays of it. -/
theorem held_object {i : Nat} {name : String} (hi : types.get? i = some (.normal name)) (d : BitVec 4) :
    Held types ⟨d, .object i⟩ := by
  refine ⟨⟨rfl, fun j hj => ?_, fun j hj => nomatch hj⟩, settled_of_ne fun e => nomatch e⟩
  obtain rfl := Shape.object.inj hj
  exact ⟨name, hi⟩

theorem listed_unset : unset.Listed types :=
  ⟨fun _ hi => (nomatch hi), fun _ hi => (nomatch hi)⟩

/-- A slot holds a type of a value, unless nothing is known of it. -/
theorem listed_of_slot (ht : t = unset ∨ t.Held types) : t.Listed types := by
  rcases ht with rfl | ht
  · exact listed_unset
  · exact ht.toMeaningful.listed

theorem held_top : Held types top :=
  ⟨⟨rfl, fun _ hi => (nomatch hi), fun _ hi => (nomatch hi)⟩, rfl⟩

/-! ## The join of two types -/

/-- The smaller of two numbers of dimensions is no greater than either. -/
theorem minDims_le (a b : BitVec 4) : (minDims a b).toInt ≤ a.toInt ∧ (minDims a b).toInt ≤ b.toInt := by
  unfold minDims
  split <;> omega

/-- A reference and another type join above both. -/
theorem mergeReference_spec (hg : h.Grounded) (hc : TypeTable.Consistent h types) (hs : s.Listed types) (ht : t.Listed types)
    (hr : s.isReference = true) :
    ∃ joined grown, mergeReference h types s t = (joined, grown) ∧ TypeTable.Consistent h grown ∧ types.Extends grown ∧
      joined.Held grown ∧ NamedType.Below h (s.named types) (joined.named grown) ∧
      NamedType.Below h (t.named types) (joined.named grown) := by
  unfold mergeReference
  split
  · rename_i hsame
    obtain ⟨d, x⟩ := s
    obtain ⟨d', y⟩ := t
    simp only [Bool.and_eq_true, beq_iff_eq] at hsame
    obtain ⟨⟨rfl, hy⟩, hx⟩ := hsame
    cases x with
    | object i =>
      cases y with
      | object j =>
        obtain ⟨a, hi⟩ := hs.normal i rfl
        obtain ⟨b, hj⟩ := ht.normal j rfl
        obtain ⟨k, grown, hmerged, hc', hext, hk⟩ := hc.mergedType hj hi
        refine ⟨_, grown,
          by rw [show Shape.index (.object j) = j from rfl, show Shape.index (.object i) = i from rfl, hmerged],
          hc', hext, ?_⟩
        rw [named_object hi, named_object hj]
        obtain ⟨name, hk, hname⟩ : ∃ name, grown.get? k = some (.normal name) ∧ h.Widens a name ∧ h.Widens b name := by
          rcases hk with hk | hk
          · exact ⟨_, hk, (hg.widens_common b a).2, (hg.widens_common b a).1⟩
          · exact ⟨_, hk, (hg.widens_common a b).1, (hg.widens_common a b).2⟩
        refine ⟨held_object hk d', ?_⟩
        rw [named_object hk]
        exact ⟨.widens hname.1, .widens hname.2⟩
      | _ => cases hy
    | _ => cases hx
  · split
    · rename_i hr'
      obtain ⟨hs', hext, hk⟩ := TypeTable.addNormal_spec hc.sound objectClass
      have hmin := minDims_le t.widenedDims s.widenedDims
      refine ⟨⟨minDims t.widenedDims s.widenedDims, .object (types.addNormal objectClass).1⟩,
        (types.addNormal objectClass).2,
        rfl, hc.add _, hext, held_object hk _, ?_⟩
      rw [named_object hk]
      refine ⟨.objects (by rwa [isReference_named]) (by rw [widenedDims_named]; exact hmin.2),
        .objects (by rwa [isReference_named]) (by rw [widenedDims_named]; exact hmin.1)⟩
    · exact ⟨_, types, rfl, hc, TypeTable.Extends.refl types, held_top, .top _, .top _⟩

/-- The null type is below what counts as null. -/
theorem below_settled (h : Hierarchy) (types : TypeTable) (t : FrameType) :
    NamedType.Below h (t.settled.named types) (t.named types) := by
  by_cases hnull : t.shape = .null
  · obtain ⟨d, x⟩ := t
    obtain rfl : x = .null := hnull
    by_cases hd : d = 0
    · subst hd
      exact .refl _
    · exact .null (by rw [isReference_named, isReference, bne_iff_ne.2 hd, Bool.or_true])
  · rw [settled_of_ne hnull]
    exact .refl _

/-- A slot is taken up to a type above what it held and above what joins it, or stays as it is. A slot of which nothing
is known takes what joins it. -/
theorem mergeInto_spec (hg : h.Grounded) (hc : TypeTable.Consistent h types) (hs : s.Listed types) (ht : t.Listed types) :
    ∃ joined grown, mergeInto h types s t = (joined, joined != s, grown) ∧ TypeTable.Consistent h grown ∧
      types.Extends grown ∧ joined.Listed grown ∧ (s ≠ unset → NamedType.Below h (s.named types) (joined.named grown)) ∧
      NamedType.Below h (t.settled.named types) (joined.named grown) ∧
      (s = unset ∨ s.Held types → t.Meaningful types → joined.Held grown) := by
  have hsettled : (if t.shape == .null then null else t) = t.settled := by simp [FrameType.settled]
  have hext := TypeTable.Extends.refl types
  unfold mergeInto
  split
  · rename_i he
    obtain rfl := eq_of_beq he
    refine ⟨s, types, by rw [bne_self_eq_false], hc, hext, hs, fun _ => .refl _, below_settled h types s,
      fun hheld hmeans => ?_⟩
    rcases hheld with rfl | hheld
    · exact absurd rfl hmeans.shape_ne_unset
    · exact hheld
  · dsimp only
    rw [hsettled]
    split
    · rename_i he
      have he := eq_of_beq he
      refine ⟨s, types, by rw [bne_self_eq_false], hc, hext, hs, fun _ => .refl _, ?_, fun _ hmeans => he ▸ hmeans.settled⟩
      rw [← he]
      exact .refl _
    · rename_i hne
      have hne : (t.settled != s) = true := bne_iff_ne.2 fun e => hne (beq_iff_eq.2 e.symm)
      split
      · rename_i hunset
        refine ⟨t.settled, types, by rw [hne], hc, hext, ht.settled, fun e => absurd (eq_of_beq hunset) e, .refl _,
          fun _ hmeans => hmeans.settled⟩
      · split
        · rename_i hr
          split
          · rename_i hunset hnull
            refine ⟨s, types, by rw [bne_self_eq_false], hc, hext, hs, fun _ => .refl _, ?_, fun hheld _ => ?_⟩
            · rw [eq_of_beq hnull]
              exact .null (by rwa [isReference_named])
            · exact hheld.resolve_left fun e => hunset (beq_iff_eq.2 e)
          · obtain ⟨joined, grown, hjoined, hc', hext', hheld, hbelow, hbelow'⟩ := mergeReference_spec hg hc hs ht.settled hr
            rw [hjoined]
            exact ⟨joined, grown, rfl, hc', hext', hheld.toMeaningful.listed, fun _ => hbelow, hbelow', fun _ _ => hheld⟩
        · split
          · rename_i hnull
            obtain ⟨hnull, hr⟩ := (Bool.and_eq_true _ _).mp hnull
            refine ⟨t.settled, types, by rw [hne], hc, hext, ht.settled, fun _ => ?_, .refl _,
              fun _ hmeans => hmeans.settled⟩
            rw [eq_of_beq hnull]
            exact .null (by rwa [isReference_named])
          · exact ⟨top, types, rfl, hc, hext, held_top.toMeaningful.listed, fun _ => .top _, .top _, fun _ _ => held_top⟩

/-- A reference that is above another one stays as it is when that joins it. -/
theorem mergeReference_of_below (hg : h.Grounded) (hobject : h.superClass objectClass = none)
    (hc : TypeTable.Consistent h types) (hs : s.Held types) (ht : t.Held types) (hr : s.isReference = true) (hne : t ≠ s)
    (hnull : t ≠ null) (hbelow : NamedType.Below h (t.named types) (s.named types)) :
    (mergeReference h types s t).1 = s := by
  have hne' : t.named types ≠ s.named types := fun e => hne (ht.eq_of_named hc.sound hs.toMeaningful e)
  have hnull' : t.named types ≠ .null := fun e =>
    hnull (ht.eq_of_named hc.sound ⟨rfl, fun i hi => (nomatch hi), fun i hi => (nomatch hi)⟩ e)
  obtain ⟨hr', hcases⟩ := hbelow.reference_cases hne' hnull' (by rwa [isReference_named])
  unfold mergeReference
  split
  · rename_i hsame
    obtain ⟨d, x⟩ := s
    obtain ⟨d', y⟩ := t
    simp only [Bool.and_eq_true, beq_iff_eq] at hsame
    obtain ⟨⟨rfl, hy⟩, hx⟩ := hsame
    cases x with
    | object i =>
      cases y with
      | object j =>
        obtain ⟨a, hi⟩ := hs.normal i rfl
        obtain ⟨b, hj⟩ := ht.normal j rfl
        rw [named_object hi, named_object hj] at hbelow
        have hcommon := hg.common_of_widens hobject (hbelow.widens_of_dims hg)
        obtain ⟨k, grown, hmerged, hc', hext, hk⟩ := hc.mergedType hj hi
        have hk : grown.get? k = some (.normal a) := by
          rcases hk with hk | hk
          · rw [hk]
            exact congrArg _ (congrArg _ hcommon.1)
          · rw [hk]
            exact congrArg _ (congrArg _ hcommon.2)
        rw [show Shape.index (.object j) = j from rfl, show Shape.index (.object i) = i from rfl, hmerged,
          hc'.sound.get?_inj hk (hext.get? hi)]
      | _ => cases hy
    | _ => cases hx
  · rename_i hsame
    rw [isReference_named] at hr'
    rw [if_pos hr']
    rcases hcases with ⟨hs', ht', hd⟩ | ⟨d, hs', hd⟩
    · rw [isObject_named] at hs' ht'
      exact absurd (by simp [hs', ht', show t.dims = s.dims from hd]) hsame
    · obtain ⟨d', x⟩ := s
      cases x with
      | object i =>
        obtain ⟨a, hi⟩ := hs.normal i rfl
        rw [named_object hi] at hs'
        obtain ⟨rfl, ha⟩ := NamedType.mk.inj hs'
        obtain rfl := NamedShape.object.inj ha
        obtain ⟨hs', hext, hk⟩ := TypeTable.addNormal_spec hc.sound objectClass
        have hmin : minDims t.widenedDims (widenedDims ⟨d', .object i⟩) = d' := by
          rw [widenedDims_named] at hd
          have hwidened : widenedDims ⟨d', .object i⟩ = d' := by simp [FrameType.widenedDims, Shape.isObject]
          rw [hwidened, minDims]
          split
          · exact BitVec.eq_of_toInt_eq (by omega)
          · rfl
        rw [hmin, objectArray]
        dsimp only
        rw [hs'.get?_inj hk (hext.get? hi)]
      | _ => cases hs'

/-- A slot that is above a type stays as it is when the type joins it. -/
theorem mergeInto_of_below (hg : h.Grounded) (hobject : h.superClass objectClass = none) (hc : TypeTable.Consistent h types)
    (hs : s.Held types) (ht : t.Meaningful types) (hbelow : NamedType.Below h (t.settled.named types) (s.named types)) :
    (mergeInto h types s t).1 = s ∧ (mergeInto h types s t).2.1 = false := by
  have hsame : (mergeInto h types s t).1 = s := by
    have hsettled : (if t.shape == .null then null else t) = t.settled := by simp [FrameType.settled]
    have hset : s.isUnset = false := by
      rw [isUnset, beq_eq_false_iff_ne]
      rintro rfl
      exact hs.shape_ne_unset rfl
    unfold mergeInto
    split
    · rfl
    · dsimp only
      rw [hsettled, hset, if_neg Bool.false_ne_true]
      split
      · rfl
      · rename_i hne
        have hne : t.settled ≠ s := fun e => hne (beq_iff_eq.2 e.symm)
        have hnamed : t.settled.named types ≠ s.named types := fun e =>
          hne (ht.settled.eq_of_named hc.sound hs.toMeaningful e)
        split
        · rename_i hr
          split
          · rfl
          · rename_i hnull
            exact mergeReference_of_below hg hobject hc hs ht.settled hr hne (fun e => hnull (beq_iff_eq.2 e)) hbelow
        · rename_i hr
          rcases hbelow.eq_or with e | e | e
          · exact absurd e hnamed
          · have hsnull : (s == null) = false := by
              rw [beq_eq_false_iff_ne]
              rintro rfl
              cases e
            rw [hsnull, Bool.false_and, if_neg Bool.false_ne_true]
            exact (hs.eq_of_named hc.sound held_top.toMeaningful e).symm
          · rw [isReference_named] at e
            exact absurd e hr
  obtain ⟨joined, grown, hjoined, -⟩ := mergeInto_spec hg hc hs.toMeaningful.listed ht.listed
  rw [hjoined] at hsame ⊢
  obtain rfl : joined = s := hsame
  exact ⟨rfl, bne_self_eq_false joined⟩

end Held

end FrameType

end ClassFile
