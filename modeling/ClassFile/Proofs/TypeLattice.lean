import ClassFile.Proofs.TypeJoin
import Mathlib.Logic.Relation

/-!
# The lattice of types

Types by name are ordered by a few steps up: to a superclass, from an array to arrays of objects with fewer dimensions, from
the null type to any reference, and from anything to the type of no usable value. What a slot becomes when a type joins it
is, by name, the least type above both, whatever else the type table holds and in whatever order it was filled.
-/

namespace ClassFile

namespace FrameType

/-- What is no greater than two numbers of dimensions is no greater than the smaller one. -/
theorem le_minDims {a b d : BitVec 4} (ha : d.toInt ≤ a.toInt) (hb : d.toInt ≤ b.toInt) :
    d.toInt ≤ (minDims a b).toInt := by
  unfold minDims
  split
  · exact ha
  · exact hb

/-- The smaller of two numbers of dimensions does not depend on their order. -/
theorem minDims_comm (a b : BitVec 4) : minDims a b = minDims b a := by
  unfold minDims
  split
  · split
    · exact BitVec.eq_of_toInt_eq (by omega)
    · rfl
  · rw [if_pos (by omega)]

end FrameType

/-- Whether a shape is that of elements of an array. -/
def NamedShape.isElement : NamedShape → Bool
  | .plain s => FrameType.isElement s
  | .object _ => true
  | .uninitialized _ => false

namespace NamedType

/-- Dimensions as types of methods have them: up to seven, and none over what no array holds. -/
def Dimensioned (t : NamedType) : Prop :=
  t.dims = 0 ∨ t.shape.isElement = true ∧ t.dims.toNat ≤ FrameType.maxDimensions

/-- What the order of types is generated by: everything is below the type of no usable value, the null type is below
references, classes and arrays of them are below those of the superclass and of the class of all objects, and arrays are
below those of objects with fewer dimensions. -/
inductive Step (h : Hierarchy) : NamedType → NamedType → Prop where
  | top (t : NamedType) : Step h t top
  | null {t : NamedType} : t.isReference = true → Step h null t
  | superClass (d : BitVec 4) {a b : String} : h.superClass a = some b → Step h ⟨d, .object a⟩ ⟨d, .object b⟩
  | object (d : BitVec 4) (a : String) : Step h ⟨d, .object a⟩ (objects d)
  | array {t : NamedType} {d : BitVec 4} : 0 ≤ d.toInt → d.toInt < t.dims.toInt → Step h t (objects d)

/-- The order of types. -/
def Under (h : Hierarchy) : NamedType → NamedType → Prop :=
  Relation.ReflTransGen (Step h)

/-- The reference in which two references meet. -/
def meet (h : Hierarchy) : NamedType → NamedType → NamedType
  | ⟨d, .object a⟩, ⟨e, .object b⟩ =>
    if d = e then ⟨d, .object (h.commonSuperClass a b)⟩ else objects (FrameType.minDims d e)
  | s, t => objects (FrameType.minDims s.widenedDims t.widenedDims)

/-- The type in which two types meet. -/
def join (h : Hierarchy) (s t : NamedType) : NamedType :=
  if s = t then s
  else if s = null ∧ t.isReference = true then t
  else if t = null ∧ s.isReference = true then s
  else if s.isReference = true ∧ t.isReference = true then meet h s t
  else top

section Order

variable {h : Hierarchy} {r s t u : NamedType}

/-- One dimension less is still more than fewer dimensions, as long as there are some. -/
theorem toInt_le_pred {d e : BitVec 4} : 0 ≤ d.toInt → d.toInt < e.toInt → d.toInt ≤ (e - 1).toInt := by
  decide +revert

/-- A step goes up. -/
theorem Step.below (hg : h.Grounded) (hs : Step h s t) : Below h s t := by
  cases hs with
  | top => exact .top s
  | null hr => exact .null hr
  | @superClass d a b hab =>
    refine .widens (Or.inl ?_)
    rw [(Hierarchy.Chain.next hab (hg.chain b)).lineage_eq]
    exact List.mem_cons_of_mem a (hg.chain b).head_mem
  | object d a => exact .widens (Or.inr rfl)
  | @array _ d hd hlt =>
    have hdims : s.dims ≠ 0 := by
      intro e
      rw [e] at hlt
      exact absurd hlt (Int.not_lt.2 hd)
    refine .objects (by rw [isReference, bne_iff_ne.2 hdims, Bool.or_true]) ?_
    unfold widenedDims
    split
    · exact Int.le_of_lt hlt
    · exact toInt_le_pred hd hlt

/-- What is under a type in the order of types is absorbed by a slot that holds it. -/
theorem Under.below (hg : h.Grounded) (hobject : h.superClass objectClass = none) (hs : Under h s t) : Below h s t := by
  induction hs with
  | refl => exact .refl s
  | tail _ hstep ih => exact ih.trans hg hobject (hstep.below hg)

/-- Classes are under those on their chains. -/
theorem under_of_chain {d : BitVec 4} {a b : String} {l : List String} (hl : h.Chain a l) (hb : b ∈ l) :
    Under h ⟨d, .object a⟩ ⟨d, .object b⟩ := by
  induction hl with
  | last =>
    obtain rfl := List.mem_singleton.1 hb
    exact .refl
  | next hsome _ ih =>
    rcases List.mem_cons.1 hb with rfl | hb
    · exact .refl
    · exact .head (.superClass d hsome) (ih hb)

/-- Up to seven dimensions are no negative number. -/
theorem toInt_nonneg {d : BitVec 4} (hd : d.toNat ≤ FrameType.maxDimensions) : 0 ≤ d.toInt := by
  revert hd
  decide +revert

/-- Dimensions that are no more than one less than others are less. -/
theorem toInt_lt_of_le_pred {d e : BitVec 4} : 0 ≤ d.toInt → e ≠ 0 → e.toNat ≤ FrameType.maxDimensions →
    d.toInt ≤ (e - 1).toInt → d.toInt < e.toInt := by
  decide +revert

/-- Between types of methods, the order is generated by its steps. -/
theorem Below.under (hg : h.Grounded) (hs : s.Dimensioned) (ht : t.Dimensioned) (hbelow : Below h s t) : Under h s t := by
  cases hbelow with
  | refl => exact .refl
  | top => exact .single (.top s)
  | null hr => exact .single (.null hr)
  | @widens d a b hab =>
    rcases hab with hab | rfl
    · exact under_of_chain (hg.chain a) hab
    · exact .single (.object d a)
  | @objects _ d hr hd =>
    have hnonneg : 0 ≤ d.toInt := by
      rcases ht with ht | ⟨-, ht⟩
      · rw [show d = 0 from ht]
        decide
      · exact toInt_nonneg ht
    obtain ⟨e, x⟩ := s
    cases x with
    | object a =>
      rw [widenedDims_object] at hd
      by_cases hde : d = e
      · subst hde
        exact .single (.object d a)
      · refine .single (.array hnonneg (Int.lt_iff_le_and_ne.2 ⟨hd, fun heq => hde (BitVec.eq_of_toInt_eq heq)⟩))
    | plain x =>
      have he : e ≠ 0 := by
        rintro rfl
        cases hr
      have hle := (hs.resolve_left he).2
      rw [widenedDims, if_neg (by simpa [isObject] using he)] at hd
      exact .single (.array hnonneg (toInt_lt_of_le_pred hnonneg he hle hd))
    | uninitialized x =>
      exact absurd (hs.resolve_left fun e => by subst e; cases hr).1 Bool.false_ne_true

/-! ## The least upper bound -/

/-- Two classes meet in their nearest common superclass. -/
theorem meet_of_object (h : Hierarchy) (d : BitVec 4) (a b : String) :
    meet h ⟨d, .object a⟩ ⟨d, .object b⟩ = ⟨d, .object (h.commonSuperClass a b)⟩ :=
  if_pos rfl

/-- References that are not classes under the same dimensions meet at an array of objects. -/
theorem meet_of_not (hne : ¬(s.isObject = true ∧ t.isObject = true ∧ s.dims = t.dims)) :
    meet h s t = objects (FrameType.minDims s.widenedDims t.widenedDims) := by
  unfold meet
  split
  · rename_i d a e b
    rw [if_neg fun hde => hne ⟨rfl, rfl, hde⟩, widenedDims_object, widenedDims_object]
  · rfl

/-- What stands above a type that is not a reference and not the null type. -/
theorem Below.eq_or_top (hbelow : Below h s t) (hr : ¬s.isReference = true) (hnull : s ≠ .null) : t = s ∨ t = .top := by
  cases hbelow with
  | refl => exact Or.inl rfl
  | top => exact Or.inr rfl
  | null => exact absurd rfl hnull
  | widens => exact absurd rfl hr
  | objects hs => exact absurd hs hr

/-- Nothing but the type of no usable value is above two types of which one is not a reference. -/
theorem Below.eq_top_of_not (hsu : Below h s u) (hr : ¬s.isReference = true) (hne : s ≠ t)
    (hnull : ¬(s = .null ∧ t.isReference = true)) (htu : Below h t u) : u = .top := by
  by_cases hs : s = .null
  · subst hs
    have ht : ¬t.isReference = true := fun ht => hnull ⟨rfl, ht⟩
    rcases htu.eq_or_top ht (Ne.symm hne) with rfl | rfl
    · rcases hsu.eq_or with e | e | e
      · exact absurd e hne
      · exact e
      · exact absurd e ht
    · rfl
  · rcases hsu.eq_or_top hr hs with rfl | rfl
    · rcases htu.eq_or with e | e | e
      · exact absurd e.symm hne
      · exact e
      · exact absurd e hr
    · rfl

/-- A reference below arrays of objects can be widened to them. -/
theorem Below.le_widenedDims {d : BitVec 4} (hbelow : Below h s (.objects d)) (hr : s.isReference = true) :
    d.toInt ≤ s.widenedDims.toInt := by
  generalize ht : NamedType.objects d = t at hbelow
  cases hbelow with
  | refl =>
    subst ht
    exact Int.le_of_eq (by rw [NamedType.objects, widenedDims_object])
  | top => cases ht
  | null => cases hr
  | widens =>
    obtain ⟨rfl, -⟩ := NamedType.mk.inj ht
    exact Int.le_of_eq (by rw [widenedDims_object])
  | objects _ hd =>
    obtain ⟨rfl, -⟩ := NamedType.mk.inj ht
    exact hd

/-- Above a class there are classes under the same dimensions to which it can be widened, and arrays of objects. -/
theorem Below.object_cases {d : BitVec 4} {a : String} (hg : h.Grounded) (hbelow : Below h ⟨d, .object a⟩ u) :
    u = .top ∨ (∃ c, u = ⟨d, .object c⟩ ∧ h.Widens a c) ∨ ∃ e, u = .objects e := by
  generalize hs : (⟨d, .object a⟩ : NamedType) = s at hbelow
  cases hbelow with
  | refl => exact Or.inr (Or.inl ⟨a, hs.symm, hg.widens_refl a⟩)
  | top => exact Or.inl rfl
  | null => cases hs
  | @widens _ _ c hac =>
    cases hs
    exact Or.inr (Or.inl ⟨c, rfl, hac⟩)
  | objects => exact Or.inr (Or.inr ⟨_, rfl⟩)

/-- Above references that are not classes under the same dimensions there are only arrays of objects. -/
theorem Below.eq_objects (hs : s.isReference = true) (ht : t.isReference = true) (hne : s ≠ t)
    (hsame : ¬(s.isObject = true ∧ t.isObject = true ∧ s.dims = t.dims)) (hsu : Below h s u) (htu : Below h t u) :
    u = .top ∨ ∃ d, u = .objects d := by
  have hnull : ∀ r : NamedType, r.isReference = true → r ≠ .null := by
    rintro _ hr rfl
    cases hr
  cases hsu with
  | refl =>
    obtain ⟨-, hclass | ⟨d, hd, -⟩⟩ := htu.reference_cases (Ne.symm hne) (hnull t ht) hs
    · exact absurd ⟨hclass.2.1, hclass.1, hclass.2.2.symm⟩ hsame
    · exact Or.inr ⟨d, hd⟩
  | top => exact Or.inl rfl
  | null => cases hs
  | @widens d a c hac =>
    by_cases hu : t = ⟨d, .object c⟩
    · exact absurd ⟨rfl, by rw [hu]; rfl, by rw [hu]⟩ hsame
    · obtain ⟨-, hclass | ⟨d, hd, -⟩⟩ := htu.reference_cases hu (hnull t ht) rfl
      · exact absurd ⟨rfl, hclass.1, hclass.2.2.symm⟩ hsame
      · exact Or.inr ⟨d, hd⟩
  | objects => exact Or.inr ⟨_, rfl⟩

/-- Two references are below the one in which they meet. -/
theorem meet_upper (hg : h.Grounded) (hs : s.isReference = true) (ht : t.isReference = true) :
    Below h s (meet h s t) ∧ Below h t (meet h s t) := by
  by_cases hsame : s.isObject = true ∧ t.isObject = true ∧ s.dims = t.dims
  · obtain ⟨d, x⟩ := s
    obtain ⟨e, y⟩ := t
    obtain ⟨hx, hy, rfl⟩ := hsame
    cases x <;> cases hx
    cases y <;> cases hy
    rw [meet_of_object]
    exact ⟨.widens (hg.widens_common _ _).1, .widens (hg.widens_common _ _).2⟩
  · rw [meet_of_not hsame]
    have hmin := FrameType.minDims_le s.widenedDims t.widenedDims
    exact ⟨.objects hs hmin.1, .objects ht hmin.2⟩

/-- Whatever two references are below, the one in which they meet is below. -/
theorem meet_least (hg : h.Grounded) (hs : s.isReference = true) (ht : t.isReference = true) (hne : s ≠ t)
    (hsu : Below h s u) (htu : Below h t u) : Below h (meet h s t) u := by
  by_cases hsame : s.isObject = true ∧ t.isObject = true ∧ s.dims = t.dims
  · obtain ⟨d, x⟩ := s
    obtain ⟨e, y⟩ := t
    obtain ⟨hx, hy, rfl⟩ := hsame
    cases x <;> cases hx
    cases y <;> cases hy
    rw [meet_of_object]
    rcases hsu.object_cases hg with rfl | ⟨c, rfl, hac⟩ | ⟨e, rfl⟩
    · exact .top _
    · exact .widens (hg.widens_of_common hac (htu.widens_of_dims hg))
    · have hd := hsu.le_widenedDims rfl
      rw [widenedDims_object] at hd
      exact .objects rfl (by rwa [widenedDims_object])
  · rw [meet_of_not hsame]
    rcases Below.eq_objects hs ht hne hsame hsu htu with rfl | ⟨d, rfl⟩
    · exact .top _
    · refine .objects rfl ?_
      rw [objects, widenedDims_object]
      exact FrameType.le_minDims (hsu.le_widenedDims hs) (htu.le_widenedDims ht)

/-- Two types are below the type in which they meet. -/
theorem join_upper (hg : h.Grounded) (s t : NamedType) : Below h s (join h s t) ∧ Below h t (join h s t) := by
  unfold join
  split
  · rename_i hst
    subst hst
    exact ⟨.refl s, .refl s⟩
  · split
    · rename_i hnull
      obtain ⟨rfl, hr⟩ := hnull
      exact ⟨.null hr, .refl t⟩
    · split
      · rename_i hnull
        obtain ⟨rfl, hr⟩ := hnull
        exact ⟨.refl s, .null hr⟩
      · split
        · rename_i hr
          exact meet_upper hg hr.1 hr.2
        · exact ⟨.top s, .top t⟩

/-- The type in which two types meet is below whatever both are below. -/
theorem join_least (hg : h.Grounded) (hsu : Below h s u) (htu : Below h t u) : Below h (join h s t) u := by
  unfold join
  split
  · exact hsu
  · rename_i hne
    split
    · exact htu
    · rename_i hsnull
      split
      · exact hsu
      · rename_i htnull
        split
        · rename_i hr
          exact meet_least hg hr.1 hr.2 hne hsu htu
        · rename_i hr
          rw [not_and_or] at hr
          rcases hr with hr | hr
          · rw [hsu.eq_top_of_not hr hne hsnull htu]
            exact .top _
          · rw [htu.eq_top_of_not hr (Ne.symm hne) htnull hsu]
            exact .top _

/-- The array of objects to which a reference can be widened has no more than seven dimensions. -/
theorem Dimensioned.widenedDims_le (hs : s.Dimensioned) : s.widenedDims.toNat ≤ FrameType.maxDimensions := by
  have hpred : ∀ d : BitVec 4, d ≠ 0 → d.toNat ≤ FrameType.maxDimensions → (d - 1).toNat ≤ FrameType.maxDimensions := by
    decide
  unfold widenedDims
  rcases hs with hd | ⟨-, hle⟩
  · rw [hd]
    exact Nat.zero_le _
  · split
    · exact hle
    · rename_i hne
      exact hpred s.dims (fun e => hne (by rw [e]; rfl)) hle

/-- The dimensions stay in their range where two references meet. -/
theorem Dimensioned.meet (hs : s.Dimensioned) (ht : t.Dimensioned) : (meet h s t).Dimensioned := by
  by_cases hsame : s.isObject = true ∧ t.isObject = true ∧ s.dims = t.dims
  · obtain ⟨d, x⟩ := s
    obtain ⟨e, y⟩ := t
    obtain ⟨hx, hy, rfl⟩ := hsame
    cases x <;> cases hx
    cases y <;> cases hy
    rw [meet_of_object]
    exact hs
  · rw [meet_of_not hsame]
    refine Or.inr ⟨rfl, ?_⟩
    change (FrameType.minDims s.widenedDims t.widenedDims).toNat ≤ _
    unfold FrameType.minDims
    split
    · exact hs.widenedDims_le
    · exact ht.widenedDims_le

/-- Dimensions keep to their range where types meet. -/
theorem Dimensioned.join (hs : s.Dimensioned) (ht : t.Dimensioned) : (join h s t).Dimensioned := by
  unfold NamedType.join
  split
  · exact hs
  · split
    · exact ht
    · split
      · exact hs
      · split
        · exact hs.meet ht
        · exact Or.inl rfl

end Order

/-! ## Laws -/

section Laws

variable {h : Hierarchy} {r s t : NamedType}

/-- A type that meets itself stays as it is. -/
theorem join_self (h : Hierarchy) (s : NamedType) : join h s s = s :=
  if_pos rfl

/-- In which type two types meet does not depend on their order. -/
theorem join_comm (hg : h.Grounded) (hobject : h.superClass objectClass = none) (s t : NamedType) :
    join h s t = join h t s :=
  Below.antisymm hg hobject (join_least hg (join_upper hg t s).2 (join_upper hg t s).1)
    (join_least hg (join_upper hg s t).2 (join_upper hg s t).1)

/-- In which type three types meet does not depend on which two meet first. -/
theorem join_assoc (hg : h.Grounded) (hobject : h.superClass objectClass = none) (r s t : NamedType) :
    join h (join h r s) t = join h r (join h s t) := by
  have hrs := join_upper hg r s
  have hst := join_upper hg s t
  have hleft := join_upper hg (join h r s) t
  have hright := join_upper hg r (join h s t)
  refine Below.antisymm hg hobject ?_ ?_
  · exact join_least hg (join_least hg hright.1 (hst.1.trans hg hobject hright.2)) (hst.2.trans hg hobject hright.2)
  · exact join_least hg (hrs.1.trans hg hobject hleft.1) (join_least hg (hrs.2.trans hg hobject hleft.1) hleft.2)

end Laws

end NamedType

/-- The common superclass of two classes does not depend on their order. -/
theorem Hierarchy.Grounded.common_comm {h : Hierarchy} (hg : h.Grounded) (hobject : h.superClass objectClass = none)
    (a b : String) :
    h.commonSuperClass a b = h.commonSuperClass b a := by
  have hwidens : ∀ a b, h.Widens (h.commonSuperClass a b) (h.commonSuperClass b a) := fun a b =>
    hg.widens_of_common (hg.widens_common b a).2 (hg.widens_common b a).1
  have hsame := NamedType.Below.antisymm hg hobject (.widens (d := 0) (hwidens a b)) (.widens (hwidens b a))
  exact NamedShape.object.inj (NamedType.mk.inj hsame).2

namespace FrameType

/-- A type of a value as methods have them. -/
structure Regular (types : TypeTable) (t : FrameType) : Prop extends Meaningful types t where
  dimensioned : (t.named types).Dimensioned

section Join

variable {h : Hierarchy} {types grown : TypeTable} {s t : FrameType}

/-- A slot can hold any type of a value as methods have them. -/
theorem Regular.held (ht : t.Regular types) : t.Held types := by
  refine ⟨ht.toMeaningful, ?_⟩
  unfold FrameType.settled
  split
  · rename_i hnull
    obtain ⟨d, x⟩ := t
    obtain rfl : x = .null := hnull
    rcases ht.dimensioned with hd | ⟨he, -⟩
    · exact congrArg (FrameType.mk · .null) hd.symm
    · cases he
  · rfl

/-- What is no reference leaves nothing usable where a reference meets it. -/
theorem mergeReference_of_not (h : Hierarchy) (types : TypeTable) (s : FrameType) (hr : ¬t.isReference = true) :
    mergeReference h types s t = (top, types) := by
  have hobject : t.shape.isObject = false := by
    by_contra he
    exact hr (by rw [isReference, (Bool.not_eq_false _).mp he, Bool.true_or])
  unfold mergeReference
  rw [hobject, Bool.and_false, Bool.false_and, if_neg Bool.false_ne_true, if_neg hr]

/-- References that are joined become, by name, the reference in which they meet. -/
theorem mergeReference_named (hg : h.Grounded) (hobject : h.superClass objectClass = none) (hc : types.Reached h)
    (hs : s.Held types) (ht : t.Held types) (hr : t.isReference = true) :
    ∃ joined grown, mergeReference h types s t = (joined, grown) ∧ grown.Reached h ∧
      joined.named grown = NamedType.meet h (s.named types) (t.named types) := by
  unfold mergeReference
  split
  · rename_i hsame
    obtain ⟨d, x⟩ := s
    obtain ⟨d', y⟩ := t
    simp only [Bool.and_eq_true, beq_iff_eq] at hsame
    obtain ⟨⟨rfl, hy⟩, hx⟩ := hsame
    cases x <;> cases hx
    cases y <;> cases hy
    rename_i i j
    obtain ⟨a, hi⟩ := hs.normal i rfl
    obtain ⟨b, hj⟩ := ht.normal j rfl
    obtain ⟨k, grown, hmerged, -, -, hk⟩ := hc.consistent.mergedType hj hi
    have hreached := hc.merge (Array.getElem?_eq_some_iff.1 hj |>.1) (Array.getElem?_eq_some_iff.1 hi |>.1)
    refine ⟨_, _, rfl, hreached, ?_⟩
    change named (types.mergedType h j i).2 ⟨d', .object (types.mergedType h j i).1⟩ = _
    rw [hmerged, named_object hi, named_object hj, NamedType.meet_of_object]
    rcases hk with hk | hk
    · rw [named_object hk]
      exact congrArg (fun c => (⟨d', .object c⟩ : NamedType)) (hg.common_comm hobject b a)
    · exact named_object hk d'
  · rename_i hsame
    obtain ⟨-, -, hk⟩ := TypeTable.addNormal_spec hc.consistent.sound objectClass
    refine ⟨_, _, rfl, hc.add _, ?_⟩
    have hnot : ¬((s.named types).isObject = true ∧ (t.named types).isObject = true ∧
        (s.named types).dims = (t.named types).dims) := by
      rw [isObject_named, isObject_named]
      rintro ⟨hx, hy, hd⟩
      exact hsame (by simp [hx, hy, show t.dims = s.dims from hd.symm])
    rw [NamedType.meet_of_not hnot, widenedDims_named, widenedDims_named]
    change named (types.addNormal objectClass).2 ⟨_, .object (types.addNormal objectClass).1⟩ = _
    rw [named_object hk, minDims_comm]
    rfl

/-- A type joined into a slot gives, by name, the type in which the two meet. -/
theorem mergeInto_named (hg : h.Grounded) (hobject : h.superClass objectClass = none) (hc : types.Reached h)
    (hs : s.Held types) (ht : t.Held types) :
    ∃ joined changed grown, mergeInto h types s t = (joined, changed, grown) ∧ grown.Reached h ∧
      joined.named grown = NamedType.join h (s.named types) (t.named types) := by
  have hsound := hc.consistent.sound
  have hnull : ∀ {u : FrameType}, u.Held types → (u.named types = .null ↔ u = null) := fun hu =>
    ⟨fun e => hu.eq_of_named hsound ⟨rfl, fun i hi => (nomatch hi), fun i hi => (nomatch hi)⟩ e, fun e => by rw [e]; rfl⟩
  have hsame : s.named types = t.named types ↔ s = t := ⟨hs.eq_of_named hsound ht.toMeaningful, fun e => by rw [e]⟩
  have hsettled : (if t.shape == .null then null else t) = t := by
    have he := ht.settled
    simpa [FrameType.settled] using he
  have hset : s.isUnset = false := by
    rw [isUnset, beq_eq_false_iff_ne]
    rintro rfl
    exact hs.shape_ne_unset rfl
  unfold mergeInto NamedType.join
  dsimp only
  rw [hsettled, hset]
  simp only [hsame, hnull hs, hnull ht, isReference_named, beq_iff_eq, Bool.and_eq_true, Bool.false_eq_true, if_false]
  by_cases he : s = t
  · rw [if_pos he, if_pos he]
    exact ⟨s, false, types, rfl, hc, rfl⟩
  · rw [if_neg he, if_neg he, if_neg he]
    by_cases hr : s.isReference = true
    · have hsn : s ≠ null := by
        rintro rfl
        cases hr
      simp only [hr, hsn, and_true, false_and, true_and, if_true, if_false]
      by_cases htn : t = null
      · rw [if_pos htn, if_pos htn]
        exact ⟨s, false, types, rfl, hc, rfl⟩
      · rw [if_neg htn, if_neg htn]
        by_cases htr : t.isReference = true
        · obtain ⟨joined, grown, hjoined, hreached, hnamed⟩ := mergeReference_named hg hobject hc hs ht htr
          rw [hjoined, if_pos htr]
          exact ⟨joined, _, grown, rfl, hreached, hnamed⟩
        · rw [mergeReference_of_not h types s htr, if_neg htr]
          exact ⟨top, _, types, rfl, hc, rfl⟩
    · have hr : s.isReference = false := by simpa using hr
      simp only [hr, Bool.false_eq_true, and_false, false_and, if_false]
      by_cases hsn : s = null ∧ t.isReference = true
      · rw [if_pos hsn, if_pos hsn]
        exact ⟨t, true, types, rfl, hc, rfl⟩
      · rw [if_neg hsn, if_neg hsn]
        exact ⟨top, _, types, rfl, hc, rfl⟩

/-- Joining is the least upper bound of types. A slot and a type that joins it leave, by name, the type in which the two
meet, and the slot counts as changed just if it holds another type than before; a slot of which nothing is known takes the
type as it is. Types meet in themselves, in any order and any grouping, above both and below whatever is above both. -/
theorem mergeInto_lattice (h : Hierarchy) (hg : h.Grounded) (hobject : h.superClass objectClass = none) :
    (∀ (types : TypeTable) (s t : FrameType), types.Reached h → s.Regular types → t.Regular types →
      ∃ joined grown, mergeInto h types s t = (joined, joined != s, grown) ∧ grown.Reached h ∧ types.Extends grown ∧
        joined.Regular grown ∧ joined.named grown = NamedType.join h (s.named types) (t.named types)) ∧
    (∀ (types : TypeTable) (t : FrameType), t.Regular types → mergeInto h types unset t = (t, true, types)) ∧
    (∀ a, NamedType.join h a a = a) ∧
    (∀ a b, NamedType.join h a b = NamedType.join h b a) ∧
    (∀ a b c, NamedType.join h (NamedType.join h a b) c = NamedType.join h a (NamedType.join h b c)) ∧
    ∀ a b : NamedType, a.Dimensioned → b.Dimensioned →
      NamedType.Under h a (NamedType.join h a b) ∧ NamedType.Under h b (NamedType.join h a b) ∧
        ∀ u : NamedType, u.Dimensioned → NamedType.Under h a u → NamedType.Under h b u →
          NamedType.Under h (NamedType.join h a b) u := by
  refine ⟨fun types s t hc hs ht => ?_, fun types t ht => ?_, NamedType.join_self h, NamedType.join_comm hg hobject,
    NamedType.join_assoc hg hobject, fun a b ha hb => ?_⟩
  · obtain ⟨joined, grown, hmerged, -, hext, -, -, -, hheld⟩ :=
      mergeInto_spec hg hc.consistent hs.toMeaningful.listed ht.toMeaningful.listed
    obtain ⟨joined', changed, grown', hmerged', hreached, hnamed⟩ := mergeInto_named hg hobject hc hs.held ht.held
    rw [hmerged] at hmerged'
    obtain ⟨rfl, hrest⟩ := Prod.mk.inj hmerged'
    obtain ⟨-, rfl⟩ := Prod.mk.inj hrest
    have hmeans := (hheld (Or.inr hs.held) ht.toMeaningful).toMeaningful
    refine ⟨joined, grown, hmerged, hreached, hext, ⟨hmeans, ?_⟩, hnamed⟩
    rw [hnamed]
    exact hs.dimensioned.join ht.dimensioned
  · rw [mergeInto_unset h types ht.shape_ne_unset, ht.held.settled]
  · have hdims := ha.join (h := h) hb
    have hupper := NamedType.join_upper hg a b
    exact ⟨hupper.1.under hg ha hdims, hupper.2.under hg hb hdims, fun u hu hau hbu =>
      (NamedType.join_least hg (hau.below hg hobject) (hbu.below hg hobject)).under hg hdims hu⟩

end Join

end FrameType

/-- The classes of two numbers below that of all numbers. -/
def numberClasses : Hierarchy :=
  ((Hierarchy.empty.insert "java/lang/Number" objectClass).insert "java/lang/Integer" "java/lang/Number").insert
    "java/lang/Double" "java/lang/Number"

namespace FrameType

/-- Arrays of two numbers become an array of their superclass. -/
theorem mergeInto_lattice_numbers :
    numberClasses.Grounded ∧ numberClasses.superClass objectClass = none ∧
      ∃ (types : TypeTable) (s t : FrameType), types.Reached numberClasses ∧ s.Regular types ∧ t.Regular types ∧
        s.named types = ⟨1, .object "java/lang/Integer"⟩ ∧ t.named types = ⟨1, .object "java/lang/Double"⟩ ∧
        ∃ joined grown, mergeInto numberClasses types s t = (joined, joined != s, grown) ∧
          joined.named grown = ⟨1, .object "java/lang/Number"⟩ := by
  have hsuper : ∀ c, numberClasses.superClass c = if "java/lang/Double" = c then some "java/lang/Number"
      else if "java/lang/Integer" = c then some "java/lang/Number" else if "java/lang/Number" = c then
        some objectClass else none := by
    intro c
    rw [numberClasses, Hierarchy.superClass_insert, Hierarchy.superClass_insert, Hierarchy.superClass_insert,
      show Hierarchy.empty.superClass c = none from Std.HashMap.getElem?_empty]
  have hobject : numberClasses.superClass objectClass = none := by
    rw [hsuper]
    decide
  have hnumber : numberClasses.Chain "java/lang/Number" ["java/lang/Number", objectClass] :=
    .next (by rw [hsuper]; decide) (.last hobject)
  have hinteger : numberClasses.Chain "java/lang/Integer" ["java/lang/Integer", "java/lang/Number", objectClass] :=
    .next (by rw [hsuper]; decide) hnumber
  have hdouble : numberClasses.Chain "java/lang/Double" ["java/lang/Double", "java/lang/Number", objectClass] :=
    .next (by rw [hsuper]; decide) hnumber
  have hg : numberClasses.Grounded := by
    intro c
    by_cases h₁ : "java/lang/Double" = c
    · exact ⟨_, h₁ ▸ hdouble⟩
    · by_cases h₂ : "java/lang/Integer" = c
      · exact ⟨_, h₂ ▸ hinteger⟩
      · by_cases h₃ : "java/lang/Number" = c
        · exact ⟨_, h₃ ▸ hnumber⟩
        · exact ⟨_, .last (by rw [hsuper, if_neg h₁, if_neg h₂, if_neg h₃])⟩
  obtain ⟨hsound, -, hi⟩ := TypeTable.addNormal_spec TypeTable.sound_empty "java/lang/Integer"
  obtain ⟨-, hext, hj⟩ := TypeTable.addNormal_spec hsound "java/lang/Double"
  have hi := hext.get? hi
  have hreached : TypeTable.Reached numberClasses
    ((TypeTable.empty.addNormal "java/lang/Integer").2.addNormal "java/lang/Double").2 :=
    .add _ (.add _ .empty)
  have hregular : ∀ {types : TypeTable} {i name},
    types.get? i = some (.normal name) → Regular types ⟨1, .object i⟩ := fun hi =>
    ⟨(held_object hi 1).toMeaningful, by rw [named_object hi]; exact Or.inr ⟨rfl, (by decide : 1 ≤ maxDimensions)⟩⟩
  refine ⟨hg, hobject, _, _, _, hreached, hregular hi, hregular hj, named_object hi 1, named_object hj 1, ?_⟩
  obtain ⟨joined, grown, hmerged, -, -, -, hnamed⟩ :=
    (mergeInto_lattice numberClasses hg hobject).1 _ _ _ hreached (hregular hi) (hregular hj)
  refine ⟨joined, grown, hmerged, hnamed.trans ?_⟩
  rw [named_object hi, named_object hj, NamedType.join, if_neg (by decide), if_neg (by decide),
    if_neg (by decide), if_pos (by decide), NamedType.meet_of_object, Hierarchy.commonSuperClass,
    hinteger.lineage_eq, hdouble.lineage_eq]
  rfl

end FrameType

end ClassFile
