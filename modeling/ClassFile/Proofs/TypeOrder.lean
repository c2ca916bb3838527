import ClassFile.Proofs.FrameTypes
import ClassFile.Proofs.Superclasses
import Mathlib.Order.Basic

/-!
# The order of types

Types that join in a slot go up in an order: the null type is below all references, a class is below its superclasses, a
reference is below the arrays of objects to which it can be widened, and everything is below the type of no usable value. A
slot only has so much room above it, by the number of classes that are known.
-/

namespace ClassFile

namespace NamedType

/-- The type of the null reference. -/
def null : NamedType :=
  ⟨0, .plain .null⟩

/-- Arrays of objects of so many dimensions; the class of all objects itself if there are none. -/
def objects (dims : BitVec 4) : NamedType :=
  ⟨dims, .object objectClass⟩

/-- Whether a shape is a class. -/
def isObject (t : NamedType) : Bool :=
  match t.shape with
  | .object _ => true
  | _ => false

/-- Whether the type is a class or an array of anything. -/
def isReference (t : NamedType) : Bool :=
  t.isObject || t.dims != 0

/-- The dimensions of the array of objects to which a reference can be widened. -/
def widenedDims (t : NamedType) : BitVec 4 :=
  if t.dims == 0 || t.isObject then t.dims else t.dims - 1

/-- A slot with the second type stays as it is when the first type joins it. -/
inductive Below (h : Hierarchy) : NamedType → NamedType → Prop where
  | refl (t : NamedType) : Below h t t
  | top (t : NamedType) : Below h t top
  | null {t : NamedType} : t.isReference = true → Below h null t
  | widens {d : BitVec 4} {a b : String} : h.Widens a b → Below h ⟨d, .object a⟩ ⟨d, .object b⟩
  | objects {t : NamedType} {d : BitVec 4} : t.isReference = true → d.toInt ≤ t.widenedDims.toInt → Below h t (objects d)

section Order

variable {h : Hierarchy} {r s t : NamedType}

/-- Nothing but the type of no usable value is above it. -/
theorem eq_top_of_below (hs : Below h top t) : t = top := by
  cases hs with
  | refl => rfl
  | top => rfl
  | objects hr => cases hr

/-- What is above a reference is a reference or of no use. -/
theorem Below.isReference_or (hs : Below h s t) (hr : s.isReference = true) : t.isReference = true ∨ t = .top := by
  cases hs with
  | refl => exact Or.inl hr
  | top => exact Or.inr rfl
  | null hr => exact Or.inl hr
  | widens => exact Or.inl rfl
  | objects => exact Or.inl rfl

theorem widenedDims_object (d : BitVec 4) (a : String) : widenedDims ⟨d, .object a⟩ = d := by
  simp [widenedDims, isObject]

/-- A slot that absorbs a type absorbs all that is below it. -/
theorem Below.trans (hg : h.Grounded) (hobject : h.superClass objectClass = none) (hrs : Below h r s) (hst : Below h s t) :
    Below h r t := by
  cases hrs with
  | refl => exact hst
  | top =>
    rw [eq_top_of_below hst]
    exact .top r
  | null hr =>
    rcases hst.isReference_or hr with ht | rfl
    · exact .null ht
    · exact .top _
  | @widens d a b hab =>
    cases hst with
    | refl => exact .widens hab
    | top => exact .top _
    | widens hbc => exact .widens (hg.widens_trans hobject hab hbc)
    | objects _ hd => exact .objects rfl (by rwa [widenedDims_object] at hd ⊢)
  | @objects _ d hr hd =>
    cases hst with
    | refl => exact .objects hr hd
    | top => exact .top _
    | @widens _ _ b hb =>
      obtain rfl : b = objectClass := by
        rcases hb with hb | rfl
        · rw [Hierarchy.lineage_objectClass hobject] at hb
          exact List.mem_singleton.1 hb
        · rfl
      exact .objects hr hd
    | objects _ he => exact .objects hr (Int.le_trans (by rwa [NamedType.objects, widenedDims_object] at he) hd)

/-- What is below a class of the same dimensions can be widened to it. -/
theorem Below.widens_of_dims (hg : h.Grounded) {d : BitVec 4} {a b : String}
    (hab : Below h ⟨d, .object a⟩ ⟨d, .object b⟩) : h.Widens a b := by
  cases hab with
  | refl => exact hg.widens_refl a
  | widens hw => exact hw
  | objects => exact Or.inr rfl

/-- Above a type there are itself, the type of no usable value, and references. -/
theorem Below.eq_or (hst : Below h s t) : s = t ∨ t = .top ∨ t.isReference = true := by
  cases hst with
  | refl => exact Or.inl rfl
  | top => exact Or.inr (Or.inl rfl)
  | null hr => exact Or.inr (Or.inr hr)
  | widens => exact Or.inr (Or.inr rfl)
  | objects => exact Or.inr (Or.inr rfl)

/-- A reference is below others that are classes of the same dimensions or arrays of objects. -/
theorem Below.reference_cases (hst : Below h s t) (hne : s ≠ t) (hnull : s ≠ .null) (hr : t.isReference = true) :
    s.isReference = true ∧ (s.isObject = true ∧ t.isObject = true ∧ s.dims = t.dims ∨
      ∃ d, t = .objects d ∧ d.toInt ≤ s.widenedDims.toInt) := by
  cases hst with
  | refl => exact absurd rfl hne
  | top => cases hr
  | null => exact absurd rfl hnull
  | widens => exact ⟨rfl, Or.inl ⟨rfl, rfl, rfl⟩⟩
  | objects hs hd => exact ⟨hs, Or.inr ⟨_, rfl, hd⟩⟩

/-! ## How often a slot can change -/

/-- How many times a slot that holds the type can still go up, at most. -/
def room (h : Hierarchy) (t : NamedType) : Nat :=
  match t.shape with
  | .object name => if name = objectClass then (t.dims.toInt + 9).toNat else 17 + (h.lineage name).length
  | .plain s =>
    if t.dims = 0 then
      match s with
      | .unset => h.size + 40
      | .null => h.size + 39
      | .top => 0
      | _ => 1
    else h.size + 20
  | .uninitialized _ => if t.dims = 0 then 1 else h.size + 20

/-- Arrays of objects can go up by one dimension at a time. -/
theorem room_objects (d : BitVec 4) : room h (objects d) = (d.toInt + 9).toNat := by
  simp [room, objects]

/-- There are no more than sixteen numbers of dimensions. -/
theorem room_objects_le (d : BitVec 4) : 1 ≤ room h (objects d) ∧ room h (objects d) ≤ 16 := by
  have hd := BitVec.toInt_lt (x := d)
  have hd' := BitVec.le_toInt d
  rw [room_objects]
  omega

/-- A class can go up along its superclasses, and then as the class of all objects can. -/
theorem room_object (d : BitVec 4) {a : String} (ha : a ≠ objectClass) :
    room h ⟨d, .object a⟩ = 17 + (h.lineage a).length :=
  if_neg ha

/-- Arrays of anything but objects leave the same room. -/
theorem room_of_not_isObject (ht : t.isObject = false) (hd : t.dims ≠ 0) : room h t = h.size + 20 := by
  obtain ⟨d, s⟩ := t
  cases s with
  | object => cases ht
  | plain s => exact if_neg hd
  | uninitialized e => exact if_neg hd

/-- Classes and arrays of objects leave less room than other arrays. -/
theorem room_lt_of_isObject (hg : h.Grounded) (ht : t.isObject = true) : room h t < h.size + 20 := by
  obtain ⟨d, s⟩ := t
  cases s with
  | object a =>
    by_cases ha : a = objectClass
    · subst ha
      exact Nat.lt_of_le_of_lt (room_objects_le d).2 (by omega)
    · have := (hg.chain a).length_le
      rw [room_object d ha]
      omega
  | plain => cases ht
  | uninitialized => cases ht

/-- A reference goes up no more often than there are classes, and twenty times more. -/
theorem room_le_of_isReference (hg : h.Grounded) (hr : t.isReference = true) : room h t ≤ h.size + 20 := by
  by_cases ht : t.isObject = true
  · exact Nat.le_of_lt (room_lt_of_isObject hg ht)
  · rw [isReference, Bool.or_eq_true] at hr
    exact Nat.le_of_eq (room_of_not_isObject (by simpa using ht) (by simpa using hr.resolve_left ht))

/-- Without dimensions, there are plain types, classes, and objects that wait for their constructors. -/
theorem dims_eq_zero_of_not_isReference (hr : ¬t.isReference = true) : t.dims = 0 := by
  by_contra hd
  exact hr (by rw [isReference, bne_iff_ne.2 hd, Bool.or_true])

/-- A slot goes up no more often than there are classes, and forty times more. -/
theorem room_le (hg : h.Grounded) (t : NamedType) : room h t ≤ h.size + 40 := by
  by_cases hr : t.isReference = true
  · exact Nat.le_trans (room_le_of_isReference hg hr) (by omega)
  · have hd := dims_eq_zero_of_not_isReference hr
    obtain ⟨d, s⟩ := t
    dsimp only at hd
    subst hd
    cases s with
    | object => exact absurd rfl hr
    | plain s => cases s <;> simp [room]
    | uninitialized => simp [room]

/-- Only the type of no usable value leaves no room. -/
theorem room_pos (hne : t ≠ top) : 0 < room h t := by
  by_cases ht : t.isObject = true
  · obtain ⟨d, s⟩ := t
    cases s with
    | object a =>
      by_cases ha : a = objectClass
      · subst ha
        exact (room_objects_le d).1
      · rw [room_object d ha]
        omega
    | plain => cases ht
    | uninitialized => cases ht
  · by_cases hd : t.dims = 0
    · obtain ⟨d, s⟩ := t
      dsimp only at hd
      subst hd
      cases s with
      | object => exact absurd rfl ht
      | plain s => cases s <;> first | exact absurd rfl hne | exact Nat.succ_pos _
      | uninitialized => exact Nat.one_pos
    · rw [room_of_not_isObject (by simpa using ht) hd]
      omega

/-- A slot that goes up has less room above it. -/
theorem Below.room_lt (hg : h.Grounded) (hobject : h.superClass objectClass = none) (hst : Below h s t) (hne : s ≠ t) :
    room h t < room h s := by
  cases hst with
  | refl => exact absurd rfl hne
  | top => exact room_pos hne
  | null hr => exact Nat.lt_of_le_of_lt (room_le_of_isReference hg hr) (by simp [room, NamedType.null])
  | @widens d a b hab =>
    have hba : b ≠ a := by
      rintro rfl
      exact hne rfl
    have ha : a ≠ objectClass := by
      rintro rfl
      rcases hab with hab | rfl
      · rw [Hierarchy.lineage_objectClass hobject] at hab
        exact hba (List.mem_singleton.1 hab)
      · exact hba rfl
    rw [room_object d ha]
    by_cases hb : b = objectClass
    · subst hb
      exact Nat.lt_of_le_of_lt (room_objects_le d).2 (by omega)
    · rw [room_object d hb]
      have := hg.length_lt_of_widens hab hba hb
      omega
  | @objects _ d hr hd =>
    have hd₁ := BitVec.le_toInt d
    have hle := (room_objects_le (h := h) d).2
    by_cases ht : s.isObject = true
    · obtain ⟨e, x⟩ := s
      cases x with
      | object a =>
        by_cases ha : a = objectClass
        · subst ha
          have hde : e ≠ d := by
            rintro rfl
            exact hne rfl
          rw [widenedDims_object] at hd
          have hint : d.toInt ≠ e.toInt := fun he => hde (BitVec.eq_of_toInt_eq he.symm)
          change room h (NamedType.objects d) < room h (NamedType.objects e)
          rw [room_objects, room_objects]
          omega
        · rw [room_object e ha]
          omega
      | plain => cases ht
      | uninitialized => cases ht
    · rw [isReference, Bool.or_eq_true] at hr
      have hroom : room h s = h.size + 20 := room_of_not_isObject (by simpa using ht) (by simpa using hr.resolve_left ht)
      omega

/-- Types that absorb each other are one. -/
theorem Below.antisymm (hg : h.Grounded) (hobject : h.superClass objectClass = none) (hst : Below h s t)
    (hts : Below h t s) :
    s = t := by
  by_contra hne
  exact Nat.lt_asymm (hst.room_lt hg hobject hne) (hts.room_lt hg hobject (Ne.symm hne))

end Order

end NamedType

end ClassFile
