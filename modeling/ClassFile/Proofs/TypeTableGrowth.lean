import ClassFile.Frame.Type

/-!
# What a type table holds

A table that finds exactly its entries stays so while it grows, and a number keeps standing for its entry. Two tables number
classes differently; `FrameType.named` says a frame type without numbers, so that types of two tables can be compared.
-/

namespace ClassFile

namespace TypeTable

/-- A table that finds exactly its entries, each at one place. -/
def Sound (types : TypeTable) : Prop :=
  ∀ e i, types.lookup[e]? = some i ↔ types.get? i = some e

/-- A table that has all entries of another, at the same places. -/
def Extends (types later : TypeTable) : Prop :=
  types.entries.toList <+: later.entries.toList

/-- The empty table finds nothing. -/
theorem sound_empty : empty.Sound := by
  intro e i
  simp [empty, get?]

theorem Extends.refl (types : TypeTable) : types.Extends types :=
  List.prefix_refl _

theorem Extends.trans {a b c : TypeTable} (h : a.Extends b) (h' : b.Extends c) : a.Extends c :=
  List.IsPrefix.trans h h'

/-- A number keeps standing for its entry. -/
theorem Extends.get? {types later : TypeTable} (h : types.Extends later) {i : Nat} {e : TypeEntry}
    (hi : types.get? i = some e) : later.get? i = some e := by
  obtain ⟨rest, hrest⟩ := h
  unfold TypeTable.get? at hi ⊢
  rw [← Array.getElem?_toList] at hi ⊢
  obtain ⟨hlt, -⟩ := List.getElem?_eq_some_iff.1 hi
  rw [← hrest, List.getElem?_append_left hlt, hi]

/-- A number names the same in a table that has grown. -/
theorem Extends.name {types later : TypeTable} (h : types.Extends later) {i : Nat} {e : TypeEntry}
    (hi : types.get? i = some e) : later.name i = types.name i := by
  rw [TypeTable.name, TypeTable.name, hi, h.get? hi]

/-- Two numbers of one entry are one number. -/
theorem Sound.get?_inj {types : TypeTable} (h : types.Sound) {i j : Nat} {e : TypeEntry} (hi : types.get? i = some e)
    (hj : types.get? j = some e) : i = j :=
  Option.some.inj (((h e i).2 hi).symm.trans ((h e j).2 hj))

/-- Adding an entry gives its number in a table that has all entries of before. -/
theorem add_spec {types : TypeTable} (h : types.Sound) (e : TypeEntry) :
    (types.add e).2.Sound ∧ types.Extends (types.add e).2 ∧ (types.add e).2.get? (types.add e).1 = some e := by
  unfold add
  split
  · rename_i i hi
    exact ⟨h, Extends.refl types, (h e i).1 hi⟩
  · rename_i hnone
    refine ⟨?_, by simp [Extends], ?_⟩
    · intro x i
      have hx := h x i
      have he := h e i
      simp only [get?, Array.getElem?_push, Std.HashMap.getElem?_insert] at hx he ⊢
      rw [hnone] at he
      by_cases hxe : e = x
      · subst hxe
        by_cases hi : i = types.entries.size
        · simp [hi]
        · simpa [hi, Ne.symm hi] using he
      · by_cases hi : i = types.entries.size
        · subst hi
          simpa [hxe] using hx
        · simpa [hxe, hi] using hx
    · simp [get?]

/-- A class that is put into the table has a number, and no other number changes. -/
theorem addNormal_spec {types : TypeTable} (h : types.Sound) (name : String) :
    (types.addNormal name).2.Sound ∧ types.Extends (types.addNormal name).2 ∧
      (types.addNormal name).2.get? (types.addNormal name).1 = some (.normal name) :=
  add_spec h _

/-- An allocated object that is put into the table has a number, and no other number changes. -/
theorem addUninitialized_spec {types : TypeTable} (h : types.Sound) (name : String) (offset : Nat) :
    (types.addUninitialized name offset).2.Sound ∧ types.Extends (types.addUninitialized name offset).2 ∧
      (types.addUninitialized name offset).2.get? (types.addUninitialized name offset).1 =
        some (.uninitialized name offset) :=
  add_spec h _

end TypeTable

/-! ## Types by name -/

/-- A shape with a class by its name, and an allocated object by its class and place. -/
inductive NamedShape where
  | plain (shape : Shape)
  | object (name : String)
  | uninitialized (entry : Option TypeEntry)
  deriving DecidableEq, Repr, Inhabited

/-- A frame type with classes by their names. -/
structure NamedType where
  dims : BitVec 4
  shape : NamedShape
  deriving DecidableEq, Repr, Inhabited

/-- A shape without its number. -/
def Shape.named (types : TypeTable) : Shape → NamedShape
  | .object i => .object (types.name i)
  | .uninitialized i => .uninitialized (types.get? i)
  | s => .plain s

namespace FrameType

/-- A frame type without numbers of a table. -/
def named (types : TypeTable) (t : FrameType) : NamedType :=
  ⟨t.dims, t.shape.named types⟩

/-- The number of a type, if it has one, stands for an entry of the table. -/
def Numbered (types : TypeTable) (t : FrameType) : Prop :=
  match t.shape with
  | .object i | .uninitialized i => ∃ e, types.get? i = some e
  | _ => True

/-- A type has the same name in a table that has grown. -/
theorem named_of_extends {types later : TypeTable} (h : types.Extends later) {t : FrameType} (ht : t.Numbered types) :
    t.named later = t.named types := by
  obtain ⟨dims, shape⟩ := t
  cases shape with
  | object i =>
    obtain ⟨e, he⟩ := ht
    simp only [named, Shape.named, h.name he]
  | uninitialized i =>
    obtain ⟨e, he⟩ := ht
    simp only [named, Shape.named, he, h.get? he]
  | _ => rfl

/-- The number of a type stands for an entry of a table that has grown. -/
theorem Numbered.mono {types later : TypeTable} (h : types.Extends later) {t : FrameType} (ht : t.Numbered types) :
    t.Numbered later := by
  obtain ⟨dims, shape⟩ := t
  cases shape with
  | object i => exact ⟨_, h.get? ht.choose_spec⟩
  | uninitialized i => exact ⟨_, h.get? ht.choose_spec⟩
  | _ => exact ht

end FrameType

end ClassFile
