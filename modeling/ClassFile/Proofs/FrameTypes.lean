import ClassFile.Proofs.DescriptorTypes
import ClassFile.Proofs.StraightLine

/-!
# Types in frames

What a type of a frame may name, and what it is by name. A type is known if the slots that it names are there and its
class is in the type table; a type in an input names no slots. By name, an object whose constructor has been called is
initialised wherever it stands.
-/

namespace ClassFile

namespace FrameType

/-- What a slot of which nothing is known becomes: the null type loses its dimensions. -/
def settled (t : FrameType) : FrameType :=
  if t.shape = .null then null else t

/-- Only the null type changes when it settles. -/
theorem settled_of_ne {t : FrameType} (h : t.shape ≠ .null) : t.settled = t :=
  if_neg h

/-- A type that has settled stays as it is. -/
theorem settled_settled (t : FrameType) : t.settled.settled = t.settled := by
  unfold settled
  by_cases h : t.shape = .null
  · rw [if_pos h]
    rfl
  · rw [if_neg h, if_neg h]

/-- A type that joins a slot of which nothing is known. -/
theorem mergeInto_unset (h : Hierarchy) (types : TypeTable) {t : FrameType} (ht : t.shape ≠ .unset) :
    mergeInto h types unset t = (t.settled, true, types) := by
  have h₁ : unset ≠ t := fun e => ht (e ▸ rfl)
  have h₂ : unset ≠ t.settled := by
    unfold settled
    split
    · decide
    · exact h₁
  simp only [mergeInto, beq_iff_eq, h₁, if_false]
  change (if unset = t.settled then _ else _) = _
  rw [if_neg h₂]
  rfl

/-- A type that may stand in a frame with so many input locals and stack slots: a slot that it names is there, a number of
the table stands for something, and nothing allocated by one of `later` has been met. -/
structure Known (types : TypeTable) (later : List TypeEntry) (locals stack : Nat) (t : FrameType) : Prop where
  numbered : t.Numbered types
  place : match t.shape with
    | .unset | .straySlot _ _ _ => False
    | .localSlot n _ => n < locals
    | .stackSlot n _ => 1 ≤ n ∧ n ≤ stack
    | _ => True
  early : ∀ i, t.shape = .uninitialized i → ∀ e, types.get? i = some e → e ∉ later

section Known

variable {types types' : TypeTable} {later later' : List TypeEntry} {locals stack : Nat} {t u : FrameType}

/-- Only the shape counts. -/
theorem Known.of_shape (h : t.Known types later locals stack) (hs : u.shape = t.shape) :
    u.Known types later locals stack := by
  obtain ⟨d, s⟩ := t
  obtain ⟨d', s'⟩ := u
  cases hs
  exact ⟨h.numbered, h.place, h.early⟩

/-- A type that may stand in a frame may do so for a table that has grown, with less to come. -/
theorem Known.mono (h : t.Known types later locals stack) (ht : types.Extends types')
    (hl : ∀ e ∈ later', e ∈ later) : t.Known types' later' locals stack := by
  refine ⟨h.numbered.mono ht, h.place, fun i hi e he hmem => ?_⟩
  obtain ⟨d, s⟩ := t
  subst hi
  obtain ⟨x, hx⟩ := h.numbered
  obtain rfl : x = e := Option.some.inj ((ht.get? hx).symm.trans he)
  exact h.early i rfl x hx (hl x hmem)

/-- A type that may stand in a frame is set. -/
theorem Known.shape_ne_unset (h : t.Known types later locals stack) : t.shape ≠ .unset := by
  intro e
  have hp := h.place
  rw [e] at hp
  exact hp

theorem Known.isUnset_eq_false (h : t.Known types later locals stack) : t.isUnset = false := by
  refine beq_eq_false_iff_ne.2 fun e => h.shape_ne_unset ?_
  rw [e]
  rfl

/-- A type that may stand in frames without input may stand in all frames. -/
theorem Known.weaken (h : t.Known types later 0 0) :
    t.Known types later locals stack := by
  obtain ⟨d, s⟩ := t
  have hp := h.place
  refine ⟨h.numbered, ?_, h.early⟩
  cases s with
  | localSlot n b => exact absurd hp (Nat.not_lt_zero n)
  | stackSlot n b =>
    obtain ⟨h₁, h₂⟩ := hp
    omega
  | straySlot k n b => exact hp.elim
  | _ => exact hp

theorem known_of_isValue (hv : t.shape.isValue = true) (hn : t.Numbered types) : t.Known types later locals stack := by
  obtain ⟨d, s⟩ := t
  refine ⟨hn, ?_, ?_⟩
  · cases s <;> first | exact trivial | cases hv
  · rintro i rfl
    cases hv

theorem Concrete.known (h : t.Concrete types)
    (he : ∀ i, t.shape = .uninitialized i → ∀ e, types.get? i = some e → e ∉ later) :
    t.Known types later 0 0 := by
  obtain ⟨hn, hs, -⟩ := h
  obtain ⟨d, s⟩ := t
  refine ⟨hn, ?_, he⟩
  cases s <;> trivial

/-- A type that stands for itself is settled. -/
theorem Concrete.settled_eq (h : t.Concrete types) : t.settled = t := by
  obtain ⟨d, s⟩ := t
  by_cases hs : s = .null
  · subst hs
    cases h.null rfl
    rfl
  · exact settled_of_ne hs

end Known

end FrameType

namespace NamedType

/-- What an allocated object, or the one under construction, becomes when its constructor has run. -/
def initialized (className : String) (t : NamedType) : NamedType :=
  if t.dims = 0 then
    match t.shape with
    | .plain .uninitializedThis => ⟨0, .object className⟩
    | .uninitialized e => ⟨0, .object ((e.map TypeEntry.name).getD objectClass)⟩
    | _ => t
  else t

/-- A constructor that has run changes nothing when it runs again. -/
theorem initialized_initialized (className : String) (t : NamedType) :
    (t.initialized className).initialized className = t.initialized className := by
  obtain ⟨d, s⟩ := t
  by_cases hd : d = 0
  · subst hd
    cases s with
    | plain s => cases s <;> rfl
    | _ => rfl
  · have hi : initialized className ⟨d, s⟩ = ⟨d, s⟩ := if_neg hd
    rw [hi, hi]

/-- What a type becomes when the constructors of certain objects have run. -/
def afterAll (className : String) (constructed : List NamedType) (t : NamedType) : NamedType :=
  if t ∈ constructed then t.initialized className else t

/-- The constructor of one more object runs after the others, on what the object has become. -/
theorem afterAll_append (className : String) (cs : List NamedType) (c t : NamedType) :
    afterAll className (cs ++ [c]) t =
      if afterAll className cs t = afterAll className cs c then (afterAll className cs t).initialized className
      else afterAll className cs t := by
  unfold afterAll
  by_cases ht : t ∈ cs
  · simp [ht, initialized_initialized]
  · by_cases htc : t = c
    · subst htc
      simp [ht]
    · have hmem : t ∉ cs ++ [c] := by simp [ht, htc]
      rw [if_neg hmem, if_neg ht]
      by_cases hc : c ∈ cs
      · rw [if_pos hc]
        split
        · rename_i e
          rw [e, initialized_initialized]
        · rfl
      · rw [if_neg hc, if_neg htc]

/-- Whether a value of the type takes two slots. -/
def isWide (t : NamedType) : Bool :=
  t == ⟨0, .plain .long⟩ || t == ⟨0, .plain .double⟩

/-- The type of no usable value. -/
def top : NamedType :=
  ⟨0, .plain .top⟩

/-- A constructor does not change the number of slots. -/
theorem isWide_initialized (className : String) (t : NamedType) : (t.initialized className).isWide = t.isWide := by
  obtain ⟨d, s⟩ := t
  unfold initialized
  split
  · rename_i hd
    dsimp only at hd
    subst hd
    cases s with
    | plain s => cases s <;> rfl
    | _ => rfl
  · rfl

/-- Constructors do not change the number of slots. -/
theorem isWide_afterAll (className : String) (cs : List NamedType) (t : NamedType) :
    (afterAll className cs t).isWide = t.isWide := by
  unfold afterAll
  split
  · exact isWide_initialized className t
  · rfl

/-- Constructors leave what is unusable. -/
theorem afterAll_top (className : String) (cs : List NamedType) : afterAll className cs top = top :=
  ite_self _

/-- The null type, or an array whose elements take one slot each. -/
def Loadable (t : NamedType) : Prop :=
  t = ⟨0, .plain .null⟩ ∨ 0 < t.dims.toInt ∧ t.isWide = false ∧ (⟨t.dims - 1, t.shape⟩ : NamedType).isWide = false ∧
    match t.shape with
    | .object _ => True
    | .plain s => FrameType.isElement s = true
    | .uninitialized _ => False

/-- What an array holds; the null type stands for its own elements. -/
def element (t : NamedType) : NamedType :=
  if t.shape = .plain .null then t else ⟨t.dims - 1, t.shape⟩

/-- No constructor changes an element of an array. -/
theorem afterAll_element (className : String) (cs : List NamedType) {t : NamedType} (h : t.Loadable) :
    afterAll className cs t.element = t.element := by
  have hfix : t.element.initialized className = t.element := by
    rcases h with rfl | ⟨-, -, -, hshape⟩
    · rfl
    · obtain ⟨d, s⟩ := t
      cases s with
      | plain s => cases s <;> first | exact ite_self _ | cases hshape
      | object name => exact ite_self _
      | uninitialized e => exact hshape.elim
  unfold afterAll
  rw [hfix, ite_self]

end NamedType

/-- Constructors change nothing but what waits for one. -/
theorem FrameType.initialized_named (types : TypeTable) (className : String) {t : FrameType}
    (hthis : t ≠ ⟨0, .uninitializedThis⟩) (huninit : ∀ i, t ≠ ⟨0, .uninitialized i⟩) :
    (t.settled.named types).initialized className = t.settled.named types := by
  obtain ⟨d, s⟩ := t
  by_cases hd : d = 0
  · subst hd
    cases s with
    | uninitializedThis => exact absurd rfl hthis
    | uninitialized i => exact absurd rfl (huninit i)
    | _ => rfl
  · cases s <;> first | exact if_neg hd | rfl

end ClassFile
