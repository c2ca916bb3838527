import ClassFile.Proofs.TypeTableGrowth

/-!
# Types of descriptors

A descriptor describes one type by name, whatever has been numbered before: the numbers of the type's classes differ from
table to table, their names do not.
-/

namespace ClassFile

/-- Whether a shape is that of a value which is not waiting for its constructor. -/
def Shape.isValue : Shape → Bool
  | unset | uninitializedThis | uninitialized _ | localSlot _ _ | stackSlot _ _ | straySlot _ _ _ => false
  | _ => true

namespace FrameType

/-- A type that may have been found, with the table grown by its classes, is a certain type by name. -/
structure Described (types : TypeTable) (result : Option FrameType × TypeTable) (n : Option NamedType) : Prop where
  sound : result.2.Sound
  grown : types.Extends result.2
  named : result.1.map (named result.2) = n
  value : ∀ t ∈ result.1, t.isUnset = true ∨ t.shape.isValue = true ∧ t.Numbered result.2

/-- Where no type was found, none is described. -/
theorem described_none {types : TypeTable} (h : types.Sound) : Described types (none, types) none :=
  ⟨h, TypeTable.Extends.refl types, rfl, fun _ ht => nomatch ht⟩

/-- A type without a number of the table. -/
theorem described_plain {types : TypeTable} (h : types.Sound) (t : FrameType) (n : NamedType) (hn : t.named types = n)
    (hv : t.isUnset = true ∨ t.shape.isValue = true ∧ t.Numbered types) : Described types (some t, types) (some n) :=
  ⟨h, TypeTable.Extends.refl types, congrArg some hn, fun u hu => by obtain rfl := Option.some.inj hu; exact hv⟩

/-- A class by its name. -/
theorem described_object {types : TypeTable} (h : types.Sound) (name : String) :
    Described types (some (object (types.addNormal name).1), (types.addNormal name).2) (some ⟨0, .object name⟩) := by
  obtain ⟨hs, hg, hi⟩ := TypeTable.addNormal_spec h name
  refine ⟨hs, hg, ?_, ?_⟩
  · simp [FrameType.named, Shape.named, object, TypeTable.name, hi, TypeEntry.name]
  · intro t ht
    obtain rfl := Option.some.inj ht
    exact Or.inr ⟨rfl, _, hi⟩

section TwoTables

variable {types types' : TypeTable}

/-- The type of a name is described by that name, whatever the table. -/
theorem described_ofName (h : types.Sound) (h' : types'.Sound) (rest : List Char) :
    ∃ n, Described types (ofName types rest) n ∧ Described types' (ofName types' rest) n := by
  unfold ofName
  cases Descriptor.dropSemicolon rest with
  | none => exact ⟨none, described_none h, described_none h'⟩
  | some name => exact ⟨_, described_object h (String.ofList name), described_object h' (String.ofList name)⟩

/-- An element type is described alike in two tables. -/
theorem described_ofElement (h : types.Sound) (h' : types'.Sound) (cs : List Char) :
    ∃ n, Described types (ofElement types cs) n ∧ Described types' (ofElement types' cs) n := by
  have hplain : ∀ t : FrameType, t.shape.isValue = true → (∀ T, t.Numbered T) → (∀ T T', t.named T = t.named T') →
      ∃ n, Described types (some t, types) n ∧ Described types' (some t, types') n := by
    intro t hv hn hnamed
    exact ⟨_, described_plain h t _ rfl (Or.inr ⟨hv, hn _⟩), described_plain h' t _ (hnamed _ _) (Or.inr ⟨hv, hn _⟩)⟩
  fun_cases ofElement types cs
  case case9 rest => exact described_ofName h h' rest
  case case10 =>
    have hnone : ofElement types' cs = (none, types') := by
      rw [ofElement]
      all_goals assumption
    rw [hnone]
    exact ⟨none, described_none h, described_none h'⟩
  all_goals exact hplain _ rfl (fun _ => trivial) (fun _ _ => rfl)

/-- The type behind the brackets of a descriptor, under its dimensions. -/
theorem Described.withDims {r : Option FrameType × TypeTable} {n : Option NamedType} (h : Described types r n)
    (hv : ∀ t ∈ r.1, t.isUnset = false) (k : BitVec 4) :
    Described types (r.1.map fun t => { t with dims := k }, r.2) (n.map fun m => { m with dims := k }) := by
  refine ⟨h.sound, h.grown, ?_, ?_⟩
  · rw [← h.named, Option.map_map, Option.map_map]
    rfl
  · intro t ht
    obtain ⟨u, hu, rfl⟩ := Option.map_eq_some_iff.1 ht
    rcases h.value u hu with hun | hval
    · rw [hv u hu] at hun
      cases hun
    · exact Or.inr hval

/-- The type of a name is never unset. -/
theorem ofName_isUnset (rest : List Char) {t : FrameType} (ht : t ∈ (ofName types rest).1) : t.isUnset = false := by
  unfold ofName at ht
  split at ht
  · obtain rfl := Option.some.inj ht
    rfl
  · cases ht

/-- An element type is never that of no value. -/
theorem ofElement_isUnset (cs : List Char) {t : FrameType} (ht : t ∈ (ofElement types cs).1) : t.isUnset = false := by
  unfold ofElement at ht
  split at ht
  case h_9 rest => exact ofName_isUnset rest ht
  case h_10 => cases ht
  all_goals
    obtain rfl := Option.some.inj ht
    rfl

/-- A type is described alike in two tables. -/
theorem described_ofValue (h : types.Sound) (h' : types'.Sound) (cs : List Char) :
    ∃ n, Described types (ofValue types cs) n ∧ Described types' (ofValue types' cs) n := by
  have hplain : ∀ t : FrameType, t.isUnset = true ∨ t.shape.isValue = true → (∀ T, t.Numbered T) →
      (∀ T T', t.named T = t.named T') →
      ∃ n, Described types (some t, types) n ∧ Described types' (some t, types') n := by
    intro t hv hn hnamed
    exact ⟨_, described_plain h t _ rfl (hv.imp_right fun hv => ⟨hv, hn _⟩),
      described_plain h' t _ (hnamed _ _) (hv.imp_right fun hv => ⟨hv, hn _⟩)⟩
  fun_cases ofValue types cs
  case case1 => exact hplain _ (Or.inl rfl) (fun _ => trivial) (fun _ _ => rfl)
  case case10 rest => exact described_ofName h h' rest
  case case11 rest dimensions hd =>
    have hnone : ofValue types' ('[' :: rest) = (none, types') := by
      rw [ofValue]
      exact if_pos hd
    rw [hnone]
    exact ⟨none, described_none h, described_none h'⟩
  case case12 rest dimensions hd element grown he =>
    obtain ⟨n, hn, hn'⟩ := described_ofElement h h' (Descriptor.skipBrackets rest)
    have hsome : ofValue types' ('[' :: rest) =
        ((ofElement types' (Descriptor.skipBrackets rest)).1.map fun t => { t with dims := BitVec.ofNat 4 dimensions },
          (ofElement types' (Descriptor.skipBrackets rest)).2) := by
      rw [ofValue]
      exact if_neg hd
    have hd := hn.withDims (fun t ht => ofElement_isUnset _ ht) (BitVec.ofNat 4 dimensions)
    rw [he] at hd
    rw [hsome]
    exact ⟨_, hd, hn'.withDims (fun t ht => ofElement_isUnset _ ht) _⟩
  case case13 =>
    have hnone : ofValue types' cs = (none, types') := by
      rw [ofValue]
      all_goals assumption
    rw [hnone]
    exact ⟨none, described_none h, described_none h'⟩
  all_goals exact hplain _ (Or.inr rfl) (fun _ => trivial) (fun _ _ => rfl)

end TwoTables

end FrameType

end ClassFile
