import ClassFile.Proofs.TypeLattice

/-!
# The nearest common superclass

A chain of superclasses may run into a cycle. A walk along it remembers the classes it has met and ends at the first
repetition, so it ends in every hierarchy: a class that leads on is a known one, and there are only so many of them.
`Searched` follows the two walks of a search step by step, without a bound on their length.

Where no class is its own superclass, the class that the search finds lies on both chains, and every other class on both
chains lies above it. Any two classes then have one least class above both, whatever their order and that of further classes.
-/

namespace ClassFile

namespace Hierarchy

/-- One step along a chain of superclasses. -/
def Step (h : Hierarchy) (a b : String) : Prop :=
  h.superClass a = some b

/-- A class lies on the chain of another one. -/
def OnChain (h : Hierarchy) (a b : String) : Prop :=
  Relation.ReflTransGen h.Step a b

/-- No class is among its own superclasses. -/
def Acyclic (h : Hierarchy) : Prop :=
  ∀ a, ¬Relation.TransGen h.Step a a

/-- The walk along a chain from a class on, when some classes have been met before, and the classes it gathers. -/
inductive Gathers (h : Hierarchy) : List String → String → List String → Prop where
  | repeated {seen : List String} {a : String} : a ∈ seen → Gathers h seen a []
  | last {seen : List String} {a : String} : a ∉ seen → h.superClass a = none → Gathers h seen a [a]
  | next {seen rest : List String} {a b : String} : a ∉ seen → h.superClass a = some b → Gathers h (a :: seen) b rest →
      Gathers h seen a (a :: rest)

/-- The walk along a second chain from a class on until it meets one of the ancestors, and the class it comes to. -/
inductive Meets (h : Hierarchy) (ancestors : List String) : List String → String → String → Prop where
  | met {seen : List String} {a : String} : a ∈ ancestors → Meets h ancestors seen a a
  | repeated {seen : List String} {a : String} : a ∉ ancestors → a ∈ seen → Meets h ancestors seen a objectClass
  | last {seen : List String} {a : String} : a ∉ ancestors → a ∉ seen → h.superClass a = none →
    Meets h ancestors seen a objectClass
  | next {seen : List String} {a b c : String} : a ∉ ancestors → a ∉ seen → h.superClass a = some b →
      Meets h ancestors (a :: seen) b c → Meets h ancestors seen a c

/-- A search for the common superclass of two classes, and the class it comes to. -/
inductive Searched (h : Hierarchy) : String → String → String → Prop where
  | same {a : String} : Searched h a a a
  | met {a b c : String} {ancestors : List String} : a ≠ b → h.Gathers [] a ancestors →
    h.Meets ancestors [] b c → Searched h a b c

/-- What is asked of the nearest common superclass of two classes. -/
structure Nearest (h : Hierarchy) (a b c : String) : Prop where
  common : c = objectClass ∨ h.OnChain a c ∧ h.OnChain b c
  above : ∀ d, h.OnChain a d → h.OnChain b d → h.OnChain c d
  apart : (∀ d, h.OnChain a d → ¬h.OnChain b d) → c = objectClass

section Walks

variable {h : Hierarchy} {a b c d : String} {seen ancestors l l' : List String}

/-- The classes met so far are known ones, so the walk ends while there are still some left. -/
theorem gathers_lineageFrom (hnodup : seen.Nodup) (hknown : ∀ x ∈ seen, x ∈ h.supers) {fuel : Nat}
    (hfuel : h.size + 1 ≤ fuel + seen.length) : h.Gathers seen a (h.lineageFrom fuel seen a) := by
  induction fuel generalizing seen a with
  | zero =>
    have hlength := (hnodup.subperm fun x hx => Std.HashMap.mem_keys.2 (hknown x hx)).length_le
    rw [Std.HashMap.length_keys] at hlength
    unfold size at hfuel
    omega
  | succ fuel ih =>
    rw [lineageFrom]
    by_cases ha : a ∈ seen
    · rw [if_pos ha]
      exact .repeated ha
    · rw [if_neg ha]
      cases hsuper : h.superClass a with
      | none => exact .last ha hsuper
      | some b =>
        refine .next ha hsuper (ih (List.nodup_cons.2 ⟨ha, hnodup⟩) ?_ ?_)
        · intro x hx
          rcases List.mem_cons.1 hx with rfl | hx
          · exact Std.HashMap.mem_iff_isSome_getElem?.2 (Option.isSome_of_eq_some hsuper)
          · exact hknown x hx
        · rw [List.length_cons]
          omega

/-- Every walk along a chain ends, and has gathered the chain up to its first repetition. -/
theorem gathers_lineage (h : Hierarchy) (a : String) : h.Gathers [] a (h.lineage a) :=
  gathers_lineageFrom List.nodup_nil (fun _ hx => absurd hx List.not_mem_nil) (Nat.le_refl _)

/-- The walk along a chain gathers the same classes each time. -/
theorem Gathers.unique (hl : h.Gathers seen a l) (hl' : h.Gathers seen a l') : l = l' := by
  induction hl generalizing l' with
  | repeated hmem =>
    cases hl' with
    | repeated => rfl
    | last hnot | next hnot => exact absurd hmem hnot
  | last hnot hnone =>
    cases hl' with
    | repeated hmem => exact absurd hmem hnot
    | last => rfl
    | next _ hsome => rw [hnone] at hsome; cases hsome
  | next hnot hsome _ ih =>
    cases hl' with
    | repeated hmem => exact absurd hmem hnot
    | last _ hnone => rw [hnone] at hsome; cases hsome
    | next _ hsome' hrest =>
      rw [hsome] at hsome'
      cases hsome'
      rw [ih hrest]

/-- The first class of a walk that is one of the ancestors is where a search along it ends. -/
theorem Gathers.meets (hl : h.Gathers seen a l) (hseen : ∀ x ∈ seen, x ∉ ancestors) :
    h.Meets ancestors seen a ((l.find? fun name => decide (name ∈ ancestors)).getD objectClass) := by
  induction hl with
  | repeated hmem => exact .repeated (hseen _ hmem) hmem
  | @last seen a hnot hnone =>
    by_cases ha : a ∈ ancestors
    · rw [List.find?_cons_of_pos (by simpa using ha)]
      exact .met ha
    · rw [List.find?_cons_of_neg (by simpa using ha)]
      exact .last ha hnot hnone
  | @next seen rest a b hnot hsome _ ih =>
    by_cases ha : a ∈ ancestors
    · rw [List.find?_cons_of_pos (by simpa using ha)]
      exact .met ha
    · rw [List.find?_cons_of_neg (by simpa using ha)]
      refine .next ha hnot hsome (ih fun x hx => ?_)
      rcases List.mem_cons.1 hx with rfl | hx
      · exact ha
      · exact hseen x hx

/-- The walk along a second chain comes to the same class each time. -/
theorem Meets.unique (hc : h.Meets ancestors seen a c) (hd : h.Meets ancestors seen a d) : c = d := by
  induction hc with
  | met hmem =>
    cases hd with
    | met => rfl
    | repeated hnot | last hnot | next hnot => exact absurd hmem hnot
  | repeated hnot hmem =>
    cases hd with
    | met hmem' => exact absurd hmem' hnot
    | repeated => rfl
    | last _ hnot' | next _ hnot' => exact absurd hmem hnot'
  | last hnot hnew hnone =>
    cases hd with
    | met hmem => exact absurd hmem hnot
    | repeated _ hmem => exact absurd hmem hnew
    | last => rfl
    | next _ _ hsome => rw [hnone] at hsome; cases hsome
  | next hnot hnew hsome _ ih =>
    cases hd with
    | met hmem => exact absurd hmem hnot
    | repeated _ hmem => exact absurd hmem hnew
    | last _ _ hnone => rw [hnone] at hsome; cases hsome
    | next _ _ hsome' hrest =>
      rw [hsome] at hsome'
      cases hsome'
      exact ih hrest

/-- Every search ends, in a hierarchy with cycles too, and it comes to the common superclass and to nothing else. -/
theorem searched_iff (h : Hierarchy) (a b c : String) : h.Searched a b c ↔ c = h.commonSuperClass a b := by
  constructor
  · intro hc
    cases hc with
    | same => exact (if_pos rfl).symm
    | met hne hgathered hmet =>
      rw [hgathered.unique (gathers_lineage h a)] at hmet
      rw [commonSuperClass, if_neg hne]
      exact hmet.unique ((gathers_lineage h b).meets fun x hx => absurd hx List.not_mem_nil)
  · rintro rfl
    unfold commonSuperClass
    by_cases hab : a = b
    · subst hab
      rw [if_pos rfl]
      exact .same
    · rw [if_neg hab]
      exact .met hab (gathers_lineage h a) ((gathers_lineage h b).meets fun x hx => absurd hx List.not_mem_nil)

/-- What a walk gathers lies on the chain. -/
theorem Gathers.onChain (hl : h.Gathers seen a l) (hb : b ∈ l) : h.OnChain a b := by
  induction hl with
  | repeated => exact absurd hb List.not_mem_nil
  | last =>
    obtain rfl := List.mem_singleton.1 hb
    exact .refl
  | next _ hsome _ ih =>
    rcases List.mem_cons.1 hb with rfl | hb
    · exact .refl
    · exact .head hsome (ih hb)

/-- A walk gathers its first class, unless it has been met. -/
theorem Gathers.head_mem (hl : h.Gathers seen a l) : a ∈ l ∨ a ∈ seen := by
  cases hl with
  | repeated hmem => exact Or.inr hmem
  | last | next => exact Or.inl List.mem_cons_self

/-- With a class a walk gathers its superclass, unless that has been met. -/
theorem Gathers.closed (hl : h.Gathers seen a l) (hb : b ∈ l) (hbc : h.Step b c) : c ∈ l ∨ c ∈ seen := by
  induction hl with
  | repeated => exact absurd hb List.not_mem_nil
  | last _ hnone =>
    obtain rfl := List.mem_singleton.1 hb
    rw [Step, hnone] at hbc
    cases hbc
  | @next seen rest a super _ hsome hrest ih =>
    have hnext : c ∈ rest ∨ c ∈ a :: seen := by
      rcases List.mem_cons.1 hb with rfl | hb
      · obtain rfl := Option.some.inj (hsome.symm.trans hbc)
        exact hrest.head_mem
      · exact ih hb
    rcases hnext with hc | hc
    · exact Or.inl (List.mem_cons_of_mem _ hc)
    · rcases List.mem_cons.1 hc with rfl | hc
      · exact Or.inl List.mem_cons_self
      · exact Or.inr hc

/-- A class and its superclasses up to the first repetition are all the classes on its chain. -/
theorem mem_lineage_iff (h : Hierarchy) (a b : String) : b ∈ h.lineage a ↔ h.OnChain a b := by
  have hgathered := gathers_lineage h a
  refine ⟨hgathered.onChain, fun hb => ?_⟩
  induction hb with
  | refl => exact hgathered.head_mem.resolve_right List.not_mem_nil
  | tail _ hstep ih => exact (hgathered.closed ih hstep).resolve_right List.not_mem_nil

/-- Where no class is its own superclass, a walk is not ended by a repetition. -/
theorem Gathers.chain (hl : h.Gathers seen a l) (hacyclic : h.Acyclic) (hseen : ∀ x ∈ seen, Relation.TransGen h.Step x a) :
    h.Chain a l := by
  induction hl with
  | repeated hmem => exact absurd (hseen _ hmem) (hacyclic _)
  | last _ hnone => exact .last hnone
  | next _ hsome _ ih =>
    refine .next hsome (ih fun x hx => ?_)
    rcases List.mem_cons.1 hx with rfl | hx
    · exact .single hsome
    · exact (hseen x hx).tail hsome

/-- Chains end where no class is among its own superclasses, and only there. -/
theorem acyclic_iff_grounded (h : Hierarchy) : h.Acyclic ↔ h.Grounded := by
  refine ⟨fun hacyclic a => ⟨_, (gathers_lineage h a).chain hacyclic fun x hx => absurd hx List.not_mem_nil⟩,
    fun hg a hcycle => ?_⟩
  obtain ⟨b, hab, hba⟩ := Relation.TransGen.head'_iff.1 hcycle
  have hmem : a ∈ h.lineage b := (h.mem_lineage_iff b a).2 hba
  have hnodup := (Chain.next hab (hg.chain b)).nodup
  exact (List.nodup_cons.1 hnodup).1 hmem

end Walks

section Nearest

variable {h : Hierarchy}

/-- Two classes above each other are one. -/
theorem Grounded.widens_antisymm (hg : h.Grounded) (hobject : h.superClass objectClass = none) {a b : String}
    (hab : h.Widens a b) (hba : h.Widens b a) : a = b :=
  ((hg.common_of_widens hobject hba).2).symm.trans (hg.common_of_widens hobject hab).1

/-- Where three classes meet does not depend on which two of them meet first. -/
theorem Grounded.common_assoc (hg : h.Grounded) (hobject : h.superClass objectClass = none) (a b c : String) :
    h.commonSuperClass (h.commonSuperClass a b) c = h.commonSuperClass a (h.commonSuperClass b c) := by
  obtain ⟨ha, hb⟩ := hg.widens_common a b
  obtain ⟨hb', hc⟩ := hg.widens_common b c
  obtain ⟨hleft, hleft'⟩ := hg.widens_common (h.commonSuperClass a b) c
  obtain ⟨hright, hright'⟩ := hg.widens_common a (h.commonSuperClass b c)
  have htrans : ∀ {x y z : String}, h.Widens x y → h.Widens y z → h.Widens x z := hg.widens_trans hobject
  exact hg.widens_antisymm hobject
    (hg.widens_of_common (hg.widens_of_common hright (htrans hb' hright')) (htrans hc hright'))
    (hg.widens_of_common (htrans ha hleft) (hg.widens_of_common (htrans hb hleft) hleft'))

/-- Where all chains end, the class that is found is the nearest common one. -/
theorem Grounded.nearest_common (hg : h.Grounded) (a b : String) : h.Nearest a b (h.commonSuperClass a b) := by
  have hcommon : h.commonSuperClass a b = objectClass ∨
      h.OnChain a (h.commonSuperClass a b) ∧ h.OnChain b (h.commonSuperClass a b) := by
    simp only [← mem_lineage_iff]
    obtain ⟨ha, hb⟩ := hg.widens_common a b
    rcases ha with ha | ha
    · rcases hb with hb | hb
      · exact Or.inr ⟨ha, hb⟩
      · exact Or.inl hb
    · exact Or.inl ha
  refine ⟨hcommon, fun d ha hb => ?_, fun hapart => hcommon.resolve_right fun hon => hapart _ hon.1 hon.2⟩
  rw [← mem_lineage_iff] at ha hb ⊢
  exact hg.mem_lineage_common ha hb

/-- Two classes of a table meet at the number of their common superclass, whatever has been merged before. -/
theorem Grounded.mergedType (hg : h.Grounded) (hobject : h.superClass objectClass = none) {types : TypeTable}
    (hr : types.Reached h)
    {i j : Nat} {a b : String} (hi : types.get? i = some (.normal a)) (hj : types.get? j = some (.normal b)) :
    ∃ k grown, types.mergedType h i j = (k, grown) ∧ types.Extends grown ∧
      grown.get? k = some (.normal (h.commonSuperClass a b)) := by
  obtain ⟨k, grown, hmerged, -, hext, hk⟩ := hr.consistent.mergedType hi hj
  refine ⟨k, grown, hmerged, hext, hk.elim id fun hk => ?_⟩
  rw [hg.common_comm hobject a b]
  exact hk

end Nearest

/-- A search for the common superclass of two classes ends in every hierarchy, and comes to one class. Where no class is
among its own superclasses and the class of all objects has none, that is the nearest common superclass; the order of classes
does not matter, and a type table finds it whatever it has merged before. -/
theorem commonSuperClass_nearest (h : Hierarchy) :
    (∀ a b c, h.Searched a b c ↔ c = h.commonSuperClass a b) ∧
      (h.Acyclic → h.superClass objectClass = none →
        (∀ a b, h.Nearest a b (h.commonSuperClass a b)) ∧
          (∀ a b, h.commonSuperClass a b = h.commonSuperClass b a) ∧
          (∀ a b c, h.commonSuperClass (h.commonSuperClass a b) c = h.commonSuperClass a (h.commonSuperClass b c)) ∧
          ∀ (types : TypeTable) (i j : Nat) (a b : String), types.Reached h → types.get? i = some (.normal a) →
            types.get? j = some (.normal b) → ∃ k grown, types.mergedType h i j = (k, grown) ∧ types.Extends grown ∧
              grown.get? k = some (.normal (h.commonSuperClass a b))) := by
  refine ⟨h.searched_iff, fun hacyclic hobject => ?_⟩
  have hg := h.acyclic_iff_grounded.1 hacyclic
  exact ⟨hg.nearest_common, hg.common_comm hobject, hg.common_assoc hobject,
    fun types i j a b hr hi hj => hg.mergedType hobject hr hi hj⟩

/-- Two classes below one of which nothing more is known. -/
def siblingClasses : Hierarchy :=
  (empty.insert "p/Left" "p/Base").insert "p/Right" "p/Base"

/-- Siblings meet at their superclass, and a table that holds them finds it. -/
theorem commonSuperClass_nearest_siblings :
    siblingClasses.Acyclic ∧ siblingClasses.superClass objectClass = none ∧
    siblingClasses.Nearest "p/Left" "p/Right" "p/Base" ∧
      ∃ (types : TypeTable) (i j : Nat), types.Reached siblingClasses ∧ types.get? i = some (.normal "p/Left") ∧
        types.get? j = some (.normal "p/Right") ∧ ∃ k grown, types.mergedType siblingClasses i j = (k, grown) ∧
          grown.get? k = some (.normal "p/Base") := by
  have hsuper : ∀ c, siblingClasses.superClass c = if "p/Right" = c then some "p/Base" else if "p/Left" = c then
    some "p/Base" else none := by
    intro c
    rw [siblingClasses, superClass_insert, superClass_insert, show empty.superClass c = none from Std.HashMap.getElem?_empty]
  have hbase : siblingClasses.Chain "p/Base" ["p/Base"] := .last (by rw [hsuper]; decide)
  have hleft : siblingClasses.Chain "p/Left" ["p/Left", "p/Base"] := .next (by rw [hsuper]; decide) hbase
  have hright : siblingClasses.Chain "p/Right" ["p/Right", "p/Base"] := .next (by rw [hsuper]; decide) hbase
  have hobject : siblingClasses.superClass objectClass = none := by
    rw [hsuper]
    decide
  have hacyclic : siblingClasses.Acyclic := by
    refine (acyclic_iff_grounded _).2 fun c => ?_
    by_cases hr : "p/Right" = c
    · exact ⟨_, hr ▸ hright⟩
    · by_cases hl : "p/Left" = c
      · exact ⟨_, hl ▸ hleft⟩
      · exact ⟨_, .last (by rw [hsuper, if_neg hr, if_neg hl])⟩
  have hcommon : siblingClasses.commonSuperClass "p/Left" "p/Right" = "p/Base" := by
    rw [commonSuperClass, hleft.lineage_eq, hright.lineage_eq]
    decide
  obtain ⟨hnearest, -, -, hmerges⟩ := (commonSuperClass_nearest siblingClasses).2 hacyclic hobject
  obtain ⟨hsound, -, hi⟩ := TypeTable.addNormal_spec TypeTable.sound_empty "p/Left"
  obtain ⟨-, hext, hj⟩ := TypeTable.addNormal_spec hsound "p/Right"
  have hi := hext.get? hi
  have hreached : TypeTable.Reached siblingClasses ((TypeTable.empty.addNormal "p/Left").2.addNormal "p/Right").2 :=
    .add _ (.add _ .empty)
  obtain ⟨k, grown, hmerged, -, hk⟩ := hmerges _ _ _ _ _ hreached hi hj
  exact ⟨hacyclic, hobject, hcommon ▸ hnearest _ _, _, _, _, hreached, hi, hj, k, grown, hmerged, hcommon ▸ hk⟩

end Hierarchy

end ClassFile
