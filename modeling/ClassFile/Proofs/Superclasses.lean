import ClassFile.Hierarchy.Basic
import Mathlib.Data.List.Nodup
import Mathlib.Data.List.Perm.Subperm

/-!
# Chains of superclasses

Where every chain of superclasses ends, the chain of a class is the class itself and the chain of its superclass, and a class
can be widened to the classes on its chain and to the class of all objects. Two classes meet at a class to which both can be
widened, and at one of them if the other can be widened to it.
-/

namespace ClassFile

namespace Hierarchy

/-- The superclasses of a class, from the class itself up to one that has none. -/
inductive Chain (h : Hierarchy) : String → List String → Prop where
  | last {name : String} : h.superClass name = none → Chain h name [name]
  | next {name super : String} {rest : List String} : h.superClass name = some super → Chain h super rest →
      Chain h name (name :: rest)

/-- Every chain of superclasses ends. -/
def Grounded (h : Hierarchy) : Prop :=
  ∀ name, ∃ classes, h.Chain name classes

/-- Where nothing is known of classes, every chain ends at once. -/
theorem grounded_empty : empty.Grounded :=
  fun name => ⟨[name], .last Std.HashMap.getElem?_empty⟩

/-- A class that is told has the superclass that was told last. -/
theorem superClass_insert (h : Hierarchy) (a b c : String) :
    (h.insert a b).superClass c = if a = c then some b else h.superClass c := by
  simp [superClass, Hierarchy.insert, Std.HashMap.getElem?_insert]

section Chains

variable {h : Hierarchy} {a b c : String} {l l' : List String}

/-- A class has one chain of superclasses. -/
theorem Chain.unique (hl : h.Chain a l) (hl' : h.Chain a l') : l = l' := by
  induction hl generalizing l' with
  | last hnone =>
    cases hl' with
    | last => rfl
    | next hsome => rw [hnone] at hsome; cases hsome
  | next hsome _ ih =>
    cases hl' with
    | last hnone => rw [hnone] at hsome; cases hsome
    | next hsome' hrest =>
      rw [hsome] at hsome'
      cases hsome'
      rw [ih hrest]

/-- A chain starts with its class. -/
theorem Chain.head? (hl : h.Chain a l) : l.head? = some a := by
  cases hl <;> rfl

/-- A class is on its own chain. -/
theorem Chain.head_mem (hl : h.Chain a l) : a ∈ l :=
  List.mem_of_head? hl.head?

/-- The chain of a class on a chain is the rest of that chain. -/
theorem Chain.suffix (hl : h.Chain a l) (hb : b ∈ l) : ∃ l', h.Chain b l' ∧ l' <:+ l := by
  induction hl with
  | last hnone =>
    obtain rfl := List.mem_singleton.1 hb
    exact ⟨_, .last hnone, List.suffix_rfl⟩
  | next hsome hrest ih =>
    rcases List.mem_cons.1 hb with rfl | hb
    · exact ⟨_, .next hsome hrest, List.suffix_rfl⟩
    · obtain ⟨l', hl', hsuffix⟩ := ih hb
      exact ⟨l', hl', hsuffix.trans (List.suffix_cons _ _)⟩

/-- What follows a class on a chain is the chain of that class. -/
theorem Chain.of_append {front rest : List String} (hl : h.Chain a (front ++ b :: rest)) : h.Chain b (b :: rest) := by
  induction front generalizing a with
  | nil =>
    obtain rfl : b = a := Option.some.inj hl.head?
    exact hl
  | cons x front ih =>
    generalize hlist : x :: front ++ b :: rest = l at hl
    cases hl with
    | last => simp at hlist
    | next _ hrest =>
      obtain ⟨-, rfl⟩ := List.cons.inj hlist
      exact ih hrest

/-- A chain that ends meets no class twice. -/
theorem Chain.nodup (hl : h.Chain a l) : l.Nodup := by
  induction hl with
  | last => exact List.nodup_singleton _
  | @next name super rest hsome hrest ih =>
    refine List.nodup_cons.2 ⟨fun hmem => ?_, ih⟩
    obtain ⟨l', hl', hsuffix⟩ := hrest.suffix hmem
    have hlength := hsuffix.length_le
    rw [hl'.unique (.next hsome hrest)] at hlength
    exact absurd hlength (Nat.not_succ_le_self _)

/-- All classes of a chain but the last are known. -/
theorem Chain.known (hl : h.Chain a l) : ∀ x ∈ l.dropLast, x ∈ h.supers := by
  induction hl with
  | last => exact fun x hx => nomatch hx
  | @next name super rest hsome hrest ih =>
    intro x hx
    have hne : rest ≠ [] := List.ne_nil_of_mem hrest.head_mem
    rw [List.dropLast_cons_of_ne_nil hne] at hx
    rcases List.mem_cons.1 hx with rfl | hx
    · rw [Std.HashMap.mem_iff_isSome_getElem?]
      exact Option.isSome_of_eq_some hsome
    · exact ih x hx

/-- A chain is no longer than there are classes, and one more. -/
theorem Chain.length_le (hl : h.Chain a l) : l.length ≤ h.size + 1 := by
  have hsub : l.dropLast ⊆ h.supers.keys := fun x hx => Std.HashMap.mem_keys.2 (hl.known x hx)
  have hnodup : l.dropLast.Nodup := hl.nodup.sublist (List.dropLast_sublist l)
  have hlength := (hnodup.subperm hsub).length_le
  rw [List.length_dropLast, Std.HashMap.length_keys] at hlength
  exact Nat.le_add_of_sub_le hlength

/-- A chain is followed to its end. -/
theorem Chain.lineageFrom_eq (hl : h.Chain a l) {fuel : Nat} {seen : List String} (hfuel : l.length ≤ fuel)
    (hseen : ∀ x ∈ l, x ∉ seen) : h.lineageFrom fuel seen a = l := by
  induction hl generalizing fuel seen with
  | last hnone =>
    obtain ⟨fuel, rfl⟩ := Nat.exists_eq_add_of_le' hfuel
    rw [List.length_singleton, lineageFrom, if_neg (hseen _ List.mem_cons_self), hnone]
  | @next name super rest hsome hrest ih =>
    obtain ⟨fuel, rfl⟩ := Nat.exists_eq_add_of_le' hfuel
    rw [List.length_cons, ← Nat.add_assoc, lineageFrom, if_neg (hseen _ List.mem_cons_self), hsome]
    refine congrArg _ (ih (Nat.le_add_left _ _) fun x hx hmem => ?_)
    rcases List.mem_cons.1 hmem with rfl | hmem
    · exact (List.nodup_cons.1 (Chain.next hsome hrest).nodup).1 hx
    · exact hseen x (List.mem_cons_of_mem _ hx) hmem

/-- The lineage of a class is its chain. -/
theorem Chain.lineage_eq (hl : h.Chain a l) : h.lineage a = l :=
  hl.lineageFrom_eq hl.length_le fun _ _ => List.not_mem_nil

end Chains

section Grounded

variable {h : Hierarchy} {a b c : String}

/-- Where chains end, the lineage of a class is its chain. -/
theorem Grounded.chain (hg : h.Grounded) (a : String) : h.Chain a (h.lineage a) := by
  obtain ⟨l, hl⟩ := hg a
  rw [hl.lineage_eq]
  exact hl

/-- A superclass of a superclass is a superclass. -/
theorem Grounded.mem_trans (hg : h.Grounded) (hb : b ∈ h.lineage a) (hc : c ∈ h.lineage b) : c ∈ h.lineage a := by
  obtain ⟨l', hl', hsuffix⟩ := (hg.chain a).suffix hb
  rw [hl'.lineage_eq] at hc
  exact hsuffix.subset hc

/-- The chain of a superclass is shorter. -/
theorem Grounded.length_lt (hg : h.Grounded) (hb : b ∈ h.lineage a) (hne : b ≠ a) :
    (h.lineage b).length < (h.lineage a).length := by
  obtain ⟨l', hl', hsuffix⟩ := (hg.chain a).suffix hb
  rw [hl'.lineage_eq]
  refine Nat.lt_of_le_of_ne hsuffix.length_le fun he => hne ?_
  have hhead := hl'.head?
  rw [hsuffix.eq_of_length he, (hg.chain a).head?] at hhead
  exact (Option.some.inj hhead).symm

/-- A class can be widened to its superclasses and to the class of all objects. -/
def Widens (h : Hierarchy) (a b : String) : Prop :=
  b ∈ h.lineage a ∨ b = objectClass

/-- A class can be widened to itself. -/
theorem Grounded.widens_refl (hg : h.Grounded) (a : String) : h.Widens a a :=
  Or.inl (hg.chain a).head_mem

/-- The class of all objects can be widened to itself only. -/
theorem lineage_objectClass (hobject : h.superClass objectClass = none) : h.lineage objectClass = [objectClass] :=
  (Chain.last hobject).lineage_eq

/-- A class can be widened step by step. -/
theorem Grounded.widens_trans (hg : h.Grounded) (hobject : h.superClass objectClass = none) (hb : h.Widens a b)
    (hc : h.Widens b c) : h.Widens a c := by
  rcases hc with hc | rfl
  · rcases hb with hb | rfl
    · exact Or.inl (hg.mem_trans hb hc)
    · rw [lineage_objectClass hobject, List.mem_singleton] at hc
      exact Or.inr hc
  · exact Or.inr rfl

/-- Two classes meet at a class to which both can be widened. -/
theorem Grounded.widens_common (hg : h.Grounded) (a b : String) :
    h.Widens a (h.commonSuperClass a b) ∧ h.Widens b (h.commonSuperClass a b) := by
  unfold commonSuperClass
  by_cases hab : a = b
  · subst hab
    rw [if_pos rfl]
    exact ⟨hg.widens_refl a, hg.widens_refl a⟩
  · rw [if_neg hab]
    dsimp only
    cases hfind : (h.lineage b).find? (fun name => decide (name ∈ h.lineage a)) with
    | none => exact ⟨Or.inr rfl, Or.inr rfl⟩
    | some name =>
      have hmem : name ∈ h.lineage a := by simpa using List.find?_some hfind
      exact ⟨Or.inl hmem, Or.inl (List.mem_of_find?_eq_some hfind)⟩

/-- What lies on the chains of two classes lies on the chain of the class at which they meet. -/
theorem Grounded.mem_lineage_common (hg : h.Grounded) (ha : c ∈ h.lineage a) (hb : c ∈ h.lineage b) :
    c ∈ h.lineage (h.commonSuperClass a b) := by
  unfold commonSuperClass
  by_cases hab : a = b
  · rw [if_pos hab]
    exact ha
  · rw [if_neg hab]
    dsimp only
    cases hfind : (h.lineage b).find? (fun name => decide (name ∈ h.lineage a)) with
    | none => exact absurd ha (by simpa using List.find?_eq_none.1 hfind c hb)
    | some x =>
      obtain ⟨-, front, rest, hsplit, hfront⟩ := List.find?_eq_some_iff_append.1 hfind
      have hchain := hg.chain b
      rw [hsplit] at hchain hb
      rw [Option.getD_some, hchain.of_append.lineage_eq]
      refine (List.mem_append.1 hb).resolve_left fun hmem => ?_
      exact absurd ha (by simpa using hfront c hmem)

/-- Two classes meet below all classes to which both can be widened. -/
theorem Grounded.widens_of_common (hg : h.Grounded) (ha : h.Widens a c) (hb : h.Widens b c) :
    h.Widens (h.commonSuperClass a b) c := by
  rcases ha with ha | rfl
  · rcases hb with hb | rfl
    · exact Or.inl (hg.mem_lineage_common ha hb)
    · exact Or.inr rfl
  · exact Or.inr rfl

/-- The first class on a chain that also lies on the chain of one of them is that one. -/
theorem Grounded.find?_chain (hg : h.Grounded) {l : List String} (hl : h.Chain a l) (hb : b ∈ l) :
    l.find? (fun name => decide (name ∈ h.lineage b)) = some b := by
  induction hl with
  | last =>
    obtain rfl := List.mem_singleton.1 hb
    simp [(hg.chain b).head_mem]
  | @next name super rest hsome hrest ih =>
    have hname : h.lineage name = name :: rest := (Chain.next hsome hrest).lineage_eq
    by_cases hmem : name ∈ h.lineage b
    · rw [List.find?_cons_of_pos (by simpa using hmem)]
      by_contra hne
      have hne : b ≠ name := fun e => hne (congrArg some e.symm)
      have hlt := hg.length_lt hmem (Ne.symm hne)
      have hgt := hg.length_lt (hname ▸ hb) hne
      exact absurd hlt (Nat.lt_asymm hgt)
    · rw [List.find?_cons_of_neg (by simpa using hmem)]
      refine ih ((List.mem_cons.1 hb).resolve_left ?_)
      rintro rfl
      exact hmem (hg.chain b).head_mem

/-- Classes meet at one of them if the other can be widened to it. -/
theorem Grounded.common_of_widens (hg : h.Grounded) (hobject : h.superClass objectClass = none) (hb : h.Widens a b) :
    h.commonSuperClass a b = b ∧ h.commonSuperClass b a = b := by
  by_cases hab : a = b
  · subst hab
    exact ⟨if_pos rfl, if_pos rfl⟩
  unfold commonSuperClass
  rw [if_neg hab, if_neg (Ne.symm hab)]
  dsimp only
  rcases hb with hb | rfl
  · constructor
    · have hfirst : (h.lineage b).find? (fun name => decide (name ∈ h.lineage a)) = some b := by
        have hhead := (hg.chain b).head?
        cases hlineage : h.lineage b with
        | nil => rw [hlineage] at hhead; cases hhead
        | cons x rest =>
          rw [hlineage] at hhead
          obtain rfl := Option.some.inj hhead
          exact List.find?_cons_of_pos (by simpa using hb)
      rw [hfirst]
      rfl
    · rw [hg.find?_chain (hg.chain a) hb]
      rfl
  · rw [lineage_objectClass hobject]
    constructor
    · rw [List.find?_singleton]
      split <;> rfl
    · cases hfind : (h.lineage a).find? (fun name => decide (name ∈ [objectClass])) with
      | none => rfl
      | some x => simpa using List.find?_some hfind

/-- What a class can be widened to is the class of all objects or has a shorter chain. -/
theorem Grounded.length_lt_of_widens (hg : h.Grounded) (hb : h.Widens a b) (hne : b ≠ a) (hobject : b ≠ objectClass) :
    (h.lineage b).length < (h.lineage a).length :=
  hg.length_lt (hb.resolve_right hobject) hne

end Grounded

end Hierarchy

end ClassFile
