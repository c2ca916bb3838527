import ClassFile.Proofs.PoolGrowth
import Mathlib.Data.List.Forall2

/-!
# What interning a value puts into the pool

A value is interned as an entry that names others: a member its owner, its name and its descriptor, a method handle its
member, a dynamic constant its bootstrap method and the arguments of that, which are values again. Each relation here says
that an index names an entry from which the whole value can be gathered, and each step of interning ensures its relation.

Bootstrap methods have numbers of two bytes too, so what a number names is said of pools with fewer than 65536 of them.
-/

namespace ClassFile

namespace ConstantPool

/-! ## Relations between indices and values -/

/-- An index names a string constant. -/
def HoldsString (pool : ConstantPool) (i : PoolIndex) (text : String) : Prop :=
  ∃ j, pool.Holds i (.string j) ∧ pool.HoldsText j text

/-- An index names the type of a method. -/
def HoldsMethodType (pool : ConstantPool) (i : PoolIndex) (descriptor : String) : Prop :=
  ∃ j, pool.Holds i (.methodType j) ∧ pool.HoldsText j descriptor

/-- An index names a name and a descriptor. -/
def HoldsNameAndType (pool : ConstantPool) (i : PoolIndex) (name descriptor : String) : Prop :=
  ∃ j k, pool.Holds i (.nameAndType j k) ∧ pool.HoldsText j name ∧ pool.HoldsText k descriptor

/-- An index names a field. -/
def HoldsField (pool : ConstantPool) (i : PoolIndex) (owner name descriptor : String) : Prop :=
  ∃ j k, pool.Holds i (.fieldRef j k) ∧ pool.HoldsType j owner ∧ pool.HoldsNameAndType k name descriptor

/-- An index names a method. -/
def HoldsMethod (pool : ConstantPool) (i : PoolIndex) (r : MemberRef) : Prop :=
  ∃ j k, pool.Holds i (.methodRef j k r.interface) ∧ pool.HoldsType j r.owner ∧
    pool.HoldsNameAndType k r.name r.descriptor

/-- An index names a method handle. -/
def HoldsHandle (pool : ConstantPool) (i : PoolIndex) (handle : MethodHandle) : Prop :=
  ∃ j, pool.Holds i (.methodHandle handle.kind j) ∧
    if handle.kind.isField then pool.HoldsField j handle.member.owner handle.member.name handle.member.descriptor
    else pool.HoldsMethod j handle.member

/-- A number names a bootstrap method, unless there are more of them than numbers. -/
def HoldsBootstrap (pool : ConstantPool) (k : UInt16) (b : BootstrapMethod) : Prop :=
  pool.bootstraps.size ≤ 0xFFFF → pool.bootstraps[k.toNat]? = some b

mutual

/-- An index names a value. -/
def HoldsConstant (pool : ConstantPool) (i : PoolIndex) : ConstantValue → Prop
  | .integer value => pool.Holds i (.integer value)
  | .float bits => pool.Holds i (.float bits)
  | .long value => pool.Holds i (.long value)
  | .double bits => pool.Holds i (.double bits)
  | .string text => pool.HoldsString i text
  | .type name => pool.HoldsType i name
  | .methodType descriptor => pool.HoldsMethodType i descriptor
  | .methodHandle handle => pool.HoldsHandle i handle
  | .dynamic name descriptor bootstrap arguments =>
    ∃ k j b, pool.Holds i (.dynamic k j) ∧ pool.HoldsNameAndType j name descriptor ∧ pool.HoldsBootstrap k b ∧
      pool.HoldsHandle b.handle bootstrap ∧ HoldsConstants pool b.arguments arguments

/-- Indices name values, one each. -/
def HoldsConstants (pool : ConstantPool) : List PoolIndex → List ConstantValue → Prop
  | [], [] => True
  | i :: is, value :: values => HoldsConstant pool i value ∧ HoldsConstants pool is values
  | _, _ => False

end

/-- An index names the call site of a dynamic invocation. -/
def HoldsCallSite (pool : ConstantPool) (i : PoolIndex) (name descriptor : String) (handle : MethodHandle)
    (arguments : List ConstantValue) : Prop :=
  ∃ k j b, pool.Holds i (.callSite k j) ∧ pool.HoldsNameAndType j name descriptor ∧ pool.HoldsBootstrap k b ∧
    pool.HoldsHandle b.handle handle ∧ pool.HoldsConstants b.arguments arguments

/-! ## Steps of interning -/

section Steps

variable {α β : Type} {P : α → ConstantPool → Prop}

/-- A step for every item of a list. -/
theorem Ensures.mapM {f : β → Interning α} {R : β → α → ConstantPool → Prop} (h : ∀ x, Ensures (f x) (R x)) (xs : List β) :
    Ensures (xs.mapM f) fun is later => List.Forall₂ (fun x i => R x i later) xs is := by
  induction xs with
  | nil => exact (Ensures.pure []).mono fun _ _ ha => ha ▸ List.Forall₂.nil
  | cons x xs ih =>
    rw [List.mapM_cons]
    refine (h x).bind (R := fun i l later => ∃ is, l = i :: is ∧ List.Forall₂ (fun x i => R x i later) xs is)
      (fun i => ih.map fun is _ his => ⟨is, rfl, his⟩) ?_
    rintro i _ later hi ⟨is, rfl, his⟩
    exact List.Forall₂.cons hi his

/-- A step for a value that may be missing. -/
theorem Ensures.optionMapM {f : β → Interning α} {R : β → α → ConstantPool → Prop} (h : ∀ x, Ensures (f x) (R x))
    (x : Option β) : Ensures (x.mapM f) fun i later => Option.Rel (fun x i => R x i later) x i := by
  cases x with
  | none => exact (Ensures.pure none).mono fun _ _ ha => ha ▸ Option.Rel.none
  | some x => exact (h x).map fun _ _ hi => Option.Rel.some hi

/-- A string constant is known once it was taken. -/
theorem ensures_string (text : String) : Ensures (string text) fun i later => later.HoldsString i text :=
  (ensures_utf8 text).bind (fun j => ensures_intern (.string j)) fun j _ _ hj hi => ⟨j, hi, hj⟩

/-- The type of a method is known once it was taken. -/
theorem ensures_methodType (descriptor : String) :
    Ensures (methodType descriptor) fun i later => later.HoldsMethodType i descriptor :=
  (ensures_utf8 descriptor).bind (fun j => ensures_intern (.methodType j)) fun j _ _ hj hi => ⟨j, hi, hj⟩

/-- A name and its descriptor are known once they were taken. -/
theorem ensures_nameAndType (name descriptor : String) :
    Ensures (nameAndType name descriptor) fun i later => later.HoldsNameAndType i name descriptor :=
  (ensures_utf8 name).bind
    (fun j => (ensures_utf8 descriptor).bind (fun k => ensures_intern (.nameAndType j k))
      (S := fun i later => ∃ k, later.Holds i (.nameAndType j k) ∧ later.HoldsText k descriptor)
      fun k _ _ hk hi => ⟨k, hi, hk⟩)
    fun j _ _ hj ⟨k, hi, hk⟩ => ⟨j, k, hi, hj, hk⟩

theorem ensures_fieldRef (owner name descriptor : String) :
    Ensures (fieldRef owner name descriptor) fun i later => later.HoldsField i owner name descriptor :=
  (ensures_type owner).bind
    (fun j => (ensures_nameAndType name descriptor).bind (fun k => ensures_intern (.fieldRef j k))
      (S := fun i later => ∃ k, later.Holds i (.fieldRef j k) ∧ later.HoldsNameAndType k name descriptor)
      fun k _ _ hk hi => ⟨k, hi, hk⟩)
    fun j _ _ hj ⟨k, hi, hk⟩ => ⟨j, k, hi, hj, hk⟩

theorem ensures_methodRef (r : MemberRef) :
    Ensures (methodRef r.owner r.name r.descriptor r.interface) fun i later => later.HoldsMethod i r :=
  (ensures_type r.owner).bind
    (fun j => (ensures_nameAndType r.name r.descriptor).bind (fun k => ensures_intern (.methodRef j k r.interface))
      (S := fun i later => ∃ k, later.Holds i (.methodRef j k r.interface) ∧
        later.HoldsNameAndType k r.name r.descriptor)
      fun k _ _ hk hi => ⟨k, hi, hk⟩)
    fun j _ _ hj ⟨k, hi, hk⟩ => ⟨j, k, hi, hj, hk⟩

theorem ensures_methodHandle (handle : MethodHandle) :
    Ensures (methodHandle handle) fun i later => later.HoldsHandle i handle := by
  obtain ⟨kind, owner, name, descriptor, interface⟩ := handle
  unfold methodHandle HoldsHandle
  dsimp only
  split
  · exact (ensures_fieldRef owner name descriptor).bind (fun j => ensures_intern (.methodHandle kind j))
      fun j _ _ hj hi => ⟨j, hi, hj⟩
  · exact (ensures_methodRef ⟨owner, name, descriptor, interface⟩).bind (fun j => ensures_intern (.methodHandle kind j))
      fun j _ _ hj hi => ⟨j, hi, hj⟩

/-- The look-up table finds every bootstrap method, at the number modulo 65536 at which it stands first. -/
theorem Built.bootstrapLookup_eq {pool : ConstantPool} (h : pool.Built) (b : BootstrapMethod) :
    pool.bootstrapLookup[b]? = (pool.bootstraps.toList.idxOf? b).map Nat.toUInt16 := by
  induction h with
  | empty => simp [ConstantPool.empty]
  | append e _ ih => exact ih
  | @appendBootstrap pool x _ ih =>
    have hx : (pool.appendBootstrap x).bootstrapLookup =
        pool.bootstrapLookup.insertIfNew x pool.bootstraps.size.toUInt16 := rfl
    rw [hx, getElem?_insertIfNew_eq_or, ih, bootstraps_appendBootstrap, Array.toList_push, List.idxOf?,
      List.findIdx?_append, Option.map_or, List.findIdx?_singleton]
    by_cases hxb : x = b <;> simp [hxb]

/-- What the look-up table says of a bootstrap method: the number modulo 65536 at which it stands. -/
theorem Built.bootstrapLookup {pool : ConstantPool} (h : pool.Built) {b : BootstrapMethod} {k : UInt16}
    (hk : pool.bootstrapLookup[b]? = some k) : ∃ n : Nat, pool.bootstraps[n]? = some b ∧ k = n.toUInt16 := by
  rw [h.bootstrapLookup_eq] at hk
  obtain ⟨n, hn, rfl⟩ := Option.map_eq_some_iff.1 hk
  obtain ⟨hlt, hfound, -⟩ := List.idxOf?_eq_some_iff.1 hn
  exact ⟨n, by rw [← Array.getElem?_toList, List.getElem?_eq_getElem hlt, hfound], rfl⟩

/-- A bootstrap method stays at its number. -/
theorem Extends.bootstrap {pool later : ConstantPool} (h : pool.Extends later) {n : Nat} {b : BootstrapMethod}
    (hn : pool.bootstraps[n]? = some b) : later.bootstraps[n]? = some b := by
  obtain ⟨bs, hbs⟩ := h.bootstraps
  rw [← Array.getElem?_toList] at hn ⊢
  obtain ⟨hlt, -⟩ := List.getElem?_eq_some_iff.1 hn
  rw [← hbs, List.getElem?_append_left hlt, hn]

/-- A bootstrap method is named by its number. -/
theorem holdsBootstrap_of_getElem? {pool : ConstantPool} {n : Nat} {b : BootstrapMethod}
    (hn : pool.bootstraps[n]? = some b) : pool.HoldsBootstrap n.toUInt16 b := by
  intro hs
  obtain ⟨hlt, -⟩ := Array.getElem?_eq_some_iff.1 hn
  have : n.toUInt16.toNat = n := by
    rw [UInt16.toNat_ofNat']
    omega
  rw [this, hn]

theorem ensures_internBootstrap (b : BootstrapMethod) :
    Ensures (internBootstrap b) fun k later => later.HoldsBootstrap k b := by
  intro pool hp
  unfold internBootstrap
  split
  · rename_i k hk
    refine ⟨hp, Extends.refl pool, fun later _ hle _ => ?_⟩
    obtain ⟨n, hn, rfl⟩ := hp.bootstrapLookup hk
    exact holdsBootstrap_of_getElem? (hle.bootstrap hn)
  · refine ⟨hp.appendBootstrap b, extends_appendBootstrap pool b, fun later _ hle _ => ?_⟩
    exact holdsBootstrap_of_getElem? (hle.bootstrap (by simp))

/-- Gathering a bootstrap method: its handle, its arguments, and then the method itself. -/
theorem Ensures.bootstrapWith {arguments : Interning (List PoolIndex)} {values : List ConstantValue}
    (h : Ensures arguments fun is later => later.HoldsConstants is values) (handle : MethodHandle) :
    Ensures (do
        let handle ← methodHandle handle
        let arguments ← arguments
        internBootstrap ⟨handle, arguments⟩)
      fun k later => ∃ b, later.HoldsBootstrap k b ∧ later.HoldsHandle b.handle handle ∧
        later.HoldsConstants b.arguments values := by
  refine (ensures_methodHandle handle).bind (R := fun i k later => ∃ is, later.HoldsBootstrap k ⟨i, is⟩ ∧
    later.HoldsConstants is values) (fun i => ?_) ?_
  · exact h.bind (fun is => ensures_internBootstrap ⟨i, is⟩) fun is _ _ his hk => ⟨is, hk, his⟩
  · rintro i k later hi ⟨is, hk, his⟩
    exact ⟨⟨i, is⟩, hk, hi, his⟩

mutual

/-- Interning a value gives an index that names it. -/
theorem ensures_constant : ∀ value : ConstantValue, Ensures (constant value) fun i later => later.HoldsConstant i value
  | .integer value => by
    simp only [constant, HoldsConstant]
    exact ensures_intern _
  | .float bits => by
    simp only [constant, HoldsConstant]
    exact ensures_intern _
  | .long value => by
    simp only [constant, HoldsConstant]
    exact ensures_intern _
  | .double bits => by
    simp only [constant, HoldsConstant]
    exact ensures_intern _
  | .string text => by
    simp only [constant, HoldsConstant]
    exact ensures_string text
  | .type name => by
    simp only [constant, HoldsConstant]
    exact ensures_type name
  | .methodType descriptor => by
    simp only [constant, HoldsConstant]
    exact ensures_methodType descriptor
  | .methodHandle handle => by
    simp only [constant, HoldsConstant]
    exact ensures_methodHandle handle
  | .dynamic name descriptor bootstrap arguments => by
    simp only [constant, HoldsConstant]
    have hb := (ensures_constants arguments).bootstrapWith bootstrap
    have hd := hb.bind (fun k => (ensures_nameAndType name descriptor).bind (fun j => ensures_intern (.dynamic k j))
        (S := fun i later => ∃ j, later.Holds i (.dynamic k j) ∧ later.HoldsNameAndType j name descriptor)
        fun j _ _ hj hi => ⟨j, hi, hj⟩)
      (S := fun i later => ∃ k j b, later.Holds i (.dynamic k j) ∧ later.HoldsNameAndType j name descriptor ∧
        later.HoldsBootstrap k b ∧ later.HoldsHandle b.handle bootstrap ∧ later.HoldsConstants b.arguments arguments)
      fun k _ _ ⟨b, hk, hh, ha⟩ ⟨j, hi, hj⟩ => ⟨k, j, b, hi, hj, hk, hh, ha⟩
    simpa only [bind_assoc] using hd

/-- Interning values gives indices that name them, one each. -/
theorem ensures_constants : ∀ values : List ConstantValue,
    Ensures (constants values) fun is later => later.HoldsConstants is values
  | [] => by
    simp only [constants]
    exact (Ensures.pure []).mono fun _ _ h => h ▸ trivial
  | value :: rest => by
    simp only [constants]
    refine (ensures_constant value).bind (R := fun i l later => ∃ is, l = i :: is ∧ later.HoldsConstants is rest)
      (fun i => (ensures_constants rest).map fun is _ his => ⟨is, rfl, his⟩) ?_
    rintro i _ later hi ⟨is, rfl, his⟩
    exact ⟨hi, his⟩

end

/-- A bootstrap method is known with its handle and its arguments. -/
theorem ensures_bootstrapMethod (handle : MethodHandle) (arguments : List ConstantValue) :
    Ensures (bootstrapMethod handle arguments) fun k later => ∃ b, later.HoldsBootstrap k b ∧
      later.HoldsHandle b.handle handle ∧ later.HoldsConstants b.arguments arguments :=
  (ensures_constants arguments).bootstrapWith handle

/-- A dynamic call is known with its bootstrap method. -/
theorem ensures_callSite (name descriptor : String) (handle : MethodHandle) (arguments : List ConstantValue) :
    Ensures (callSite name descriptor handle arguments) fun i later =>
      later.HoldsCallSite i name descriptor handle arguments :=
  (ensures_bootstrapMethod handle arguments).bind
    (fun k => (ensures_nameAndType name descriptor).bind (fun j => ensures_intern (.callSite k j))
      (S := fun i later => ∃ j, later.Holds i (.callSite k j) ∧ later.HoldsNameAndType j name descriptor)
      fun j _ _ hj hi => ⟨j, hi, hj⟩)
    fun k _ _ ⟨b, hk, hh, ha⟩ ⟨j, hi, hj⟩ => ⟨k, j, b, hi, hj, hk, hh, ha⟩

end Steps

end ConstantPool

end ClassFile
