import ClassFile.Proofs.PoolInterning
import Mathlib.Data.Fintype.Card

/-!
# Bootstrap methods of a pool that fits

A bootstrap method is put into the pool for an entry that names it. So in a pool that interning makes there is an entry for
every number of a bootstrap method (`Accounted`), and if all indices fit in two bytes, then so do these numbers. Between a
bootstrap method and its entry the pool owes one number.
-/

namespace ClassFile

/-- The number of the bootstrap method that an entry names. -/
def Entry.bootstrap? : Entry → Option UInt16
  | dynamic k _ | callSite k _ => some k
  | _ => none

namespace ConstantPool

/-- An entry names the bootstrap method of a number. -/
def Accounts (pool : ConstantPool) (k : UInt16) : Prop :=
  ∃ e ∈ pool.entries.toList, e.bootstrap? = some k

/-- A pool that appending makes, with an entry for every bootstrap method but those of one number. -/
structure Owing (k : UInt16) (pool : ConstantPool) : Prop where
  built : pool.Built
  accounts : ∀ n < pool.bootstraps.size, n.toUInt16 = k ∨ pool.Accounts n.toUInt16

/-- A pool that appending makes, with an entry for every bootstrap method. -/
structure Sound (pool : ConstantPool) : Prop where
  built : pool.Built
  accounts : ∀ n < pool.bootstraps.size, pool.Accounts n.toUInt16

/-- A step of interning leads from pools of one kind to pools of another one, which hold as much and more. -/
def Leads {α : Type} (step : Interning α) (P Q : ConstantPool → Prop) : Prop :=
  ∀ pool, P pool → Q (step pool).2 ∧ pool.Extends (step pool).2

/-- A step that only interns and lets a sound pool grow. -/
structure Grows {α : Type} (step : Interning α) : Prop where
  interns : Interns step
  leads : Leads step Sound Sound

section Leads

variable {α β : Type} {P Q R : ConstantPool → Prop} {pool : ConstantPool} {k : UInt16}

/-- A step that comes with an answer at once leads nowhere. -/
theorem Leads.pure (a : α) : Leads (Pure.pure a) P P :=
  fun pool h => ⟨h, Extends.refl pool⟩

/-- Steps lead on one after the other. -/
theorem Leads.bind {step : Interning α} {next : α → Interning β} (h : Leads step P Q) (hn : ∀ a, Leads (next a) Q R) :
    Leads (step >>= next) P R := by
  intro pool hp
  obtain ⟨hq, he⟩ := h pool hp
  obtain ⟨hr, he'⟩ := hn (step pool).1 (step pool).2 hq
  exact ⟨hr, he.trans he'⟩

/-- What an entry names is named when another one is added. -/
theorem Accounts.append (h : pool.Accounts k) (e : Entry) : (pool.append e).Accounts k := by
  obtain ⟨x, hx, hk⟩ := h
  refine ⟨x, ?_, hk⟩
  rw [entries_append, Array.toList_push]
  exact List.mem_append_left _ hx

/-- A sound pool owes nothing, whatever the number. -/
theorem Sound.owing (h : pool.Sound) (k : UInt16) : pool.Owing k :=
  ⟨h.built, fun n hn => Or.inr (h.accounts n hn)⟩

theorem sound_empty : Sound .empty :=
  ⟨.empty, fun n hn => absurd hn (Nat.not_lt_zero n)⟩

/-- Any entry leaves a pool that owes what it owed, or less. -/
theorem leads_intern_owing (e : Entry) (k : UInt16) : Leads (intern e) (Owing k) (Owing k) := by
  intro pool hp
  unfold intern
  split
  · exact ⟨hp, Extends.refl pool⟩
  · exact ⟨⟨hp.built.append e, fun n hn => (hp.accounts n hn).imp_right (·.append e)⟩, extends_append pool e⟩

/-- An entry lets a sound pool grow. -/
theorem grows_intern (e : Entry) : Grows (intern e) := by
  refine ⟨.intern e, fun pool hp => ?_⟩
  unfold intern
  split
  · exact ⟨hp, Extends.refl pool⟩
  · exact ⟨⟨hp.built.append e, fun n hn => (hp.accounts n hn).append e⟩, extends_append pool e⟩

/-- The entry that a number was owed to. -/
theorem leads_intern_settle {e : Entry} (he : e.bootstrap? = some k) : Leads (intern e) (Owing k) Sound := by
  intro pool hp
  unfold intern
  split
  · rename_i i hi
    obtain ⟨n, hn, -⟩ := hp.built.lookup hi
    refine ⟨⟨hp.built, fun m hm => (hp.accounts m hm).elim (fun hk => ?_) id⟩, Extends.refl pool⟩
    exact ⟨e, mem_of_entryFrom hn, hk ▸ he⟩
  · refine ⟨⟨hp.built.append e, fun m hm => (hp.accounts m hm).elim (fun hk => ?_) (·.append e)⟩, extends_append pool e⟩
    refine ⟨e, ?_, hk ▸ he⟩
    rw [entries_append, Array.toList_push]
    exact List.mem_append_right _ List.mem_cons_self

/-- A bootstrap method is put into the pool, and then the entry that names it. -/
theorem grows_internBootstrap (b : BootstrapMethod) (next : UInt16 → Interning α) (hi : ∀ k, Interns (next k))
    (hn : ∀ k, Leads (next k) (Owing k) Sound) : Grows (internBootstrap b >>= next) := by
  refine ⟨.bind (.internBootstrap b) hi, fun pool hp => ?_⟩
  have hstep : (internBootstrap b pool).2.Owing (internBootstrap b pool).1 ∧ pool.Extends (internBootstrap b pool).2 := by
    unfold internBootstrap
    split
    · exact ⟨hp.owing _, Extends.refl pool⟩
    · refine ⟨⟨hp.built.appendBootstrap b, fun n hn => ?_⟩, extends_appendBootstrap pool b⟩
      rw [bootstraps_appendBootstrap, Array.size_push] at hn
      by_cases h : n = pool.bootstraps.size
      · exact Or.inl (by rw [h])
      · exact Or.inr (hp.accounts n (by omega))
  obtain ⟨hr, he⟩ := hn _ _ hstep.1
  exact ⟨hr, hstep.2.trans he⟩

/-! ## Steps of interning -/

theorem Grows.pure (a : α) : Grows (Pure.pure a) :=
  ⟨.pure a, Leads.pure a⟩

/-- Steps that let a pool grow do so one after the other. -/
theorem Grows.bind {step : Interning α} {next : α → Interning β} (h : Grows step) (hn : ∀ a, Grows (next a)) :
    Grows (step >>= next) :=
  ⟨.bind h.interns fun a => (hn a).interns, Leads.bind h.leads fun a => (hn a).leads⟩

/-- Steps that let a pool grow do so for each of a list. -/
theorem Grows.mapM {f : β → Interning α} (h : ∀ x, Grows (f x)) (xs : List β) : Grows (xs.mapM f) := by
  induction xs with
  | nil => exact Grows.pure []
  | cons x xs ih =>
    rw [List.mapM_cons]
    exact (h x).bind fun a => ih.bind fun as => Grows.pure _

/-- A step that lets a pool grow does so where there is something. -/
theorem Grows.optionMapM {f : β → Interning α} (h : ∀ x, Grows (f x)) (x : Option β) : Grows (x.mapM f) := by
  cases x with
  | none => exact Grows.pure none
  | some x => exact (h x).bind fun a => Grows.pure _

/-- A string lets a sound pool grow. -/
theorem grows_utf8 (text : String) : Grows (utf8 text) :=
  grows_intern _

theorem grows_type (name : String) : Grows (type name) :=
  (grows_utf8 name).bind fun j => grows_intern (.type j)

theorem grows_string (text : String) : Grows (string text) :=
  (grows_utf8 text).bind fun j => grows_intern (.string j)

theorem grows_methodType (descriptor : String) : Grows (methodType descriptor) :=
  (grows_utf8 descriptor).bind fun j => grows_intern (.methodType j)

theorem grows_nameAndType (name descriptor : String) : Grows (nameAndType name descriptor) :=
  (grows_utf8 name).bind fun j => (grows_utf8 descriptor).bind fun k => grows_intern (.nameAndType j k)

theorem grows_fieldRef (owner name descriptor : String) : Grows (fieldRef owner name descriptor) :=
  (grows_type owner).bind fun j => (grows_nameAndType name descriptor).bind fun k => grows_intern (.fieldRef j k)

theorem grows_methodRef (owner name descriptor : String) (interface : Bool) :
    Grows (methodRef owner name descriptor interface) :=
  (grows_type owner).bind fun j => (grows_nameAndType name descriptor).bind fun k => grows_intern (.methodRef j k interface)

theorem grows_methodHandle (handle : MethodHandle) : Grows (methodHandle handle) := by
  unfold methodHandle
  dsimp only
  split
  · exact (grows_fieldRef _ _ _).bind fun j => grows_intern (.methodHandle handle.kind j)
  · exact (grows_methodRef _ _ _ _).bind fun j => grows_intern (.methodHandle handle.kind j)

/-- An entry that names a name and a type only interns. -/
theorem interns_named (name descriptor : String) (entry : PoolIndex → Entry) :
    Interns (nameAndType name descriptor >>= fun j => intern (entry j)) :=
  .bind (settles_nameAndType name descriptor).interns fun j => .intern (entry j)

/-- A name and type, and then the entry that was owed. -/
theorem leads_named (name descriptor : String) {entry : PoolIndex → Entry} (h : ∀ j, (entry j).bootstrap? = some k) :
    Leads (nameAndType name descriptor >>= fun j => intern (entry j)) (Owing k) Sound :=
  ((leads_intern_owing _ k).bind fun _ => (leads_intern_owing _ k).bind fun _ => leads_intern_owing _ k).bind
    fun j => leads_intern_settle (h j)

mutual

theorem grows_constant : ∀ value : ConstantValue, Grows (constant value)
  | .integer value => by
    simp only [constant]
    exact grows_intern _
  | .float bits => by
    simp only [constant]
    exact grows_intern _
  | .long value => by
    simp only [constant]
    exact grows_intern _
  | .double bits => by
    simp only [constant]
    exact grows_intern _
  | .string text => by
    simp only [constant]
    exact grows_string text
  | .type name => by
    simp only [constant]
    exact grows_type name
  | .methodType descriptor => by
    simp only [constant]
    exact grows_methodType descriptor
  | .methodHandle handle => by
    simp only [constant]
    exact grows_methodHandle handle
  | .dynamic name descriptor bootstrap arguments => by
    simp only [constant]
    exact (grows_methodHandle bootstrap).bind fun handle => (grows_constants arguments).bind fun arguments =>
      grows_internBootstrap ⟨handle, arguments⟩ _ (fun k => interns_named name descriptor (.dynamic k))
        fun k => leads_named name descriptor fun j => rfl

theorem grows_constants : ∀ values : List ConstantValue, Grows (constants values)
  | [] => by
    simp only [constants]
    exact Grows.pure []
  | value :: rest => by
    simp only [constants]
    exact (grows_constant value).bind fun i => (grows_constants rest).bind fun is => Grows.pure _

end

theorem grows_callSite (name descriptor : String) (handle : MethodHandle) (arguments : List ConstantValue) :
    Grows (callSite name descriptor handle arguments) := by
  have hsite := (grows_methodHandle handle).bind fun handle => (grows_constants arguments).bind fun arguments =>
    grows_internBootstrap ⟨handle, arguments⟩ (fun k => nameAndType name descriptor >>= fun j => intern (.callSite k j))
      (fun k => interns_named name descriptor (.callSite k)) fun k => leads_named name descriptor fun j => rfl
  unfold callSite bootstrapMethod
  simpa only [bind_assoc] using hsite

end Leads

/-- In a pool that fits, the numbers of all bootstrap methods fit too. -/
theorem Sound.bootstraps_le {pool : ConstantPool} (h : pool.Sound) (hf : pool.Fits) : pool.bootstraps.size ≤ 0xFFFF := by
  by_contra hlarge
  have hnamed : ∀ n : Fin 65536, ∃ i : Fin pool.entries.toList.length,
      pool.entries.toList[i].bootstrap? = some n.val.toUInt16 := by
    intro n
    obtain ⟨e, he, hk⟩ := h.accounts n.val (by have := n.isLt; omega)
    obtain ⟨i, hi, rfl⟩ := List.getElem_of_mem he
    exact ⟨⟨i, hi⟩, hk⟩
  choose index hindex using hnamed
  have hinjective : Function.Injective index := by
    intro n k hnk
    have hsame := (hindex n).symm.trans (hnk ▸ hindex k)
    have hn := n.isLt
    have hk := k.isLt
    have := congrArg UInt16.toNat (Option.some.inj hsame)
    simp only [UInt16.toNat_ofNat'] at this
    exact Fin.ext (by omega)
  have hcard := Fintype.card_le_of_injective index hinjective
  simp only [Fintype.card_fin] at hcard
  have := length_le_widths pool.entries.toList
  have := h.built.nextIndex_eq
  unfold Fits at hf
  omega

end ConstantPool

end ClassFile
