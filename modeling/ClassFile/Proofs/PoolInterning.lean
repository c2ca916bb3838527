import ClassFile.Proofs.PoolConstants
import Mathlib.Data.List.Nodup

/-!
# Steps that only intern

Whatever is asked of a pool is put together from two steps, interning an entry and interning a bootstrap method
(`Interns`), so that what these two keep is kept by all. A pool that interning makes from the empty one holds nothing
twice (`Distinct`), and pools that hold the same things at the same places come with the same answers (`Agrees`), however
their look-up tables came about.
-/

namespace ClassFile

namespace ConstantPool

/-- A step that is put together from interning entries and interning bootstrap methods. -/
inductive Interns : {α : Type} → Interning α → Prop where
  | pure {α : Type} (a : α) : Interns (Pure.pure a)
  | intern (e : Entry) : Interns (intern e)
  | internBootstrap (b : BootstrapMethod) : Interns (internBootstrap b)
  | bind {α β : Type} {step : Interning α} {next : α → Interning β} :
    Interns step → (∀ a, Interns (next a)) → Interns (step >>= next)

/-- Such a step that ends with interning an entry, whose index it comes with. -/
inductive Settles : Interning PoolIndex → Prop where
  | intern (e : Entry) : Settles (intern e)
  | bind {α : Type} {step : Interning α} {next : α → Interning PoolIndex} :
    Interns step → (∀ a, Settles (next a)) → Settles (step >>= next)

/-- A pool made by appending in which no entry and no bootstrap method stands twice. -/
structure Distinct (pool : ConstantPool) : Prop where
  built : pool.Built
  entries : pool.entries.toList.Nodup
  bootstraps : pool.bootstraps.toList.Nodup

/-- Two pools made by appending that hold the same things at the same places. -/
structure Agrees (p q : ConstantPool) : Prop where
  left : p.Built
  right : q.Built
  entries : p.entries = q.entries
  bootstraps : p.bootstraps = q.bootstraps

/-! ## Interning by what the pool holds -/

section Steps

variable {α β : Type} {pool p q : ConstantPool}

/-- Interning an entry finds its first index or puts it at the end. -/
theorem Built.intern_eq (h : pool.Built) (e : Entry) : intern e pool =
    match firstFrom 1 pool.entries.toList e with
    | some n => (n.toUInt16, pool)
    | none => (pool.nextIndex.toUInt16, pool.append e) := by
  unfold intern
  rw [h.lookup_eq]
  cases firstFrom 1 pool.entries.toList e <;> rfl

/-- Interning a bootstrap method finds its first number or puts it at the end. -/
theorem Built.internBootstrap_eq (h : pool.Built) (b : BootstrapMethod) : internBootstrap b pool =
    match pool.bootstraps.toList.idxOf? b with
    | some n => (n.toUInt16, pool)
    | none => (pool.bootstraps.size.toUInt16, pool.appendBootstrap b) := by
  unfold internBootstrap
  rw [h.bootstrapLookup_eq]
  cases pool.bootstraps.toList.idxOf? b <;> rfl

/-- An entry that is interned is one of the pool's afterwards. -/
theorem Built.intern_extends (h : pool.Built) (e : Entry) : (intern e pool).2.Built ∧ pool.Extends (intern e pool).2 := by
  rw [h.intern_eq]
  split
  · exact ⟨h, Extends.refl pool⟩
  · exact ⟨h.append e, extends_append pool e⟩

/-- Asking for a bootstrap method lets a pool grow that is made by appending. -/
theorem Built.internBootstrap_extends (h : pool.Built) (b : BootstrapMethod) :
    (internBootstrap b pool).2.Built ∧ pool.Extends (internBootstrap b pool).2 := by
  rw [h.internBootstrap_eq]
  split
  · exact ⟨h, Extends.refl pool⟩
  · exact ⟨h.appendBootstrap b, extends_appendBootstrap pool b⟩

/-- Whatever is asked of a pool, what it holds stays where it is. -/
theorem Interns.extends {step : Interning α} (h : Interns step) (hp : pool.Built) :
    (step pool).2.Built ∧ pool.Extends (step pool).2 := by
  induction h generalizing pool with
  | pure a => exact ⟨hp, Extends.refl pool⟩
  | intern e => exact hp.intern_extends e
  | internBootstrap b => exact hp.internBootstrap_extends b
  | @bind _ _ step next _ _ ih ihn =>
    obtain ⟨hb, he⟩ := ih hp
    obtain ⟨hb', he'⟩ := ihn (step pool).1 hb
    exact ⟨hb', he.trans he'⟩

/-- A step that only interns lets the pool grow. -/
theorem Interns.ensures {step : Interning α} (h : Interns step) : Ensures step fun _ _ => True :=
  fun _ hp => ⟨(h.extends hp).1, (h.extends hp).2, fun _ _ _ _ => trivial⟩

/-! ## Answers are first indices -/

/-- An entry keeps its first index. -/
theorem Extends.firstFrom (h : p.Extends q) {e : Entry} {n : Nat} (hn : firstFrom 1 p.entries.toList e = some n) :
    firstFrom 1 q.entries.toList e = some n := by
  obtain ⟨es, hes⟩ := h.entries
  rw [← hes, firstFrom_append, hn, Option.some_or]

/-- An entry that is interned has the index that comes with it as its first one. -/
theorem Built.firstFrom_intern (h : pool.Built) (e : Entry) :
    ∃ n, firstFrom 1 (intern e pool).2.entries.toList e = some n ∧ (intern e pool).1 = n.toUInt16 := by
  rw [h.intern_eq]
  split
  · exact ⟨_, ‹_›, rfl⟩
  · rename_i hnew
    refine ⟨pool.nextIndex, ?_, rfl⟩
    rw [entries_append, Array.toList_push, firstFrom_append, hnew, ← h.nextIndex_eq, firstFrom, if_pos rfl, Option.none_or]

/-- A step that ends with an entry only interns. -/
theorem Settles.interns {step : Interning PoolIndex} (h : Settles step) : Interns step := by
  induction h with
  | intern e => exact .intern e
  | bind hstep _ ih => exact .bind hstep ih

/-- The index that such a step comes with stays the first index of its entry, in every later pool that fits. -/
theorem Settles.ensures {step : Interning PoolIndex} (h : Settles step) :
    Ensures step fun i later => ∃ e, firstFrom 1 later.entries.toList e = some i.toNat := by
  intro pool hp
  obtain ⟨hb, he⟩ := h.interns.extends hp
  refine ⟨hb, he, fun later hl hle hf => ?_⟩
  clear hb he
  induction h generalizing pool with
  | intern e =>
    obtain ⟨n, hn, hindex⟩ := hp.firstFrom_intern e
    have hlater := hle.firstFrom hn
    rw [hindex, toNat_toUInt16_of_entryAt hl hf (firstFrom_eq_some hlater).1]
    exact ⟨e, hlater⟩
  | @bind _ step _ hstep _ ih => exact ih (step pool).1 (step pool).2 (hstep.extends hp).1 hle

/-! ## Nothing twice -/

theorem distinct_empty : Distinct .empty :=
  ⟨.empty, List.nodup_nil, List.nodup_nil⟩

/-- Asking for an entry makes none stand twice. -/
theorem Distinct.intern (h : pool.Distinct) (e : Entry) : (intern e pool).2.Distinct := by
  rw [h.built.intern_eq]
  split
  · exact h
  · rename_i hnew
    refine ⟨h.built.append e, ?_, h.bootstraps⟩
    rw [entries_append, Array.toList_push, ← List.concat_eq_append]
    exact h.entries.concat (firstFrom_eq_none_iff.1 hnew)

/-- Asking for a bootstrap method makes none stand twice. -/
theorem Distinct.internBootstrap (h : pool.Distinct) (b : BootstrapMethod) : (internBootstrap b pool).2.Distinct := by
  rw [h.built.internBootstrap_eq]
  split
  · exact h
  · rename_i hnew
    refine ⟨h.built.appendBootstrap b, h.entries, ?_⟩
    rw [bootstraps_appendBootstrap, Array.toList_push, ← List.concat_eq_append]
    exact h.bootstraps.concat (List.idxOf?_eq_none_iff.1 hnew)

/-- Whatever is asked of a pool, nothing comes to stand in it twice. -/
theorem Interns.distinct {step : Interning α} (h : Interns step) (hp : pool.Distinct) : (step pool).2.Distinct := by
  induction h generalizing pool with
  | pure a => exact hp
  | intern e => exact hp.intern e
  | internBootstrap b => exact hp.internBootstrap b
  | bind _ _ ih ihn => exact ihn _ (ih hp)

/-! ## The same answers -/

/-- Pools that agree have the same index next. -/
theorem Agrees.nextIndex (h : Agrees p q) : p.nextIndex = q.nextIndex := by
  rw [h.left.nextIndex_eq, h.right.nextIndex_eq, h.entries]

/-- Pools that agree answer alike, and go on agreeing. -/
theorem Agrees.intern (h : Agrees p q) (e : Entry) :
    (intern e p).1 = (intern e q).1 ∧ Agrees (intern e p).2 (intern e q).2 := by
  rw [h.left.intern_eq, h.right.intern_eq, h.entries]
  split
  · exact ⟨rfl, h⟩
  · exact ⟨congrArg Nat.toUInt16 h.nextIndex, h.left.append e, h.right.append e, congrArg (·.push e) h.entries, h.bootstraps⟩

/-- Pools that agree number a bootstrap method alike, and go on agreeing. -/
theorem Agrees.internBootstrap (h : Agrees p q) (b : BootstrapMethod) :
    (internBootstrap b p).1 = (internBootstrap b q).1 ∧ Agrees (internBootstrap b p).2 (internBootstrap b q).2 := by
  rw [h.left.internBootstrap_eq, h.right.internBootstrap_eq, h.bootstraps]
  split
  · exact ⟨rfl, h⟩
  · exact ⟨rfl, h.left.appendBootstrap b, h.right.appendBootstrap b, h.entries, congrArg (·.push b) h.bootstraps⟩

/-- Whatever is asked of two pools that hold the same, they come with the same answer and hold the same afterwards. -/
theorem Interns.agrees {step : Interning α} (h : Interns step) (ha : Agrees p q) :
    (step p).1 = (step q).1 ∧ Agrees (step p).2 (step q).2 := by
  induction h generalizing p q with
  | pure a => exact ⟨rfl, ha⟩
  | intern e => exact ha.intern e
  | internBootstrap b => exact ha.internBootstrap b
  | @bind _ _ step next _ _ ih ihn =>
    obtain ⟨hsame, ha'⟩ := ih ha
    have hnext := ihn (step p).1 ha'
    change (next (step p).1 (step p).2).1 = (next (step q).1 (step q).2).1 ∧
      Agrees (next (step p).1 (step p).2).2 (next (step q).1 (step q).2).2
    rwa [← hsame]

/-! ## What is asked of a pool -/

/-- Steps that only intern do so for each of a list. -/
theorem Interns.mapM {f : β → Interning α} (h : ∀ x, Interns (f x)) (xs : List β) : Interns (xs.mapM f) := by
  induction xs with
  | nil => exact .pure []
  | cons x xs ih =>
    rw [List.mapM_cons]
    exact (h x).bind fun a => ih.bind fun as => .pure (a :: as)

/-- A class ends with its own entry. -/
theorem settles_type (name : String) : Settles (type name) :=
  .bind (.intern _) fun j => .intern (.type j)

/-- A string constant ends with its own entry. -/
theorem settles_string (text : String) : Settles (string text) :=
  .bind (.intern _) fun j => .intern (.string j)

theorem settles_methodType (descriptor : String) : Settles (methodType descriptor) :=
  .bind (.intern _) fun j => .intern (.methodType j)

theorem settles_moduleName (name : String) : Settles (moduleName name) :=
  .bind (.intern _) fun j => .intern (.moduleName j)

theorem settles_packageName (name : String) : Settles (packageName name) :=
  .bind (.intern _) fun j => .intern (.packageName j)

theorem settles_nameAndType (name descriptor : String) : Settles (nameAndType name descriptor) :=
  .bind (.intern _) fun j => .bind (.intern _) fun k => .intern (.nameAndType j k)

theorem settles_fieldRef (owner name descriptor : String) : Settles (fieldRef owner name descriptor) :=
  .bind (settles_type owner).interns fun j => .bind (settles_nameAndType name descriptor).interns fun k =>
    .intern (.fieldRef j k)

theorem settles_methodRef (owner name descriptor : String) (interface : Bool) :
    Settles (methodRef owner name descriptor interface) :=
  .bind (settles_type owner).interns fun j => .bind (settles_nameAndType name descriptor).interns fun k =>
    .intern (.methodRef j k interface)

theorem settles_methodHandle (handle : MethodHandle) : Settles (methodHandle handle) := by
  unfold methodHandle
  dsimp only
  split
  · exact .bind (settles_fieldRef _ _ _).interns fun j => .intern (.methodHandle handle.kind j)
  · exact .bind (settles_methodRef _ _ _ _).interns fun j => .intern (.methodHandle handle.kind j)

mutual

theorem settles_constant : ∀ value : ConstantValue, Settles (constant value)
  | .integer value => by
    simp only [constant]
    exact .intern _
  | .float bits => by
    simp only [constant]
    exact .intern _
  | .long value => by
    simp only [constant]
    exact .intern _
  | .double bits => by
    simp only [constant]
    exact .intern _
  | .string text => by
    simp only [constant]
    exact settles_string text
  | .type name => by
    simp only [constant]
    exact settles_type name
  | .methodType descriptor => by
    simp only [constant]
    exact settles_methodType descriptor
  | .methodHandle handle => by
    simp only [constant]
    exact settles_methodHandle handle
  | .dynamic name descriptor bootstrap arguments => by
    simp only [constant]
    exact .bind (settles_methodHandle bootstrap).interns fun handle => .bind (interns_constants arguments) fun is =>
      .bind (.internBootstrap ⟨handle, is⟩) fun k => .bind (settles_nameAndType name descriptor).interns fun j =>
        .intern (.dynamic k j)

/-- Constants only intern. -/
theorem interns_constants : ∀ values : List ConstantValue, Interns (constants values)
  | [] => by
    simp only [constants]
    exact .pure []
  | value :: rest => by
    simp only [constants]
    exact .bind (settles_constant value).interns fun i => .bind (interns_constants rest) fun is => .pure (i :: is)

end

/-- A bootstrap method only interns its handle, its arguments and itself. -/
theorem interns_bootstrapMethod (handle : MethodHandle) (arguments : List ConstantValue) :
    Interns (bootstrapMethod handle arguments) :=
  .bind (settles_methodHandle handle).interns fun handle => .bind (interns_constants arguments) fun is =>
    .internBootstrap ⟨handle, is⟩

theorem settles_callSite (name descriptor : String) (handle : MethodHandle) (arguments : List ConstantValue) :
    Settles (callSite name descriptor handle arguments) :=
  .bind (interns_bootstrapMethod handle arguments) fun k => .bind (settles_nameAndType name descriptor).interns fun j =>
    .intern (.callSite k j)

end Steps

end ConstantPool

end ClassFile
