import ClassFile.Draft.Field
import ClassFile.Proofs.ClassLayout
import ClassFile.Proofs.PoolInterning

/-!
# Asking again

A pool knows the answer to a request if asking gives it and adds nothing (`ConstantPool.Knows`). What was once interned is
known to every later pool (`Interns.recalls`), whoever made that pool: only what it holds counts. So a class whose constants
are all known is written without a new one.
-/

namespace ClassFile

namespace ConstantPool

variable {α β : Type} {pool : ConstantPool}

/-- A pool knows the answer to a request: asking gives the answer and adds nothing to the pool. -/
def Knows (pool : ConstantPool) (step : Interning α) (a : α) : Prop :=
  step pool = (a, pool)

section Knows

variable {step : Interning α} {a b : α} {P : α → ConstantPool → Prop}

/-- A step that comes with an answer at once is known. -/
theorem knows_pure (a : α) : pool.Knows (Pure.pure a) a :=
  rfl

/-- Steps that are known are so one after the other. -/
theorem Knows.bind {next : α → Interning β} {b : β} (h : pool.Knows step a) (hn : pool.Knows (next a) b) :
    pool.Knows (step >>= next) b := by
  change next (step pool).1 (step pool).2 = _
  rw [h]
  exact hn

/-- What is made of an answer is known with it. -/
theorem Knows.map (f : α → β) (h : pool.Knows step a) : pool.Knows (step >>= fun a => Pure.pure (f a)) (f a) :=
  h.bind (knows_pure (f a))

/-- A request has one answer only. -/
theorem Knows.unique (h : pool.Knows step a) (h' : pool.Knows step b) : a = b :=
  congrArg Prod.fst (h.symm.trans h')

/-- What is ensured of an answer holds of one that is known. -/
theorem Knows.ensured (h : pool.Knows step a) (hb : pool.Built) (hf : pool.Fits) (hs : Ensures step P) : P a pool := by
  obtain ⟨-, -, hP⟩ := hs pool hb
  rw [h] at hP
  exact hP pool hb (Extends.refl pool) hf

/-- A string that is known stands in the pool. -/
theorem Knows.holdsText {i : PoolIndex} {text : String} (h : pool.Knows (utf8 text) i) (hb : pool.Built) (hf : pool.Fits) :
    pool.HoldsText i text :=
  h.ensured hb hf (ensures_utf8 text)

/-- A class that is known stands in the pool. -/
theorem Knows.holdsType {i : PoolIndex} {name : String} (h : pool.Knows (type name) i) (hb : pool.Built) (hf : pool.Fits) :
    pool.HoldsType i name :=
  h.ensured hb hf (ensures_type name)

end Knows

/-! ## What was interned is known later -/

/-- A step and then another, each of which is ensured what the one before is. -/
theorem Ensures.andThen {step : Interning α} {next : α → Interning β} {P : α → ConstantPool → Prop}
    {S : β → ConstantPool → Prop}
    (h : Ensures step P) (hn : ∀ a, Ensures (next a) fun b later => P a later → S b later) : Ensures (step >>= next) S :=
  h.bind hn fun _ _ _ hP hS => hS hP

/-- An entry is known once it was asked for. -/
theorem recalls_intern (e : Entry) : Ensures (intern e) fun i later => later.Knows (intern e) i := by
  intro pool hp
  obtain ⟨hbuilt, hle⟩ := hp.intern_extends e
  obtain ⟨n, hn, hindex⟩ := hp.firstFrom_intern e
  refine ⟨hbuilt, hle, fun later hlater hext _ => ?_⟩
  change intern e later = _
  rw [hlater.intern_eq, hext.firstFrom hn, hindex]

/-- A bootstrap method is known once it was asked for. -/
theorem recalls_internBootstrap (b : BootstrapMethod) :
    Ensures (internBootstrap b) fun k later => later.Knows (internBootstrap b) k := by
  intro pool hp
  obtain ⟨hbuilt, hle⟩ := hp.internBootstrap_extends b
  refine ⟨hbuilt, hle, fun later hlater hext _ => ?_⟩
  have hfound : ∃ n, (internBootstrap b pool).2.bootstraps.toList.idxOf? b = some n ∧
    (internBootstrap b pool).1 = n.toUInt16 := by
    rw [hp.internBootstrap_eq]
    split
    · exact ⟨_, ‹_›, rfl⟩
    · rename_i hnew
      refine ⟨pool.bootstraps.size, ?_, rfl⟩
      rw [List.idxOf?] at hnew
      rw [bootstraps_appendBootstrap, Array.toList_push, List.idxOf?, List.findIdx?_append, hnew]
      simp
  obtain ⟨n, hn, hnumber⟩ := hfound
  obtain ⟨more, hmore⟩ := hext.bootstraps
  change internBootstrap b later = _
  rw [List.idxOf?] at hn
  rw [hlater.internBootstrap_eq, ← hmore, List.idxOf?, List.findIdx?_append, hn, Option.some_or, hnumber]

/-- What was once interned is known to every later pool. -/
theorem Interns.recalls {step : Interning α} (h : Interns step) : Ensures step fun a later => later.Knows step a := by
  induction h with
  | pure a => exact (Ensures.pure a).mono fun _ _ h => h ▸ knows_pure _
  | intern e => exact recalls_intern e
  | internBootstrap b => exact recalls_internBootstrap b
  | bind _ _ ih ihn => exact ih.bind ihn fun _ _ _ h hn => h.bind hn

/-- A step that only interns does so where there is something. -/
theorem Interns.optionMapM {f : β → Interning α} (h : ∀ x, Interns (f x)) (x : Option β) : Interns (x.mapM f) := by
  cases x with
  | none => exact .pure none
  | some x => exact (h x).bind fun a => .pure (some a)

theorem recalls_utf8 (text : String) : Ensures (utf8 text) fun i later => later.Knows (utf8 text) i :=
  recalls_intern (.utf8 text)

theorem recalls_type (name : String) : Ensures (type name) fun i later => later.Knows (type name) i :=
  (settles_type name).interns.recalls

end ConstantPool

end ClassFile
