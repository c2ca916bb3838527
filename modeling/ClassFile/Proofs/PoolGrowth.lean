import ClassFile.Constant.Pool

/-!
# What a constant pool holds

The entry that an index names, and what stays of it while the pool grows. `Built` are the pools that appending makes;
interning is looking up and appending, so every step of interning keeps a pool `Built`, only adds entries, and names an entry
that stays where it is. Indices are numbers modulo 65536, so what an index names is said of pools that fit (`Fits`).

`Ensures` says of a step what its result means in every later pool that fits.
-/

namespace ClassFile

namespace ConstantPool

/-- The entry that an index names, among entries the first of which has the index `start`. -/
def entryFrom : (start : Nat) → List Entry → Nat → Option Entry
  | _, [], _ => none
  | start, e :: rest, i => if i = start then some e else entryFrom (start + e.width) rest i

/-- The first index that names an entry, among entries the first of which has the index `start`. -/
def firstFrom : (start : Nat) → List Entry → Entry → Option Nat
  | _, [], _ => none
  | start, x :: rest, e => if x = e then some start else firstFrom (start + x.width) rest e

/-- The entry that an index names. -/
def entryAt (pool : ConstantPool) (i : Nat) : Option Entry :=
  entryFrom 1 pool.entries.toList i

/-- Number of indices that entries take. -/
def widths (es : List Entry) : Nat :=
  (es.map Entry.width).sum

/-- Whether every index of the pool fits in two bytes. -/
def Fits (pool : ConstantPool) : Prop :=
  pool.nextIndex ≤ 0xFFFF

/-- The pools that appending makes. -/
inductive Built : ConstantPool → Prop where
  | empty : Built .empty
  | append {pool : ConstantPool} (e : Entry) : Built pool → Built (pool.append e)
  | appendBootstrap {pool : ConstantPool} (b : BootstrapMethod) : Built pool → Built (pool.appendBootstrap b)

/-- A pool that holds all that another one holds, at the same places. -/
structure Extends (pool later : ConstantPool) : Prop where
  entries : pool.entries.toList <+: later.entries.toList
  bootstraps : pool.bootstraps.toList <+: later.bootstraps.toList

/-- An index names an entry. -/
def Holds (pool : ConstantPool) (i : PoolIndex) (e : Entry) : Prop :=
  pool.entryAt i.toNat = some e

/-! ## Entries by index -/

theorem width_pos (e : Entry) : 0 < e.width := by
  cases e <;> simp [Entry.width]

@[simp] theorem widths_nil : widths [] = 0 := rfl

@[simp] theorem widths_cons (e : Entry) (es : List Entry) : widths (e :: es) = e.width + widths es := rfl

@[simp] theorem widths_append (es fs : List Entry) : widths (es ++ fs) = widths es + widths fs := by
  simp [widths]

/-- Every entry takes an index. -/
theorem length_le_widths (es : List Entry) : es.length ≤ widths es := by
  induction es with
  | nil => exact Nat.le_refl 0
  | cons e rest ih =>
    have := width_pos e
    rw [List.length_cons, widths_cons]
    omega

/-- An index that names an entry lies where entries have their indices. -/
theorem entryFrom_bounds {start : Nat} {es : List Entry} {i : Nat} {e : Entry} (h : entryFrom start es i = some e) :
    start ≤ i ∧ i < start + widths es := by
  induction es generalizing start with
  | nil => cases h
  | cons x rest ih =>
    have hx := width_pos x
    rw [entryFrom] at h
    rw [widths_cons]
    split at h
    · omega
    · obtain ⟨h1, h2⟩ := ih h
      omega

/-- Entries at the end leave the indices of those before them alone. -/
theorem entryFrom_append_left {start : Nat} {es : List Entry} {i : Nat} {e : Entry} (fs : List Entry)
    (h : entryFrom start es i = some e) : entryFrom start (es ++ fs) i = some e := by
  induction es generalizing start with
  | nil => cases h
  | cons x rest ih =>
    rw [List.cons_append, entryFrom]
    rw [entryFrom] at h
    split
    · rename_i hi
      rwa [if_pos hi] at h
    · rename_i hi
      rw [if_neg hi] at h
      exact ih h

/-- Behind other entries, entries have the indices that follow. -/
theorem entryFrom_append_right (start : Nat) (es fs : List Entry) {i : Nat} (hi : start + widths es ≤ i) :
    entryFrom start (es ++ fs) i = entryFrom (start + widths es) fs i := by
  induction es generalizing start with
  | nil => rfl
  | cons x rest ih =>
    have hx := width_pos x
    rw [widths_cons] at hi
    rw [List.cons_append, entryFrom, if_neg (by omega), ih _ (by omega), widths_cons, Nat.add_assoc]

/-- The entry at the end of a list has the index behind all others. -/
theorem entryFrom_concat (start : Nat) (es : List Entry) (e : Entry) :
    entryFrom start (es ++ [e]) (start + widths es) = some e := by
  rw [entryFrom_append_right _ _ _ (Nat.le_refl _), entryFrom, if_pos rfl]

/-- Behind the first index of an entry, the indices that it takes name nothing. -/
theorem entryFrom_behind {start : Nat} {es : List Entry} {i j : Nat} {e : Entry} (h : entryFrom start es i = some e)
    (hlow : i < j) (hhigh : j < i + e.width) : entryFrom start es j = none ∧ j < start + widths es := by
  induction es generalizing start with
  | nil => cases h
  | cons x rest ih =>
    rw [entryFrom] at h ⊢
    rw [widths_cons]
    split at h
    · obtain rfl := Option.some.inj h
      rw [if_neg (by omega)]
      refine ⟨Option.eq_none_iff_forall_ne_some.2 fun f hf => ?_, by omega⟩
      have := (entryFrom_bounds hf).1
      omega
    · have hx := width_pos x
      have := (entryFrom_bounds h).1
      obtain ⟨hnone, hlt⟩ := ih h
      rw [if_neg (by omega)]
      exact ⟨hnone, by omega⟩

/-- An entry with an index is one of the entries. -/
theorem mem_of_entryFrom {start : Nat} {es : List Entry} {i : Nat} {e : Entry}
    (h : entryFrom start es i = some e) : e ∈ es := by
  induction es generalizing start with
  | nil => cases h
  | cons x rest ih =>
    rw [entryFrom] at h
    split at h
    · exact Option.some.inj h ▸ List.mem_cons_self
    · exact List.mem_cons_of_mem x (ih h)

/-- Among entries that are all different, an entry has one index. -/
theorem entryFrom_inj {start : Nat} {es : List Entry} (hes : es.Nodup) {i j : Nat} {e : Entry}
    (hi : entryFrom start es i = some e) (hj : entryFrom start es j = some e) : i = j := by
  induction es generalizing start with
  | nil => cases hi
  | cons x rest ih =>
    obtain ⟨hx, hrest⟩ := List.nodup_cons.1 hes
    rw [entryFrom] at hi hj
    split at hi
    · rename_i histart
      split at hj
      · rename_i hjstart
        rw [histart, hjstart]
      · exact absurd (mem_of_entryFrom hj) (Option.some.inj hi ▸ hx)
    · split at hj
      · exact absurd (mem_of_entryFrom hi) (Option.some.inj hj ▸ hx)
      · exact ih hrest hi hj

/-! ## Indices by entry -/

/-- An entry has no first index unless it is one of the entries. -/
theorem firstFrom_eq_none_iff {start : Nat} {es : List Entry} {e : Entry} : firstFrom start es e = none ↔ e ∉ es := by
  induction es generalizing start with
  | nil => simp [firstFrom]
  | cons x rest ih =>
    rw [firstFrom, List.mem_cons, not_or]
    split
    · rename_i hx
      simp [hx]
    · rename_i hx
      rw [ih]
      exact ⟨fun h => ⟨Ne.symm hx, h⟩, fun h => h.2⟩

/-- The first index that names an entry names it, and no smaller one does. -/
theorem firstFrom_eq_some {start : Nat} {es : List Entry} {e : Entry} {n : Nat} (h : firstFrom start es e = some n) :
    entryFrom start es n = some e ∧ ∀ m, entryFrom start es m = some e → n ≤ m := by
  induction es generalizing start with
  | nil => cases h
  | cons x rest ih =>
    have hx := width_pos x
    rw [firstFrom] at h
    split at h
    · rename_i hxe
      obtain rfl := Option.some.inj h
      exact ⟨by rw [entryFrom, if_pos rfl, hxe], fun m hm => (entryFrom_bounds hm).1⟩
    · rename_i hxe
      obtain ⟨hn, hleast⟩ := ih h
      have hlt := (entryFrom_bounds hn).1
      refine ⟨by rw [entryFrom, if_neg (by omega), hn], fun m hm => ?_⟩
      rw [entryFrom] at hm
      split at hm
      · exact absurd (Option.some.inj hm) hxe
      · exact hleast m hm

/-- Entries that stand before others are found first. -/
theorem firstFrom_append (start : Nat) (es fs : List Entry) (e : Entry) :
    firstFrom start (es ++ fs) e = (firstFrom start es e).or (firstFrom (start + widths es) fs e) := by
  induction es generalizing start with
  | nil => rfl
  | cons x rest ih =>
    rw [List.cons_append, firstFrom, firstFrom]
    split
    · rfl
    · rw [ih, widths_cons, Nat.add_assoc]

/-! ## Growth -/

@[simp] theorem entries_append (pool : ConstantPool) (e : Entry) : (pool.append e).entries = pool.entries.push e := rfl

@[simp] theorem nextIndex_append (pool : ConstantPool) (e : Entry) :
    (pool.append e).nextIndex = pool.nextIndex + e.width := rfl

@[simp] theorem bootstraps_append (pool : ConstantPool) (e : Entry) : (pool.append e).bootstraps = pool.bootstraps := rfl

@[simp] theorem entries_appendBootstrap (pool : ConstantPool) (b : BootstrapMethod) :
    (pool.appendBootstrap b).entries = pool.entries := rfl

@[simp] theorem nextIndex_appendBootstrap (pool : ConstantPool) (b : BootstrapMethod) :
    (pool.appendBootstrap b).nextIndex = pool.nextIndex := rfl

@[simp] theorem bootstraps_appendBootstrap (pool : ConstantPool) (b : BootstrapMethod) :
    (pool.appendBootstrap b).bootstraps = pool.bootstraps.push b := rfl

/-- The next index is the first one behind those that entries take. -/
theorem Built.nextIndex_eq {pool : ConstantPool} (h : pool.Built) : pool.nextIndex = 1 + widths pool.entries.toList := by
  induction h with
  | empty => rfl
  | append e _ ih => simp [ih, Nat.add_assoc]
  | appendBootstrap b _ ih => simpa using ih

theorem Extends.refl (pool : ConstantPool) : pool.Extends pool :=
  ⟨List.prefix_refl _, List.prefix_refl _⟩

theorem Extends.trans {a b c : ConstantPool} (h : a.Extends b) (h' : b.Extends c) : a.Extends c :=
  ⟨h.entries.trans h'.entries, h.bootstraps.trans h'.bootstraps⟩

/-- A pool with one more entry has all that it had. -/
theorem extends_append (pool : ConstantPool) (e : Entry) : pool.Extends (pool.append e) :=
  ⟨by simp, by simp⟩

/-- A pool with one more bootstrap method has all that it had. -/
theorem extends_appendBootstrap (pool : ConstantPool) (b : BootstrapMethod) : pool.Extends (pool.appendBootstrap b) :=
  ⟨by simp, by simp⟩

/-- What an index names stays. -/
theorem Extends.entryAt {pool later : ConstantPool} (h : pool.Extends later) {i : Nat} {e : Entry}
    (hi : pool.entryAt i = some e) : later.entryAt i = some e := by
  obtain ⟨fs, hfs⟩ := h.entries
  unfold ConstantPool.entryAt
  rw [← hfs]
  exact entryFrom_append_left fs hi

/-- Inserting what is new into a table leaves what it says. -/
theorem getElem?_insertIfNew_eq_or {κ ν : Type} [DecidableEq κ] [Hashable κ] (m : Std.HashMap κ ν) (k a : κ) (v : ν) :
    (m.insertIfNew k v)[a]? = m[a]?.or (if k = a then some v else none) := by
  rw [Std.HashMap.getElem?_insertIfNew]
  by_cases h : k = a
  · subst h
    by_cases hmem : k ∈ m
    · rw [if_neg (by simp [hmem]), Std.HashMap.getElem?_eq_some_getElem hmem, Option.some_or]
    · rw [if_pos (by simp [hmem]), if_pos rfl, Std.HashMap.getElem?_eq_none hmem, Option.none_or]
  · rw [if_neg (by simp [h]), if_neg h, Option.or_none]

/-- The look-up table finds every entry of the pool, at the number modulo 65536 of the first index that names it. -/
theorem Built.lookup_eq {pool : ConstantPool} (h : pool.Built) (e : Entry) :
    pool.lookup[e]? = (firstFrom 1 pool.entries.toList e).map Nat.toUInt16 := by
  induction h with
  | empty => simp [ConstantPool.empty, firstFrom]
  | @append pool x hp ih =>
    have hx : (pool.append x).lookup = pool.lookup.insertIfNew x pool.nextIndex.toUInt16 := rfl
    rw [hx, getElem?_insertIfNew_eq_or, ih, entries_append, Array.toList_push, firstFrom_append,
      ← hp.nextIndex_eq, Option.map_or, firstFrom]
    split <;> rfl
  | appendBootstrap b _ ih => exact ih

/-- What the look-up table says of an entry: the number modulo 65536 of an index that names it. -/
theorem Built.lookup {pool : ConstantPool} (h : pool.Built) {e : Entry} {i : PoolIndex} (hi : pool.lookup[e]? = some i) :
    ∃ n, pool.entryAt n = some e ∧ i = n.toUInt16 := by
  rw [h.lookup_eq] at hi
  obtain ⟨n, hn, rfl⟩ := Option.map_eq_some_iff.1 hi
  exact ⟨n, (firstFrom_eq_some hn).1, rfl⟩

/-- In a pool that fits, an index that names something is not cut off. -/
theorem toNat_toUInt16_of_entryAt {pool : ConstantPool} (h : pool.Built) (hf : pool.Fits) {n : Nat} {e : Entry}
    (hn : pool.entryAt n = some e) : n.toUInt16.toNat = n := by
  have hb := (entryFrom_bounds hn).2
  rw [← h.nextIndex_eq] at hb
  unfold Fits at hf
  simp only [UInt16.toNat_ofNat']
  omega

/-! ## Steps of interning -/

/-- A step of interning only lets the pool grow, and its result has a property in every later pool that fits. -/
def Ensures {α : Type} (step : Interning α) (P : α → ConstantPool → Prop) : Prop :=
  ∀ pool : ConstantPool, pool.Built → (step pool).2.Built ∧ pool.Extends (step pool).2 ∧
    ∀ later : ConstantPool, later.Built → (step pool).2.Extends later → later.Fits → P (step pool).1 later

section Steps

variable {α β : Type} {P Q : α → ConstantPool → Prop}

/-- A step that comes with an answer at once ensures that answer. -/
theorem Ensures.pure (a : α) : Ensures (Pure.pure a) fun b _ => b = a :=
  fun pool h => ⟨h, Extends.refl pool, fun _ _ _ _ => rfl⟩

/-- What a step ensures may be said more loosely. -/
theorem Ensures.mono {step : Interning α} (h : Ensures step P) (hPQ : ∀ a later, P a later → Q a later) :
    Ensures step Q := by
  intro pool hp
  obtain ⟨hb, he, hP⟩ := h pool hp
  exact ⟨hb, he, fun later hl hle hf => hPQ _ _ (hP later hl hle hf)⟩

/-- What two steps ensure, one after the other. -/
theorem Ensures.bind {step : Interning α} {next : α → Interning β} {R : α → β → ConstantPool → Prop}
    {S : β → ConstantPool → Prop} (h : Ensures step P) (hn : ∀ a, Ensures (next a) (R a))
    (hS : ∀ a b later, P a later → R a b later → S b later) : Ensures (step >>= next) S := by
  intro pool hp
  obtain ⟨hb, he, hP⟩ := h pool hp
  obtain ⟨hb', he', hR⟩ := hn (step pool).1 (step pool).2 hb
  refine ⟨hb', he.trans he', fun later hl hle hf => ?_⟩
  exact hS _ _ later (hP later hl (he'.trans hle) hf) (hR later hl hle hf)

/-- What a step ensures whose result is then changed by a function. -/
theorem Ensures.map {step : Interning α} {f : α → β} {S : β → ConstantPool → Prop} (h : Ensures step P)
    (hS : ∀ a later, P a later → S (f a) later) : Ensures (step >>= fun a => Pure.pure (f a)) S := by
  refine h.bind (fun a => Ensures.pure (f a)) fun a b later ha hb => ?_
  subst hb
  exact hS a later ha

end Steps

/-- Interning an entry gives an index that names it. -/
theorem ensures_intern (e : Entry) : Ensures (intern e) fun i later => later.Holds i e := by
  intro pool hp
  unfold intern
  split
  · rename_i i hi
    refine ⟨hp, Extends.refl pool, fun later hl hle hf => ?_⟩
    obtain ⟨n, hn, rfl⟩ := hp.lookup hi
    have hn' := hle.entryAt hn
    unfold Holds
    rw [toNat_toUInt16_of_entryAt hl hf hn']
    exact hn'
  · refine ⟨hp.append e, extends_append pool e, fun later hl hle hf => ?_⟩
    have hn : (pool.append e).entryAt pool.nextIndex = some e := by
      rw [entryAt, entries_append, Array.toList_push, hp.nextIndex_eq]
      exact entryFrom_concat 1 _ e
    have hn' := hle.entryAt hn
    change later.entryAt pool.nextIndex.toUInt16.toNat = some e
    rw [toNat_toUInt16_of_entryAt hl hf hn']
    exact hn'

/-- An index names a string. -/
def HoldsText (pool : ConstantPool) (i : PoolIndex) (text : String) : Prop :=
  pool.Holds i (.utf8 text)

/-- An index names a class. -/
def HoldsType (pool : ConstantPool) (i : PoolIndex) (name : String) : Prop :=
  ∃ j, pool.Holds i (.type j) ∧ pool.HoldsText j name

/-- A string is known once it was taken. -/
theorem ensures_utf8 (text : String) : Ensures (utf8 text) fun i later => later.HoldsText i text :=
  ensures_intern _

/-- A class is known once it was taken. -/
theorem ensures_type (name : String) : Ensures (type name) fun i later => later.HoldsType i name :=
  (ensures_utf8 name).bind (fun j => ensures_intern (.type j)) fun j _ _ hj hi => ⟨j, hi, hj⟩

end ConstantPool

end ClassFile
