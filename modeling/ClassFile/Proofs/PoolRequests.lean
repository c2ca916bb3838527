import ClassFile.Proofs.PoolInterning
import ClassFile.Proofs.PoolReading

/-!
# Interning is canonical

A pool is asked for strings, values, members and so on (`Request`), and answers with the place of what was asked for
(`Place`): an index, or the number of a bootstrap method. After any requests to the empty pool nothing stands in it twice,
every answer is the place of just what was asked for, two answers are the same exactly if the same was asked for, and nothing
that stood in the pool has moved (`askAll_canonical`).

A class file does not say of a field in a method handle whether its owner is an interface. So what is asked for is taken
without that (`Request.plain`).
-/

namespace ClassFile

/-- A method handle without what a class file does not say: whether the owner of a field is an interface. -/
def MethodHandle.plain (handle : MethodHandle) : MethodHandle :=
  if handle.kind.isField then { handle with member := { handle.member with interface := false } } else handle

namespace ConstantValue

mutual

/-- A value all of whose handles are plain. -/
def plain : ConstantValue → ConstantValue
  | methodHandle handle => methodHandle handle.plain
  | dynamic name descriptor bootstrap arguments => dynamic name descriptor bootstrap.plain (plainAll arguments)
  | integer value => integer value
  | float bits => float bits
  | long value => long value
  | double bits => double bits
  | string text => string text
  | type name => type name
  | methodType descriptor => methodType descriptor

/-- Values all of whose handles are plain. -/
def plainAll : List ConstantValue → List ConstantValue
  | [] => []
  | value :: rest => value.plain :: plainAll rest

end

@[simp] theorem tag_plain (value : ConstantValue) : value.plain.tag = value.tag := by
  cases value <;> simp [plain, tag]

end ConstantValue

/-- What a pool can be asked for. A class, a string, a method type, a method handle, a dynamic constant and a number are
asked for as the values that they are. -/
inductive ConstantPool.Request where
  | utf8 (text : String)
  | constant (value : ConstantValue)
  | nameAndType (name descriptor : String)
  | fieldRef (owner name descriptor : String)
  | methodRef (member : MemberRef)
  | moduleName (name : String)
  | packageName (name : String)
  | callSite (name descriptor : String) (handle : MethodHandle) (arguments : List ConstantValue)
  | bootstrapMethod (handle : MethodHandle) (arguments : List ConstantValue)

/-- Where in a pool something stands: an entry by its index, a bootstrap method by its number. -/
inductive Place where
  | entry (index : PoolIndex)
  | bootstrap (number : UInt16)
  deriving DecidableEq, Repr

/-- Which of the things that a pool can be asked for an entry is; all values are one. -/
def Entry.family : Entry → Nat
  | utf8 _ => 0
  | nameAndType _ _ => 1
  | fieldRef _ _ => 2
  | methodRef _ _ _ => 3
  | moduleName _ => 4
  | packageName _ => 5
  | callSite _ _ => 6
  | _ => 7

namespace ConstantPool.Request

/-- Which of the things that a pool can be asked for a request is for. -/
def family : Request → Nat
  | utf8 _ => 0
  | nameAndType _ _ => 1
  | fieldRef _ _ _ => 2
  | methodRef _ => 3
  | moduleName _ => 4
  | packageName _ => 5
  | callSite _ _ _ _ => 6
  | constant _ => 7
  | bootstrapMethod _ _ => 8

/-- What is asked for, without what a class file does not say of it. -/
def plain : Request → Request
  | constant value => constant value.plain
  | callSite name descriptor handle arguments => callSite name descriptor handle.plain (ConstantValue.plainAll arguments)
  | bootstrapMethod handle arguments => bootstrapMethod handle.plain (ConstantValue.plainAll arguments)
  | utf8 text => utf8 text
  | nameAndType name descriptor => nameAndType name descriptor
  | fieldRef owner name descriptor => fieldRef owner name descriptor
  | methodRef member => methodRef member
  | moduleName name => moduleName name
  | packageName name => packageName name

@[simp] theorem family_plain (r : Request) : r.plain.family = r.family := by
  cases r <;> rfl

/-- The place of what is asked for, which is put into the pool if the pool lacks it. -/
def ask : Request → Interning Place
  | utf8 text => do return .entry (← ConstantPool.utf8 text)
  | constant value => do return .entry (← ConstantPool.constant value)
  | nameAndType name descriptor => do return .entry (← ConstantPool.nameAndType name descriptor)
  | fieldRef owner name descriptor => do return .entry (← ConstantPool.fieldRef owner name descriptor)
  | methodRef r => do return .entry (← ConstantPool.methodRef r.owner r.name r.descriptor r.interface)
  | moduleName name => do return .entry (← ConstantPool.moduleName name)
  | packageName name => do return .entry (← ConstantPool.packageName name)
  | callSite name descriptor handle arguments => do return .entry (← ConstantPool.callSite name descriptor handle arguments)
  | bootstrapMethod handle arguments => do return .bootstrap (← ConstantPool.bootstrapMethod handle arguments)

/-- The places of what is asked for, one request after the other. -/
def askAll (requests : List Request) : Interning (List Place) :=
  requests.mapM ask

end ConstantPool.Request

namespace ConstantPool

/-- At a place of a pool stands what was asked for, with everything it refers to. -/
def Answers (pool : ConstantPool) (p : Place) : Request → Prop
  | .utf8 text => ∃ i, p = .entry i ∧ pool.HoldsText i text
  | .constant value => ∃ i, p = .entry i ∧ pool.HoldsConstant i value
  | .nameAndType name descriptor => ∃ i, p = .entry i ∧ pool.HoldsNameAndType i name descriptor
  | .fieldRef owner name descriptor => ∃ i, p = .entry i ∧ pool.HoldsField i owner name descriptor
  | .methodRef r => ∃ i, p = .entry i ∧ pool.HoldsMethod i r
  | .moduleName name => ∃ i j, p = .entry i ∧ pool.Holds i (.moduleName j) ∧ pool.HoldsText j name
  | .packageName name => ∃ i j, p = .entry i ∧ pool.Holds i (.packageName j) ∧ pool.HoldsText j name
  | .callSite name descriptor handle arguments => ∃ i, p = .entry i ∧ pool.HoldsCallSite i name descriptor handle arguments
  | .bootstrapMethod handle arguments =>
    ∃ k b, p = .bootstrap k ∧ pool.HoldsBootstrap k b ∧ pool.HoldsHandle b.handle handle ∧
      pool.HoldsConstants b.arguments arguments

/-! ## Requests are answered -/

/-- A request for an entry is answered by an index, and one for a bootstrap method by a number. -/
theorem ask_eq (r : Request) : (∃ step, Settles step ∧ r.ask = (step >>= fun i => pure (.entry i))) ∨
    ∃ step, Interns step ∧ r.ask = (step >>= fun k => pure (.bootstrap k)) := by
  cases r with
  | utf8 text => exact .inl ⟨_, .intern _, rfl⟩
  | constant value => exact .inl ⟨_, settles_constant value, rfl⟩
  | nameAndType name descriptor => exact .inl ⟨_, settles_nameAndType name descriptor, rfl⟩
  | fieldRef owner name descriptor => exact .inl ⟨_, settles_fieldRef owner name descriptor, rfl⟩
  | methodRef r => exact .inl ⟨_, settles_methodRef r.owner r.name r.descriptor r.interface, rfl⟩
  | moduleName name => exact .inl ⟨_, settles_moduleName name, rfl⟩
  | packageName name => exact .inl ⟨_, settles_packageName name, rfl⟩
  | callSite name descriptor handle arguments => exact .inl ⟨_, settles_callSite name descriptor handle arguments, rfl⟩
  | bootstrapMethod handle arguments => exact .inr ⟨_, interns_bootstrapMethod handle arguments, rfl⟩

/-- Every request only interns. -/
theorem interns_ask (r : Request) : Interns r.ask := by
  rcases ask_eq r with ⟨step, hstep, hr⟩ | ⟨step, hstep, hr⟩
  · rw [hr]
    exact .bind hstep.interns fun i => .pure _
  · rw [hr]
    exact .bind hstep fun k => .pure _

/-- An index that answers a request stays the first index of its entry. -/
theorem ensures_first (r : Request) : Ensures r.ask fun p later => ∀ i, p = .entry i →
    ∃ e, firstFrom 1 later.entries.toList e = some i.toNat := by
  rcases ask_eq r with ⟨step, hstep, hr⟩ | ⟨step, hstep, hr⟩
  · rw [hr]
    exact hstep.ensures.map fun i later h j hj => Place.entry.inj hj ▸ h
  · rw [hr]
    exact hstep.ensures.map fun k later _ j hj => nomatch hj

/-- Requests only intern. -/
theorem interns_askAll (requests : List Request) : Interns (Request.askAll requests) :=
  .mapM interns_ask requests

/-- What was asked for stands where the answer says. -/
theorem ensures_ask (r : Request) : Ensures r.ask fun p later => later.Answers p r := by
  cases r with
  | utf8 text => exact (ensures_utf8 text).map fun i _ h => ⟨i, rfl, h⟩
  | constant value => exact (ensures_constant value).map fun i _ h => ⟨i, rfl, h⟩
  | nameAndType name descriptor => exact (ensures_nameAndType name descriptor).map fun i _ h => ⟨i, rfl, h⟩
  | fieldRef owner name descriptor => exact (ensures_fieldRef owner name descriptor).map fun i _ h => ⟨i, rfl, h⟩
  | methodRef r => exact (ensures_methodRef r).map fun i _ h => ⟨i, rfl, h⟩
  | moduleName name =>
    exact ((ensures_utf8 name).bind (fun j => ensures_intern (.moduleName j))
      (S := fun i later => ∃ j, later.Holds i (.moduleName j) ∧ later.HoldsText j name)
      fun j _ _ hj hi => ⟨j, hi, hj⟩).map fun i _ h => h.elim fun j h => ⟨i, j, rfl, h.1, h.2⟩
  | packageName name =>
    exact ((ensures_utf8 name).bind (fun j => ensures_intern (.packageName j))
      (S := fun i later => ∃ j, later.Holds i (.packageName j) ∧ later.HoldsText j name)
      fun j _ _ hj hi => ⟨j, hi, hj⟩).map fun i _ h => h.elim fun j h => ⟨i, j, rfl, h.1, h.2⟩
  | callSite name descriptor handle arguments =>
    exact (ensures_callSite name descriptor handle arguments).map fun i _ h => ⟨i, rfl, h⟩
  | bootstrapMethod handle arguments =>
    exact (ensures_bootstrapMethod handle arguments).map fun k _ h => h.elim fun b h => ⟨k, b, rfl, h.1, h.2.1, h.2.2⟩

/-- Every request of several is answered by what stands at its place in the end. -/
theorem ensures_askAll (requests : List Request) :
    Ensures (Request.askAll requests) fun places later => List.Forall₂ (fun r p => later.Answers p r) requests places :=
  .mapM ensures_ask requests

/-- Every index among the answers is the first index of its entry in the end. -/
theorem ensures_firsts (requests : List Request) : Ensures (Request.askAll requests) fun places later =>
    ∀ i, Place.entry i ∈ places → ∃ e, firstFrom 1 later.entries.toList e = some i.toNat := by
  refine (Ensures.mapM ensures_first requests).mono fun places later h i hi => ?_
  induction h with
  | nil => cases hi
  | cons hp _ ih =>
    rcases List.mem_cons.1 hi with hi | hi
    · exact hp i hi.symm
    · exact ih hi

/-! ## One place for each thing

In a pool in which nothing stands twice, places and what stands at them determine each other. -/

section Distinct

variable {pool : ConstantPool} {i j : PoolIndex}

/-- In a pool without repetitions an entry has one index. -/
theorem Distinct.holds (hd : pool.Distinct) {e f : Entry} (hi : pool.Holds i e) (hj : pool.Holds j f) : i = j ↔ e = f := by
  constructor
  · rintro rfl
    exact Option.some.inj (hi.symm.trans hj)
  · rintro rfl
    exact UInt16.toNat_inj.1 (entryFrom_inj hd.entries hi hj)

/-- In a pool without repetitions a string has one index. -/
theorem Distinct.text (hd : pool.Distinct) {s t : String} (hi : pool.HoldsText i s) (hj : pool.HoldsText j t) :
    i = j ↔ s = t := by
  rw [hd.holds hi hj, Entry.utf8.injEq]

/-- In a pool without repetitions a class has one index. -/
theorem Distinct.type (hd : pool.Distinct) {s t : String} (hi : pool.HoldsType i s) (hj : pool.HoldsType j t) :
    i = j ↔ s = t := by
  obtain ⟨_, hi, hs⟩ := hi
  obtain ⟨_, hj, ht⟩ := hj
  rw [hd.holds hi hj, Entry.type.injEq, hd.text hs ht]

/-- In a pool without repetitions a string constant has one index. -/
theorem Distinct.string (hd : pool.Distinct) {s t : String} (hi : pool.HoldsString i s) (hj : pool.HoldsString j t) :
    i = j ↔ s = t := by
  obtain ⟨_, hi, hs⟩ := hi
  obtain ⟨_, hj, ht⟩ := hj
  rw [hd.holds hi hj, Entry.string.injEq, hd.text hs ht]

/-- In a pool without repetitions the type of a method has one index. -/
theorem Distinct.methodType (hd : pool.Distinct) {s t : String} (hi : pool.HoldsMethodType i s)
    (hj : pool.HoldsMethodType j t) :
    i = j ↔ s = t := by
  obtain ⟨_, hi, hs⟩ := hi
  obtain ⟨_, hj, ht⟩ := hj
  rw [hd.holds hi hj, Entry.methodType.injEq, hd.text hs ht]

/-- In a pool without repetitions a name with a descriptor has one index. -/
theorem Distinct.nameAndType (hd : pool.Distinct) {n n' d d' : String} (hi : pool.HoldsNameAndType i n d)
    (hj : pool.HoldsNameAndType j n' d') : i = j ↔ n = n' ∧ d = d' := by
  obtain ⟨_, _, hi, hn, hd₁⟩ := hi
  obtain ⟨_, _, hj, hn', hd₂⟩ := hj
  rw [hd.holds hi hj, Entry.nameAndType.injEq, hd.text hn hn', hd.text hd₁ hd₂]

/-- In a pool without repetitions a field has one index. -/
theorem Distinct.field (hd : pool.Distinct) {o o' n n' d d' : String} (hi : pool.HoldsField i o n d)
    (hj : pool.HoldsField j o' n' d') : i = j ↔ o = o' ∧ n = n' ∧ d = d' := by
  obtain ⟨_, _, hi, ho, hn⟩ := hi
  obtain ⟨_, _, hj, ho', hn'⟩ := hj
  rw [hd.holds hi hj, Entry.fieldRef.injEq, hd.type ho ho', hd.nameAndType hn hn']

/-- In a pool without repetitions a method has one index. -/
theorem Distinct.method (hd : pool.Distinct) {r r' : MemberRef} (hi : pool.HoldsMethod i r) (hj : pool.HoldsMethod j r') :
    i = j ↔ r = r' := by
  obtain ⟨_, _, hi, ho, hn⟩ := hi
  obtain ⟨_, _, hj, ho', hn'⟩ := hj
  obtain ⟨o, n, d, interface⟩ := r
  obtain ⟨o', n', d', interface'⟩ := r'
  rw [hd.holds hi hj, Entry.methodRef.injEq, hd.type ho ho', hd.nameAndType hn hn', MemberRef.mk.injEq, and_assoc]

/-- In a pool without repetitions a handle has one index, whatever it says of its owner beside the class file. -/
theorem Distinct.handle (hd : pool.Distinct) {h h' : MethodHandle} (hi : pool.HoldsHandle i h) (hj : pool.HoldsHandle j h') :
    i = j ↔ h.plain = h'.plain := by
  obtain ⟨kind, o, n, d, interface⟩ := h
  obtain ⟨kind', o', n', d', interface'⟩ := h'
  obtain ⟨_, hi, hm⟩ := hi
  obtain ⟨_, hj, hm'⟩ := hj
  rw [hd.holds hi hj, Entry.methodHandle.injEq]
  unfold MethodHandle.plain
  dsimp only at hm hm' ⊢
  by_cases hkind : kind = kind'
  · subst hkind
    split at hm
    · rename_i hfield
      rw [if_pos hfield] at hm'
      simp [hd.field hm hm', hfield]
    · rename_i hfield
      rw [if_neg hfield] at hm'
      simp [hd.method hm hm', hfield]
  · refine ⟨fun h => absurd h.1 hkind, fun h => absurd ?_ hkind⟩
    have := congrArg MethodHandle.kind h
    split at this <;> split at this <;> exact this

/-- In a pool without repetitions a bootstrap method has one number. -/
theorem Distinct.bootstrap (hd : pool.Distinct) (hn : pool.bootstraps.size ≤ 0xFFFF) {k l : UInt16} {b c : BootstrapMethod}
    (hk : pool.HoldsBootstrap k b) (hl : pool.HoldsBootstrap l c) : k = l ↔ b = c := by
  have hb := hk hn
  have hc := hl hn
  constructor
  · rintro rfl
    exact Option.some.inj (hb.symm.trans hc)
  · rintro rfl
    rw [← Array.getElem?_toList] at hb hc
    obtain ⟨hlt, -⟩ := List.getElem?_eq_some_iff.1 hb
    exact UInt16.toNat_inj.1 ((List.getElem?_inj hlt hd.bootstraps).1 (hb.trans hc.symm))

/-- The number of a bootstrap method stands for its handle and its arguments. -/
theorem Distinct.bootstrapWith (hd : pool.Distinct) (hn : pool.bootstraps.size ≤ 0xFFFF) {k l : UInt16}
    {b c : BootstrapMethod}
    (hk : pool.HoldsBootstrap k b) (hl : pool.HoldsBootstrap l c) {h h' : MethodHandle} (hb : pool.HoldsHandle b.handle h)
    (hc : pool.HoldsHandle c.handle h') {sameArguments : Prop} (ha : b.arguments = c.arguments ↔ sameArguments) :
    k = l ↔ h.plain = h'.plain ∧ sameArguments := by
  obtain ⟨_, _⟩ := b
  obtain ⟨_, _⟩ := c
  rw [hd.bootstrap hn hk hl, BootstrapMethod.mk.injEq, hd.handle hb hc, ha]

/-- Values whose entries have different tags have different indices, and are different. -/
theorem value_iff_of_tag_ne {v w : ConstantValue} (hv : pool.HoldsConstant i v) (hw : pool.HoldsConstant j w)
    (h : v.tag ≠ w.tag) :
    i = j ↔ v.plain = w.plain := by
  refine ⟨fun hij => absurd (PoolView.tag_unique (hij ▸ hv) hw) h, fun hplain => absurd ?_ h⟩
  have := congrArg ConstantValue.tag hplain
  rwa [ConstantValue.tag_plain, ConstantValue.tag_plain] at this

/-- In a pool without repetitions a value that is not dynamic has one index. -/
theorem Distinct.plainValue (hd : pool.Distinct) {v w : ConstantValue} (hv : pool.HoldsConstant i v)
    (hw : pool.HoldsConstant j w) (hv' : v.tag ≠ Tag.dynamic) : i = j ↔ v.plain = w.plain := by
  by_cases htag : v.tag = w.tag
  · cases v with
    | dynamic => exact absurd rfl hv'
    | integer a | float a | long a | double a =>
      cases w <;> first | simp [hd.holds hv hw, ConstantValue.plain] | nomatch htag
    | string a => cases w <;> first | simp [hd.string hv hw, ConstantValue.plain] | nomatch htag
    | type a => cases w <;> first | simp [hd.type hv hw, ConstantValue.plain] | nomatch htag
    | methodType a => cases w <;> first | simp [hd.methodType hv hw, ConstantValue.plain] | nomatch htag
    | methodHandle a => cases w <;> first | simp [hd.handle hv hw, ConstantValue.plain] | nomatch htag
  · exact value_iff_of_tag_ne hv hw htag

mutual

/-- In a pool without repetitions a value has one index, however deep it is nested. -/
theorem Distinct.constant (hd : pool.Distinct) (hn : pool.bootstraps.size ≤ 0xFFFF)
    (i j : PoolIndex) : ∀ v w : ConstantValue,
    pool.HoldsConstant i v → pool.HoldsConstant j w → (i = j ↔ v.plain = w.plain)
  | .dynamic n d h vs, w, hv, hw => by
    by_cases htag : Tag.dynamic = w.tag
    · obtain ⟨n', d', h', ws, rfl⟩ := w.dynamic_of_tag htag.symm
      simp only [HoldsConstant] at hv hw
      obtain ⟨k, m, b, hi, hname, hk, hhandle, hvs⟩ := hv
      obtain ⟨k', m', c, hj, hname', hk', hhandle', hws⟩ := hw
      rw [hd.holds hi hj, Entry.dynamic.injEq,
        hd.bootstrapWith hn hk hk' hhandle hhandle' (hd.constants hn b.arguments c.arguments vs ws hvs hws),
        hd.nameAndType hname hname', ConstantValue.plain, ConstantValue.plain, ConstantValue.dynamic.injEq]
      tauto
    · exact value_iff_of_tag_ne hv hw htag
  | .integer _, _, hv, hw | .float _, _, hv, hw | .long _, _, hv, hw | .double _, _, hv, hw | .string _, _, hv, hw
  | .type _, _, hv, hw | .methodType _, _, hv, hw | .methodHandle _, _, hv, hw => hd.plainValue hv hw nofun

/-- In a pool without repetitions values have the same indices if they are the same one by one. -/
theorem Distinct.constants (hd : pool.Distinct) (hn : pool.bootstraps.size ≤ 0xFFFF) : ∀ (is js : List PoolIndex)
    (vs ws : List ConstantValue), pool.HoldsConstants is vs → pool.HoldsConstants js ws →
      (is = js ↔ ConstantValue.plainAll vs = ConstantValue.plainAll ws)
  | [], [], [], [], _, _ => iff_of_true rfl rfl
  | [], j :: js, [], w :: ws, _, _ => by simp [ConstantValue.plainAll]
  | i :: is, [], v :: vs, [], _, _ => by simp [ConstantValue.plainAll]
  | i :: is, j :: js, v :: vs, w :: ws, ⟨hv, hvs⟩, ⟨hw, hws⟩ => by
    rw [List.cons.injEq, ConstantValue.plainAll, ConstantValue.plainAll, List.cons.injEq, hd.constant hn i j v w hv hw,
      hd.constants hn is js vs ws hvs hws]

end

/-- Which of the things that a pool can be asked for stands at a place. -/
def familyAt (pool : ConstantPool) : Place → Option Nat
  | .entry i => (pool.entryAt i.toNat).map Entry.family
  | .bootstrap _ => some 8

/-- What an entry is for is seen at its index. -/
theorem familyAt_entry {e : Entry} (h : pool.Holds i e) : pool.familyAt (.entry i) = some e.family := by
  rw [familyAt, h]
  rfl

/-- An index of a value is seen to be one. -/
theorem familyAt_value {v : ConstantValue} (h : pool.HoldsConstant i v) : pool.familyAt (.entry i) = some 7 := by
  cases v with
  | string | type | methodType | methodHandle =>
    obtain ⟨_, h, -⟩ := h
    exact familyAt_entry h
  | dynamic =>
    simp only [HoldsConstant] at h
    obtain ⟨_, _, _, h, -⟩ := h
    exact familyAt_entry h
  | _ => exact familyAt_entry h

/-- What answers a request is one of the things that the request is for. -/
theorem Answers.familyAt {r : Request} {p : Place} (h : pool.Answers p r) : pool.familyAt p = some r.family := by
  cases r with
  | utf8 =>
    obtain ⟨_, rfl, h⟩ := h
    exact familyAt_entry h
  | constant =>
    obtain ⟨_, rfl, h⟩ := h
    exact familyAt_value h
  | nameAndType | fieldRef | methodRef =>
    obtain ⟨_, rfl, _, _, h, -⟩ := h
    exact familyAt_entry h
  | moduleName | packageName =>
    obtain ⟨_, _, rfl, h, -⟩ := h
    exact familyAt_entry h
  | callSite =>
    obtain ⟨_, rfl, _, _, _, h, -⟩ := h
    exact familyAt_entry h
  | bootstrapMethod =>
    obtain ⟨_, _, rfl, -⟩ := h
    rfl

/-- Two answers are the same exactly if the same was asked for. -/
theorem Distinct.answers (hd : pool.Distinct) (hn : pool.bootstraps.size ≤ 0xFFFF) {p q : Place} {r s : Request}
    (hp : pool.Answers p r) (hq : pool.Answers q s) : p = q ↔ r.plain = s.plain := by
  by_cases hfamily : r.family = s.family
  · cases r with
    | utf8 =>
      cases s with
      | utf8 =>
        obtain ⟨_, rfl, hp⟩ := hp
        obtain ⟨_, rfl, hq⟩ := hq
        rw [Place.entry.injEq, hd.text hp hq, Request.plain, Request.plain, Request.utf8.injEq]
      | _ => nomatch hfamily
    | constant =>
      cases s with
      | constant =>
        obtain ⟨_, rfl, hp⟩ := hp
        obtain ⟨_, rfl, hq⟩ := hq
        rw [Place.entry.injEq, hd.constant hn _ _ _ _ hp hq, Request.plain, Request.plain, Request.constant.injEq]
      | _ => nomatch hfamily
    | nameAndType =>
      cases s with
      | nameAndType =>
        obtain ⟨_, rfl, hp⟩ := hp
        obtain ⟨_, rfl, hq⟩ := hq
        rw [Place.entry.injEq, hd.nameAndType hp hq, Request.plain, Request.plain, Request.nameAndType.injEq]
      | _ => nomatch hfamily
    | fieldRef =>
      cases s with
      | fieldRef =>
        obtain ⟨_, rfl, hp⟩ := hp
        obtain ⟨_, rfl, hq⟩ := hq
        rw [Place.entry.injEq, hd.field hp hq, Request.plain, Request.plain, Request.fieldRef.injEq]
      | _ => nomatch hfamily
    | methodRef =>
      cases s with
      | methodRef =>
        obtain ⟨_, rfl, hp⟩ := hp
        obtain ⟨_, rfl, hq⟩ := hq
        rw [Place.entry.injEq, hd.method hp hq, Request.plain, Request.plain, Request.methodRef.injEq]
      | _ => nomatch hfamily
    | moduleName =>
      cases s with
      | moduleName =>
        obtain ⟨_, _, rfl, hp, htext⟩ := hp
        obtain ⟨_, _, rfl, hq, htext'⟩ := hq
        rw [Place.entry.injEq, hd.holds hp hq, Entry.moduleName.injEq, hd.text htext htext', Request.plain, Request.plain,
          Request.moduleName.injEq]
      | _ => nomatch hfamily
    | packageName =>
      cases s with
      | packageName =>
        obtain ⟨_, _, rfl, hp, htext⟩ := hp
        obtain ⟨_, _, rfl, hq, htext'⟩ := hq
        rw [Place.entry.injEq, hd.holds hp hq, Entry.packageName.injEq, hd.text htext htext', Request.plain, Request.plain,
          Request.packageName.injEq]
      | _ => nomatch hfamily
    | callSite =>
      cases s with
      | callSite =>
        obtain ⟨_, rfl, _, _, _, hp, hname, hk, hhandle, hvs⟩ := hp
        obtain ⟨_, rfl, _, _, _, hq, hname', hk', hhandle', hws⟩ := hq
        rw [Place.entry.injEq, hd.holds hp hq, Entry.callSite.injEq,
          hd.bootstrapWith hn hk hk' hhandle hhandle' (hd.constants hn _ _ _ _ hvs hws),
          hd.nameAndType hname hname', Request.plain, Request.plain, Request.callSite.injEq]
        tauto
      | _ => nomatch hfamily
    | bootstrapMethod =>
      cases s with
      | bootstrapMethod =>
        obtain ⟨_, _, rfl, hk, hhandle, hvs⟩ := hp
        obtain ⟨_, _, rfl, hk', hhandle', hws⟩ := hq
        rw [Place.bootstrap.injEq, hd.bootstrapWith hn hk hk' hhandle hhandle' (hd.constants hn _ _ _ _ hvs hws),
          Request.plain, Request.plain, Request.bootstrapMethod.injEq]
      | _ => nomatch hfamily
  · refine ⟨fun hpq => absurd ?_ hfamily, fun hplain => absurd ?_ hfamily⟩
    · subst hpq
      exact Option.some.inj (hp.familyAt.symm.trans hq.familyAt)
    · rw [← r.family_plain, ← s.family_plain, hplain]

end Distinct

/-! ## Runs of requests -/

/-- What a pool is like after requests to the empty pool, and where the answers are. -/
structure Canonical (requests : List Request) (places : List Place) (pool : ConstantPool) : Prop where
  entries : pool.entries.toList.Nodup
  bootstraps : pool.bootstraps.toList.Nodup
  /-- Each answer is the place of what was asked for. -/
  answered : List.Forall₂ (fun r p => pool.Answers p r) requests places
  /-- Answers are the same exactly if the same was asked for. -/
  same : ∀ {m n : Nat} {r s : Request} {p q : Place}, requests[m]? = some r → places[m]? = some p → requests[n]? = some s →
    places[n]? = some q → (p = q ↔ r.plain = s.plain)
  /-- What earlier requests put into the pool is still there, at the same places. -/
  kept : ∀ earlier later, requests = earlier ++ later → (Request.askAll earlier .empty).2.Extends pool
  /-- The second index of a long or a double names nothing. -/
  wide : ∀ {i : Nat} {e : Entry}, pool.entryAt i = some e → e.width = 2 → pool.entryAt (i + 1) = none ∧ i + 1 < pool.length

/-- A pool that passes the check can be counted. -/
theorem fits_of_checkSize {pool : ConstantPool} (h : pool.checkSize = .ok ()) : pool.Fits := by
  unfold checkSize at h
  split at h
  · cases h
  · exact Nat.le_of_not_lt ‹_›

/-- Requests put one after the other are asked one after the other. -/
theorem askAll_append (earlier later : List Request) (pool : ConstantPool) :
    (Request.askAll (earlier ++ later) pool).2 = (Request.askAll later (Request.askAll earlier pool).2).2 := by
  unfold Request.askAll
  rw [List.mapM_append]
  rfl

/-- An entry of two indices leaves the second one empty. -/
theorem Built.wide {pool : ConstantPool} (h : pool.Built) {i : Nat} {e : Entry} (hi : pool.entryAt i = some e)
    (he : e.width = 2) :
    pool.entryAt (i + 1) = none ∧ i + 1 < pool.length := by
  obtain ⟨hnone, hlt⟩ := entryFrom_behind hi (Nat.lt_succ_self i) (by omega)
  exact ⟨hnone, hlt.trans_eq h.nextIndex_eq.symm⟩

/-- Interning is canonical: after any requests to the empty pool, if the indices and the numbers of the
bootstrap methods fit in two bytes. -/
theorem askAll_canonical {requests : List Request} {places : List Place} {pool : ConstantPool}
    (hrun : Request.askAll requests .empty = (places, pool)) (hsize : pool.checkSize = .ok ())
    (hn : pool.bootstraps.size < 65536) :
    Canonical requests places pool := by
  have hd := (interns_askAll requests).distinct distinct_empty
  have hanswered := (ensures_askAll requests .empty .empty).2.2
  rw [hrun] at hd hanswered
  have hanswered := hanswered pool hd.built (Extends.refl pool) (fits_of_checkSize hsize)
  refine ⟨hd.entries, hd.bootstraps, hanswered, fun hr hp hs hq => ?_, fun earlier later hsplit => ?_, hd.built.wide⟩
  · have hanswer : ∀ {m : Nat} {r : Request} {p : Place},
      requests[m]? = some r → places[m]? = some p → pool.Answers p r := by
      intro m r p hr hp
      obtain ⟨hm, rfl⟩ := List.getElem?_eq_some_iff.1 hr
      obtain ⟨hm', rfl⟩ := List.getElem?_eq_some_iff.1 hp
      exact hanswered.get hm hm'
    exact hd.answers (Nat.le_of_lt_succ hn) (hanswer hr hp) (hanswer hs hq)
  · have hlater := (interns_askAll later).extends ((interns_askAll earlier).extends .empty).1
    rw [← askAll_append, ← hsplit, hrun] at hlater
    exact hlater.2

/-- A long, asked for twice, and an integer of the same value. -/
def sampleRequests : List Request :=
  [.constant (.long 7), .constant (.integer 7), .constant (.long 7)]

/-- The long of the sample is answered twice with one index, the integer with the one behind it. -/
theorem askAll_sample : Request.askAll sampleRequests .empty =
    ([.entry 1, .entry 3, .entry 1], (ConstantPool.empty.append (.long 7)).append (.integer 7)) := by
  have hlong : intern (.long 7) .empty = (1, ConstantPool.empty.append (.long 7)) := Built.empty.intern_eq _
  have hinteger : intern (.integer 7) (ConstantPool.empty.append (.long 7)) =
      (3, (ConstantPool.empty.append (.long 7)).append (.integer 7)) := (Built.empty.append _).intern_eq _
  have hagain : intern (.long 7) ((ConstantPool.empty.append (.long 7)).append (.integer 7)) =
      (1, (ConstantPool.empty.append (.long 7)).append (.integer 7)) := ((Built.empty.append _).append _).intern_eq _
  simp only [Request.askAll, sampleRequests, List.mapM_cons, List.mapM_nil, Request.ask, constant, bind_assoc, pure_bind]
  change (let a := intern (.long 7) .empty
    let b := intern (.integer 7) a.2
    let c := intern (.long 7) b.2
    ([Place.entry a.1, Place.entry b.1, Place.entry c.1], c.2)) = _
  rw [hlong]
  dsimp only
  rw [hinteger]
  dsimp only
  rw [hagain]

/-- The answers to the sample are what is asked of all answers. -/
theorem askAll_canonical_sample : Canonical sampleRequests [.entry 1, .entry 3, .entry 1]
    ((ConstantPool.empty.append (.long 7)).append (.integer 7)) :=
  askAll_canonical askAll_sample rfl (by decide)

end ConstantPool

end ClassFile
