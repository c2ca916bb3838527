import ClassFile.Proofs.CodeScanning

/-!
# Reading the same bytes elsewhere

Readers only go forward, and how they go hangs on nothing but what is left of the byte string. So wherever a reader succeeds,
it does the same at every cursor at which the same bytes come next, whatever stands in front of them and behind
(`Decoder.Mirrors`). A reader that looks up constants may do so in another view, as long as that view shows what the first
one shows (`PoolView.Mirrors`).
-/

namespace ClassFile

open Decoder (Goes)

/-! ## Cursors -/

namespace Cursor

/-- A cursor some bytes further on. -/
def ahead (c : Cursor) (n : Nat) : Cursor :=
  ⟨c.bytes, c.position + n⟩

/-- Going on twice is going on by both. -/
theorem ahead_ahead (c : Cursor) (m n : Nat) : (c.ahead m).ahead n = c.ahead (m + n) :=
  congrArg (Cursor.mk c.bytes) (Nat.add_assoc _ _ _)

/-- What is left at a cursor comes next at another one. -/
structure Matches (c c' : Cursor) : Prop where
  inside : c.position ≤ c.bytes.size
  stands : c'.bytes.HasAt c'.position (c.bytes.extract c.position c.bytes.size)

variable {c c' : Cursor}

/-- What is left at a cursor comes next at that cursor. -/
theorem Matches.refl (h : c.position ≤ c.bytes.size) : c.Matches c := by
  refine ⟨h, c.bytes.extract 0 c.position, #[], ?_, ?_⟩
  · rw [Array.append_empty, Array.extract_append_extract, Nat.min_eq_left (Nat.zero_le _),
      Nat.max_eq_right h, Array.extract_size]
  · rw [Array.size_extract, Nat.min_eq_left h, Nat.sub_zero]

/-- A byte string that stands somewhere is left at its start. -/
theorem matches_of_hasAt {b piece : Bytes} {offset : Nat} (h : b.HasAt offset piece) : Matches ⟨piece, 0⟩ ⟨b, offset⟩ := by
  refine ⟨Nat.zero_le _, ?_⟩
  rw [Array.extract_size]
  exact h

/-- Where something comes next there are enough bytes. -/
theorem Matches.le_size (h : c.Matches c') : c'.position + (c.bytes.size - c.position) ≤ c'.bytes.size := by
  have := h.stands.le_size
  rwa [Array.size_extract, Nat.min_self] at this

/-- What comes next is the same byte by byte. -/
theorem Matches.at0 (h : c.Matches c') {i : Nat} (hi : c.position + i < c.bytes.size) :
    c'.bytes.at0 (c'.position + i) = c.bytes.at0 (c.position + i) := by
  have hleft : i < min c.bytes.size c.bytes.size - c.position := by
    rw [Nat.min_self]
    omega
  rw [h.stands.at0 (hleft.trans_eq Array.size_extract.symm)]
  unfold Bytes.at0
  rw [Array.getD_eq_getD_getElem?, Array.getD_eq_getD_getElem?, Array.getElem?_extract_of_lt hleft,
    Array.getElem?_eq_getElem hi]

/-- Further on, the same bytes are still left. -/
theorem Matches.ahead (h : c.Matches c') {n : Nat} (hn : c.position + n ≤ c.bytes.size) :
    (c.ahead n).Matches (c'.ahead n) := by
  refine ⟨hn, ?_⟩
  have hsplit : c.bytes.extract c.position c.bytes.size =
      c.bytes.extract c.position (c.position + n) ++ c.bytes.extract (c.position + n) c.bytes.size := by
    rw [Array.extract_append_extract, Nat.min_eq_left (Nat.le_add_right _ _), Nat.max_eq_right hn]
  have hstands := h.stands
  rw [hsplit] at hstands
  have hbehind := (Bytes.hasAt_append.1 hstands).2
  rwa [Array.size_extract, Nat.min_eq_left hn, Nat.add_sub_cancel_left] at hbehind

/-- What comes next is the same cut out. -/
theorem Matches.extract (h : c.Matches c') {n : Nat} (hn : c.position + n ≤ c.bytes.size) :
    c'.bytes.extract c'.position (c'.position + n) = c.bytes.extract c.position (c.position + n) := by
  have hsplit : c.bytes.extract c.position c.bytes.size =
      c.bytes.extract c.position (c.position + n) ++ c.bytes.extract (c.position + n) c.bytes.size := by
    rw [Array.extract_append_extract, Nat.min_eq_left (Nat.le_add_right _ _), Nat.max_eq_right hn]
  have hstands := h.stands
  rw [hsplit] at hstands
  have hpiece := (Bytes.hasAt_append.1 hstands).1.extract
  rwa [Array.size_extract, Nat.min_eq_left hn, Nat.add_sub_cancel_left] at hpiece

/-- A cursor that goes ahead stays within the bytes. -/
theorem advance_eq {n : Nat} {c₁ : Cursor} (h : c.advance n = .ok c₁) : c₁ = c.ahead n ∧ c.position + n ≤ c.bytes.size := by
  unfold advance at h
  split at h
  · exact ⟨(Except.ok.inj h).symm, ‹_›⟩
  · cases h

/-- Where something comes next a cursor can go ahead over it. -/
theorem Matches.advance (h : c.Matches c') {n : Nat} (hn : c.position + n ≤ c.bytes.size) :
    c'.advance n = .ok (c'.ahead n) := by
  have := h.le_size
  exact if_pos (by omega)

end Cursor

/-! ## Readers -/

namespace Decoder

variable {α β : Type}

/-- Where a reader succeeds, another one does so too wherever the same bytes come next. -/
def Mirrors (d d' : Decoder α) : Prop :=
  ∀ c c' a c₁, c.Matches c' → d.Goes c a c₁ → ∃ n, c₁ = c.ahead n ∧ (c.ahead n).Matches (c'.ahead n) ∧
    d'.Goes c' a (c'.ahead n)

theorem mirrors_pure (a : α) : Mirrors (Pure.pure a) (Pure.pure a) := by
  intro c c' b c₁ hc hgoes
  obtain ⟨rfl, rfl⟩ := Goes.of_pure hgoes
  exact ⟨0, rfl, hc, rfl⟩

/-- Readers that read alike do so one after the other. -/
theorem Mirrors.bind {d d' : Decoder α} {f f' : α → Decoder β} (h : d.Mirrors d') (hf : ∀ a, (f a).Mirrors (f' a)) :
    (d >>= f).Mirrors (d' >>= f') := by
  intro c c' b c₂ hc hgoes
  obtain ⟨a, c₁, hfirst, hsecond⟩ := hgoes.of_bind
  obtain ⟨m, rfl, hm, hfirst'⟩ := h c c' a c₁ hc hfirst
  obtain ⟨n, rfl, hn, hsecond'⟩ := hf a _ _ b c₂ hm hsecond
  rw [Cursor.ahead_ahead, Cursor.ahead_ahead] at hn
  rw [Cursor.ahead_ahead] at hsecond' ⊢
  exact ⟨m + n, rfl, hn, hfirst'.bind hsecond'⟩

/-- What is computed without reading goes nowhere. -/
theorem goes_lift {x : Except Error α} {a : α} {c : Cursor} (h : x = .ok a) : Goes (liftM x : Decoder α) c a c := by
  rw [h]
  rfl

/-- A value that is looked up. -/
theorem mirrors_lift {x x' : Except Error α} (h : ∀ a, x = .ok a → x' = .ok a) :
    Mirrors (liftM x : Decoder α) (liftM x') := by
  intro c c' a c₁ hc hgoes
  obtain ⟨hx, rfl⟩ := Goes.of_lift hgoes
  exact ⟨0, rfl, hc, goes_lift (h a hx)⟩

theorem mirrors_throw (e e' : Error) : Mirrors (throw e : Decoder α) (throw e') :=
  fun _ _ _ _ _ hgoes => nomatch hgoes

/-- A reader of a fixed number of bytes. -/
theorem mirrors_of_advance {d : Decoder α} {n : Nat} {value : Cursor → α}
    (hd : ∀ c, d c = (c.advance n >>= fun c' => .ok (value c, c')))
    (h : ∀ c c', c.Matches c' → c.position + n ≤ c.bytes.size → value c' = value c) : d.Mirrors d := by
  intro c c' a c₁ hc hgoes
  rw [Goes, hd c] at hgoes
  obtain ⟨c₂, hadvance, hgoes⟩ := exists_of_bind_eq_ok hgoes
  obtain ⟨rfl, rfl⟩ := Prod.mk.inj (Except.ok.inj hgoes)
  obtain ⟨rfl, hn⟩ := Cursor.advance_eq hadvance
  refine ⟨n, rfl, hc.ahead hn, ?_⟩
  rw [Goes, hd c', hc.advance hn]
  exact congrArg (fun a => Except.ok (a, c'.ahead n)) (h c c' hc hn)

/-- Bytes are passed over alike wherever they stand. -/
theorem mirrors_skip (n : Nat) : (skip n).Mirrors (skip n) :=
  mirrors_of_advance (fun _ => rfl) fun _ _ _ _ => rfl

/-- Bytes are taken alike wherever they stand. -/
theorem mirrors_take (n : Nat) : (take n).Mirrors (take n) :=
  mirrors_of_advance (fun _ => rfl) fun _ _ hc hn => hc.extract hn

theorem mirrors_u8 : u8.Mirrors u8 :=
  mirrors_of_advance (fun _ => rfl) fun _ _ hc hn => hc.at0 (i := 0) hn

theorem mirrors_u16 : u16.Mirrors u16 := by
  refine mirrors_of_advance (fun _ => rfl) fun c c' hc hn => ?_
  dsimp only
  rw [hc.at0 (i := 0) (by omega), hc.at0 (i := 1) (by omega)]

theorem mirrors_u32 : u32.Mirrors u32 := by
  refine mirrors_of_advance (fun _ => rfl) fun c c' hc hn => ?_
  dsimp only
  rw [hc.at0 (i := 0) (by omega), hc.at0 (i := 1) (by omega), hc.at0 (i := 2) (by omega), hc.at0 (i := 3) (by omega)]

theorem mirrors_u64 : u64.Mirrors u64 := by
  refine mirrors_of_advance (fun _ => rfl) fun c c' hc hn => ?_
  dsimp only
  rw [hc.at0 (i := 0) (by omega), hc.at0 (i := 1) (by omega), hc.at0 (i := 2) (by omega), hc.at0 (i := 3) (by omega),
    hc.at0 (i := 4) (by omega), hc.at0 (i := 5) (by omega), hc.at0 (i := 6) (by omega), hc.at0 (i := 7) (by omega)]

theorem mirrors_i8 : i8.Mirrors i8 :=
  mirrors_u8.bind fun _ => mirrors_pure _

theorem mirrors_i16 : i16.Mirrors i16 :=
  mirrors_u16.bind fun _ => mirrors_pure _

theorem mirrors_i32 : i32.Mirrors i32 :=
  mirrors_u32.bind fun _ => mirrors_pure _

theorem mirrors_i64 : i64.Mirrors i64 :=
  mirrors_u64.bind fun _ => mirrors_pure _

theorem mirrors_peek : peek.Mirrors peek := by
  intro c c' a c₁ hc hgoes
  obtain ⟨⟨byte, c₂⟩, hread, hgoes⟩ := exists_of_bind_eq_ok hgoes
  obtain ⟨rfl, rfl⟩ := Prod.mk.inj (Except.ok.inj hgoes)
  obtain ⟨n, -, -, hread'⟩ := mirrors_u8 _ _ _ _ hc hread
  refine ⟨0, rfl, hc, ?_⟩
  unfold Goes peek
  rw [show u8 c' = _ from hread']
  rfl

/-- Readers that read alike do so however often they run. -/
theorem Mirrors.many {d d' : Decoder α} (h : d.Mirrors d') (n : Nat) : (many n d).Mirrors (many n d') := by
  suffices hfrom : ∀ acc, (manyFrom d n acc).Mirrors (manyFrom d' n acc) from hfrom #[]
  induction n with
  | zero => exact fun acc => mirrors_pure acc
  | succ n ih => exact fun acc => h.bind fun a => ih (acc.push a)

/-- Readers that read alike do so behind a number. -/
theorem Mirrors.counted {d d' : Decoder α} (h : d.Mirrors d') : (counted d).Mirrors (counted d') :=
  mirrors_u16.bind fun n => h.many n.toNat

/-- Readers that read alike do so whichever is chosen. -/
theorem Mirrors.ite {p : Prop} [Decidable p] {d d' e e' : Decoder α} (h : d.Mirrors d') (he : e.Mirrors e') :
    (if p then d else e).Mirrors (if p then d' else e') := by
  split
  · exact h
  · exact he

/-- What is read where the same bytes come next. -/
theorem Mirrors.runAt {d d' : Decoder α} (h : d.Mirrors d') {b b' : Bytes} {offset offset' : Nat} {a : α}
    (hc : Cursor.Matches ⟨b, offset⟩ ⟨b', offset'⟩) (hrun : d.runAt b offset = .ok a) : d'.runAt b' offset' = .ok a := by
  obtain ⟨c₁, hgoes⟩ := Goes.of_runAt hrun
  obtain ⟨n, -, -, hgoes'⟩ := h _ _ a c₁ hc hgoes
  exact hgoes'.runAt

end Decoder

/-! ## Constants -/

/-- Whatever value one step comes with, another one comes with it as well. -/
def Confirms {α : Type} (x x' : Except Error α) : Prop :=
  ∀ a, x = .ok a → x' = .ok a

namespace Confirms

variable {α β : Type}

theorem refl (x : Except Error α) : Confirms x x :=
  fun _ h => h

/-- Steps that come with the same do so one after the other. -/
theorem bind {x x' : Except Error α} {f f' : α → Except Error β} (h : Confirms x x') (hf : ∀ a, Confirms (f a) (f' a)) :
    Confirms (x >>= f) (x' >>= f') := by
  intro b hb
  obtain ⟨a, ha, hb⟩ := exists_of_bind_eq_ok hb
  rw [h a ha]
  exact hf a b hb

/-- What is made of the same is the same. -/
theorem map {x x' : Except Error α} (h : Confirms x x') (f : α → β) : Confirms (x.map f) (x'.map f) := by
  intro b hb
  cases x with
  | error e => cases hb
  | ok a =>
    rw [h a rfl]
    exact hb

/-- Steps that come with the same do so whichever is chosen. -/
theorem ite {p : Prop} [Decidable p] {x x' y y' : Except Error α} (h : Confirms x x') (hy : Confirms y y') :
    Confirms (if p then x else y) (if p then x' else y') := by
  split
  · exact h
  · exact hy

end Confirms

namespace PoolView

/-- A view shows what another one shows: what is left at an entry comes next at the same entry, and
bootstrap methods are the same. -/
structure Mirrors (view view' : PoolView) : Prop where
  size : view.bytes.size ≤ view'.bytes.size
  length : view.length = view'.length
  offset : ∀ i offset, view.offset i = .ok offset →
    ∃ offset', view'.offset i = .ok offset' ∧ Cursor.Matches ⟨view.bytes, offset⟩ ⟨view'.bytes, offset'⟩
  bootstrap : ∀ (k offset : Nat), view.bootstraps[k]? = some offset → ∃ (m : BootstrapMethod) (offset' : Nat),
    m.arguments.length < 65536 ∧ view.bytes.HasAt offset m.encode ∧ view'.bootstraps[k]? = some offset' ∧
    view'.bytes.HasAt offset' m.encode

namespace Mirrors

open Decoder

variable {α : Type} {view view' : PoolView} (h : view.Mirrors view')

include h

/-- An entry is read alike in a view that shows the same. -/
theorem entry (i : PoolIndex) {read read' : UInt8 → Decoder α} (hread : ∀ tag, (read tag).Mirrors (read' tag)) :
    Confirms (view.entry i read) (view'.entry i read') := by
  intro a ha
  obtain ⟨offset, hoffset, hrun⟩ := exists_of_bind_eq_ok ha
  obtain ⟨offset', hoffset', hmatches⟩ := h.offset i offset hoffset
  unfold PoolView.entry
  rw [hoffset']
  exact (mirrors_u8.bind hread).runAt hmatches hrun

/-- The tag of an entry is the same in a view that shows the same. -/
theorem tag (i : PoolIndex) : Confirms (view.tag i) (view'.tag i) :=
  h.entry i fun tag => mirrors_pure tag

/-- A string is the same in a view that shows the same. -/
theorem utf8 (i : PoolIndex) : Confirms (view.utf8 i) (view'.utf8 i) :=
  h.entry i fun _ => mirrors_u16.bind fun n => (mirrors_take n.toNat).bind fun _ => mirrors_pure _

omit h in
/-- What may be missing is missing alike. -/
theorem optional {read read' : PoolIndex → Except Error String} (hread : ∀ i, Confirms (read i) (read' i)) (i : PoolIndex) :
    Confirms (if i == 0 then .ok none else some <$> read i) (if i == 0 then .ok none else some <$> read' i) :=
  (Confirms.refl _).ite ((hread i).map some)

theorem utf8? (i : PoolIndex) : Confirms (view.utf8? i) (view'.utf8? i) :=
  optional h.utf8 i

/-- What names a string names the same. -/
theorem namedString (i : PoolIndex) : Confirms (view.namedString i) (view'.namedString i) :=
  (h.entry i fun _ => mirrors_u16).bind h.utf8

theorem typeName (i : PoolIndex) : Confirms (view.typeName i) (view'.typeName i) :=
  h.namedString i

theorem typeName? (i : PoolIndex) : Confirms (view.typeName? i) (view'.typeName? i) :=
  optional h.typeName i

omit h in
theorem mirrors_indexPair : indexPair.Mirrors indexPair :=
  mirrors_u16.bind fun _ => mirrors_u16.bind fun _ => mirrors_pure _

/-- A name and its type are the same in a view that shows the same. -/
theorem nameAndType (i : PoolIndex) : Confirms (view.nameAndType i) (view'.nameAndType i) :=
  (h.entry i fun _ => mirrors_indexPair).bind fun p => (h.utf8 p.1).bind fun _ => (h.utf8 p.2).bind fun _ => .refl _

theorem memberRef (i : PoolIndex) : Confirms (view.memberRef i) (view'.memberRef i) :=
  (h.entry i fun _ => mirrors_indexPair.bind fun _ => mirrors_pure _).bind fun p =>
    (h.nameAndType p.2.2).bind fun _ => (h.typeName p.2.1).bind fun _ => .refl _

theorem methodHandle (i : PoolIndex) : Confirms (view.methodHandle i) (view'.methodHandle i) := by
  refine (h.entry i fun tag => mirrors_u8.bind fun byte => ?_).bind fun p => (h.memberRef p.2).bind fun _ => .refl _
  split
  · exact mirrors_u16.bind fun _ => mirrors_pure _
  · exact mirrors_throw _ _

omit h in
/-- Values are loaded by the indices that stand one behind the other. -/
theorem goes_load {load load' : PoolIndex → Except Error α} (hload : ∀ i, Confirms (load i) (load' i)) {b b' : Bytes}
    (is : List PoolIndex) {offset offset' : Nat} (hat : b.HasAt offset (Bytes.concat (is.map Bytes.ofUInt16)))
    (hat' : b'.HasAt offset' (Bytes.concat (is.map Bytes.ofUInt16))) {acc r : Array α} {c : Cursor}
    (hgoes : (manyFrom (do load (← u16)) is.length acc).Goes ⟨b, offset⟩ r c) :
    ∃ c', (manyFrom (do load' (← u16)) is.length acc).Goes ⟨b', offset'⟩ r c' := by
  induction is generalizing offset offset' acc with
  | nil =>
    obtain ⟨rfl, -⟩ := Goes.of_pure hgoes
    exact ⟨_, Goes.pure _ _⟩
  | cons i rest ih =>
    rw [List.map_cons, Bytes.concat_cons] at hat hat'
    obtain ⟨hfirst, hrest⟩ := Bytes.hasAt_append.1 hat
    obtain ⟨hfirst', hrest'⟩ := Bytes.hasAt_append.1 hat'
    obtain ⟨a, c₁, hloaded, hgoes⟩ := hgoes.of_bind
    obtain ⟨j, c₂, hread, hloaded⟩ := hloaded.of_bind
    obtain ⟨hvalue, rfl⟩ := Goes.of_lift hloaded
    obtain ⟨rfl, rfl⟩ := hread.unique (goes_of_reads (Reads.u16 i) hfirst)
    obtain ⟨c', hnext⟩ := ih hrest hrest' hgoes
    exact ⟨c', ((goes_of_reads (Reads.u16 _) hfirst').bind (goes_lift (hload _ a hvalue))).bind hnext⟩

theorem bootstrapWith {load load' : PoolIndex → Except Error ConstantValue} (hload : ∀ i, Confirms (load i) (load' i))
    (k : Nat) :
    Confirms (view.bootstrapWith load k) (view'.bootstrapWith load' k) := by
  intro r hr
  unfold PoolView.bootstrapWith bootstrapEntry at hr ⊢
  split at hr
  · rename_i offset hoffset
    obtain ⟨m, offset', hl, hat, hoffset', hat'⟩ := h.bootstrap k offset hoffset
    have hn : m.arguments.length.toUInt16.toNat = m.arguments.length := by
      rw [UInt16.toNat_ofNat']
      omega
    obtain ⟨hhandle, harguments⟩ := Bytes.hasAt_append.1 hat
    obtain ⟨hhandle', harguments'⟩ := Bytes.hasAt_append.1 hat'
    rw [Bytes.counted_eq, List.length_map] at harguments harguments'
    obtain ⟨hcount, harguments⟩ := Bytes.hasAt_append.1 harguments
    obtain ⟨hcount', harguments'⟩ := Bytes.hasAt_append.1 harguments'
    obtain ⟨_, hgoes⟩ := Goes.of_runAt hr
    obtain ⟨i, _, hread, hgoes⟩ := hgoes.of_bind
    obtain ⟨rfl, rfl⟩ := hread.unique (goes_of_reads (Reads.u16 m.handle) hhandle)
    obtain ⟨handle, _, hlooked, hgoes⟩ := hgoes.of_bind
    obtain ⟨hvalue, rfl⟩ := Goes.of_lift hlooked
    obtain ⟨arguments, _, hloaded, hgoes⟩ := hgoes.of_bind
    obtain ⟨rfl, -⟩ := Goes.of_pure hgoes
    obtain ⟨n, _, hread, hloaded⟩ := hloaded.of_bind
    obtain ⟨rfl, rfl⟩ := hread.unique (goes_of_reads (Reads.u16 m.arguments.length.toUInt16) hcount)
    rw [hn] at hloaded
    obtain ⟨c', hloaded'⟩ := goes_load hload m.arguments harguments harguments' hloaded
    have hrest : (Decoder.counted (do load' (← u16))).Goes ⟨view'.bytes, _⟩ arguments c' :=
      (goes_of_reads (Reads.u16 m.arguments.length.toUInt16) hcount').bind (hn.symm ▸ hloaded')
    rw [hoffset']
    exact Goes.runAt ((goes_of_reads (Reads.u16 m.handle) hhandle').bind (Goes.known (h.methodHandle _ handle hvalue)
      (hrest.map fun arguments => (handle, arguments.toList))))
  · cases hr

theorem constantWithin (depth : Nat) (i : PoolIndex) :
    Confirms (view.constantWithin depth i) (view'.constantWithin depth i) := by
  induction depth generalizing i with
  | zero => exact .refl _
  | succ depth ih =>
    unfold PoolView.constantWithin
    refine (h.tag i).bind fun tag => ?_
    refine .ite ((h.entry i fun _ => mirrors_i32).bind fun _ => .refl _) ?_
    refine .ite ((h.entry i fun _ => mirrors_u32).bind fun _ => .refl _) ?_
    refine .ite ((h.entry i fun _ => mirrors_i64).bind fun _ => .refl _) ?_
    refine .ite ((h.entry i fun _ => mirrors_u64).bind fun _ => .refl _) ?_
    refine .ite ((h.namedString i).bind fun _ => .refl _) ?_
    refine .ite ((h.typeName i).bind fun _ => .refl _) ?_
    refine .ite ((h.namedString i).bind fun _ => .refl _) ?_
    refine .ite ((h.methodHandle i).bind fun _ => .refl _) ?_
    refine .ite ?_ (.refl _)
    exact (h.entry i fun _ => mirrors_indexPair).bind fun p => (h.nameAndType p.2).bind fun _ =>
      (h.bootstrapWith ih p.1.toNat).bind fun _ => .refl _

theorem constant (i : PoolIndex) : Confirms (view.constant i) (view'.constant i) := by
  unfold PoolView.constant
  rw [h.length]
  exact h.constantWithin _ i

theorem callSite (i : PoolIndex) : Confirms (view.callSite i) (view'.callSite i) :=
  (h.entry i fun _ => mirrors_indexPair).bind fun p => (h.nameAndType p.2).bind fun _ =>
    (h.bootstrapWith h.constant p.1.toNat).bind fun _ => .refl _

/-- A string whose index comes next. -/
theorem nextText : Decoder.Mirrors (do view.utf8 (← u16)) (do view'.utf8 (← u16)) :=
  mirrors_u16.bind fun i => mirrors_lift (h.utf8 i)

/-- The name of a class that comes next is read alike. -/
theorem nextTypeName : (Image.nextTypeName view).Mirrors (Image.nextTypeName view') :=
  mirrors_u16.bind fun i => mirrors_lift (h.typeName i)

/-- The enclosing method is read alike. -/
theorem enclosingMethod : (Image.enclosingMethod view).Mirrors (Image.enclosingMethod view') :=
  h.nextTypeName.bind fun _ => mirrors_u16.bind fun i => (mirrors_pure _).ite
    ((mirrors_lift (h.nameAndType i)).bind fun _ => mirrors_pure _)

end Mirrors

end PoolView

end ClassFile
