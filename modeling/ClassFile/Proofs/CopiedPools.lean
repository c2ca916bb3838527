import ClassFile.Proofs.PoolCopying

/-!
# Building on a copied pool

A pool that is copied from a class file has the entries of the class at their indices, duplicates too, and looks an entry up
at its first index. What is asked for later comes behind them (`PoolView.toPool_keeps`). The copy of a pool that was written
answers as the pool does, since the answers depend only on what a pool holds.

A class file counts the arguments of a bootstrap method in two bytes. A pool that holds a bootstrap method with more is
written all the same, and the copy that is read back from its class does not know that bootstrap method.
-/

namespace ClassFile

open ConstantPool

open Decoder (Goes)

namespace PoolView

/-! ## Growing on a copy -/

/-- What a pool is like that was built by requests to the copy of a view's pool. -/
structure Continues (view : PoolView) (places : List Place) (pool : ConstantPool) (constants : Bytes) : Prop where
  /-- Every index that named an entry names the same entry when the pool is read again. -/
  entries : ∃ again, PoolView.parse constants 0 = .ok again ∧ ∀ {i : PoolIndex} {offset : Nat}, view.offset i = .ok offset →
    ∃ e, view.rawEntry i = .ok e ∧ again.rawEntry i = .ok e
  bootstraps : ∀ k < view.bootstraps.size, ∃ b, view.rawBootstrap k = .ok b ∧ pool.bootstraps[k]? = some b
  /-- Every bootstrap method has its number when a class with the pool is read again. -/
  again : ∀ image : Image, image.Carries pool constants → pool.bootstraps.size < 65536 →
    (∀ b ∈ pool.bootstraps, b.arguments.length < 65536) → ∀ k < view.bootstraps.size,
      ∃ b, view.rawBootstrap k = .ok b ∧ image.pool.rawBootstrap k = .ok b
  /-- Whatever is interned next has the first index at which the original had it, or one behind the original. -/
  next : ∀ e, (intern e pool).2.checkSize = .ok () → view.First e (intern e pool).1
  nextBootstrap : ∀ b, (internBootstrap b pool).2.bootstraps.size ≤ 65536 → view.FirstNumber b (internBootstrap b pool).1
  /-- So has all that was asked for. -/
  answers : ∀ {i : PoolIndex}, Place.entry i ∈ places → ∃ e, pool.Holds i e ∧ view.First e i

section Growth

variable {view : PoolView} {pool copy : ConstantPool}

/-- A copy has every bootstrap method under its number. -/
theorem Copies.exists_bootstrap (h : view.Copies copy) {k : Nat} (hk : k < view.bootstraps.size) :
    ∃ b, view.rawBootstrap k = .ok b ∧ copy.bootstraps[k]? = some b := by
  have hlt : k < copy.bootstraps.size := h.size ▸ hk
  exact ⟨copy.bootstraps[k], h.bootstrap (Array.getElem?_eq_getElem hlt), Array.getElem?_eq_getElem hlt⟩

/-- An entry interned into a pool that grew on a copy. -/
theorem Copies.first_intern (h : view.Copies copy) (hp : pool.Built) (hle : copy.Extends pool) (e : Entry)
    (hfits : (intern e pool).2.Fits) : view.First e (intern e pool).1 := by
  obtain ⟨hbuilt, hgrown⟩ := hp.intern_extends e
  obtain ⟨n, hn, hindex⟩ := hp.firstFrom_intern e
  obtain ⟨more, hmore⟩ := (hle.trans hgrown).entries
  rw [hindex]
  rw [← toNat_toUInt16_of_entryAt hbuilt hfits (firstFrom_eq_some hn).1, ← hmore] at hn
  exact h.lists.first hn

/-- A bootstrap method interned into a pool that grew on a copy. -/
theorem Copies.first_internBootstrap (h : view.Copies copy) (hp : pool.Built) (hle : copy.Extends pool) (b : BootstrapMethod)
    (hsize : (internBootstrap b pool).2.bootstraps.size ≤ 65536) : view.FirstNumber b (internBootstrap b pool).1 := by
  have hold : ∀ {j : Nat}, j < view.bootstraps.size → (view.rawBootstrap j = .ok b ↔ pool.bootstraps[j]? = some b) := by
    intro j hj
    obtain ⟨b', hread, hb'⟩ := h.exists_bootstrap hj
    rw [hread, hle.bootstrap hb', Except.ok.injEq, Option.some.injEq]
  rw [hp.internBootstrap_eq] at hsize ⊢
  split at hsize
  · rename_i n hn
    obtain ⟨hlt, hfound, hleast⟩ := List.idxOf?_eq_some_iff.1 hn
    have hnumber : n.toUInt16.toNat = n := by
      rw [Array.length_toList] at hlt
      dsimp only at hsize
      rw [UInt16.toNat_ofNat']
      omega
    have hat : pool.bootstraps[n]? = some b := by
      rw [← Array.getElem?_toList, List.getElem?_eq_getElem hlt, hfound]
    dsimp only
    refine ⟨fun {j} hj hread => ?_, fun hnone => ?_⟩
    · have hle : n ≤ j := by
        by_contra hlater
        rw [hold hj, ← Array.getElem?_toList] at hread
        obtain ⟨_, hj'⟩ := List.getElem?_eq_some_iff.1 hread
        exact hleast j (by omega) hj'
      rw [hnumber]
      exact ⟨(hold (by omega)).2 hat, hle⟩
    · rw [hnumber]
      by_contra hlt
      exact hnone n (by omega) ((hold (by omega)).2 hat)
  · rename_i hnew
    have hnumber : pool.bootstraps.size.toUInt16.toNat = pool.bootstraps.size := by
      rw [bootstraps_appendBootstrap, Array.size_push] at hsize
      rw [UInt16.toNat_ofNat']
      omega
    dsimp only
    refine ⟨fun {j} hj hread => ?_, fun _ => ?_⟩
    · rw [hold hj, ← Array.getElem?_toList] at hread
      exact absurd (List.mem_of_getElem? hread) (List.idxOf?_eq_none_iff.1 hnew)
    · rw [hnumber, ← h.size]
      exact hle.bootstraps.length_le

/-- What a copy is asked for is answered as by the pool that it copies, or behind it. -/
theorem Copies.continues (h : view.Copies copy) {requests : List Request} {places : List Place}
    (hrun : Request.askAll requests copy = (places, pool)) {constants : Bytes} (henc : pool.encode = .ok constants) :
    view.Continues places pool constants := by
  obtain ⟨hbuilt, hle⟩ := (interns_askAll requests).extends h.built
  have hfirsts := (ensures_firsts requests copy h.built).2.2
  rw [hrun] at hbuilt hle hfirsts
  have hfirsts := hfirsts pool hbuilt (Extends.refl pool) (encode_eq henc).1
  refine ⟨?_, fun k hk => ?_, fun image himage hn ha k hk => ?_, fun e he => ?_, fun b hb => ?_, fun {i} hi => ?_⟩
  · obtain ⟨offsets, hparse, hlists⟩ := parse_encode_lists hbuilt henc (Bytes.hasAt_self constants)
    obtain ⟨-, hlists⟩ := hlists #[]
    refine ⟨_, hparse, fun {i offset} hoffset => ?_⟩
    cases hi : entryFrom 1 copy.entries.toList i.toNat with
    | none => cases (h.lists.nothing hi).symm.trans hoffset
    | some e => exact ⟨e, h.lists.entry hi, hlists.entry (hle.entryAt hi)⟩
  · obtain ⟨b, hread, hb⟩ := h.exists_bootstrap hk
    exact ⟨b, hread, hle.bootstrap hb⟩
  · obtain ⟨b, hread, hb⟩ := h.exists_bootstrap hk
    have hb' := hle.bootstrap hb
    exact ⟨b, hread, (himage.shows hbuilt hn ha).1.rawBootstrap hb' (ha b (Array.mem_of_getElem? hb'))⟩
  · exact h.first_intern hbuilt hle e (fits_of_checkSize he)
  · exact h.first_internBootstrap hbuilt hle b hb
  · obtain ⟨e, he⟩ := hfirsts i hi
    obtain ⟨more, hmore⟩ := hle.entries
    exact ⟨e, (firstFrom_eq_some he).1, h.lists.first (hmore ▸ he)⟩

/-! ## The copy of a pool that was written -/

/-- Entries that a view reads one by one are copied one behind the other. -/
theorem copyEntries_of_entries {es : List Entry} {fuel index : Nat}
    (hes : ∀ {i : Nat} {e : Entry}, entryFrom index es i = some e → view.rawEntry i.toUInt16 = .ok e)
    (hlength : index + widths es = view.length) (hfuel : es.length ≤ fuel) :
    view.copyEntries fuel index pool = .ok (es.foldl ConstantPool.append pool) := by
  induction es generalizing fuel index pool with
  | nil =>
    cases fuel with
    | zero => rfl
    | succ fuel => rw [copyEntries, if_neg (by simp at hlength; omega)]; rfl
  | cons e es ih =>
    have hpos := width_pos e
    rw [widths_cons] at hlength
    obtain ⟨fuel, rfl⟩ : ∃ n, fuel = n + 1 := ⟨fuel - 1, by rw [List.length_cons] at hfuel; omega⟩
    have hread : view.rawEntry index.toUInt16 = .ok e := hes (by rw [entryFrom, if_pos rfl])
    rw [copyEntries, if_pos (by omega), hread]
    refine ih (fun {i x} hi => hes ?_) (by omega) (by simpa using hfuel)
    have := (entryFrom_bounds hi).1
    rw [entryFrom, if_neg (by omega), hi]

/-- Bootstrap methods that a view reads one by one are copied one behind the other. -/
theorem copyBootstraps_of_bootstraps {bs : List BootstrapMethod} {number : Nat}
    (hbs : ∀ {k : Nat} {b : BootstrapMethod}, bs[k]? = some b → view.rawBootstrap (number + k) = .ok b) :
    view.copyBootstraps bs.length number pool = .ok (bs.foldl ConstantPool.appendBootstrap pool) := by
  induction bs generalizing number pool with
  | nil => rfl
  | cons b bs ih =>
    have hread : view.rawBootstrap number = .ok b := hbs (k := 0) rfl
    rw [List.length_cons, copyBootstraps, hread]
    refine ih fun {k b'} hk => ?_
    have := hbs (k := k + 1) hk
    rwa [← Nat.add_assoc, Nat.add_right_comm] at this

/-- Copying a pool that a view shows gives a pool that holds the same. -/
theorem exists_toPool (hp : pool.Built) (hl : view.Lists pool.entries.toList)
    (hn : pool.bootstraps.size = view.bootstraps.size)
    (hf : pool.Fits) (hbs : ∀ {k : Nat} {b : BootstrapMethod}, pool.bootstraps[k]? = some b → view.rawBootstrap k = .ok b) :
    ∃ copy, view.toPool = .ok copy ∧ Agrees copy pool := by
  have hentries : ∀ {i : Nat} {e : Entry}, entryFrom 1 pool.entries.toList i = some e → view.rawEntry i.toUInt16 = .ok e :=
    fun {i e} hi => hl.entry (by rwa [toNat_toUInt16_of_entryAt hp hf hi])
  have hlength : pool.entries.toList.length ≤ view.length := by
    have := length_le_widths pool.entries.toList
    rw [hl.length]
    omega
  have hmethods : ∀ {k : Nat} {b : BootstrapMethod},
    pool.bootstraps.toList[k]? = some b → view.rawBootstrap (0 + k) = .ok b :=
    fun {k b} hk => by
      rw [Nat.zero_add]
      exact hbs (by rwa [← Array.getElem?_toList])
  obtain ⟨hbuilt, hentries', hnone⟩ := built_foldl_append pool.entries.toList Built.empty
  obtain ⟨hbuilt, hentries'', hbootstraps⟩ := built_foldl_appendBootstrap pool.bootstraps.toList hbuilt
  refine ⟨_, ?_, hbuilt, hp, ?_, ?_⟩
  · unfold toPool
    rw [copyEntries_of_entries hentries hl.length.symm hlength, ← hn, ← Array.length_toList]
    exact copyBootstraps_of_bootstraps hmethods
  · rw [hentries'', ← Array.toList_inj, hentries']
    rfl
  · rw [← Array.toList_inj, hbootstraps, hnone]
    rfl

end Growth

/-- On a copied pool every index keeps what it names, and what is asked for has the first index at which the original
has it, or one behind the original. The copy of a pool that was read back from its class is written as the pool is
and answers as the pool does. -/
theorem toPool_keeps {requests : List Request} {places : List Place} {pool : ConstantPool} {constants : Bytes} :
    (∀ {bytes : Bytes} {start : Nat} {view : PoolView} {copy : ConstantPool},
      PoolView.parse bytes start = .ok { view with bootstraps := #[] } →
      (∀ {i : PoolIndex} {tag : UInt8}, view.tag i = .ok tag → tag = Tag.long ∨ tag = Tag.double →
      i.toNat + 1 < view.length) →
      view.toPool = .ok copy → Request.askAll requests copy = (places, pool) → pool.encode = .ok constants →
      view.Continues places pool constants) ∧
    ∀ {image : Image}, Request.askAll requests .empty = (places, pool) → image.Carries pool constants →
      pool.bootstraps.size < 65536 → (∀ b ∈ pool.bootstraps, b.arguments.length < 65536) →
      ∃ copy, image.pool.toPool = .ok copy ∧ copy.encode = .ok constants ∧
        ∀ later, (Request.askAll later copy).1 = (Request.askAll later pool).1 := by
  refine ⟨fun {_ _ _ _} hparse hwide hcopy hrun henc => ?_, fun {_} hrun himage hn ha => ?_⟩
  · exact (copies_of_toPool hparse hwide hcopy).continues hrun henc
  · have hp := ((interns_askAll requests).extends .empty).1
    rw [hrun] at hp
    obtain ⟨hshows, hlists, hsize⟩ := himage.shows hp hn ha
    obtain ⟨copy, hcopy, hagrees⟩ := exists_toPool hp hlists hsize.symm (encode_eq himage.encoded).1 fun {k b} hk =>
      hshows.rawBootstrap hk (ha b (Array.mem_of_getElem? hk))
    refine ⟨copy, hcopy, ?_, fun later => ((interns_askAll later).agrees hagrees).1⟩
    rw [← himage.encoded]
    unfold encode checkSize
    rw [hagrees.nextIndex, hagrees.entries]

/-- On a copy of the pool of the sample class the integer is found, and another one comes behind it. -/
theorem toPool_keeps_sample : sampleImage.pool.Continues [.entry 3, .entry 4]
      (((ConstantPool.empty.append (.long 7)).append (.integer 7)).append (.integer 8))
      #[0, 5, 5, 0, 0, 0, 0, 0, 0, 0, 7, 3, 0, 0, 0, 7, 3, 0, 0, 0, 8] ∧
    ∃ copy, sampleImage.pool.toPool = .ok copy ∧ ∀ later,
      (Request.askAll later copy).1 = (Request.askAll later
        ((ConstantPool.empty.append (.long 7)).append (.integer 7))).1 := by
  refine ⟨?_, ?_⟩
  · have hfound : intern (.integer 7) ((ConstantPool.empty.append (.long 7)).append (.integer 7)) =
        (3, (ConstantPool.empty.append (.long 7)).append (.integer 7)) := ((Built.empty.append _).append _).intern_eq _
    have hnew : intern (.integer 8) ((ConstantPool.empty.append (.long 7)).append (.integer 7)) =
        (4, ((ConstantPool.empty.append (.long 7)).append (.integer 7)).append (.integer 8)) :=
      ((Built.empty.append _).append _).intern_eq _
    have hparse : PoolView.parse sampleClass 8 = .ok { sampleImage.pool with bootstraps := #[] } := rfl
    have hcopy : sampleImage.pool.toPool = .ok ((ConstantPool.empty.append (.long 7)).append (.integer 7)) := rfl
    have hasked : Request.askAll [.constant (.integer 7), .constant (.integer 8)]
        ((ConstantPool.empty.append (.long 7)).append (.integer 7)) =
          ([.entry 3, .entry 4], ((ConstantPool.empty.append (.long 7)).append (.integer 7)).append (.integer 8)) := by
      simp only [Request.askAll, List.mapM_cons, List.mapM_nil, Request.ask, bind_assoc, pure_bind]
      change (let a := intern (.integer 7) _
        let b := intern (.integer 8) a.2
        ([Place.entry a.1, Place.entry b.1], b.2)) = _
      rw [hfound]
      dsimp only
      rw [hnew]
    refine toPool_keeps.1 hparse (fun {i tag} hi htag => ?_) hcopy hasked rfl
    · rcases Nat.lt_trichotomy i.toNat 3 with hlt | heq | hgt
      · exact Nat.succ_lt_succ hlt
      · obtain rfl : i = 3 := UInt16.toNat_inj.1 heq
        obtain rfl : Tag.integer = tag := Except.ok.inj hi
        rcases htag with htag | htag <;> cases htag
      · have hoffset : sampleImage.pool.offset i = .error (.badConstantIndex i) :=
          offset_eq_error (.inr (Array.getElem?_eq_none hgt))
        unfold PoolView.tag PoolView.entry at hi
        rw [hoffset] at hi
        cases hi
  · obtain ⟨copy, hcopy, -, hanswers⟩ := toPool_keeps.2 askAll_sample carries_sample (by decide)
      (fun b hb => absurd hb (by simp [ConstantPool.empty]))
    exact ⟨copy, hcopy, hanswers⟩

end PoolView

/-! ## A bootstrap method with too many arguments -/

namespace ConstantPool

section Overfull

variable {α β : Type} {pool later : ConstantPool} {step : Interning α} {a : α}

/-- A step and what comes of its answer are one step. -/
theorem bind_run {f : α → Interning β} (h : step pool = (a, later)) : (step >>= f) pool = f a later := by
  change f (step pool).1 (step pool).2 = _
  rw [h]

/-- A constant that is known is known as often as it is asked for. -/
theorem constants_replicate {v : ConstantValue} {i : PoolIndex} (h : constant v pool = (i, pool)) (n : Nat) :
    constants (List.replicate n v) pool = (List.replicate n i, pool) := by
  induction n with
  | zero => rfl
  | succ n ih =>
    rw [List.replicate_succ, constants]
    exact (bind_run h).trans (bind_run ih)

def overfullHandle : MethodHandle :=
  ⟨.invokeStatic, ⟨"BootstrapMethods", "BootstrapMethods", "()V", false⟩⟩

/-- A bootstrap method with more arguments than a class file can count. -/
def overfull : Request :=
  .bootstrapMethod overfullHandle (List.replicate 65536 (.integer 0))

/-- The entries that it refers to. -/
def overfullEntries : List Entry :=
  [.utf8 "BootstrapMethods", .type 1, .utf8 "()V", .nameAndType 1 3, .methodRef 2 4 false,
    .methodHandle .invokeStatic 5, .integer 0]

/-- It, by their indices. -/
def overfullMethod : BootstrapMethod :=
  ⟨6, List.replicate 65536 7⟩

/-- The pool with the first entries. -/
def partialPool (n : Nat) : ConstantPool :=
  (overfullEntries.take n).foldl ConstantPool.append .empty

/-- The pool of the sample is made by appending. -/
theorem built_partialPool (n : Nat) : (partialPool n).Built :=
  (PoolView.built_foldl_append _ Built.empty).1

/-- The handle of the sample takes five entries behind the two of the class. -/
theorem methodHandle_overfull {p₀ p₁ p₂ p₃ p₄ p₅ p₆ : ConstantPool} (hname : utf8 "BootstrapMethods" p₀ = (1, p₁))
    (htype : intern (.type 1) p₁ = (2, p₂)) (hagain : utf8 "BootstrapMethods" p₂ = (1, p₂))
    (hdescriptor : utf8 "()V" p₂ = (3, p₃))
    (hpair : intern (.nameAndType 1 3) p₃ = (4, p₄)) (hmember : intern (.methodRef 2 4 false) p₄ = (5, p₅))
    (hhandle : intern (.methodHandle .invokeStatic 5) p₅ = (6, p₆)) : methodHandle overfullHandle p₀ = (6, p₆) := by
  have howner : type "BootstrapMethods" p₀ = (2, p₂) := (bind_run hname).trans htype
  have hnameAndType : nameAndType "BootstrapMethods" "()V" p₂ = (4, p₄) :=
    (bind_run hagain).trans ((bind_run hdescriptor).trans hpair)
  have hmethod : methodRef "BootstrapMethods" "BootstrapMethods" "()V" false p₀ = (5, p₅) :=
    (bind_run howner).trans ((bind_run hnameAndType).trans hmember)
  exact (bind_run hmethod).trans hhandle

/-- A bootstrap method takes its handle, its arguments and then its number. -/
theorem bootstrapMethod_run {p₀ p₁ p₂ : ConstantPool} {handle : MethodHandle} {arguments : List ConstantValue}
    {i : PoolIndex}
    {is : List PoolIndex} (hhandle : methodHandle handle p₀ = (i, p₁)) (harguments : constants arguments p₁ = (is, p₂)) :
    bootstrapMethod handle arguments p₀ = internBootstrap ⟨i, is⟩ p₂ :=
  (bind_run hhandle).trans (bind_run harguments)

/-- A single request is answered as it is. -/
theorem askAll_singleton {r : Request} {p : Place} (h : r.ask pool = (p, later)) :
    Request.askAll [r] pool = ([p], later) := by
  unfold Request.askAll
  rw [List.mapM_cons]
  exact (bind_run h).trans rfl

/-- The bootstrap method of the sample gets the first number. -/
theorem askAll_overfull :
    Request.askAll [overfull] .empty = ([.bootstrap 0], (partialPool 7).appendBootstrap overfullMethod) := by
  have hhandle : methodHandle overfullHandle .empty = (6, partialPool 6) :=
    methodHandle_overfull ((built_partialPool 0).intern_eq _) ((built_partialPool 1).intern_eq _)
      ((built_partialPool 2).intern_eq _) ((built_partialPool 2).intern_eq _) ((built_partialPool 3).intern_eq _)
      ((built_partialPool 4).intern_eq _) ((built_partialPool 5).intern_eq _)
  have hfirst : constant (.integer 0) (partialPool 6) = (7, partialPool 7) := by
    rw [constant]
    exact (built_partialPool 6).intern_eq _
  have hrest : constant (.integer 0) (partialPool 7) = (7, partialPool 7) := by
    rw [constant]
    exact (built_partialPool 7).intern_eq _
  have hconstants : constants (List.replicate 65536 (.integer 0)) (partialPool 6) =
    (List.replicate 65536 7, partialPool 7) := by
    rw [show (65536 : Nat) = 65535 + 1 from rfl, List.replicate_succ, constants]
    exact (bind_run hfirst).trans (bind_run (constants_replicate hrest 65535))
  have hadded : internBootstrap overfullMethod (partialPool 7) = (0, (partialPool 7).appendBootstrap overfullMethod) :=
    (built_partialPool 7).internBootstrap_eq _
  exact askAll_singleton ((bind_run ((bootstrapMethod_run hhandle hconstants).trans hadded)).trans rfl)

/-- A pool that holds the entries only adds the bootstrap method, if it lacks it. -/
theorem askAll_overfull_again (hp : pool.Built) (he : pool.entries.toList = overfullEntries) :
    (Request.askAll [overfull] pool).1 = [.bootstrap (internBootstrap overfullMethod pool).1] := by
  have hfound : ∀ {e : Entry} {n : Nat}, firstFrom 1 overfullEntries e = some n → intern e pool = (n.toUInt16, pool) := by
    intro e n hn
    rw [hp.intern_eq, he, hn]
  have hhandle : methodHandle overfullHandle pool = (6, pool) :=
    methodHandle_overfull (hfound (n := 1) rfl) (hfound (n := 2) rfl) (hfound (n := 1) rfl) (hfound (n := 3) rfl)
      (hfound (n := 4) rfl) (hfound (n := 5) rfl) (hfound (n := 6) rfl)
  have hinteger : constant (.integer 0) pool = (7, pool) := by
    rw [constant]
    exact hfound (n := 7) rfl
  have hmethod := bootstrapMethod_run hhandle (constants_replicate hinteger 65536)
  have hasked : overfull.ask pool = (.bootstrap (internBootstrap overfullMethod pool).1,
    (internBootstrap overfullMethod pool).2) :=
    (bind_run (hmethod.trans Prod.mk.eta.symm)).trans rfl
  rw [askAll_singleton hasked]

/-- As it is written, the bootstrap method looks like one without arguments, before bytes that nobody reads. -/
theorem encode_overfullMethod : overfullMethod.encode =
    BootstrapMethod.encode ⟨6, []⟩ ++ Bytes.concat (List.replicate 65536 (Bytes.ofUInt16 7)) := by
  rw [BootstrapMethod.encode, overfullMethod, Bytes.counted_eq, List.map_replicate,
    List.length_replicate, ← Array.append_assoc]
  rfl

/-- A class without a name and with nothing in it but constants and attributes. -/
def bareClass (constants : Bytes) (attributes : List Attribute) : Bytes :=
  ClassDraft.preamble { major := 52, minor := 0 } ++ (constants ++ (ClassDraft.header {} { major := 52, minor := 0 } ++
    (ClassDraft.tables {} ++ Attribute.encodeTable attributes)))

section BareClass

variable {constants b : Bytes} {a : Attribute}

/-- Where the parts of a class stand that has nothing in it but constants and an attribute. -/
theorem hasAt_bareClass (hb : bareClass constants [a] = b) :
    b.HasAt 0 (ClassDraft.preamble { major := 52, minor := 0 }) ∧ b.HasAt 8 constants ∧
      b.HasAt (8 + constants.size + 6) (ClassDraft.tables {}) ∧
      b.HasAt (8 + constants.size + 12) (Attribute.encodeTable [a]) ∧
      b.HasAt (8 + constants.size + 14) a.encode ∧ b.HasAt (8 + constants.size + 20) a.info := by
  have hwhole := Bytes.hasAt_self b
  nth_rewrite 2 [← hb] at hwhole
  obtain ⟨hpreamble, hrest⟩ := Bytes.hasAt_append.1 hwhole
  rw [ClassDraft.size_preamble, Nat.zero_add] at hrest
  obtain ⟨hconstants, hrest⟩ := Bytes.hasAt_append.1 hrest
  obtain ⟨-, hrest⟩ := Bytes.hasAt_append.1 hrest
  obtain ⟨htables, hattributes⟩ := Bytes.hasAt_append.1 hrest
  have hattribute := hattributes
  rw [Attribute.encodeTable, Bytes.counted_eq, List.map_singleton, Bytes.concat_cons, Bytes.concat_nil,
    Array.append_empty] at hattribute
  have hencoded := (Bytes.hasAt_append.1 hattribute).2
  exact ⟨hpreamble, hconstants, htables, hattributes, hencoded, (Bytes.hasAt_append.1 hencoded).2⟩

/-- The image of such a class, with the bootstrap methods that are found in the attribute. -/
theorem parse_bareClass (hb : bareClass constants [a] = b) {view : PoolView} (hview : PoolView.parse b 8 = .ok view)
    (hstop : view.stop = 8 + constants.size) {pool : ConstantPool} (hs : view.ShowsTexts pool) {content : AttributeContent}
    (ha : a.Says pool content) (hsize : a.info.size < 4294967296) {found : Array Nat} {stop : Nat}
    (hinner : (if content.name == "BootstrapMethods" then Decoder.counted Image.bootstrapOffset else pure #[] :
      Decoder (Array Nat)).Goes ⟨b, 8 + constants.size + 20⟩ found ⟨b, stop⟩) :
    Image.parse b = .ok { bytes := b, pool := { view with bootstraps := found }, header := view.stop
                          attributes := 8 + constants.size + 12 } := by
  obtain ⟨hpreamble, -, htables, hattributes, hencoded, -⟩ := hasAt_bareClass hb
  obtain ⟨hinterfaces, hmembers⟩ := Bytes.hasAt_append.1 htables
  obtain ⟨hfields, hmethods⟩ := Bytes.hasAt_append.1 hmembers
  obtain ⟨hcount, -⟩ := Bytes.hasAt_append.1 hattributes
  have hnone : Reads Outline.skipInterfaces (Bytes.counted (([] : List PoolIndex).map Bytes.ofUInt16)) () :=
    Outline.reads_skipInterfaces (by decide)
  have hskip : Reads Image.skipMembers (Bytes.counted []) () :=
    Image.reads_skipMembers (by decide) (fun p hp => nomatch hp) (fun p hp => nomatch hp)
  refine Image.parse_of_goes hpreamble hview (c := ⟨b, 8 + constants.size + 14 + a.encode.size⟩) ?_
  rw [hstop]
  unfold Image.tables
  refine (Decoder.goes_of_reads hnone hinterfaces).bind ?_
  refine (Decoder.goes_of_reads hskip hfields).bind ((Decoder.goes_of_reads hskip hmethods).bind ?_)
  refine (Goes.position _).bind ((Decoder.goes_of_reads (Reads.u16 _) hcount).bind ?_)
  refine Goes.map (fun found => (8 + constants.size + 12, found)) ?_
  exact (Image.goes_indexBootstraps (hs _ _ ha.1) hsize hencoded #[] found stop hinner).bind (Goes.pure _ _)

end BareClass

/-- A class with a bootstrap method that is cut off where it stands is read back with as much of it as is counted. -/
theorem exists_image_cut {pool : ConstantPool} (hp : pool.Built) (hentries : pool.entries.toList = overfullEntries)
    {m cut : BootstrapMethod}
    (hpool : pool.bootstraps = #[m]) {rest : Bytes} (hm : m.encode = cut.encode ++ rest) (hsize : m.encode.size < 4294967294)
    (hcut : cut.arguments.length < 65536) : ∃ constants image, Image.Carries image pool constants ∧
      image.pool.Lists pool.entries.toList ∧ image.pool.bootstraps.size = 1 ∧ image.pool.rawBootstrap 0 = .ok cut := by
  obtain ⟨constants, hconstants⟩ : ∃ constants, pool.encode = .ok constants := by
    refine exists_encode (by rw [Fits, hp.nextIndex_eq, hentries]; decide) ?_
    rw [hentries]
    simp [overfullEntries, Entry.TextFits, ModifiedUtf8.length, ModifiedUtf8.width]
  generalize ha : (⟨1, (AttributeContent.bootstrapMethods [m]).encode⟩ : Attribute) = a
  generalize hb : bareClass constants [a] = b
  obtain ⟨-, hat, -, hattributes, -, hinfo⟩ := hasAt_bareClass hb
  have hcontent : a.Says pool (.bootstrapMethods [m]) := by
    rw [← ha]
    refine ⟨?_, rfl⟩
    change entryFrom 1 pool.entries.toList 1 = some (.utf8 "BootstrapMethods")
    rw [hentries]
    rfl
  have hlength : a.info.size < 4294967296 := by
    rw [← ha, AttributeContent.encode, Bytes.size_counted, List.map_singleton, List.map_singleton, List.sum_singleton]
    omega
  obtain ⟨offsets, hparse, hlists⟩ := PoolView.parse_encode_lists hp hconstants hat
  -- What stands in the attribute is what stands there for the method that is read, and more.
  have hstands : b.HasAt (8 + constants.size + 20) (AttributeContent.bootstrapMethods [cut]).encode := by
    have hwhole := hinfo
    rw [hcontent.2, AttributeContent.encode, Bytes.counted_eq, List.map_singleton, Bytes.concat_cons, hm, Array.append_assoc,
      ← Array.append_assoc] at hwhole
    rw [AttributeContent.encode, Bytes.counted_eq, List.map_singleton, Bytes.concat_cons,
      Bytes.concat_nil, Array.append_empty]
    exact (Bytes.hasAt_append.1 hwhole).1
  have hfound := Image.goes_bootstraps (by simp) (fun x hx => List.mem_singleton.1 hx ▸ hcut) hstands
  have htexts : PoolView.ShowsTexts { bytes := b, offsets, stop := 8 + constants.size } pool := fun i text h =>
    (hlists #[]).1.utf8 h
  have himage := parse_bareClass hb hparse rfl htexts hcontent hlength hfound
  have htable := Image.goes_attributeTable htexts (.cons hcontent .nil) (by simp)
    (fun x hx => List.mem_singleton.1 hx ▸ hlength) hattributes
  generalize himage' : ({ bytes := b, header := 8 + constants.size, attributes := 8 + constants.size + 12, pool := {
      bytes := b, offsets, stop := 8 + constants.size
      bootstraps := (Bytes.offsets (8 + constants.size + 20 + 2) ([cut].map BootstrapMethod.encode)).toArray } } : Image) =
      image at himage
  have hbytes : image.bytes = b := by rw [← himage']
  refine ⟨constants, image, ⟨hbytes ▸ himage, hconstants, hbytes ▸ hat, ?_⟩, ?_, ?_, ?_⟩
  · rw [← himage']
    refine ⟨_, htable.runAt, ?_⟩
    rw [hpool]
    exact hcontent.2 ▸ hinfo
  · rw [← himage']
    exact (hlists _).2
  · rw [← himage']
    rfl
  · rw [← himage']
    refine PoolView.rawBootstrap_of_hasAt rfl ?_ hcut
    rw [AttributeContent.encode, Bytes.counted_eq, List.map_singleton, Bytes.concat_cons, Bytes.concat_nil,
      Array.append_empty] at hstands
    exact (Bytes.hasAt_append.1 hstands).2

/-- With more arguments than a class file can count, a bootstrap method has another number on the copy of
its pool that was read back. -/
theorem not_answersAlike_overfull : ∃ pool constants image copy, Request.askAll [overfull] .empty = ([.bootstrap 0], pool) ∧
    Image.Carries image pool constants ∧ image.pool.toPool = .ok copy ∧
    (Request.askAll [overfull] pool).1 = [.bootstrap 0] ∧ (Request.askAll [overfull] copy).1 = [.bootstrap 1] := by
  have hp : ((partialPool 7).appendBootstrap overfullMethod).Built := (built_partialPool 7).appendBootstrap _
  have hcut : ((partialPool 7).appendBootstrap ⟨6, []⟩).Built := (built_partialPool 7).appendBootstrap _
  have hlength : overfullMethod.arguments.length = 65536 := List.length_replicate
  have hsize : overfullMethod.encode.size < 4294967294 := by
    rw [BootstrapMethod.encode, Array.size_append, Bytes.size_ofUInt16, Bytes.size_counted, Bytes.sum_size_ofUInt16, hlength]
    decide
  have hother : overfullMethod ≠ ⟨6, []⟩ := fun h => by
    rw [h] at hlength
    cases hlength
  obtain ⟨constants, image, himage, hlists, hbootstraps, hread⟩ :=
    exists_image_cut hp rfl rfl encode_overfullMethod hsize (by decide)
  have hmethods : ∀ {k : Nat} {b : BootstrapMethod}, ((partialPool 7).appendBootstrap ⟨6, []⟩).bootstraps[k]? = some b →
      image.pool.rawBootstrap k = .ok b := fun {k b} hk => by
    obtain ⟨hlt, rfl⟩ := Array.getElem?_eq_some_iff.1 hk
    obtain rfl : k = 0 := Nat.lt_one_iff.1 hlt
    exact hread
  obtain ⟨copy, hcopy, hagrees⟩ := PoolView.exists_toPool hcut hlists hbootstraps.symm (encode_eq himage.encoded).1 hmethods
  refine ⟨_, constants, image, copy, askAll_overfull, himage, hcopy, ?_, ?_⟩
  · have hfound : ((partialPool 7).appendBootstrap overfullMethod).bootstraps.toList.idxOf? overfullMethod = some 0 := by
      change [overfullMethod].idxOf? overfullMethod = some 0
      rw [List.idxOf?_cons, beq_self_eq_true]
      rfl
    rw [askAll_overfull_again hp rfl, hp.internBootstrap_eq, hfound]
    rfl
  · have hnone : ((partialPool 7).appendBootstrap ⟨6, []⟩).bootstraps.toList.idxOf? overfullMethod = none :=
      List.idxOf?_eq_none_iff.2 fun h => hother (List.mem_singleton.1 h)
    rw [askAll_overfull_again hagrees.left (congrArg Array.toList hagrees.entries), hagrees.left.internBootstrap_eq,
      hagrees.bootstraps, hnone]
    rfl

end Overfull

end ConstantPool

end ClassFile
