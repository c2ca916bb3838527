import ClassFile.Proofs.PoolScanning

/-!
# Taking entries as they stand

An entry that was written is read back as it was, whatever it names. So a view of a pool that was written lists the entries
of the pool at their indices and finds nothing at any other index (`PoolView.Lists`, `parse_encode_lists`).
-/

namespace ClassFile

namespace PoolView

/-- A view finds just the entries of a list, at their indices. -/
structure Lists (view : PoolView) (es : List Entry) : Prop where
  length : view.length = 1 + ConstantPool.widths es
  entry : ∀ {i : PoolIndex} {e : Entry}, ConstantPool.entryFrom 1 es i.toNat = some e → view.rawEntry i = .ok e
  nothing : ∀ {i : PoolIndex}, ConstantPool.entryFrom 1 es i.toNat = none → view.offset i = .error (.badConstantIndex i)

/-- The payload of an entry is read by its tag. -/
theorem reads_rawPayload (i : PoolIndex) {e : Entry} (h : e.TextFits) : Reads (rawPayload i e.tag) e.payload e := by
  have hpair : ∀ (j k : PoolIndex) (f : PoolIndex × PoolIndex → Entry),
      Reads (indexPair >>= fun r => pure (f r)) (Bytes.ofUInt16 j ++ Bytes.ofUInt16 k) (f (j, k)) :=
    fun j k f => (reads_indexPair j k).map f
  cases e with
  | utf8 text =>
    have := (reads_text h).map Entry.utf8
    simp only [bind_assoc, pure_bind] at this
    exact this
  | integer value => exact (Reads.i32 value).map Entry.integer
  | float bits => exact (Reads.u32 bits).map Entry.float
  | long value => exact (Reads.i64 value).map Entry.long
  | double bits => exact (Reads.u64 bits).map Entry.double
  | type name => exact (Reads.u16 name).map Entry.type
  | string text => exact (Reads.u16 text).map Entry.string
  | methodType descriptor => exact (Reads.u16 descriptor).map Entry.methodType
  | moduleName name => exact (Reads.u16 name).map Entry.moduleName
  | packageName name => exact (Reads.u16 name).map Entry.packageName
  | nameAndType j k => exact hpair j k fun r => .nameAndType r.1 r.2
  | fieldRef j k => exact hpair j k fun r => .fieldRef r.1 r.2
  | methodRef j k interface =>
    cases interface with
    | false => exact hpair j k fun r => .methodRef r.1 r.2 false
    | true => exact hpair j k fun r => .methodRef r.1 r.2 true
  | methodHandle kind member => exact (reads_handleParts i kind member).map fun r => Entry.methodHandle r.1 r.2
  | dynamic j k => exact hpair j k fun r => .dynamic r.1 r.2
  | callSite j k => exact hpair j k fun r => .callSite r.1 r.2

section Entries

variable {view : PoolView} {pool : ConstantPool} {i : PoolIndex} {es : List Entry}

/-- A string that a view finds has room behind its length. -/
theorem ShowsEntries.textFits (hs : view.ShowsEntries pool) {e : Entry} (h : pool.Holds i e) : e.TextFits := by
  cases e with
  | utf8 text => exact hs.text _ text h
  | _ => trivial

/-- An entry is read as it stands in the pool. -/
theorem ShowsEntries.rawEntry (hs : view.ShowsEntries pool) {e : Entry} (h : pool.Holds i e) : view.rawEntry i = .ok e :=
  hs.reads h (reads_rawPayload i (hs.textFits h))

/-- A bootstrap method is read as it stands, if its arguments can be counted. -/
theorem rawBootstrap_of_hasAt {k offset : Nat} {b : BootstrapMethod} (hoffset : view.bootstraps[k]? = some offset)
    (hat : view.bytes.HasAt offset b.encode) (hb : b.arguments.length < 65536) : view.rawBootstrap k = .ok b := by
  have hread : Reads (do
      let handle ← Decoder.u16
      let arguments ← Decoder.counted Decoder.u16
      return { handle, arguments := arguments.toList } : Decoder BootstrapMethod) b.encode b := by
    refine (Reads.u16 b.handle).bind ?_
    have harguments : Reads (Decoder.counted Decoder.u16) (Bytes.counted (b.arguments.map Bytes.ofUInt16))
        (b.arguments.map id).toArray := Reads.counted b.arguments hb fun i _ => Reads.u16 i
    have := harguments.map fun arguments => (⟨b.handle, arguments.toList⟩ : BootstrapMethod)
    simpa using this
  unfold PoolView.rawBootstrap PoolView.bootstrapEntry
  rw [hoffset]
  exact hread.runAt hat

/-- A view that shows a pool finds its bootstrap methods, if their arguments can be counted. -/
theorem Shows.rawBootstrap (hs : view.Shows pool) {k : Nat} {b : BootstrapMethod} (hk : pool.bootstraps[k]? = some b)
    (hb : b.arguments.length < 65536) : view.rawBootstrap k = .ok b := by
  obtain ⟨offset, hoffset, hat⟩ := hs.bootstrap k b hk hb
  exact rawBootstrap_of_hasAt hoffset hat hb

/-- No entry is read where there is none. -/
theorem Lists.rawEntry_nothing (h : view.Lists es) (hi : ConstantPool.entryFrom 1 es i.toNat = none) :
    view.rawEntry i = .error (.badConstantIndex i) := by
  unfold PoolView.rawEntry PoolView.entry
  rw [h.nothing hi]
  rfl

end Entries

/-- An index without an offset names nothing. -/
theorem offset_eq_error {view : PoolView} {i : PoolIndex}
    (h : view.offsets[i.toNat]? = some 0 ∨ view.offsets[i.toNat]? = none) :
    view.offset i = .error (.badConstantIndex i) := by
  unfold PoolView.offset
  rcases h with h | h
  · rw [h]
    rfl
  · rw [h]

/-- A reader finds the entries of a pool that has been written, and no others. -/
theorem parse_encode_lists {pool : ConstantPool} (hp : pool.Built) {bytes b : Bytes} (h : pool.encode = .ok bytes)
    {start : Nat} (hat : b.HasAt start bytes) : ∃ offsets : Array Nat,
      PoolView.parse b start = .ok { bytes := b, offsets, stop := start + bytes.size } ∧ ∀ bootstraps : Array Nat,
        ShowsEntries { bytes := b, offsets, stop := start + bytes.size, bootstraps } pool ∧
        Lists { bytes := b, offsets, stop := start + bytes.size, bootstraps } pool.entries.toList := by
  obtain ⟨offsets, hparse, hsize, hnone, hentries⟩ := parse_encode hp h hat
  obtain ⟨-, -, htexts⟩ := ConstantPool.encode_eq h
  refine ⟨offsets, hparse, fun bootstraps => ?_⟩
  have hshows : ShowsEntries { bytes := b, offsets, stop := start + bytes.size, bootstraps } pool :=
    ⟨hsize, hentries, fun i text htext => htexts _ (ConstantPool.mem_of_entryFrom htext)⟩
  refine ⟨hshows, hsize.trans hp.nextIndex_eq, fun hi => hshows.rawEntry hi, fun {i} hi => ?_⟩
  refine offset_eq_error ?_
  by_cases hlt : i.toNat < pool.nextIndex
  · exact .inl (hnone _ hlt hi)
  · exact .inr (Array.getElem?_eq_none (Nat.le_of_not_lt (hsize ▸ hlt)))

end PoolView

end ClassFile
