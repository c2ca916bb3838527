import ClassFile.Proofs.ClassCopying

/-!
# Announced sizes are exact

Room for a class file is made before it is written, for as many bytes as its parts say that they take. A constant pool
counts the bytes of its entries while it grows, from a table of its own (`Entry.encodedLength`), and the names of
attributes are still added to it while the attributes are measured. All the same every part takes just the bytes that
were announced for it: the pool, however it came about (`ConstantPool.Built.size_encode`), every attribute, and the class
file as a whole (`sizes_announced`).
-/

namespace ClassFile

/-! ## Entries and pools -/

/-- An entry takes the bytes that are counted for it. -/
theorem Entry.size_encode (e : Entry) : e.encode.size = e.encodedLength := by
  cases e with
  | utf8 text =>
    simp only [Entry.encode, Entry.payload, Entry.encodedLength, Array.size_append, Bytes.size_ofUInt16,
      ModifiedUtf8.size_encode]
    exact (Nat.add_assoc 1 2 _).symm
  | _ => rfl

namespace ConstantPool

variable {pool : ConstantPool}

/-- The bytes of all entries have been counted. -/
theorem Built.entryBytes_eq (h : pool.Built) : pool.entryBytes = (pool.entries.toList.map Entry.encodedLength).sum := by
  induction h with
  | empty => rfl
  | @append pool e _ ih =>
    have hgrown : (pool.append e).entryBytes = pool.entryBytes + e.encodedLength := rfl
    rw [hgrown, ih, entries_append, Array.toList_push, List.map_append, List.sum_append,
      List.map_singleton, List.sum_singleton]
  | appendBootstrap b _ ih => exact ih

/-- A pool that is written takes the bytes that it says. -/
theorem Built.size_encode (h : pool.Built) {bytes : Bytes} (hencoded : pool.encode = .ok bytes) :
    bytes.size = pool.size := by
  obtain ⟨-, rfl, -⟩ := encode_eq hencoded
  have hentries : (pool.entries.toList.map Entry.encode).map Array.size = pool.entries.toList.map Entry.encodedLength := by
    rw [List.map_map]
    exact List.map_congr_left fun e _ => e.size_encode
  rw [Array.size_append, Bytes.size_ofUInt16, Bytes.size_concat, hentries, ← h.entryBytes_eq, size]

end ConstantPool

/-! ## Copies of pools -/

namespace PoolView

variable {view : PoolView} {pool copy : ConstantPool}

/-- A pool that is made by appending stays one while the entries of a view are copied. -/
theorem built_of_copyEntries {fuel index : Nat} (h : view.copyEntries fuel index pool = .ok copy) (hp : pool.Built) :
    copy.Built := by
  induction fuel generalizing index pool with
  | zero => exact Except.ok.inj h ▸ hp
  | succ fuel ih =>
    unfold copyEntries at h
    split at h
    · obtain ⟨e, -, hrest⟩ := exists_of_bind_eq_ok h
      exact ih hrest (hp.append e)
    · exact Except.ok.inj h ▸ hp

/-- A pool that is made by appending stays one while the bootstrap methods of a view are copied. -/
theorem built_of_copyBootstraps {count number : Nat} (h : view.copyBootstraps count number pool = .ok copy)
    (hp : pool.Built) :
    copy.Built := by
  induction count generalizing number pool with
  | zero => exact Except.ok.inj h ▸ hp
  | succ count ih =>
    obtain ⟨b, -, hrest⟩ := exists_of_bind_eq_ok h
    exact ih hrest (hp.appendBootstrap b)

/-- A copy of a pool is made by appending, whatever the view reads. -/
theorem built_of_toPool (h : view.toPool = .ok copy) : copy.Built := by
  obtain ⟨pool, hentries, hbootstraps⟩ := exists_of_bind_eq_ok h
  exact built_of_copyBootstraps hbootstraps (built_of_copyEntries hentries .empty)

end PoolView

/-- The pools that a class can start from: the empty one, and a copy of what a view reads. -/
def ConstantPool.Initial (pool : ConstantPool) : Prop :=
  pool = .empty ∨ ∃ view : PoolView, view.toPool = .ok pool

/-- A pool that a class starts with is made by appending. -/
theorem ConstantPool.Initial.built {pool : ConstantPool} (h : pool.Initial) : pool.Built := by
  rcases h with rfl | ⟨view, hcopy⟩
  · exact .empty
  · exact PoolView.built_of_toPool hcopy

/-! ## Classes -/

/-- A table of attributes takes two bytes for their number and what each of them takes. -/
theorem Attribute.size_encodeTable (attributes : List Attribute) :
    (encodeTable attributes).size = 2 + (attributes.map Attribute.size).sum := by
  rw [encodeTable, Bytes.size_counted, List.map_map]
  exact congrArg (fun sizes : List Nat => 2 + sizes.sum) (List.map_congr_left fun a _ => a.size_encode)

/-- The interfaces, fields and methods take two bytes for each number and what each of them takes. -/
theorem ClassDraft.size_tables (c : ClassDraft) : c.tables.size =
    2 + 2 * c.interfaces.length + (2 + (c.fields.toList.map Array.size).sum +
      (2 + (c.methods.toList.map Array.size).sum)) := by
  have hinterfaces : ((c.interfaces.map Bytes.ofUInt16).map Array.size).sum = 2 * c.interfaces.length := by
    simp [Function.comp_def, List.map_const', Nat.mul_comm]
  rw [tables, Array.size_append, Array.size_append, Bytes.size_counted, Bytes.size_counted, Bytes.size_counted, hinterfaces]

/-- A class file takes the bytes that are announced for it, if its pool was made by appending. -/
theorem ClassDraft.size_encode {c : ClassDraft} {version : Version} {pool : ConstantPool} {attributes : List Attribute}
    {bytes : Bytes}
    (h : c.encode version pool attributes = .ok bytes) (hp : pool.Built) : bytes.size = c.announcedSize pool attributes := by
  obtain ⟨constants, hconstants, rfl⟩ := encode_eq h
  simp only [Array.size_append, size_preamble, size_header, size_tables, Attribute.size_encodeTable,
    hp.size_encode hconstants, announcedSize]
  omega

namespace Writer

/-- Number of bytes that are announced for the class file: what its parts take once everything is closed and the names of its
attributes are in the pool. -/
def announcedSize (w : Writer) : Nat :=
  let ⟨context, draft, _, _, _⟩ := w.closeAll
  let (attributes, context) := context.intern (draft.attributes context.version.major)
  draft.announcedSize context.pool attributes

variable {w closed : Writer} {pool : ConstantPool} {attributes : List Attribute} {bytes : Bytes}

/-- A class that is closed has announced the size of its draft. -/
theorem Written.announcedSize_eq (h : w.closeAll.Written pool attributes bytes) :
    w.announcedSize = w.closeAll.draft.announcedSize pool attributes := by
  obtain ⟨-, hattributes, -⟩ := h
  unfold announcedSize
  generalize w.closeAll = closed at *
  obtain ⟨context, draft, member, notes, copies⟩ := closed
  dsimp only [Context.intern_eq] at hattributes ⊢
  rw [hattributes]

/-- The pool of a class that is closed and has its attributes is made by appending if the pool of the class was. -/
theorem Written.built (h : closed.Written pool attributes bytes) (hp : closed.context.pool.Built) : pool.Built := by
  have hled := closed.draft.leads_attributes closed.context.version.major
    (fun contents _ hq => (interns_internAttributes contents).extends hq) closed.context.pool hp
  rw [h.content] at hled
  exact hled.1

/-- A class file takes the bytes that are announced for it. -/
theorem size_toBytes (h : w.toBytes = .ok bytes) (hp : w.context.pool.Built) : bytes.size = w.announcedSize := by
  obtain ⟨pool, attributes, hwritten⟩ := exists_written h
  rw [hwritten.announcedSize_eq]
  exact ClassDraft.size_encode hwritten.encoded (hwritten.built (w.later_closeAll.context.built hp))

end Writer

open ConstantPool in
/-- From a pool that is empty or copied, whatever is then asked for or told: a class that is written without an error takes
the bytes that are announced for it, a pool that is written takes the bytes that it says, and so does every attribute. -/
theorem sizes_announced {base : ConstantPool} (hbase : base.Initial) :
    (∀ (policy : FramePolicy) (hierarchy : Hierarchy) (source : Option SourceId) (events : List Event) (bytes : Bytes),
      ((Writer.withPool policy hierarchy base source).play events).toBytes = .ok bytes →
        bytes.size = ((Writer.withPool policy hierarchy base source).play events).announcedSize) ∧
    (∀ (requests : List Request) (bytes : Bytes), (Request.askAll requests base).2.encode = .ok bytes →
      bytes.size = (Request.askAll requests base).2.size) ∧
    ∀ a : Attribute, a.encode.size = a.size := by
  refine ⟨fun policy hierarchy source events bytes h => ?_, fun requests bytes h => ?_, Attribute.size_encode⟩
  · exact Writer.size_toBytes h ((Writer.later_play _ events).context.built hbase.built)
  · exact ((interns_askAll requests).extends hbase.built).1.size_encode h

open ConstantPool in
/-- The class with an annotation takes the bytes that are announced for it, and so does a pool of a long
to which an integer is added. -/
theorem sizes_announced_annotated :
    (∃ bytes, ((Writer.start .maxStack .empty).play
        (.header { major := 52, minor := 0 } 0x20 "A" none none [] :: annotatedEvents)).toBytes = .ok bytes ∧
      bytes.size = ((Writer.start .maxStack .empty).play
        (.header { major := 52, minor := 0 } 0x20 "A" none none [] :: annotatedEvents)).announcedSize) ∧
    ∃ copy bytes, sampleImage.pool.toPool = .ok copy ∧ (Request.askAll [.constant (.integer 8)] copy).2.encode = .ok bytes ∧
      bytes.size = (Request.askAll [.constant (.integer 8)] copy).2.size := by
  refine ⟨?_, ?_⟩
  · obtain ⟨bytes, hwritten, -⟩ := Writer.written_annotated
    have hplay : (Writer.start .maxStack .empty).play
      (.header { major := 52, minor := 0 } 0x20 "A" none none [] :: annotatedEvents) =
        Writer.annotated 6 Writer.annotatedDraft none := by
      rw [Writer.play_cons, Writer.header_annotated, Writer.play_annotated]
    have hbytes := hwritten.toBytes rfl
    rw [← hplay] at hbytes
    exact ⟨bytes, hbytes, (sizes_announced (.inl rfl)).1 .maxStack .empty none _ bytes hbytes⟩
  · have hcopy : sampleImage.pool.toPool = .ok ((ConstantPool.empty.append (.long 7)).append (.integer 7)) := rfl
    have hnew : intern (.integer 8) ((ConstantPool.empty.append (.long 7)).append (.integer 7)) =
        (4, ((ConstantPool.empty.append (.long 7)).append (.integer 7)).append (.integer 8)) :=
      ((Built.empty.append _).append _).intern_eq _
    have hasked : (Request.askAll [.constant (.integer 8)] ((ConstantPool.empty.append (.long 7)).append (.integer 7))).2 =
        ((ConstantPool.empty.append (.long 7)).append (.integer 7)).append (.integer 8) := congrArg Prod.snd hnew
    have hencoded : (Request.askAll [.constant (.integer 8)]
      ((ConstantPool.empty.append (.long 7)).append (.integer 7))).2.encode =
        .ok #[0, 5, 5, 0, 0, 0, 0, 0, 0, 0, 7, 3, 0, 0, 0, 7, 3, 0, 0, 0, 8] := by
      rw [hasked]
      rfl
    exact ⟨_, _, hcopy, hencoded, (sizes_announced (.inr ⟨_, hcopy⟩)).2.1 _ _ hencoded⟩

end ClassFile
