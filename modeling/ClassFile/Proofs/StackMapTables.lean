import ClassFile.Proofs.StackMapCompression
import Mathlib.Data.List.Forall2

/-!
# Stack maps lose nothing

A table of entries, each a difference from the one before, reads back as the frames it was made of; so does a table of the
older form. Strictly increasing offsets keep every difference of offsets from falling below zero.
-/

namespace ClassFile

namespace StackMap

/-- The locals at the method's entry, which the first frame says. -/
def entryLocals (types : TypeTable) (frames : List ComputedFrame) : List Slot :=
  match frames with
  | [] => []
  | first :: _ => trimTops (listedSlots types first.locals)

/-- The differences of the offsets of frames, as integers: how many bytes the first is behind the start of the code, and how
many any other is behind the byte that follows the one before. -/
def gaps : (previous : Option Nat) → List ComputedFrame → List Int
  | _, [] => []
  | none, frame :: rest => (frame.offset : Int) :: gaps (some frame.offset) rest
  | some p, frame :: rest => ((frame.offset : Int) - p - 1) :: gaps (some frame.offset) rest

/-- An entry of the older form lists what is to be said of a frame. -/
structure Lists (pool : ConstantPool) (written : StackMapEntry) (e : Entry) : Prop where
  offset : written.offset.toNat = e.offset
  locals : Say pool written.locals e.locals
  stack : Say pool written.stack e.stack

/-- Frames whose offsets grow, from one offset on. -/
def Ascends (previous : Option Nat) (frames : List ComputedFrame) : Prop :=
  (frames.map (·.offset)).Pairwise (· < ·) ∧ ∀ frame ∈ frames, frame.offset < 65535 ∧ ∀ p ∈ previous, p < frame.offset

/-- The number of slots that are listed fits in two bytes. -/
def Countable (types : TypeTable) (frame : ComputedFrame) : Prop :=
  (entryOf types frame).locals.length < 65536 ∧ (entryOf types frame).stack.length < 65536

/-- Behind a frame the offsets go on growing. -/
theorem Ascends.tail {previous : Option Nat} {frame : ComputedFrame} {rest : List ComputedFrame}
    (h : Ascends previous (frame :: rest)) : Ascends (some frame.offset) rest := by
  obtain ⟨hp, hm⟩ := h
  rw [List.map_cons, List.pairwise_cons] at hp
  refine ⟨hp.2, fun f hf => ⟨(hm f (List.mem_cons_of_mem _ hf)).1, ?_⟩⟩
  intro p hpo
  cases hpo
  exact hp.1 _ (List.mem_map_of_mem hf)

/-- Offsets that grow and stay below 65536 are fewer than that. -/
theorem Ascends.length_lt {previous : Option Nat} {frames : List ComputedFrame} (h : Ascends previous frames) :
    frames.length < 65536 := by
  suffices hl : ∀ (frames : List ComputedFrame) (n : Nat), (frames.map (·.offset)).Pairwise (· < ·) →
      (∀ f ∈ frames, n ≤ f.offset ∧ f.offset < 65535) → frames.length ≤ 65535 - n from
    Nat.lt_of_le_of_lt (hl frames 0 h.1 fun f hf => ⟨Nat.zero_le _, (h.2 f hf).1⟩) (by decide)
  intro frames
  induction frames with
  | nil => intros; simp
  | cons frame rest ih =>
    intro n hp hm
    rw [List.map_cons, List.pairwise_cons] at hp
    have hf := hm frame List.mem_cons_self
    have hr := ih (frame.offset + 1) hp.2 fun f hf => ⟨hp.1 _ (List.mem_map_of_mem hf), (hm f (List.mem_cons_of_mem _ hf)).2⟩
    rw [List.length_cons]
    omega

/-! ## Differences of offsets -/

/-- The difference that is written for a frame. -/
def writtenGap (previous : Option Nat) (offset : Nat) : Nat :=
  match previous with
  | none => offset
  | some p => offset - p - 1

/-- The entry of a frame carries the difference of the offsets. -/
theorem delta_compressFrame (types : TypeTable) (previous : Option Nat) (before : List VerificationType)
    (frame : ComputedFrame) (pool : ConstantPool) :
    delta (compressFrame types previous before frame pool).1.1 = (writtenGap previous frame.offset).toUInt16 :=
  delta_ofDifference _ _ _ _

/-- Behind a smaller offset, the difference is what it should be, and is not cut off. -/
theorem toNat_writtenGap {previous : Option Nat} {frame : ComputedFrame} {rest : List ComputedFrame}
    (h : Ascends previous (frame :: rest)) :
    ((writtenGap previous frame.offset).toUInt16.toNat : Int) :: gaps (some frame.offset) rest =
      gaps previous (frame :: rest) := by
  obtain ⟨hm, hp⟩ := h.2 frame List.mem_cons_self
  cases previous with
  | none =>
    rw [gaps, writtenGap, UInt16.toNat_ofNat', Nat.mod_eq_of_lt (by omega)]
  | some p =>
    have := hp p rfl
    rw [gaps, writtenGap, UInt16.toNat_ofNat', Nat.mod_eq_of_lt (by omega)]
    congr 1
    omega

/-- Behind the difference that is written, a reader is at the offset of the frame. -/
theorem offsetAfter_writtenGap {previous : Option Nat} {frame : ComputedFrame} {rest : List ComputedFrame}
    (h : Ascends previous (frame :: rest)) :
    offsetAfter previous (writtenGap previous frame.offset).toUInt16.toNat = frame.offset := by
  obtain ⟨hm, hp⟩ := h.2 frame List.mem_cons_self
  cases previous with
  | none => rw [offsetAfter, writtenGap, UInt16.toNat_ofNat', Nat.mod_eq_of_lt (by omega)]
  | some p =>
    have := hp p rfl
    rw [offsetAfter, writtenGap, UInt16.toNat_ofNat', Nat.mod_eq_of_lt (by omega)]
    omega

/-- The entries of frames carry the differences of their offsets. -/
theorem deltas_compressFrom (types : TypeTable) (found : Array StackMapFrame) (previous : Option Nat)
    (before : List VerificationType) (frames : List ComputedFrame) (h : Ascends previous frames) (pool : ConstantPool) :
    (compressFrom types found previous before frames pool).1.toList.map (fun e => ((delta e).toNat : Int)) =
      found.toList.map (fun e => ((delta e).toNat : Int)) ++ gaps previous frames := by
  induction frames generalizing found previous before pool with
  | nil =>
    rw [gaps, List.append_nil]
    rfl
  | cons frame rest ih =>
    have hd := delta_compressFrame types previous before frame pool
    change (compressFrom types (found.push (compressFrame types previous before frame pool).1.1) (some frame.offset)
      (compressFrame types previous before frame pool).1.2 rest (compressFrame types previous before frame pool).2
      ).1.toList.map _ = _
    rw [ih _ _ _ h.tail, ← toNat_writtenGap h, ← hd]
    simp

/-! ## Tables -/

/-- The entry of a frame is read as what is to be said of the frame. -/
theorem ensures_compressFrame (types : TypeTable) (previous : Option Nat) (before : List VerificationType)
    (old : List Slot) (frame : ComputedFrame) (hc : Countable types frame) :
    ConstantPool.Ensures (compressFrame types previous before frame) fun written later =>
      Say later written.2 (entryOf types frame).locals ∧ (Say later before old →
        Reads (readEntry later previous old) written.1.encode ⟨offsetAfter previous
          (writtenGap previous frame.offset).toUInt16.toNat, (entryOf types frame).locals,
          (entryOf types frame).stack⟩) := by
  refine (ensures_localTypes types frame.locals).bind (fun locals => (ensures_stackTypes types frame.stack).map
    (S := fun written later => Say later locals (entryOf types frame).locals →
    Say later written.2 (entryOf types frame).locals ∧
    (Say later before old → Reads (readEntry later previous old) written.1.encode ⟨offsetAfter previous
        (writtenGap previous frame.offset).toUInt16.toNat, (entryOf types frame).locals, (entryOf types frame).stack⟩))
    fun stack later hs hl => ⟨hl, fun hb => ?_⟩) fun locals written later hl h => h hl
  have hll := hl.length
  have hsl := hs.length
  exact reads_difference hb hl hs (hll ▸ hc.1) (hsl ▸ hc.2)

/-- The entries of frames are read as what is to be said of them, one after the other. -/
theorem ensures_compressFrom (types : TypeTable) (found : Array StackMapFrame) (previous : Option Nat)
    (before : List VerificationType) (old : List Slot) (frames : List ComputedFrame) (h : Ascends previous frames)
    (hc : ∀ frame ∈ frames, Countable types frame) :
    ConstantPool.Ensures (compressFrom types found previous before frames) fun entries later =>
      ∃ more, entries.toList = found.toList ++ more ∧ more.length = frames.length ∧ (Say later before old →
        Reads (readEntries later frames.length previous old) (Bytes.concat (more.map StackMapFrame.encode))
          (frames.map (entryOf types))) := by
  induction frames generalizing found previous before old with
  | nil =>
    refine (ConstantPool.Ensures.pure found).mono fun entries later he => ⟨[], by simp [he], rfl, fun _ => ?_⟩
    exact Reads.pure []
  | cons frame rest ih =>
    have hframe := ensures_compressFrame types previous before old frame (hc frame List.mem_cons_self)
    have hrest := fun written : StackMapFrame × List VerificationType =>
      ih (found.push written.1) (some frame.offset) written.2 (entryOf types frame).locals h.tail
        fun f hf => hc f (List.mem_cons_of_mem _ hf)
    refine hframe.bind hrest fun written entries later hw hes => ?_
    obtain ⟨more, hmore, hlen, hread⟩ := hes
    refine ⟨written.1 :: more, by simp [hmore], by simp [hlen], fun hb => ?_⟩
    rw [List.map_cons, Bytes.concat_cons, List.length_cons, List.map_cons, readEntries]
    have hentry := hw.2 hb
    rw [offsetAfter_writtenGap h] at hentry
    refine hentry.bind ?_
    exact (hread hw.1).map (entryOf types frame :: ·)

/-- Numbered entries, read to the last byte. -/
theorem readWhole_counted (read : Nat → MapReader (List Entry)) {pieces : List Bytes} {es : List Entry}
    (hl : pieces.length < 65536) (h : Reads (read pieces.length) (Bytes.concat pieces) es) :
    readWhole (do read (← MapReader.read Decoder.u16).toNat) (Bytes.counted pieces) = some es := by
  have hn : pieces.length.toUInt16.toNat = pieces.length := by
    rw [UInt16.toNat_ofNat']
    omega
  have hr : Reads (do read (← MapReader.read Decoder.u16).toNat) (Bytes.counted pieces) es := by
    rw [Bytes.counted_eq]
    refine (reads_read (Reads.u16 pieces.length.toUInt16)).bind ?_
    rwa [hn]
  unfold readWhole
  rw [hr _ 0 (Bytes.hasAt_self _)]
  simp

/-- The table of frames is read as what is to be said of all but the first. -/
theorem ensures_compress (types : TypeTable) (frames : List ComputedFrame) (h : Ascends none frames.tail)
    (hc : ∀ frame ∈ frames.tail, Countable types frame) :
    ConstantPool.Ensures (compress types frames) fun entries later =>
      readTable later (entryLocals types frames) (AttributeContent.stackMapTable entries).encode =
        some (frames.tail.map (entryOf types)) := by
  cases frames with
  | nil =>
    refine (ConstantPool.Ensures.pure []).mono fun entries later he => ?_
    subst he
    exact readWhole_counted (fun n => readEntries later n none []) (by decide) (Reads.pure [])
  | cons first rest =>
    have hrest := fun locals => ensures_compressFrom types #[] none locals (entryLocals types (first :: rest)) rest h hc
    refine (ensures_localTypes types first.locals).bind (fun locals => (hrest locals).map
      (S := fun entries later => Say later locals (entryLocals types (first :: rest)) →
        readTable later (entryLocals types (first :: rest)) (AttributeContent.stackMapTable entries).encode =
          some (rest.map (entryOf types))) ?_) fun locals entries later hl he => he hl
    rintro entries later ⟨more, hmore, hlen, hread⟩ hl
    obtain rfl : more = entries.toList := by simpa using hmore.symm
    have hpieces : (entries.toList.map StackMapFrame.encode).length = rest.length := by rw [List.length_map, hlen]
    refine readWhole_counted (fun n => readEntries later n none (entryLocals types (first :: rest)))
      (hpieces ▸ h.length_lt) ?_
    rw [hpieces]
    exact hread hl

/-! ## The older form -/

/-- An entry of the older form lists what is to be said of the frame. -/
theorem ensures_legacyFrame (types : TypeTable) (frame : ComputedFrame) (ho : frame.offset < 65535) :
    ConstantPool.Ensures (legacyFrame types frame) fun written later => Lists later written (entryOf types frame) := by
  refine (ensures_localTypes types frame.locals).bind (fun locals => (ensures_stackTypes types frame.stack).map
    (S := fun written later => Say later locals (entryOf types frame).locals → Lists later written (entryOf types frame))
    fun stack later hs hl => ⟨?_, hl, hs⟩) fun locals written later hl h => h hl
  exact Nat.mod_eq_of_lt (by omega)

/-- Entries of the older form list what is to be said of the frames, one by one. -/
theorem ensures_legacyFrom (types : TypeTable) (found : Array StackMapEntry) (frames : List ComputedFrame)
    (ho : ∀ frame ∈ frames, frame.offset < 65535) :
    ConstantPool.Ensures (legacyFrom types found frames) fun entries later =>
      ∃ more, entries.toList = found.toList ++ more ∧ List.Forall₂ (Lists later) more (frames.map (entryOf types)) := by
  induction frames generalizing found with
  | nil =>
    refine (ConstantPool.Ensures.pure found).mono fun entries later he => ⟨[], by simp [he], ?_⟩
    exact List.Forall₂.nil
  | cons frame rest ih =>
    refine (ensures_legacyFrame types frame (ho frame List.mem_cons_self)).bind
      (fun written => ih (found.push written) fun f hf => ho f (List.mem_cons_of_mem _ hf)) ?_
    rintro written entries later hw ⟨more, hmore, hlist⟩
    exact ⟨written :: more, by simp [hmore], List.Forall₂.cons hw hlist⟩

/-- Entries of the older form read back as what they list. -/
theorem reads_fullEntries {pool : ConstantPool} {written : List StackMapEntry} {es : List Entry}
    (h : List.Forall₂ (Lists pool) written es)
    (hc : ∀ e ∈ es, e.locals.length < 65536 ∧ e.stack.length < 65536) :
    Reads (readFullEntries pool es.length) (Bytes.concat (written.map StackMapEntry.encode)) es := by
  induction h with
  | nil => exact Reads.pure []
  | @cons w e ws es hw _ ih =>
    have he := hc e List.mem_cons_self
    have hentry : Reads (readFullEntry pool) w.encode e := by
      simp only [StackMapEntry.encode, Array.append_assoc]
      refine (reads_read (Reads.u16 w.offset)).bind ?_
      refine (reads_countedSlots hw.locals (hw.locals.length ▸ he.1)).bind ?_
      rw [hw.offset]
      exact (reads_countedSlots hw.stack (hw.stack.length ▸ he.2)).map fun ts => (⟨e.offset, e.locals, ts⟩ : Entry)
    rw [List.map_cons, Bytes.concat_cons, List.length_cons, readFullEntries]
    refine hentry.bind ?_
    exact (ih fun x hx => hc x (List.mem_cons_of_mem _ hx)).map (e :: ·)

/-- A table of the older form lists what is to be said of all frames but the first. -/
theorem ensures_legacy (types : TypeTable) (frames : List ComputedFrame) (h : Ascends none frames.tail)
    (hc : ∀ frame ∈ frames.tail, Countable types frame) :
    ConstantPool.Ensures (legacy types frames) fun entries later =>
      List.Forall₂ (Lists later) entries (frames.tail.map (entryOf types)) ∧
        readFullTable later (AttributeContent.stackMap entries).encode = some (frames.tail.map (entryOf types)) := by
  refine (ensures_legacyFrom types #[] frames.tail fun f hf => (h.2 f hf).1).map ?_
  rintro entries later ⟨more, hmore, hlist⟩
  obtain rfl : more = entries.toList := by simpa using hmore.symm
  have hlen := hlist.length_eq
  rw [List.length_map] at hlen
  have hpieces : (entries.toList.map StackMapEntry.encode).length = frames.tail.length := by rw [List.length_map, hlen]
  refine ⟨hlist, readWhole_counted (readFullEntries later) (hpieces ▸ h.length_lt) ?_⟩
  have hread := reads_fullEntries hlist fun e he => by
    obtain ⟨frame, hf, rfl⟩ := List.mem_map.1 he
    exact hc frame hf
  rw [List.length_map] at hread
  rw [hpieces]
  exact hread

/-! ## The result -/

/-- Compression loses nothing: the written table reads back as the offsets, locals and stacks of the frames behind the first,
no difference of offsets is negative or cut off, and the older form lists the same. -/
theorem read_compress (types : TypeTable) (frames : List ComputedFrame) (pool : ConstantPool) (hp : pool.Built)
    (ho : (frames.tail.map (·.offset)).Pairwise (· < ·)) (hm : ∀ frame ∈ frames.tail, frame.offset < 65535)
    (hc : ∀ frame ∈ frames.tail, Countable types frame) :
    (∀ later : ConstantPool, later.Built → (compress types frames pool).2.Extends later → later.Fits →
      readTable later (entryLocals types frames)
        (AttributeContent.stackMapTable (compress types frames pool).1).encode =
          some (frames.tail.map (entryOf types))) ∧
    ((compress types frames pool).1.map (fun e => ((delta e).toNat : Int)) = gaps none frames.tail ∧
      ∀ gap ∈ gaps none frames.tail, 0 ≤ gap) ∧
    (∀ later : ConstantPool, later.Built → (legacy types frames pool).2.Extends later → later.Fits →
      List.Forall₂ (Lists later) (legacy types frames pool).1 (frames.tail.map (entryOf types)) ∧
        readFullTable later (AttributeContent.stackMap (legacy types frames pool).1).encode =
          some (frames.tail.map (entryOf types))) := by
  have h : Ascends none frames.tail := ⟨ho, fun f hf => ⟨hm f hf, fun p hn => nomatch hn⟩⟩
  have hgaps : (compress types frames pool).1.map (fun e => ((delta e).toNat : Int)) = gaps none frames.tail := by
    cases frames with
    | nil => rfl
    | cons first rest =>
      exact deltas_compressFrom types #[] none (localTypes types first.locals pool).1 rest h
        (localTypes types first.locals pool).2
  refine ⟨(ensures_compress types frames h hc pool hp).2.2, ⟨hgaps, ?_⟩, (ensures_legacy types frames h hc pool hp).2.2⟩
  rw [← hgaps]
  intro gap hg
  obtain ⟨e, -, rfl⟩ := List.mem_map.1 hg
  exact Int.natCast_nonneg _

/-- Frames of a method with an `int` and a `long`: the same locals, one stack slot, a local more, two less, and all anew. -/
def sampleFrames : List ComputedFrame :=
  [⟨0, #[.integer, .long, .top], #[]⟩, ⟨4, #[.integer, .long, .top, .top], #[]⟩, ⟨90, #[.integer, .long, .top], #[.null]⟩,
    ⟨91, #[.integer, .long, .top, .float], #[]⟩, ⟨300, #[.integer], #[]⟩, ⟨310, #[.top, .float], #[.double, .top]⟩]

/-- The table of the sample frames is read as what is to be said of them. -/
theorem read_compress_sampleFrames :
    (sampleFrames.tail.map (·.offset)).Pairwise (· < ·) ∧ (∀ frame ∈ sampleFrames.tail, frame.offset < 65535) ∧
      (∀ frame ∈ sampleFrames.tail, Countable .empty frame) ∧
      readTable .empty [.integer, .long] (AttributeContent.stackMapTable (compress .empty sampleFrames .empty).1).encode =
        some [⟨4, [.integer, .long], []⟩, ⟨90, [.integer, .long], [.null]⟩, ⟨91, [.integer, .long, .float], []⟩,
          ⟨300, [.integer], []⟩, ⟨310, [.top, .float], [.double]⟩] := by
  have ho : (sampleFrames.tail.map (·.offset)).Pairwise (· < ·) := by decide
  have hm : ∀ frame ∈ sampleFrames.tail, frame.offset < 65535 := by decide
  have hc : ∀ frame ∈ sampleFrames.tail, Countable .empty frame := by
    unfold Countable
    decide
  refine ⟨ho, hm, hc, ?_⟩
  exact (read_compress .empty sampleFrames .empty .empty ho hm hc).1 .empty .empty
    (ConstantPool.Extends.refl _) (by unfold ConstantPool.Fits; decide)

end StackMap

end ClassFile
