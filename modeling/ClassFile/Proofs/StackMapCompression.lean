import ClassFile.Attribute
import ClassFile.Proofs.StackMapFormat

/-!
# What a stack map says

Every way of writing an entry reads back as the entry: a slot (`reads_slot`), an entry as a difference from the one before
(`reads_difference`), the table of all entries. Equal constants name equal classes, so comparing locals by their constants,
as the writer does, is comparing what they say.
-/

namespace ClassFile

namespace StackMap

/-! ## Slots -/

/-- What a written slot says, if its constant is a class. -/
def slotOf? (pool : ConstantPool) : VerificationType → Option Slot
  | .top => some .top
  | .integer => some .integer
  | .float => some .float
  | .double => some .double
  | .long => some .long
  | .null => some .null
  | .uninitializedThis => some .uninitializedThis
  | .object i => (typeName? pool i).map .object
  | .uninitialized offset => some (.uninitialized offset)

/-- Written slots say certain things. -/
def Say (pool : ConstantPool) (vs : List VerificationType) (ss : List Slot) : Prop :=
  vs.map (slotOf? pool) = ss.map some

/-- An index that names a class is looked up. -/
theorem typeName?_of_holdsType {pool : ConstantPool} {i : PoolIndex} {name : String} (h : pool.HoldsType i name) :
    typeName? pool i = some name := by
  obtain ⟨j, hi, hj⟩ := h
  unfold ConstantPool.HoldsText at hj
  unfold ConstantPool.Holds at hi hj
  simp only [typeName?, hi, hj]

theorem Say.nil (pool : ConstantPool) : Say pool [] [] := rfl

/-- Slots are written one by one. -/
theorem Say.length {pool : ConstantPool} {vs : List VerificationType} {ss : List Slot} (h : Say pool vs ss) :
    vs.length = ss.length := by
  simpa using congrArg List.length h

/-- Written slots say one thing. -/
theorem Say.unique {pool : ConstantPool} {vs : List VerificationType} {ss ts : List Slot} (h : Say pool vs ss)
    (h' : Say pool vs ts) : ss = ts :=
  (List.map_inj_right fun _ _ => Option.some.inj).1 (h.symm.trans h')

/-- Slots are written in any order. -/
theorem Say.reverse {pool : ConstantPool} {vs : List VerificationType} {ss : List Slot} (h : Say pool vs ss) :
    Say pool vs.reverse ss.reverse := by
  unfold Say at h ⊢
  rw [List.map_reverse, List.map_reverse, h]

/-- The first of some slots are written first. -/
theorem Say.take {pool : ConstantPool} {vs : List VerificationType} {ss : List Slot} (h : Say pool vs ss) (n : Nat) :
    Say pool (vs.take n) (ss.take n) := by
  unfold Say at h ⊢
  rw [List.map_take, List.map_take, h]

/-- The last of some slots are written last. -/
theorem Say.drop {pool : ConstantPool} {vs : List VerificationType} {ss : List Slot} (h : Say pool vs ss) (n : Nat) :
    Say pool (vs.drop n) (ss.drop n) := by
  unfold Say at h ⊢
  rw [List.map_drop, List.map_drop, h]

/-- What a written slot says is unusable exactly when it is written so. -/
theorem slotOf?_top {pool : ConstantPool} {v : VerificationType} {s : Slot} (h : slotOf? pool v = some s) :
    v = .top ↔ s = .top := by
  cases v with
  | object i =>
    obtain ⟨name, _, rfl⟩ := Option.map_eq_some_iff.1 h
    simp
  | _ => cases h; simp

/-- Dropping unusable slots at the end is the same before and after writing. -/
theorem Say.dropTops {pool : ConstantPool} {vs : List VerificationType} {ss : List Slot} (h : Say pool vs ss) :
    Say pool (dropTops vs) (trimTops ss) := by
  suffices hd : ∀ (vs : List VerificationType) (ss : List Slot), Say pool vs ss →
      Say pool (vs.dropWhile (· == .top)) (ss.dropWhile (· = .top)) from (hd _ _ h.reverse).reverse
  intro vs
  induction vs with
  | nil =>
    intro ss h
    obtain rfl : ss = [] := List.eq_nil_of_length_eq_zero h.length.symm
    exact h
  | cons v vs ih =>
    intro ss h
    cases ss with
    | nil => cases h
    | cons s ss =>
      obtain ⟨hv, ht⟩ := List.cons.inj h
      by_cases hs : s = .top
      · have hv' := (slotOf?_top hv).2 hs
        simpa [List.dropWhile_cons, hs, hv'] using ih ss ht
      · have hv' : v ≠ .top := fun e => hs ((slotOf?_top hv).1 e)
        simpa [List.dropWhile_cons, hs, hv'] using h

/-- A slot is written so that it says what the frame says. -/
theorem ensures_ofFrameType (types : TypeTable) (t : FrameType) :
    ConstantPool.Ensures (VerificationType.ofFrameType types t) fun v later =>
      slotOf? later v = some (Slot.ofFrameType types t) := by
  have hclass : ∀ name : String, ConstantPool.Ensures (do return VerificationType.object (← ConstantPool.type name))
      fun v later => slotOf? later v = some (.object name) := by
    intro name
    refine (ConstantPool.ensures_type name).map fun i later hi => ?_
    rw [slotOf?, typeName?_of_holdsType hi]
    rfl
  have hpure : ∀ (v : VerificationType) (s : Slot), (∀ pool, slotOf? pool v = some s) →
      ConstantPool.Ensures (pure v) fun v later => slotOf? later v = some s := by
    intro v s h
    refine (ConstantPool.Ensures.pure v).mono fun a later ha => ?_
    rw [ha, h]
  unfold VerificationType.ofFrameType Slot.ofFrameType
  by_cases hd : t.dimensions > 0
  · rw [if_pos hd, if_pos hd]
    exact hclass _
  · rw [if_neg hd, if_neg hd]
    cases t.shape with
    | object index => exact hclass _
    | uninitialized index =>
      dsimp only
      cases types.get? index with
      | none => exact hpure _ _ fun _ => rfl
      | some e => cases e <;> exact hpure _ _ fun _ => rfl
    | _ =>
      by_cases hz : t.dims = 0 <;> simp only [hz, bne_self_eq_false, bne_iff_ne, ne_eq, not_false_eq_true,
        if_true, if_false, Bool.false_eq_true, ite_self]
      all_goals exact hpure _ _ fun _ => rfl

/-- Slots are listed so that they say what the frame says. -/
theorem ensures_listSlots (types : TypeTable) (slots : List FrameType) (listed : Array VerificationType) (ss : List Slot) :
    ConstantPool.Ensures (listSlots types listed slots) fun vs later =>
      Say later listed.toList ss → Say later vs.toList (ss ++ (significantSlots slots).map (Slot.ofFrameType types)) := by
  have hpush : ∀ (t : FrameType) (listed : Array VerificationType) (ss : List Slot) (v : VerificationType)
      (later : ConstantPool), slotOf? later v = some (Slot.ofFrameType types t) → Say later listed.toList ss →
      Say later (listed.push v).toList (ss ++ [Slot.ofFrameType types t]) := by
    intro t listed ss v later hv h
    unfold Say at h ⊢
    simp [h, hv]
  fun_induction listSlots types listed slots generalizing ss with
  | case1 listed =>
    refine (ConstantPool.Ensures.pure listed).mono fun a later ha h => ?_
    subst ha
    simpa [significantSlots] using h
  | case2 listed t =>
    refine (ensures_ofFrameType types t).map fun v later hv h => ?_
    exact hpush t listed ss v later hv h
  | case3 listed t u rest ih₁ ih₂ =>
    by_cases hw : t.isWide = true
    · simp only [hw, if_true, significantSlots]
      refine (ensures_ofFrameType types t).bind (fun v => ih₁ v (ss ++ [Slot.ofFrameType types t])) ?_
      intro v vs later hv h hs
      have := h (hpush t listed ss v later hv hs)
      simpa using this
    · simp only [hw, significantSlots]
      refine (ensures_ofFrameType types t).bind (fun v => ih₂ v (ss ++ [Slot.ofFrameType types t])) ?_
      intro v vs later hv h hs
      have := h (hpush t listed ss v later hv hs)
      simpa using this

/-- The slots of the stack are written as what is to be said of them. -/
theorem ensures_stackTypes (types : TypeTable) (slots : Array FrameType) :
    ConstantPool.Ensures (stackTypes types slots) fun vs later => Say later vs (listedSlots types slots) := by
  refine (ensures_listSlots types slots.toList #[] []).map fun vs later h => ?_
  exact h (Say.nil later)

/-- The locals are written as what is to be said of them, without unusable ones at the end. -/
theorem ensures_localTypes (types : TypeTable) (slots : Array FrameType) :
    ConstantPool.Ensures (localTypes types slots) fun vs later => Say later vs (trimTops (listedSlots types slots)) :=
  (ensures_stackTypes types slots).map fun _ _ h => h.dropTops

/-! ## Reading what was written -/

/-- Numbers are read as any reader reads them. -/
theorem reads_read {α : Type} {d : Decoder α} {p : Bytes} {a : α} (h : Reads d p a) : Reads (MapReader.read d) p a := by
  intro b offset hp
  unfold MapReader.read
  rw [h b offset hp]
  rfl

/-- A written slot reads back as what it says. -/
theorem reads_slot {pool : ConstantPool} {v : VerificationType} {s : Slot} (h : slotOf? pool v = some s) :
    Reads (readSlot pool) v.encode s := by
  unfold readSlot
  cases v with
  | object i =>
    obtain ⟨name, hn, rfl⟩ := Option.map_eq_some_iff.1 h
    have hneed : Reads (MapReader.need (typeName? pool i)) #[] name := by
      rw [hn]
      exact Reads.pure name
    refine (reads_read (Reads.u8 7)).bind ?_
    exact (reads_read (Reads.u16 i)).bindEmpty (hneed.map Slot.object)
  | uninitialized offset =>
    cases h
    exact (reads_read (Reads.u8 8)).bind ((reads_read (Reads.u16 offset)).map Slot.uninitialized)
  | _ =>
    cases h
    exact (reads_read (Reads.u8 _)).bind (q := #[]) (Reads.pure _)

/-- Slots are read as what they say. -/
theorem reads_slots {pool : ConstantPool} {vs : List VerificationType} {ss : List Slot} (h : Say pool vs ss) :
    Reads (readSlots pool vs.length) (Bytes.concat (vs.map VerificationType.encode)) ss := by
  induction vs generalizing ss with
  | nil =>
    obtain rfl : ss = [] := List.eq_nil_of_length_eq_zero h.length.symm
    exact Reads.pure []
  | cons v vs ih =>
    cases ss with
    | nil => cases h
    | cons s ss =>
      obtain ⟨hv, ht⟩ := List.cons.inj h
      rw [List.map_cons, Bytes.concat_cons]
      exact (reads_slot hv).bind ((ih ht).map (s :: ·))

/-- Slots are read behind their number if that fits in two bytes. -/
theorem reads_countedSlots {pool : ConstantPool} {vs : List VerificationType} {ss : List Slot} (h : Say pool vs ss)
    (hl : vs.length < 65536) :
    Reads (readCountedSlots pool) (Bytes.counted (vs.map VerificationType.encode)) ss := by
  have hn : vs.length.toUInt16.toNat = vs.length := by
    rw [UInt16.toNat_ofNat']
    omega
  rw [Bytes.counted_eq, List.length_map]
  refine (reads_read (Reads.u16 vs.length.toUInt16)).bind ?_
  rw [hn]
  exact reads_slots h

/-! ## Entries -/

/-- The difference of the offsets that an entry carries. -/
def delta : StackMapFrame → UInt16
  | .same d | .sameOneStack d _ | .chop d _ | .append d _ | .full d _ _ => d

/-- An entry carries the difference that it was made for. -/
theorem delta_ofDifference (d : UInt16) (previous locals stack : List VerificationType) :
    delta (.ofDifference d previous locals stack) = d := by
  unfold StackMapFrame.ofDifference
  grind [delta]

section Entries

variable {pool : ConstantPool} {previous : Option Nat} {d : UInt16} {vs : List VerificationType} {ss old : List Slot}

/-- An entry that lists all slots is read as them. -/
theorem reads_full {stack : List VerificationType} {ts : List Slot} (hv : Say pool vs ss) (hs : Say pool stack ts)
    (hvl : vs.length < 65536) (hsl : stack.length < 65536) :
    Reads (readEntry pool previous old) (StackMapFrame.full d vs stack).encode ⟨offsetAfter previous d.toNat, ss, ts⟩ := by
  simp only [StackMapFrame.encode, Array.append_assoc]
  refine (reads_read (Reads.u8 255)).bind ?_
  refine (reads_read (Reads.u16 d)).bind ?_
  refine (reads_countedSlots hv hvl).bind ?_
  exact (reads_countedSlots hs hsl).map fun ts => (⟨offsetAfter previous d.toNat, ss, ts⟩ : Entry)

/-- An entry behind a tag that says that the difference of the offsets stands apart. -/
theorem reads_extended {tag : UInt8} {piece : Bytes} {e : Entry} (ht : 247 ≤ tag.toNat)
    (h : Reads (readExtended pool tag.toNat (offsetAfter previous d.toNat) old) piece e) :
    Reads (readEntry pool previous old) (#[tag] ++ (Bytes.ofUInt16 d ++ piece)) e := by
  refine (reads_read (Reads.u8 tag)).bind ?_
  rw [if_neg (by omega), if_neg (by omega), if_neg (by omega)]
  exact (reads_read (Reads.u16 d)).bind h

/-- An entry that is no more than such a tag and the difference. -/
theorem reads_short {tag : UInt8} {e : Entry} (ht : 247 ≤ tag.toNat)
    (h : Reads (readExtended pool tag.toNat (offsetAfter previous d.toNat) old) #[] e) :
    Reads (readEntry pool previous old) (#[tag] ++ Bytes.ofUInt16 d) e := by
  have := reads_extended ht h
  rwa [Array.append_empty] at this

/-- An entry for the locals as before is read as one without a stack. -/
theorem reads_same :
    Reads (readEntry pool previous old) (StackMapFrame.same d).encode ⟨offsetAfter previous d.toNat, old, []⟩ := by
  simp only [StackMapFrame.encode]
  by_cases hd : d < 64
  · have hn : d.toUInt8.toNat = d.toNat := by
      have : d.toNat < 64 := hd
      rw [UInt16.toNat_toUInt8]
      omega
    rw [if_pos hd]
    refine (reads_read (Reads.u8 d.toUInt8)).bindEmpty ?_
    dsimp only
    rw [hn, if_pos (show d.toNat < 64 from hd)]
    exact Reads.pure _
  · rw [if_neg hd]
    exact reads_short (by decide) (Reads.pure _)

/-- An entry for the locals as before and one slot is read as that slot. -/
theorem reads_sameOneStack {v : VerificationType} {s : Slot} (h : slotOf? pool v = some s) :
    Reads (readEntry pool previous old) (StackMapFrame.sameOneStack d v).encode
      ⟨offsetAfter previous d.toNat, old, [s]⟩ := by
  simp only [StackMapFrame.encode]
  by_cases hd : d < 63
  · have hd' : d.toNat < 63 := hd
    have hn : (d.toUInt8 + 64).toNat = d.toNat + 64 := by
      rw [UInt8.toNat_add, UInt16.toNat_toUInt8]
      simp only [UInt8.reduceToNat]
      omega
    rw [if_pos hd]
    refine (reads_read (Reads.u8 _)).bind ?_
    rw [hn, if_neg (by omega), if_pos (by omega), Nat.add_sub_cancel]
    exact (reads_slot h).map fun s => (⟨offsetAfter previous d.toNat, old, [s]⟩ : Entry)
  · rw [if_neg hd, Array.append_assoc]
    refine reads_extended (by decide) ?_
    exact (reads_slot h).map fun s => (⟨offsetAfter previous d.toNat, old, [s]⟩ : Entry)

/-- An entry that takes locals away is read as the locals without them. -/
theorem reads_chop {n : Nat} (h0 : 0 < n) (h3 : n ≤ 3) :
    Reads (readEntry pool previous old) (StackMapFrame.chop d n.toUInt8).encode
      ⟨offsetAfter previous d.toNat, old.take (old.length - n), []⟩ := by
  have hn : (251 - n.toUInt8).toNat = 251 - n := by
    rcases (by omega : n = 1 ∨ n = 2 ∨ n = 3) with rfl | rfl | rfl <;> rfl
  simp only [StackMapFrame.encode]
  refine reads_short (by omega) ?_
  rw [hn, readExtended, if_neg (by omega), if_pos (by omega), show 251 - (251 - n) = n by omega]
  exact Reads.pure _

/-- An entry that adds locals is read as the locals with them. -/
theorem reads_append (hv : Say pool vs ss) (h0 : 0 < vs.length) (h3 : vs.length ≤ 3) :
    Reads (readEntry pool previous old) (StackMapFrame.append d vs).encode
      ⟨offsetAfter previous d.toNat, old ++ ss, []⟩ := by
  have hn : (251 + vs.length.toUInt8).toNat = 251 + vs.length := by
    rcases (by omega : vs.length = 1 ∨ vs.length = 2 ∨ vs.length = 3) with h | h | h <;> rw [h] <;> rfl
  simp only [StackMapFrame.encode, Array.append_assoc]
  refine reads_extended (by omega) ?_
  rw [hn, readExtended, if_neg (by omega), if_neg (by omega), if_neg (by omega), if_pos (by omega),
    Nat.add_sub_cancel_left]
  exact (reads_slots hv).map fun ss => (⟨offsetAfter previous d.toNat, old ++ ss, []⟩ : Entry)

/-- The entry that is chosen for a frame reads back as the frame, if the locals of the entry before say what they said. -/
theorem reads_difference {before locals stack : List VerificationType} {ls ts : List Slot} (hb : Say pool before old)
    (hl : Say pool locals ls) (hs : Say pool stack ts) (hll : locals.length < 65536) (hsl : stack.length < 65536) :
    Reads (readEntry pool previous old) (StackMapFrame.ofDifference d before locals stack).encode
      ⟨offsetAfter previous d.toNat, ls, ts⟩ := by
  have hfull : Reads (readEntry pool previous old) (StackMapFrame.full d locals stack).encode
      ⟨offsetAfter previous d.toNat, ls, ts⟩ := reads_full hl hs hll hsl
  have hbl := hb.length
  have hln := hl.length
  unfold StackMapFrame.ofDifference
  dsimp only
  split
  · rename_i hshared
    have hsame : locals.take (min locals.length before.length) = before.take (min locals.length before.length) := by
      simpa using hshared
    have hsay : ls.take (min locals.length before.length) = old.take (min locals.length before.length) := by
      have h₁ := hl.take (min locals.length before.length)
      have h₂ := hb.take (min locals.length before.length)
      rw [hsame] at h₁
      exact h₁.unique h₂
    split
    · obtain rfl : ts = [] := List.eq_nil_of_length_eq_zero hs.length.symm
      split
      · rename_i hadd
        have hmin : min locals.length before.length = locals.length := by omega
        have hk : (-((locals.length : Int) - before.length)).toNat = before.length - locals.length := by omega
        rw [hmin, hln, List.take_length] at hsay
        have hold : ls = old.take (old.length - (before.length - locals.length)) := by
          rw [show old.length - (before.length - locals.length) = ls.length by omega]
          exact hsay
        rw [hk, hold]
        exact reads_chop (by omega) (by omega)
      · split
        · rename_i hadd
          have hmin : min locals.length before.length = locals.length := by omega
          obtain rfl : ls = old := by
            rw [hmin] at hsay
            rwa [List.take_of_length_le (by omega), List.take_of_length_le (by omega)] at hsay
          exact reads_same
        · split
          · rename_i hadd
            have hmin : min locals.length before.length = before.length := by omega
            have hold : ls = old ++ ls.drop before.length := by
              rw [hmin, List.take_of_length_le (l := old) (by omega)] at hsay
              rw [← hsay, List.take_append_drop]
            rw [hmin, hold]
            exact reads_append (hl.drop before.length) (by rw [List.length_drop]; omega)
              (by rw [List.length_drop]; omega)
          · exact hfull
    · rename_i v
      split
      · rename_i hadd
        have hmin : min locals.length before.length = locals.length := by omega
        obtain rfl : ls = old := by
          rw [hmin] at hsay
          rwa [List.take_of_length_le (by omega), List.take_of_length_le (by omega)] at hsay
        obtain ⟨s, rfl⟩ := List.length_eq_one_iff.1 hs.length.symm
        exact reads_sameOneStack (List.cons.inj hs).1
      · exact hfull
    · exact hfull
  · exact hfull

end Entries

end StackMap

end ClassFile
