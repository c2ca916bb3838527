import ClassFile.Draft.Method

/-!
# Ranges of exception handlers

Bytes are taken out of the ranges of an exception table by a walk along the table, which deletes, cuts and splits its ranges
in place. What comes out is what is left of every range, one after the other (`ExceptionRange.removeAll_eq`): the handlers of
a byte that has been taken out are none, those of all other bytes stay, in their order (`ExceptionRange.Remains`).
-/

namespace ClassFile

namespace ExceptionRange

/-- What is left of a range without the bytes from `start` up to `stop`. -/
def remove (start stop : UInt16) (r : ExceptionRange) : List ExceptionRange :=
  if stop ≤ r.start || start ≥ r.stop then [r]
  else if start ≤ r.start then
    if stop ≥ r.stop then [] else [{ r with start := stop }]
  else if stop ≥ r.stop then [{ r with stop := start }]
  else [{ r with stop := start }, { r with start := stop }]

/-- The tail of a split range is put behind its front. -/
theorem insertIdx_behind (done : List ExceptionRange) (front tail : ExceptionRange) (rest : List ExceptionRange) :
    (done ++ front :: rest).insertIdx (done.length + 1) tail = done ++ front :: tail :: rest := by
  induction done with
  | nil => rfl
  | cons r done ih => exact congrArg (r :: ·) ih

/-- The walk leaves the ranges behind it alone. -/
theorem removeFrom_eq (start stop : UInt16) (done rest : List ExceptionRange) :
    removeFrom start stop (done ++ rest) done.length = done ++ rest.flatMap (remove start stop) := by
  induction rest generalizing done with
  | nil =>
    rw [removeFrom, dif_neg (by simp)]
    rfl
  | cons r rest ih =>
    have hone : ∀ x : ExceptionRange, removeFrom start stop (done ++ x :: rest) (done.length + 1) =
        done ++ x :: rest.flatMap (remove start stop) := fun x => by
      have hnext := ih (done ++ [x])
      rw [List.append_assoc, List.append_assoc, List.length_append] at hnext
      exact hnext
    have htwo : ∀ x y : ExceptionRange, removeFrom start stop (done ++ x :: y :: rest) (done.length + 2) =
        done ++ x :: y :: rest.flatMap (remove start stop) := fun x y => by
      have hnext := ih (done ++ [x, y])
      rw [List.append_assoc, List.append_assoc, List.length_append] at hnext
      exact hnext
    have hset : ∀ x, (done ++ r :: rest).set done.length x = done ++ x :: rest := fun x => by
      rw [List.set_append_right _ _ (Nat.le_refl _), Nat.sub_self, List.set_cons_zero]
    have hget : ∀ h : done.length < (done ++ r :: rest).length, (done ++ r :: rest)[done.length] = r := fun h => by
      rw [List.getElem_append_right (Nat.le_refl _)]
      simp
    rw [removeFrom, dif_pos (by simp), List.flatMap_cons, remove]
    dsimp only
    rw [hget]
    split
    · exact hone r
    · split
      · split
        · rw [List.eraseIdx_append_of_length_le (Nat.le_refl _), Nat.sub_self]
          exact ih done
        · rw [hset]
          exact hone _
      · split
        · rw [hset]
          exact hone _
        · rw [hset, insertIdx_behind]
          exact htwo _ _

/-- Bytes are taken out of each range by itself. -/
theorem removeAll_eq (start stop : UInt16) (ranges : List ExceptionRange) :
    removeAll start stop ranges = ranges.flatMap (remove start stop) :=
  removeFrom_eq start stop [] ranges

/-! ## What ranges cover -/

/-- Whether the handler of a range is asked for what the instruction at an offset throws. -/
def covers (x : Nat) (r : ExceptionRange) : Bool :=
  decide (r.start.toNat ≤ x) && decide (x < r.stop.toNat)

/-- Where a range sends what it catches. -/
def entry (r : ExceptionRange) : UInt16 × Option PoolIndex :=
  (r.handler, r.catchType)

/-- The handlers that are asked at an offset, in the order in which they are asked. -/
def handlersAt (x : Nat) (ranges : List ExceptionRange) : List (UInt16 × Option PoolIndex) :=
  (ranges.filter (covers x)).map entry

/-- The parts that are left of a range when some offsets are gone: they cover each other offset that it covers once and have
its handler, and a part that is not the whole range is neither empty nor inverted. -/
structure Remains (gone : Nat → Bool) (r : ExceptionRange) (parts : List ExceptionRange) : Prop where
  covered : ∀ x, handlersAt x parts = if covers x r && !gone x then [r.entry] else []
  proper : ∀ p ∈ parts, p.entry = r.entry ∧ (p = r ∨ r.start ≤ p.start ∧ p.start < p.stop ∧ p.stop ≤ r.stop)

/-- Whether an offset lies between two others. -/
def between (start stop x : Nat) : Bool :=
  decide (start ≤ x) && decide (x < stop)

/-- Handlers of ranges that come of others are those of each one's ranges, in order. -/
theorem handlersAt_flatMap (f : ExceptionRange → List ExceptionRange) (x : Nat) (ranges : List ExceptionRange) :
    handlersAt x (ranges.flatMap f) = ranges.flatMap fun r => handlersAt x (f r) := by
  unfold handlersAt
  rw [List.filter_flatMap, List.map_flatMap]

/-- Where an offset is gone no handler is asked, and elsewhere the same are asked in the same order. -/
theorem handlersAt_flatMap_of_remains {gone : Nat → Bool} {f : ExceptionRange → List ExceptionRange}
    {ranges : List ExceptionRange} (hf : ∀ r ∈ ranges, Remains gone r (f r)) (x : Nat) :
    handlersAt x (ranges.flatMap f) = if gone x then [] else handlersAt x ranges := by
  rw [handlersAt_flatMap]
  induction ranges with
  | nil => cases gone x <;> rfl
  | cons r rest ih =>
    rw [List.flatMap_cons, ih fun r hr => hf r (List.mem_cons_of_mem _ hr), (hf r List.mem_cons_self).covered]
    unfold handlersAt
    cases hgone : gone x <;> cases hcovers : covers x r <;> simp [hcovers]

/-- A range of which nothing is gone remains as it is. -/
theorem remains_refl (r : ExceptionRange) : Remains (fun _ => false) r [r] := by
  refine ⟨fun x => ?_, fun p hp => ?_⟩
  · unfold handlersAt
    cases hcovers : covers x r <;> simp [hcovers]
  · obtain rfl := List.mem_singleton.1 hp
    exact ⟨rfl, Or.inl rfl⟩

/-- Offsets that are taken out of all parts are gone as well. -/
theorem Remains.trans {gone gone' : Nat → Bool} {r : ExceptionRange} {parts : List ExceptionRange}
    {f : ExceptionRange → List ExceptionRange} (h : Remains gone r parts) (hf : ∀ p ∈ parts, Remains gone' p (f p)) :
    Remains (fun x => gone x || gone' x) r (parts.flatMap f) := by
  refine ⟨fun x => ?_, fun p hp => ?_⟩
  · rw [handlersAt_flatMap_of_remains hf, h.covered]
    cases gone x <;> cases gone' x <;> simp
  · obtain ⟨q, hq, hp⟩ := List.mem_flatMap.1 hp
    obtain ⟨hsame, hproper⟩ := h.proper q hq
    obtain ⟨hsame', hproper'⟩ := (hf q hq).proper p hp
    refine ⟨hsame'.trans hsame, ?_⟩
    rcases hproper' with rfl | ⟨hstart, hlt, hstop⟩
    · exact hproper
    · rcases hproper with rfl | ⟨hstart', -, hstop'⟩
      · exact Or.inr ⟨hstart, hlt, hstop⟩
      · exact Or.inr ⟨UInt16.le_trans hstart' hstart, hlt, UInt16.le_trans hstop hstop'⟩

/-- The handler of the first range is asked first, if the range covers the offset. -/
theorem handlersAt_cons (x : Nat) (r : ExceptionRange) (rest : List ExceptionRange) :
    handlersAt x (r :: rest) = (if covers x r then [r.entry] else []) ++ handlersAt x rest := by
  unfold handlersAt
  cases hcovers : covers x r <;> simp [hcovers]

/-- A range covers the offsets from its start to before its stop. -/
theorem covers_iff {x : Nat} {r : ExceptionRange} : covers x r = true ↔ r.start.toNat ≤ x ∧ x < r.stop.toNat := by
  simp [covers]

theorem between_iff {start stop x : Nat} : between start stop x = true ↔ start ≤ x ∧ x < stop := by
  simp [between]

/-- A range that covers all offsets of another one that are not gone. -/
theorem remains_singleton {gone : Nat → Bool} {r p : ExceptionRange} (hentry : p.entry = r.entry)
    (hcovers : ∀ x, covers x p = true ↔ covers x r = true ∧ ¬gone x = true)
    (hproper : p = r ∨ r.start ≤ p.start ∧ p.start < p.stop ∧ p.stop ≤ r.stop) : Remains gone r [p] := by
  refine ⟨fun x => ?_, fun q hq => ?_⟩
  · have hsame : covers x p = (covers x r && !gone x) := Bool.eq_iff_iff.2 (by simp [hcovers])
    rw [handlersAt_cons, hsame, hentry]
    exact List.append_nil _
  · obtain rfl := List.mem_singleton.1 hq
    exact ⟨hentry, hproper⟩

/-- What is left of a range without some bytes covers all others, and no part of it is empty unless the range was. -/
theorem remains_remove {start stop : UInt16} (hlt : start < stop) (r : ExceptionRange) :
    Remains (between start.toNat stop.toNat) r (remove start stop r) := by
  unfold remove
  simp only [Bool.or_eq_true, decide_eq_true_eq, ge_iff_le]
  split
  · rename_i hapart
    refine remains_singleton rfl (fun x => ?_) (Or.inl rfl)
    rw [covers_iff, between_iff]
    simp only [UInt16.le_iff_toNat_le] at hapart
    omega
  · rename_i hmeets
    rw [not_or, UInt16.not_le, UInt16.not_le] at hmeets
    have hmeets' := hmeets
    simp only [UInt16.lt_iff_toNat_lt] at hlt hmeets'
    split
    · rename_i hfront
      have hfront' := UInt16.le_iff_toNat_le.1 hfront
      split
      · rename_i hback
        have hback' := UInt16.le_iff_toNat_le.1 hback
        refine ⟨fun x => ?_, fun p hp => absurd hp List.not_mem_nil⟩
        have hnone : (covers x r && !between start.toNat stop.toNat x) = false := by
          rw [Bool.eq_false_iff, ne_eq, Bool.and_eq_true, covers_iff, Bool.not_eq_true',
            Bool.eq_false_iff, ne_eq, between_iff]
          omega
        rw [hnone]
        rfl
      · rename_i hback
        rw [UInt16.not_le] at hback
        refine remains_singleton rfl (fun x => ?_) (Or.inr ⟨UInt16.le_of_lt hmeets.1, hback, UInt16.le_refl _⟩)
        rw [covers_iff, covers_iff, between_iff]
        dsimp only
        omega
    · rename_i hfront
      rw [UInt16.not_le] at hfront
      have hfront' := UInt16.lt_iff_toNat_lt.1 hfront
      split
      · rename_i hback
        have hback' := UInt16.le_iff_toNat_le.1 hback
        refine remains_singleton rfl (fun x => ?_) (Or.inr ⟨UInt16.le_refl _, hfront, UInt16.le_of_lt hmeets.2⟩)
        rw [covers_iff, covers_iff, between_iff]
        dsimp only
        omega
      · rename_i hback
        rw [UInt16.not_le] at hback
        have hback' := UInt16.lt_iff_toNat_lt.1 hback
        refine ⟨fun x => ?_, fun p hp => ?_⟩
        · have hsplit : (covers x r && !between start.toNat stop.toNat x) =
              (covers x { r with stop := start } || covers x { r with start := stop }) := by
            rw [Bool.eq_iff_iff, Bool.and_eq_true, Bool.or_eq_true, Bool.not_eq_true', Bool.eq_false_iff,
              ne_eq, covers_iff, covers_iff, covers_iff, between_iff]
            dsimp only
            omega
          have honce : ¬(covers x { r with stop := start } = true ∧ covers x { r with start := stop } = true) := by
            rw [covers_iff, covers_iff]
            dsimp only
            omega
          rw [handlersAt_cons, handlersAt_cons, hsplit]
          cases hfirst : covers x { r with stop := start } <;> cases hsecond : covers x { r with start := stop }
          · rfl
          · rfl
          · rfl
          · exact absurd ⟨hfirst, hsecond⟩ honce
        · rcases List.mem_cons.1 hp with rfl | hp
          · exact ⟨rfl, Or.inr ⟨UInt16.le_refl _, hfront, UInt16.le_of_lt hmeets.2⟩⟩
          · obtain rfl := List.mem_singleton.1 hp
            exact ⟨rfl, Or.inr ⟨UInt16.le_of_lt hmeets.1, hback, UInt16.le_refl _⟩⟩

/-- What is left of a table without some bytes is what is left of each of its ranges, in their order. -/
theorem removeAll_remains {start stop : UInt16} (hlt : start < stop) :
    ∃ left : ExceptionRange → List ExceptionRange, (∀ r, Remains (between start.toNat stop.toNat) r (left r)) ∧
      ∀ ranges, removeAll start stop ranges = ranges.flatMap left :=
  ⟨remove start stop, remains_remove hlt, removeAll_eq start stop⟩

/-! ## Several removals -/

/-- Whether an offset lies in one of several ranges. -/
def inside (ranges : List (Nat × Nat)) (x : Nat) : Bool :=
  ranges.any fun range => between range.1 range.2 x

/-- What is left of ranges when the bytes of all dead ranges have been taken out. -/
def removeEach (dead : List (Nat × Nat)) (ranges : List ExceptionRange) : List ExceptionRange :=
  dead.foldl (fun ranges (start, stop) => removeAll start.toUInt16 stop.toUInt16 ranges) ranges

/-- Dead ranges are taken out of each range on its own. -/
theorem removeEach_eq (dead : List (Nat × Nat)) (ranges : List ExceptionRange) :
    removeEach dead ranges = ranges.flatMap fun r => removeEach dead [r] := by
  induction dead generalizing ranges with
  | nil => exact (List.flatMap_singleton' ranges).symm
  | cons range dead ih =>
    have hstep : ∀ ranges, removeEach (range :: dead) ranges =
        (ranges.flatMap (remove range.1.toUInt16 range.2.toUInt16)).flatMap fun r => removeEach dead [r] := fun ranges => by
      rw [← ih, ← removeAll_eq]
      rfl
    simp only [hstep, List.flatMap_assoc, List.flatMap_singleton]

/-- Dead ranges are taken out of a range one after the other. -/
theorem remains_removeEach {dead : List (Nat × Nat)} (hdead : ∀ range ∈ dead, range.1 < range.2 ∧ range.2 < 65536)
    (r : ExceptionRange) :
    Remains (inside dead) r (removeEach dead [r]) := by
  induction dead generalizing r with
  | nil => exact remains_refl r
  | cons range dead ih =>
    obtain ⟨hlt, hsize⟩ := hdead range List.mem_cons_self
    have hstart : range.1.toUInt16.toNat = range.1 := UInt16.toNat_ofNat_of_lt (Nat.lt_trans hlt hsize)
    have hstop : range.2.toUInt16.toNat = range.2 := UInt16.toNat_ofNat_of_lt hsize
    have hfirst := remains_remove (UInt16.lt_iff_toNat_lt.2
      (by rwa [hstart, hstop] : range.1.toUInt16.toNat < range.2.toUInt16.toNat)) r
    rw [hstart, hstop] at hfirst
    have hall := hfirst.trans fun p _ => ih (fun range hr => hdead range (List.mem_cons_of_mem _ hr)) p
    have heq : removeEach (range :: dead) [r] = (remove range.1.toUInt16 range.2.toUInt16 r).flatMap fun p =>
      removeEach dead [p] := by
      rw [← removeEach_eq, ← List.flatMap_singleton (f := remove range.1.toUInt16 range.2.toUInt16), ← removeAll_eq]
      rfl
    rw [heq]
    exact hall

end ExceptionRange

end ClassFile
