import ClassFile.Image.Code
import ClassFile.Proofs.CodeRecording
import ClassFile.Proofs.PoolReading

/-!
# Reading instructions as they are written

An instruction that is well-formed is read as it was written (`Found`): with its operands, and with the labels of the offsets
at which its labels have their places. A conditional jump that is too far back is read as two instructions. Along with an
instruction a reader finds the offsets that it leads to.
-/

namespace ClassFile

/-- The label that a reader gives to an offset. -/
def Label.ofOffset (offset : Nat) : Label :=
  ⟨offset, false⟩

namespace Instruction

/-- The labels that an instruction leads to. -/
def labels : Instruction → List Label
  | jump _ label => [label]
  | tableSwitch _ _ defaultLabel labels => defaultLabel :: labels
  | lookupSwitch defaultLabel _ labels => defaultLabel :: labels
  | _ => []

/-- An instruction with its labels changed by a function. -/
def relabel (f : Label → Label) : Instruction → Instruction
  | jump op label => jump op (f label)
  | tableSwitch low high defaultLabel labels => tableSwitch low high (f defaultLabel) (labels.map f)
  | lookupSwitch defaultLabel keys labels => lookupSwitch (f defaultLabel) keys (labels.map f)
  | i => i

/-- An instruction has the operands that belong to its opcode, and they fit into the room that there is for them. -/
def WellFormed : Instruction → Prop
  | bare op => Opcode.layout op = .bare
  | immediate op operand =>
    (Opcode.layout op = .signedByte ∧ -0x80 ≤ operand.toInt ∧ operand.toInt ≤ 0x7F) ∨
      (Opcode.layout op = .signedShort ∧ -0x8000 ≤ operand.toInt ∧ operand.toInt ≤ 0x7FFF)
  | moveLocal op _ => Opcode.layout op = .localIndex
  | typed op _ => Opcode.layout op = .type
  | field op _ _ _ => Opcode.layout op = .member ∧ op < Opcode.invokevirtual
  | invoke op _ => (Opcode.layout op = .member ∧ ¬op < Opcode.invokevirtual) ∨ op = Opcode.invokeinterface
  | invokeDynamic _ _ bootstrap arguments =>
    bootstrap.Encodable ∧ arguments.length < 65536 ∧ ConstantValue.AllEncodable arguments
  | jump op _ => Opcode.layout op = .jump
  | constant value => value.Encodable
  | increment _ _ => True
  | tableSwitch low high _ labels => labels.length = Code.rangeSize low high
  | lookupSwitch _ keys labels => labels.length = keys.length
  | multiArray _ _ => True

/-- What an instruction that stands at an offset is read as. If a conditional jump does not reach its label with two bytes,
then the negated jump leads to the instruction behind it, past a jump without a condition. -/
def decoded (place : Label → Nat) (offset : Nat) (i : Instruction) : List (Nat × Instruction) :=
  match i with
  | jump op label =>
    if (place label : Int) - offset < MethodDraft.minDistance && (op != Opcode.goto && op != Opcode.jsr) then
      [(offset, jump (Opcode.invertJump op) (.ofOffset (offset + 8))),
        (offset + 3, jump Opcode.goto (.ofOffset (place label)))]
    else [(offset, jump op (.ofOffset (place label)))]
  | i => [(offset, i.relabel fun label => .ofOffset (place label))]

end Instruction

/-! ## Numbers -/

theorem toInt8_toUInt8 (x : Int32) : x.toUInt32.toUInt8.toInt8 = x.toInt8 := by
  apply Int8.toBitVec_inj.1
  simp [Int32.toBitVec_toInt8, BitVec.signExtend_eq_setWidth_of_le]

theorem toInt16_toUInt16 (x : Int32) : x.toUInt32.toUInt16.toInt16 = x.toInt16 := by
  apply Int16.toBitVec_inj.1
  simp [Int32.toBitVec_toInt16, BitVec.signExtend_eq_setWidth_of_le]

/-- A distance in two bytes is read as a signed number. -/
theorem toInt16_ofInt (d : Int) : (UInt16.ofInt d).toInt16 = Int16.ofInt d := by
  apply Int16.toBitVec_inj.1
  apply BitVec.eq_of_toNat_eq
  simp [UInt16.ofInt]
  omega

/-- A distance in four bytes is read as a signed number. -/
theorem toInt32_ofInt (d : Int) : (UInt32.ofInt d).toInt32 = Int32.ofInt d := by
  apply Int32.toBitVec_inj.1
  apply BitVec.eq_of_toNat_eq
  simp [UInt32.ofInt]
  omega

namespace Reads

/-- A distance in reach of two bytes is read as it was written. -/
theorem distance16 {d : Int} (h : InReach d) : Reads Code.distance16 (Blocks.distanceBytes false d) d := by
  have hread := ((Reads.u16 (UInt16.ofInt d)).map UInt16.toInt16).map Int16.toInt
  rwa [toInt16_ofInt, Int16.toInt_ofInt_of_le (by have := h.1; omega) (by have := h.2; omega)] at hread

/-- A distance in reach of four bytes is read as it was written. -/
theorem distance32 {d : Int} (hl : -0x80000000 ≤ d) (hu : d < 0x80000000) :
    Reads Code.distance32 (Blocks.distanceBytes true d) d := by
  have hread := ((Reads.u32 (UInt32.ofInt d)).map UInt32.toInt32).map Int32.toInt
  rwa [toInt32_ofInt, Int32.toInt_ofInt_of_le (by omega) (by omega)] at hread

/-- Bytes that say nothing are passed over. -/
theorem skipping {α : Type} {piece : Bytes} {n : Nat} (h : piece.size = n) (a : α) :
    Reads (do Decoder.skip n; return a) piece a := by
  subst h
  exact (Reads.skip piece).bindEmpty (Reads.pure a)

/-- A value that is known, and then a reader. -/
theorem liftBind {α β : Type} {x : Except Error α} {f : α → Decoder β} {piece : Bytes} {a : α} {b : β} (h : x = .ok a)
    (hf : Reads (f a) piece b) : Reads ((x : Decoder α) >>= f) piece b := by
  have hread := (Reads.lift h).bind hf
  rwa [Array.empty_append] at hread

end Reads

namespace Code

/-- A reader finds an instruction in bytes that stand at an offset, and the offsets that it leads to. -/
structure Found (view : PoolView) (offset : Nat) (piece : Bytes) (i : Instruction) : Prop where
  nonempty : 0 < piece.size
  reads : ∀ ls : CodeLabels, (∀ l ∈ i.labels, ls.get l.id = l) → Reads (readInstruction view ls offset) piece i
  scans : ∃ distances : List Int, Reads (scanInstruction offset) piece distances ∧
    distances.map ((offset : Int) + ·) = i.labels.map Label.id

section Found

variable {view : PoolView} {pool : ConstantPool} {offset : Nat}

theorem size_pos (op : UInt8) (rest : Bytes) : 0 < (#[op] ++ rest).size := by
  rw [Array.size_append]
  exact Nat.lt_add_right _ Nat.one_pos

/-- An instruction without labels. -/
theorem Found.ofRest {op : UInt8} (rest : Bytes) {i : Instruction} (hl : i.labels = [])
    (hr : ∀ ls, Reads (readInstruction view ls offset) (#[op] ++ rest) i)
    (hs : Reads (scanInstruction offset) (#[op] ++ rest) []) :
    Found view offset (#[op] ++ rest) i :=
  ⟨size_pos op rest, fun ls _ => hr ls, [], hs, by simp [hl]⟩

/-- An instruction without operands is its opcode. -/
theorem found_bare {op : UInt8} (hl : Opcode.layout op = .bare) : Found view offset #[op] (.bare op) := by
  refine Found.ofRest #[] rfl (fun ls => (Reads.u8 op).bind ?_) ((Reads.u8 op).bind ?_)
  · simp only [hl]
    exact Reads.pure _
  · simp only [hl]
    exact Reads.pure _

/-- A number that fits in a byte is read with its sign. -/
theorem found_signedByte {op : UInt8} {operand : Int32} (hl : Opcode.layout op = .signedByte) (h : -0x80 ≤ operand.toInt)
    (h' : operand.toInt ≤ 0x7F) : Found view offset #[op, operand.toUInt32.toUInt8] (.immediate op operand) := by
  have hvalue : operand.toUInt32.toUInt8.toInt8.toInt32 = operand := by
    rw [toInt8_toUInt8, ← Int32.toInt_inj, Int8.toInt_toInt32, Int32.toInt_toInt8]
    exact Int.bmod_eq_of_le (by omega) (by omega)
  refine Found.ofRest #[operand.toUInt32.toUInt8] rfl (fun ls => (Reads.u8 op).bind ?_) ((Reads.u8 op).bind ?_)
  · simp only [hl]
    have hread := ((Reads.u8 operand.toUInt32.toUInt8).map UInt8.toInt8).map fun n => Instruction.immediate op n.toInt32
    rwa [hvalue] at hread
  · simp only [hl]
    exact Reads.skipping rfl _

/-- A number that fits in two bytes is read with its sign. -/
theorem found_signedShort {op : UInt8} {operand : Int32} (hl : Opcode.layout op = .signedShort) (h : -0x8000 ≤ operand.toInt)
    (h' : operand.toInt ≤ 0x7FFF) :
    Found view offset (#[op] ++ Bytes.ofUInt16 operand.toUInt32.toUInt16) (.immediate op operand) := by
  have hvalue : operand.toUInt32.toUInt16.toInt16.toInt32 = operand := by
    rw [toInt16_toUInt16, ← Int32.toInt_inj, Int16.toInt_toInt32, Int32.toInt_toInt16]
    exact Int.bmod_eq_of_le (by omega) (by omega)
  refine Found.ofRest _ rfl (fun ls => (Reads.u8 op).bind ?_) ((Reads.u8 op).bind ?_)
  · simp only [hl]
    have hread := ((Reads.u16 operand.toUInt32.toUInt16).map UInt16.toInt16).map fun n => Instruction.immediate op n.toInt32
    rwa [hvalue] at hread
  · simp only [hl]
    exact Reads.skipping rfl _

/-- The opcode for a local that it says itself. -/
def impliedOpcode (op slot : UInt8) : UInt8 :=
  (if op < Opcode.istore then Opcode.iload0 + ((op - Opcode.iload) <<< 2)
    else Opcode.istore0 + ((op - Opcode.istore) <<< 2)) + slot

/-- The load or store, and the local, that an opcode of one byte stands for. -/
def impliedParts (op : UInt8) : UInt8 × UInt16 :=
  let (base, implied) := if op > Opcode.istore then (Opcode.istore, op - Opcode.istore0)
    else (Opcode.iload, op - Opcode.iload0)
  (base + (implied >>> 2), (implied &&& 3).toUInt16)

/-- An opcode that implies one of the first four locals says which instruction and which local it is. -/
theorem implied_fin : ∀ n : Fin 256, Opcode.layout n.val.toUInt8 = .localIndex → n.val.toUInt8 ≠ Opcode.ret → ∀ s : Fin 4,
    Opcode.layout (impliedOpcode n.val.toUInt8 s.val.toUInt8) = .impliedIndex ∧
      impliedParts (impliedOpcode n.val.toUInt8 s.val.toUInt8) = (n.val.toUInt8, s.val.toUInt16) := by
  decide +kernel

/-- Every load and store has an opcode of one byte for each of the first four locals. -/
theorem impliedMove_impliedOpcode {op : UInt8} {slot : UInt16} (hl : Opcode.layout op = .localIndex) (hop : op ≠ Opcode.ret)
    (hs : slot < 4) : Opcode.layout (impliedOpcode op slot.toUInt8) = .impliedIndex ∧
      impliedMove (impliedOpcode op slot.toUInt8) = .moveLocal op slot := by
  have hn : op.toNat.toUInt8 = op := by simp
  have hlt : slot.toNat < 4 := UInt16.lt_iff_toNat_lt.1 hs
  have hslot : slot.toNat.toUInt8 = slot.toUInt8 := rfl
  have hslot' : slot.toNat.toUInt16 = slot := by simp
  have h := implied_fin ⟨op.toNat, op.toNat_lt⟩ (by rwa [hn]) (by rwa [hn]) ⟨slot.toNat, hlt⟩
  dsimp only at h
  rw [hn, hslot, hslot'] at h
  refine ⟨h.1, ?_⟩
  change Instruction.moveLocal (impliedParts _).1 (impliedParts _).2 = _
  rw [h.2]

/-- A load or a store is found in each of its three forms. -/
theorem found_moveLocal {op : UInt8} {slot : UInt16} (hl : Opcode.layout op = .localIndex) :
    Found view offset (MethodDraft.moveLocalBytes op slot) (.moveLocal op slot) := by
  have hnotIinc : ∀ op : UInt8, Opcode.layout op = .localIndex → (op == Opcode.iinc) = false := by
    intro op h
    refine beq_eq_false_iff_ne.2 fun e => ?_
    subst e
    exact absurd h (by decide)
  unfold MethodDraft.moveLocalBytes
  split
  · rename_i hshort
    obtain ⟨hslot, hop⟩ : slot < 4 ∧ op ≠ Opcode.ret := by simpa using hshort
    obtain ⟨himplied, hmove⟩ := impliedMove_impliedOpcode hl hop hslot
    change Found view offset #[impliedOpcode op slot.toUInt8] _
    refine Found.ofRest #[] rfl (fun ls => (Reads.u8 _).bind ?_) ((Reads.u8 _).bind ?_)
    · simp only [himplied, hmove]
      exact Reads.pure _
    · simp only [himplied]
      exact Reads.pure _
  · split
    · refine Found.ofRest (#[op] ++ Bytes.ofUInt16 slot) rfl (fun ls => (Reads.u8 Opcode.wide).bind ?_)
        ((Reads.u8 Opcode.wide).bind ?_)
      · simp only [show Opcode.layout Opcode.wide = .wide from rfl]
        refine (Reads.u8 op).bind ((Reads.u16 slot).bindEmpty ?_)
        simp only [hnotIinc op hl]
        exact Reads.pure _
      · simp only [show Opcode.layout Opcode.wide = .wide from rfl]
        refine (Reads.u8 op).bind (Reads.skipping ?_ _)
        simp only [hnotIinc op hl]
        rfl
    · rename_i hslot
      have hsmall : slot.toUInt8.toUInt16 = slot := by
        have hlt : slot.toNat < 256 := UInt16.lt_iff_toNat_lt.1 (UInt16.not_le.1 hslot)
        apply UInt16.toNat_inj.1
        simp
        omega
      refine Found.ofRest #[slot.toUInt8] rfl (fun ls => (Reads.u8 op).bind ?_) ((Reads.u8 op).bind ?_)
      · simp only [hl]
        have hread := (Reads.u8 slot.toUInt8).map fun n => Instruction.moveLocal op n.toUInt16
        rwa [hsmall] at hread
      · simp only [hl]
        exact Reads.skipping rfl _

/-- An increment in its wide form is found. -/
theorem found_wideIncrement (slot : UInt16) (amount : Int16) :
    Found view offset (#[Opcode.wide, Opcode.iinc] ++ Bytes.ofUInt16 slot ++ Bytes.ofUInt16 amount.toUInt16)
      (.increment slot amount) := by
  have hsplit : #[Opcode.wide, Opcode.iinc] ++ Bytes.ofUInt16 slot ++ Bytes.ofUInt16 amount.toUInt16 =
      #[Opcode.wide] ++ (#[Opcode.iinc] ++ (Bytes.ofUInt16 slot ++ Bytes.ofUInt16 amount.toUInt16)) := by
    rw [← Array.append_assoc, ← Array.append_assoc]
    rfl
  rw [hsplit]
  refine Found.ofRest _ rfl (fun ls => (Reads.u8 Opcode.wide).bind ?_) ((Reads.u8 Opcode.wide).bind ?_)
  · simp only [show Opcode.layout Opcode.wide = .wide from rfl]
    refine (Reads.u8 Opcode.iinc).bind ((Reads.u16 slot).bind ?_)
    exact (Reads.i16 amount).map fun n => Instruction.increment slot n
  · simp only [show Opcode.layout Opcode.wide = .wide from rfl]
    exact (Reads.u8 Opcode.iinc).bind (Reads.skipping rfl _)

/-- An increment of a near local by a small number is found. -/
theorem found_increment {slot : UInt16} {amount : Int16} (hslot : slot ≤ 255) (hupper : amount ≤ 127)
    (hlower : -128 ≤ amount) :
    Found view offset #[Opcode.iinc, slot.toUInt8, amount.toUInt16.toUInt8] (.increment slot amount) := by
  have hslot' : slot.toUInt8.toUInt16 = slot := by
    have hlt : slot.toNat ≤ 255 := UInt16.le_iff_toNat_le.1 hslot
    apply UInt16.toNat_inj.1
    simp
    omega
  have hamount : amount.toUInt16.toUInt8.toInt8.toInt16 = amount := by
    have hu : amount.toInt ≤ 127 := Int16.le_iff_toInt_le.1 hupper
    have hl : -128 ≤ amount.toInt := Int16.le_iff_toInt_le.1 hlower
    have hnarrow : amount.toUInt16.toUInt8.toInt8 = amount.toInt8 := by
      apply Int8.toBitVec_inj.1
      simp [Int16.toBitVec_toInt8, BitVec.signExtend_eq_setWidth_of_le]
    rw [hnarrow, ← Int16.toInt_inj, Int8.toInt_toInt16, Int16.toInt_toInt8]
    exact Int.bmod_eq_of_le (by omega) (by omega)
  refine Found.ofRest (#[slot.toUInt8] ++ #[amount.toUInt16.toUInt8]) rfl (fun ls => (Reads.u8 Opcode.iinc).bind ?_)
    ((Reads.u8 Opcode.iinc).bind ?_)
  · simp only [show Opcode.layout Opcode.iinc = .increment from rfl]
    have hread := ((Reads.u8 amount.toUInt16.toUInt8).map UInt8.toInt8).map fun n =>
      Instruction.increment slot.toUInt8.toUInt16 n.toInt16
    rw [hamount, hslot'] at hread
    exact (Reads.u8 slot.toUInt8).bind (by rwa [hslot'])
  · simp only [show Opcode.layout Opcode.iinc = .increment from rfl]
    exact Reads.skipping rfl _

/-! ## Instructions with a constant as operand -/

variable {index : PoolIndex}

/-- An instruction with a class is found, and the class is the one that its index names. -/
theorem found_typed (hs : view.Shows pool) {op : UInt8} {name : String} (hl : Opcode.layout op = .type)
    (h : pool.HoldsType index name) : Found view offset (#[op] ++ Bytes.ofUInt16 index) (.typed op name) := by
  refine Found.ofRest _ rfl (fun ls => (Reads.u8 op).bind ?_) ((Reads.u8 op).bind ?_)
  · simp only [hl]
    exact (Reads.u16 index).bindEmpty (Reads.liftBind (hs.typeName h) (Reads.pure _))
  · simp only [hl]
    exact Reads.skipping rfl _

/-- An instruction with a field or a method is found, as its index names it. -/
theorem found_member (offset : Nat) {op : UInt8} {r : MemberRef} (hl : Opcode.layout op = .member)
    (h : view.memberRef index = .ok r) : Found view offset (#[op] ++ Bytes.ofUInt16 index) (memberInstruction op r) := by
  have hop : (op == Opcode.invokeinterface) = false := by
    refine beq_eq_false_iff_ne.2 fun e => ?_
    subst e
    exact absurd hl (by decide)
  refine Found.ofRest _ (by unfold memberInstruction; split <;> rfl) (fun ls => (Reads.u8 op).bind ?_)
    ((Reads.u8 op).bind ?_)
  · simp only [hl]
    refine (Reads.u16 index).bindEmpty (Reads.liftBind h ?_)
    simp only [hop]
    exact Reads.pure _
  · simp only [hl]
    exact Reads.skipping rfl _

/-- A call of an interface's method is found, and the count of its arguments says nothing. -/
theorem found_interface (hs : view.Shows pool) {r : MemberRef} (h : pool.HoldsMethod index r) (count : UInt8) :
    Found view offset (#[Opcode.invokeinterface] ++ (Bytes.ofUInt16 index ++ #[count, 0]))
      (.invoke Opcode.invokeinterface r) := by
  refine Found.ofRest _ rfl (fun ls => (Reads.u8 _).bind ?_) ((Reads.u8 _).bind ?_)
  · simp only [show Opcode.layout Opcode.invokeinterface = .interfaceMethod from rfl]
    exact (Reads.u16 index).bind (Reads.liftBind (hs.methodRef h) (Reads.skipping rfl _))
  · simp only [show Opcode.layout Opcode.invokeinterface = .interfaceMethod from rfl]
    exact Reads.skipping rfl _

/-- A dynamic call is found, with its bootstrap method and that one's arguments. -/
theorem found_callSite (hs : view.Shows pool) (hp : pool.Built) {name descriptor : String} {bootstrap : MethodHandle}
    {arguments : List ConstantValue} (h : pool.HoldsCallSite index name descriptor bootstrap arguments)
    (he : bootstrap.Encodable) (hl : arguments.length < 65536) (ha : ConstantValue.AllEncodable arguments) :
    Found view offset (#[Opcode.invokedynamic] ++ (Bytes.ofUInt16 index ++ #[0, 0]))
      (.invokeDynamic name descriptor bootstrap arguments) := by
  refine Found.ofRest _ rfl (fun ls => (Reads.u8 _).bind ?_) ((Reads.u8 _).bind ?_)
  · simp only [show Opcode.layout Opcode.invokedynamic = .callSite from rfl]
    refine (Reads.u16 index).bind ?_
    have hskip : Reads (Decoder.skip 2) #[0, 0] () := Reads.skip #[0, 0]
    exact hskip.bindEmpty (Reads.liftBind (hs.callSite hp h he hl ha) (Reads.pure _))
  · simp only [show Opcode.layout Opcode.invokedynamic = .callSite from rfl]
    exact Reads.skipping rfl _

/-- A new array of several dimensions is found. -/
theorem found_multiArray (hs : view.Shows pool) {descriptor : String} (h : pool.HoldsType index descriptor)
    (dimensions : UInt8) :
    Found view offset (#[Opcode.multianewarray] ++ (Bytes.ofUInt16 index ++ #[dimensions]))
      (.multiArray descriptor dimensions) := by
  refine Found.ofRest _ rfl (fun ls => (Reads.u8 _).bind ?_) ((Reads.u8 _).bind ?_)
  · simp only [show Opcode.layout Opcode.multianewarray = .multiArray from rfl]
    exact (Reads.u16 index).bind (Reads.liftBind (hs.typeName h) ((Reads.u8 dimensions).map _))
  · simp only [show Opcode.layout Opcode.multianewarray = .multiArray from rfl]
    exact Reads.skipping rfl _

/-- A constant with an index of two bytes is found. -/
theorem found_wideConstant (hs : view.Shows pool) (hp : pool.Built) {op : UInt8} {value : ConstantValue}
    (hl : Opcode.layout op = .wideConstant) (h : pool.HoldsConstant index value) (he : value.Encodable) :
    Found view offset (#[op] ++ Bytes.ofUInt16 index) (.constant value) := by
  refine Found.ofRest _ rfl (fun ls => (Reads.u8 _).bind ?_) ((Reads.u8 _).bind ?_)
  · simp only [hl]
    exact (Reads.u16 index).bindEmpty (Reads.liftBind (hs.constant hp h he) (Reads.pure _))
  · simp only [hl]
    exact Reads.skipping rfl _

/-- A constant with an index of one byte is found. -/
theorem found_constant (hs : view.Shows pool) (hp : pool.Built) {value : ConstantValue} (h : pool.HoldsConstant index value)
    (he : value.Encodable) (hi : index < 256) : Found view offset #[Opcode.ldc, index.toUInt8] (.constant value) := by
  have hindex : index.toUInt8.toUInt16 = index := by
    have hlt : index.toNat < 256 := UInt16.lt_iff_toNat_lt.1 hi
    apply UInt16.toNat_inj.1
    simp
    omega
  refine Found.ofRest #[index.toUInt8] rfl (fun ls => (Reads.u8 _).bind ?_) ((Reads.u8 _).bind ?_)
  · simp only [show Opcode.layout Opcode.ldc = .constant from rfl]
    refine (Reads.u8 index.toUInt8).bindEmpty ?_
    rw [hindex]
    exact Reads.liftBind (hs.constant hp h he) (Reads.pure _)
  · simp only [show Opcode.layout Opcode.ldc = .constant from rfl]
    exact Reads.skipping rfl _

/-! ## Jumps and switches -/

/-- The label at a distance that leads to an offset. -/
theorem target_sub {ls : CodeLabels} {offset place : Nat} (h : ls.get (Label.ofOffset place).id = Label.ofOffset place) :
    target ls offset ((place : Int) - offset) = Label.ofOffset place := by
  unfold target
  rw [show (offset : Int) + ((place : Int) - offset) = place by omega]
  exact h

/-- A jump in reach of two bytes leads to the place of its label. -/
theorem found_jump (view : PoolView) (offset place : Nat) {op : UInt8} (hl : Opcode.layout op = .jump)
    (h : InReach ((place : Int) - offset)) :
    Found view offset (#[op] ++ Blocks.distanceBytes false ((place : Int) - offset)) (.jump op (.ofOffset place)) := by
  refine ⟨by simp, fun ls hls => (Reads.u8 op).bind ?_, [(place : Int) - offset], (Reads.u8 op).bind ?_, ?_⟩
  · simp only [hl]
    have hread := (Reads.distance16 h).map fun d => Instruction.jump op (target ls offset d)
    rwa [target_sub (hls _ List.mem_cons_self)] at hread
  · simp only [hl]
    exact (Reads.distance16 h).map fun d => [d]
  · simp only [Instruction.labels, Label.ofOffset, List.map_cons, List.map_nil, List.cons.injEq, and_true]
    omega

/-- A jump of four bytes leads to the place of its label, under the name of the short jump. -/
theorem found_wideJump (view : PoolView) (offset place : Nat) {op op' : UInt8} (hl : Opcode.layout op = .wideJump)
    (hop : narrowJump op = op') (h : -0x80000000 ≤ (place : Int) - offset) (h' : (place : Int) - offset < 0x80000000) :
    Found view offset (#[op] ++ Blocks.distanceBytes true ((place : Int) - offset)) (.jump op' (.ofOffset place)) := by
  subst hop
  refine ⟨by simp, fun ls hls => (Reads.u8 op).bind ?_, [(place : Int) - offset], (Reads.u8 op).bind ?_, ?_⟩
  · simp only [hl]
    have hread := (Reads.distance32 h h').map fun d => Instruction.jump (narrowJump op) (target ls offset d)
    rwa [target_sub (hls _ List.mem_cons_self)] at hread
  · simp only [hl]
    exact (Reads.distance32 h h').map fun d => [d]
  · simp only [Instruction.labels, Label.ofOffset, List.map_cons, List.map_nil, List.cons.injEq, and_true]
    omega

/-- Bytes of a switch up to its operands. -/
theorem reads_switchPadding (offset : Nat) :
    Reads (Decoder.skip (switchPadding offset)) (Array.replicate (Bytes.padding (offset + 1)) 0) () := by
  have hsize : (Array.replicate (Bytes.padding (offset + 1)) (0 : UInt8)).size = switchPadding offset := by
    rw [Array.size_replicate]
    unfold Bytes.padding switchPadding
    omega
  rw [← hsize]
  exact Reads.skip _

variable {place : Label → Nat} {defaultLabel : Label} {labels : List Label}

/-- The distances that labels have from a switch. -/
theorem map_target {ls : CodeLabels} (hls : ∀ l ∈ labels, ls.get (Label.ofOffset (place l)).id = Label.ofOffset (place l)) :
    (labels.map fun l => (place l : Int) - offset).map (target ls offset) = labels.map fun l =>
      Label.ofOffset (place l) := by
  rw [List.map_map]
  exact List.map_congr_left fun l hl => target_sub (hls l hl)

/-- Distances from an instruction lead to the labels at their ends. -/
theorem map_distances (place : Label → Nat) (labels : List Label) :
    (labels.map fun l => (place l : Int) - offset).map ((offset : Int) + ·) =
      (labels.map fun l => Label.ofOffset (place l)).map Label.id := by
  rw [List.map_map, List.map_map]
  refine List.map_congr_left fun l _ => ?_
  simp only [Function.comp_apply, Label.ofOffset]
  omega

/-- A switch over a range of keys, in bytes. -/
def tableBytes (place : Label → Nat) (offset : Nat) (low high : Int32) (defaultLabel : Label)
    (labels : List Label) : Bytes :=
  Array.replicate (Bytes.padding (offset + 1)) 0 ++ (Blocks.distanceBytes true ((place defaultLabel : Int) - offset) ++
    (Bytes.ofInt32 low ++ (Bytes.ofInt32 high ++
      Bytes.concat (labels.map fun l => Blocks.distanceBytes true ((place l : Int) - offset)))))

/-- A switch over a range of keys leads to the places of its labels. -/
theorem found_tableSwitch (view : PoolView) {low high : Int32} (hl : labels.length = rangeSize low high)
    (h : ∀ l ∈ defaultLabel :: labels, -0x80000000 ≤ (place l : Int) - offset ∧ (place l : Int) - offset < 0x80000000) :
    Found view offset (#[Opcode.tableswitch] ++ tableBytes place offset low high defaultLabel labels)
      (.tableSwitch low high (.ofOffset (place defaultLabel)) (labels.map fun l => .ofOffset (place l))) := by
  have hdefault := h _ List.mem_cons_self
  have hmany : Reads (Decoder.many (rangeSize low high) distance32)
      (Bytes.concat (labels.map fun l => Blocks.distanceBytes true ((place l : Int) - offset)))
      (labels.map fun l => (place l : Int) - offset).toArray := by
    rw [← hl]
    exact Reads.many labels fun l hmem =>
      Reads.distance32 (h l (List.mem_cons_of_mem _ hmem)).1 (h l (List.mem_cons_of_mem _ hmem)).2
  refine ⟨size_pos _ _, fun ls hls => (Reads.u8 Opcode.tableswitch).bind ?_, _, (Reads.u8 Opcode.tableswitch).bind ?_,
    map_distances place (defaultLabel :: labels)⟩
  · simp only [show Opcode.layout Opcode.tableswitch = .tableSwitch from rfl]
    have hread := hmany.map fun ds => Instruction.tableSwitch low high
      (target ls offset ((place defaultLabel : Int) - offset)) (ds.toList.map (target ls offset))
    have hlabels : ∀ l ∈ labels, ls.get (Label.ofOffset (place l)).id = Label.ofOffset (place l) := fun l hmem =>
      hls _ (List.mem_cons_of_mem _ (List.mem_map_of_mem hmem))
    rw [map_target hlabels, target_sub (hls _ List.mem_cons_self)] at hread
    exact (reads_switchPadding offset).bind ((Reads.distance32 hdefault.1 hdefault.2).bind
      ((Reads.i32 low).bind ((Reads.i32 high).bind (by rwa [target_sub (hls _ List.mem_cons_self)]))))
  · simp only [show Opcode.layout Opcode.tableswitch = .tableSwitch from rfl]
    exact (reads_switchPadding offset).bind ((Reads.distance32 hdefault.1 hdefault.2).bind
      ((Reads.i32 low).bind ((Reads.i32 high).bind
        (hmany.map fun ds => ((place defaultLabel : Int) - offset) :: ds.toList))))

/-- A switch over single keys, in bytes. -/
def lookupBytes (place : Label → Nat) (offset : Nat) (defaultLabel : Label) (pairs : List (Int32 × Label)) : Bytes :=
  Array.replicate (Bytes.padding (offset + 1)) 0 ++ (Blocks.distanceBytes true ((place defaultLabel : Int) - offset) ++
    (Bytes.ofUInt32 pairs.length.toUInt32 ++
      Bytes.concat (pairs.map fun p => Bytes.ofInt32 p.1 ++ Blocks.distanceBytes true ((place p.2 : Int) - offset))))

/-- A switch over single keys leads to the places of its labels. -/
theorem found_lookupSwitch (view : PoolView) {pairs : List (Int32 × Label)} (hl : pairs.length < 0x80000000)
    (h : ∀ l ∈ defaultLabel :: pairs.map (·.2),
      -0x80000000 ≤ (place l : Int) - offset ∧ (place l : Int) - offset < 0x80000000) :
    Found view offset (#[Opcode.lookupswitch] ++ lookupBytes place offset defaultLabel pairs)
      (.lookupSwitch (.ofOffset (place defaultLabel)) (pairs.map (·.1)) (pairs.map fun p => .ofOffset (place p.2))) := by
  have hdefault := h _ List.mem_cons_self
  have hreach : ∀ p ∈ pairs, -0x80000000 ≤ (place p.2 : Int) - offset ∧
    (place p.2 : Int) - offset < 0x80000000 := fun p hp =>
    h _ (List.mem_cons_of_mem _ (List.mem_map_of_mem hp))
  have hcount : pairs.length.toUInt32.toInt32.toInt.toNat = pairs.length := by
    have hbound : pairs.length.toUInt32.toNat = pairs.length := by
      rw [UInt32.toNat_ofNat']
      omega
    have hvalue : pairs.length.toUInt32.toInt32.toInt = pairs.length := by
      change pairs.length.toUInt32.toBitVec.toInt = _
      rw [BitVec.toInt_eq_toNat_of_lt (by change 2 * pairs.length.toUInt32.toNat < _; omega)]
      exact congrArg Int.ofNat hbound
    omega
  have hpairs : Reads Decoder.i32 (Bytes.ofUInt32 pairs.length.toUInt32) pairs.length.toUInt32.toInt32 :=
    (Reads.u32 _).map UInt32.toInt32
  refine ⟨size_pos _ _, fun ls hls => (Reads.u8 Opcode.lookupswitch).bind ?_, _, (Reads.u8 Opcode.lookupswitch).bind ?_,
    (map_distances place (defaultLabel :: pairs.map (·.2))).trans ?_⟩
  · simp only [show Opcode.layout Opcode.lookupswitch = .lookupSwitch from rfl]
    have hmany : Reads (Decoder.many pairs.length do
        let key ← Decoder.i32
        let distance ← distance32
        return (key, target ls offset distance))
        (Bytes.concat (pairs.map fun p => Bytes.ofInt32 p.1 ++ Blocks.distanceBytes true ((place p.2 : Int) - offset)))
        (pairs.map fun p => (p.1, target ls offset ((place p.2 : Int) - offset))).toArray :=
      Reads.many pairs fun p hp => (Reads.i32 p.1).bind ((Reads.distance32 (hreach p hp).1 (hreach p hp).2).map fun d =>
        (p.1, target ls offset d))
    rw [← hcount] at hmany
    have htargets : (pairs.map fun p => (p.1, target ls offset ((place p.2 : Int) - offset))) =
        pairs.map fun p => (p.1, Label.ofOffset (place p.2)) := by
      refine List.map_congr_left fun p hp => ?_
      rw [target_sub (hls _ (List.mem_cons_of_mem _ (List.mem_map_of_mem hp)))]
    have hread := hmany.map fun cases => Instruction.lookupSwitch (target ls offset ((place defaultLabel : Int) - offset))
      (cases.toList.map (·.1)) (cases.toList.map (·.2))
    rw [htargets, target_sub (hls _ List.mem_cons_self)] at hread
    simp only [List.map_map, Function.comp_def] at hread
    refine (reads_switchPadding offset).bind ((Reads.distance32 hdefault.1 hdefault.2).bind (hpairs.bind ?_))
    rwa [target_sub (hls _ List.mem_cons_self)]
  · simp only [show Opcode.layout Opcode.lookupswitch = .lookupSwitch from rfl]
    have hmany : Reads (Decoder.many pairs.length do
        Decoder.skip 4
        distance32)
        (Bytes.concat (pairs.map fun p => Bytes.ofInt32 p.1 ++ Blocks.distanceBytes true ((place p.2 : Int) - offset)))
        (pairs.map fun p => (place p.2 : Int) - offset).toArray :=
      Reads.many pairs fun p hp => (Reads.skip (Bytes.ofInt32 p.1)).bind (Reads.distance32 (hreach p hp).1 (hreach p hp).2)
    rw [← hcount] at hmany
    have hread := hmany.map fun ds => ((place defaultLabel : Int) - offset) :: ds.toList
    have hdistances : (pairs.map fun p => (place p.2 : Int) - offset) = (pairs.map (·.2)).map fun l =>
      (place l : Int) - offset := by
      rw [List.map_map]
      rfl
    rw [hdistances] at hread
    exact (reads_switchPadding offset).bind ((Reads.distance32 hdefault.1 hdefault.2).bind (hpairs.bind hread))
  · simp [Instruction.labels, Function.comp_def]

end Found

/-! ## Instructions one after the other -/

/-- A reader finds instructions one after the other in bytes that stand at an offset. -/
inductive FoundAll (view : PoolView) : (offset : Nat) → Bytes → List (Nat × Instruction) → Prop where
  | nil (offset : Nat) : FoundAll view offset #[] []
  | cons {offset : Nat} {piece rest : Bytes} {i : Instruction} {items : List (Nat × Instruction)} :
    Found view offset piece i → FoundAll view (offset + piece.size) rest items →
      FoundAll view offset (piece ++ rest) ((offset, i) :: items)

/-- One instruction that is found is a list of instructions that are found. -/
theorem FoundAll.single {view : PoolView} {offset : Nat} {piece : Bytes} {i : Instruction} (h : Found view offset piece i) :
    FoundAll view offset piece [(offset, i)] := by
  have := FoundAll.cons h (.nil _)
  rwa [Array.append_empty] at this

/-- Instructions that are found behind others are found after them. -/
theorem FoundAll.append {view : PoolView} {offset : Nat} {piece rest : Bytes} {items items' : List (Nat × Instruction)}
    (h : FoundAll view offset piece items) (h' : FoundAll view (offset + piece.size) rest items') :
    FoundAll view offset (piece ++ rest) (items ++ items') := by
  induction h with
  | nil => simpa using h'
  | @cons offset piece tail i items hfound _ ih =>
    rw [Array.append_assoc, List.cons_append]
    refine .cons hfound (ih ?_)
    rwa [Array.size_append, ← Nat.add_assoc] at h'

end Code

/-- The bytes of pieces, given the places of the labels. -/
def CodePiece.renderAll (place : Label → Nat) (ps : List CodePiece) : Bytes :=
  Bytes.concat (ps.map (render place))

/-- Pieces are rendered one behind the other. -/
theorem CodePiece.renderAll_append (place : Label → Nat) (ps qs : List CodePiece) :
    renderAll place (ps ++ qs) = renderAll place ps ++ renderAll place qs := by
  simp [renderAll]

/-- Rendered pieces take as many bytes as is counted for them. -/
theorem CodePiece.size_renderAll (place : Label → Nat) (ps : List CodePiece) : (renderAll place ps).size = totalSize ps :=
  size_concat_render place ps

/-- What an instruction that stands at an offset is written as can be read: distances fit, and a jump says whether
its label lies too far back. -/
structure Emission.Readable (place : Label → Nat) (offset : Nat) (e : Emission) : Prop where
  near : ∀ op label, e.instruction = .jump op label → e.far = false → InReach ((place label : Int) - offset)
  far : ∀ op label, e.instruction = .jump op label → e.far = true → (place label : Int) - offset < MethodDraft.minDistance
  labels : ∀ label ∈ e.instruction.labels, place label ≤ MethodDraft.maxCodeLength
  size : offset + CodePiece.totalSize (e.pieces offset) ≤ MethodDraft.maxCodeLength

namespace Code

section Emissions

variable {view : PoolView} {pool : ConstantPool} {offset : Nat} {place : Label → Nat}

theorem signedShort_fin : ∀ n : Fin 256, Opcode.layout n.val.toUInt8 = .signedShort → n.val.toUInt8 = Opcode.sipush := by
  decide +kernel

/-- Only one instruction has a number of two bytes. -/
theorem signedShort_eq {op : UInt8} (hl : Opcode.layout op = .signedShort) : op = Opcode.sipush := by
  have hn : op.toNat.toUInt8 = op := by simp
  have h := signedShort_fin ⟨op.toNat, op.toNat_lt⟩
  dsimp only at h
  rw [hn] at h
  exact h hl

theorem layout_invertJump_fin : ∀ n : Fin 256, Opcode.layout n.val.toUInt8 = .jump → n.val.toUInt8 ≠ Opcode.goto →
    n.val.toUInt8 ≠ Opcode.jsr → Opcode.layout (Opcode.invertJump n.val.toUInt8) = .jump := by
  decide +kernel

/-- The negation of a conditional jump is a jump. -/
theorem layout_invertJump {op : UInt8} (hl : Opcode.layout op = .jump) (hgoto : op ≠ Opcode.goto) (hjsr : op ≠ Opcode.jsr) :
    Opcode.layout (Opcode.invertJump op) = .jump := by
  have hn : op.toNat.toUInt8 = op := by simp
  have h := layout_invertJump_fin ⟨op.toNat, op.toNat_lt⟩
  dsimp only at h
  rw [hn] at h
  exact h hl hgoto hjsr

/-- A jump is found, and a conditional one that is too far back as the negated one and a jump of four bytes. -/
theorem foundAll_jump {op : UInt8} {label : Label} {far : Bool} (hl : Opcode.layout op = .jump)
    (hnear : far = false → InReach ((place label : Int) - offset))
    (hfar : far = true → (place label : Int) - offset < MethodDraft.minDistance)
    (hplace : place label ≤ MethodDraft.maxCodeLength) (hoffset : offset ≤ MethodDraft.maxCodeLength) :
    FoundAll view offset (CodePiece.renderAll place (Instruction.jumpPieces op label far offset))
      ((Instruction.jump op label).decoded place offset) := by
  unfold MethodDraft.maxCodeLength at hplace hoffset
  unfold Instruction.decoded
  dsimp only
  cases far with
  | false =>
    have hreach := hnear rfl
    have hnot : decide ((place label : Int) - offset < MethodDraft.minDistance) = false := by
      refine decide_eq_false ?_
      have := hreach.1
      unfold MethodDraft.minDistance
      omega
    rw [hnot]
    simpa [Instruction.jumpPieces, CodePiece.renderAll, CodePiece.render] using FoundAll.single
      (found_jump view offset (place label) hl hreach)
  | true =>
    have hbehind := hfar rfl
    rw [decide_eq_true hbehind, Bool.true_and]
    unfold Instruction.jumpPieces
    rw [if_pos rfl]
    split
    · rename_i hconditional
      obtain ⟨hgoto, hjsr⟩ : op ≠ Opcode.goto ∧ op ≠ Opcode.jsr := by simpa using hconditional
      have hwide : MethodDraft.wideJump op = Opcode.gotoW := by
        unfold MethodDraft.wideJump
        rw [if_neg (by simpa using hjsr)]
      have hdistance : Blocks.distanceBytes false (((offset + 8 : Nat) : Int) - offset) = Bytes.ofUInt16 8 := by
        rw [show ((offset + 8 : Nat) : Int) - offset = 8 by omega]
        rfl
      have hpast := found_jump view offset (offset + 8) (layout_invertJump hl hgoto hjsr) (by constructor <;> omega)
      rw [hdistance] at hpast
      have hback := found_wideJump view (offset + 3) (place label) (show Opcode.layout Opcode.gotoW = .wideJump from rfl)
        (show narrowJump Opcode.gotoW = Opcode.goto from rfl) (by omega) (by omega)
      have hboth := FoundAll.cons hpast (.single hback)
      simpa [CodePiece.renderAll, CodePiece.render, hwide] using hboth
    · rename_i hplain
      have hwide : Opcode.layout (MethodDraft.wideJump op) = .wideJump ∧ narrowJump (MethodDraft.wideJump op) = op := by
        have hcases : op = Opcode.goto ∨ op = Opcode.jsr := by
          by_cases h : op = Opcode.goto
          · exact Or.inl h
          · refine Or.inr ?_
            simpa [h] using hplain
        rcases hcases with rfl | rfl <;> exact ⟨rfl, rfl⟩
      have hback := found_wideJump view offset (place label) hwide.1 hwide.2 (by omega) (by omega)
      simpa [CodePiece.renderAll, CodePiece.render] using FoundAll.single hback

/-- The cases of a switch over single keys, piece by piece and case by case. -/
theorem concat_cases (place : Label → Nat) (offset : Nat) (pairs : List (Int32 × Label)) :
    Bytes.concat (pairs.flatMap fun p => [Bytes.ofInt32 p.1, Blocks.distanceBytes true ((place p.2 : Int) - offset)]) =
      Bytes.concat (pairs.map fun p => Bytes.ofInt32 p.1 ++ Blocks.distanceBytes true ((place p.2 : Int) - offset)) := by
  induction pairs with
  | nil => rfl
  | cons p rest ih => simp [ih]

/-- Every case of a switch takes some bytes. -/
theorem length_le_cases (offset : Nat) (pairs : List (Int32 × Label)) : pairs.length ≤
    CodePiece.totalSize (pairs.flatMap fun p => [CodePiece.bytes (Bytes.ofInt32 p.1), .distance p.2 offset true]) := by
  induction pairs with
  | nil => exact Nat.le_refl 0
  | cons p rest ih =>
    simp only [List.flatMap_cons, List.cons_append, List.nil_append, CodePiece.totalSize_cons, List.length_cons]
    simp only [CodePiece.size, Bytes.size_ofInt32]
    omega

/-- A reader finds an instruction in its own pieces. -/
def ReadBack (view : PoolView) (place : Label → Nat) (offset : Nat) (index : PoolIndex) (far : Bool)
    (i : Instruction) : Prop :=
  FoundAll view offset (CodePiece.renderAll place (i.pieces index far offset)) (i.decoded place offset)

/-- An instruction with a number is written with a byte or with two, as its opcode says. -/
theorem readBack_immediate {op : UInt8} {operand : Int32} (hw : (Instruction.immediate op operand).WellFormed)
    (index : PoolIndex) (far : Bool) : ReadBack view place offset index far (.immediate op operand) := by
  refine FoundAll.single ?_
  rcases hw with ⟨hl, hlower, hupper⟩ | ⟨hl, hlower, hupper⟩
  · have hop : (op == Opcode.sipush) = false := by
      refine beq_eq_false_iff_ne.2 fun e => ?_
      subst e
      exact absurd hl (by decide)
    simpa [Instruction.pieces, Instruction.relabel, hop, CodePiece.renderAll, CodePiece.render] using
      found_signedByte hl hlower hupper
  · have hop : op = Opcode.sipush := signedShort_eq hl
    subst hop
    simpa [Instruction.pieces, Instruction.relabel, CodePiece.renderAll, CodePiece.render] using
      found_signedShort hl hlower hupper

/-- A call is written with the index of its method, and that of an interface's method with the slots of its arguments too. -/
theorem readBack_invoke (hs : view.Shows pool) {op : UInt8} {r : MemberRef} {index : PoolIndex}
    (hn : pool.HoldsMethod index r)
    (hw : (Instruction.invoke op r).WellFormed) (far : Bool) : ReadBack view place offset index far (.invoke op r) := by
  refine FoundAll.single ?_
  rcases hw with ⟨hl, hop⟩ | rfl
  · have hnot : (op == Opcode.invokeinterface) = false := by
      refine beq_eq_false_iff_ne.2 fun e => ?_
      subst e
      exact absurd hl (by decide)
    have hfound := found_member offset hl (hs.methodRef hn)
    unfold memberInstruction at hfound
    rw [if_neg hop] at hfound
    simpa [Instruction.pieces, Instruction.relabel, hnot, CodePiece.renderAll, CodePiece.render] using hfound
  · simpa [Instruction.pieces, Instruction.relabel, CodePiece.renderAll, CodePiece.render] using
      found_interface hs hn (Descriptor.argumentSlots r.descriptor).toUInt8

/-- A constant is written in the form that its size and its index ask for. -/
theorem readBack_constant (hs : view.Shows pool) (hp : pool.Built) {value : ConstantValue} {index : PoolIndex}
    (hn : pool.HoldsConstant index value) (hw : value.Encodable) (far : Bool) :
    ReadBack view place offset index far (.constant value) := by
  refine FoundAll.single ?_
  unfold Instruction.pieces
  dsimp only
  split
  · simpa [Instruction.relabel, CodePiece.renderAll, CodePiece.render] using found_wideConstant hs hp rfl hn hw
  · split
    · simpa [Instruction.relabel, CodePiece.renderAll, CodePiece.render] using found_wideConstant hs hp rfl hn hw
    · rename_i hindex
      simpa [Instruction.relabel, CodePiece.renderAll, CodePiece.render] using
        found_constant hs hp hn hw (UInt16.not_le.1 hindex)

/-- An increment is written in its wide form if the local or the amount does not fit in a byte. -/
theorem readBack_increment (slot : UInt16) (amount : Int16) (index : PoolIndex) (far : Bool) :
    ReadBack view place offset index far (.increment slot amount) := by
  refine FoundAll.single ?_
  unfold Instruction.pieces
  dsimp only
  split
  · simpa [Instruction.relabel, CodePiece.renderAll, CodePiece.render] using found_wideIncrement slot amount
  · rename_i hshort
    obtain ⟨⟨hslot, hupper⟩, hlower⟩ : (slot ≤ 255 ∧ amount ≤ 127) ∧ -128 ≤ amount := by simpa using hshort
    simpa [Instruction.relabel, CodePiece.renderAll, CodePiece.render] using found_increment hslot hupper hlower

/-- A switch over single keys is read with its keys and labels in pairs. -/
theorem readBack_lookupSwitch {defaultLabel : Label} {keys : List Int32} {labels : List Label}
    (hw : labels.length = keys.length) (hfew : labels.length < 0x80000000)
    (hreach : ∀ l ∈ defaultLabel :: labels, -0x80000000 ≤ (place l : Int) - offset ∧ (place l : Int) - offset < 0x80000000)
    (index : PoolIndex) (far : Bool) : ReadBack view place offset index far (.lookupSwitch defaultLabel keys labels) := by
  refine FoundAll.single ?_
  have hkeys : (keys.zip labels).map (·.1) = keys := List.map_fst_zip (Nat.le_of_eq hw.symm)
  have hvalues : (keys.zip labels).map (·.2) = labels := List.map_snd_zip (Nat.le_of_eq hw)
  have hcount : (keys.zip labels).length = labels.length := by
    rw [← List.length_map (f := (·.2)), hvalues]
  have hfound := found_lookupSwitch view (hcount ▸ hfew) (hvalues.symm ▸ hreach)
  have htargets : ((keys.zip labels).map fun p => Label.ofOffset (place p.2)) = labels.map fun l =>
    Label.ofOffset (place l) := by
    conv => rhs; rw [← hvalues, List.map_map]
    rfl
  rw [hkeys, htargets] at hfound
  unfold lookupBytes at hfound
  rw [hcount] at hfound
  simpa [Instruction.pieces, Instruction.switchHead, Instruction.relabel, CodePiece.renderAll, CodePiece.render,
    List.map_flatMap, concat_cases] using hfound

/-- What is written of a well-formed instruction is read as the instruction. -/
theorem foundAll_pieces (hs : view.Shows pool) (hp : pool.Built) {e : Emission} (hn : e.instruction.Named pool e.index)
    (hw : e.instruction.WellFormed) (hr : e.Readable place offset) :
    FoundAll view offset (CodePiece.renderAll place (e.pieces offset)) (e.instruction.decoded place offset) := by
  obtain ⟨i, index, far⟩ := e
  have hsize := hr.size
  have hlabels := hr.labels
  unfold MethodDraft.maxCodeLength at hsize hlabels
  unfold Emission.pieces at hsize ⊢
  dsimp only at hn hw hlabels hsize ⊢
  have hreach : ∀ label ∈ i.labels, -0x80000000 ≤ (place label : Int) - offset ∧
    (place label : Int) - offset < 0x80000000 := by
    intro label hlabel
    have := hlabels label hlabel
    constructor <;> omega
  cases i with
  | bare op =>
    refine FoundAll.single ?_
    simpa [Instruction.pieces, Instruction.relabel, CodePiece.renderAll, CodePiece.render] using found_bare hw
  | immediate op operand => exact readBack_immediate hw index far
  | moveLocal op slot =>
    refine FoundAll.single ?_
    simpa [Instruction.pieces, Instruction.relabel, CodePiece.renderAll, CodePiece.render] using found_moveLocal hw
  | typed op name =>
    refine FoundAll.single ?_
    simpa [Instruction.pieces, Instruction.relabel, CodePiece.renderAll, CodePiece.render] using found_typed hs hw hn
  | field op owner name descriptor =>
    refine FoundAll.single ?_
    have hfound := found_member offset hw.1 (hs.fieldRef hn)
    unfold memberInstruction at hfound
    rw [if_pos hw.2] at hfound
    simpa [Instruction.pieces, Instruction.relabel, CodePiece.renderAll, CodePiece.render] using hfound
  | invoke op r => exact readBack_invoke hs hn hw far
  | invokeDynamic name descriptor bootstrap arguments =>
    refine FoundAll.single ?_
    simpa [Instruction.pieces, Instruction.relabel, CodePiece.renderAll, CodePiece.render] using
      found_callSite hs hp hn hw.1 hw.2.1 hw.2.2
  | jump op label =>
    have hplace := hlabels label List.mem_cons_self
    exact foundAll_jump hw (hr.near op label rfl) (hr.far op label rfl) hplace (by unfold MethodDraft.maxCodeLength; omega)
  | constant value => exact readBack_constant hs hp hn hw far
  | increment slot amount => exact readBack_increment slot amount index far
  | tableSwitch low high defaultLabel labels =>
    refine FoundAll.single ?_
    have hfound := found_tableSwitch view hw hreach
    simpa [Instruction.pieces, Instruction.relabel, Instruction.switchHead, CodePiece.renderAll,
      CodePiece.render, tableBytes, Function.comp_def] using hfound
  | lookupSwitch defaultLabel keys labels =>
    have hroom := length_le_cases offset (keys.zip labels)
    have hcount : (keys.zip labels).length = labels.length := by
      rw [← List.length_map (f := (·.2)), List.map_snd_zip (Nat.le_of_eq hw)]
    have hfew : labels.length < 0x80000000 := by
      simp only [Instruction.pieces, CodePiece.totalSize_append] at hsize
      omega
    exact readBack_lookupSwitch hw hfew hreach index far
  | multiArray descriptor dimensions =>
    refine FoundAll.single ?_
    simpa [Instruction.pieces, Instruction.relabel, CodePiece.renderAll, CodePiece.render] using
      found_multiArray hs hn dimensions

end Emissions

end Code

end ClassFile
