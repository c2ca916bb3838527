import ClassFile.Flow.Blocks
import ClassFile.Proofs.BlockArena
import ClassFile.Proofs.Reading

/-!
# The layout of code

Code is written in pieces: bytes that stay as they are, and distances from an instruction to a label. As long as the label
has no position there is only room for the distance, and the block of the label keeps a reference to the room. `Laid` says
that code holds the pieces written so far, one after the other; it is kept when a piece is added, when a label gets its
position and all references to it fit, and by whatever leaves the labels alone (`Blocks.Neutral`). When all labels have their
positions, the code is what the pieces say (`Laid.rendered`).
-/

namespace ClassFile

namespace Bytes

/-! ## Overwriting -/

/-- The bytes that overwrite stand at the position, and all others where they stood. -/
theorem getElem?_overwrite (b : Bytes) (position : Nat) (new : List UInt8) (i : Nat) :
    (overwrite b position new)[i]? =
      if position ≤ i ∧ i < position + new.length ∧ i < b.size then new[i - position]? else b[i]? := by
  induction new generalizing b position with
  | nil => rw [overwrite, if_neg (by rw [List.length_nil]; omega)]
  | cons x rest ih =>
    rw [overwrite, ih, Array.size_setIfInBounds, List.length_cons]
    by_cases hp : i = position
    · subst hp
      rw [if_neg (by omega), Array.getElem?_setIfInBounds, if_pos rfl]
      by_cases hi : i < b.size
      · rw [if_pos hi, if_pos (by omega), Nat.sub_self, List.getElem?_cons_zero]
      · rw [if_neg hi, if_neg (by omega), Array.getElem?_eq_none (Nat.le_of_not_lt hi)]
    · by_cases hi : position ≤ i ∧ i < position + (rest.length + 1) ∧ i < b.size
      · rw [if_pos hi, if_pos (by omega), show i - position = i - (position + 1) + 1 by omega, List.getElem?_cons_succ]
      · rw [if_neg hi, if_neg (by omega), Array.getElem?_setIfInBounds, if_neg (Ne.symm hp)]

/-- A piece stands at an offset if its bytes do. -/
theorem hasAt_iff {b p : Bytes} {offset : Nat} :
    b.HasAt offset p ↔ offset + p.size ≤ b.size ∧ ∀ i < p.size, b[offset + i]? = p[i]? := by
  constructor
  · intro h
    refine ⟨h.le_size, fun i hi => ?_⟩
    obtain ⟨before, after, rfl, rfl⟩ := h
    rw [Array.append_assoc, Array.getElem?_append_right (by omega), Nat.add_sub_cancel_left, Array.getElem?_append_left hi]
  · rintro ⟨hle, hget⟩
    refine ⟨b.extract 0 offset, b.extract (offset + p.size) b.size, ?_, by simp; omega⟩
    refine Array.ext_getElem? fun i => ?_
    have hsize : (b.extract 0 offset).size = offset := by simp; omega
    rcases Nat.lt_or_ge i offset with h | h
    · rw [Array.append_assoc, Array.getElem?_append_left (by omega), Array.getElem?_extract, if_pos (by omega), Nat.zero_add]
    · rw [Array.append_assoc, Array.getElem?_append_right (by omega), hsize]
      rcases Nat.lt_or_ge i (offset + p.size) with hi | hi
      · rw [Array.getElem?_append_left (by omega), ← hget _ (by omega), Nat.add_sub_cancel' h]
      · rw [Array.getElem?_append_right (by omega), Array.getElem?_extract]
        split
        · rw [show offset + p.size + (i - offset - p.size) = i by omega]
        · exact Array.getElem?_eq_none (by omega)

/-- Bytes that are written over others stand there. -/
theorem HasAt.overwrite_self {b : Bytes} {position : Nat} {new : Bytes} (h : position + new.size ≤ b.size) :
    (overwrite b position new.toList).HasAt position new := by
  refine hasAt_iff.2 ⟨by rwa [size_overwrite], fun i hi => ?_⟩
  rw [getElem?_overwrite, if_pos ⟨by omega, by simpa using hi, by omega⟩, Nat.add_sub_cancel_left, Array.getElem?_toList]

/-- What stands apart from the bytes that are overwritten stays. -/
theorem HasAt.overwrite {b p : Bytes} {offset position : Nat} {new : List UInt8} (h : b.HasAt offset p)
    (hd : offset + p.size ≤ position ∨ position + new.length ≤ offset) : (overwrite b position new).HasAt offset p := by
  obtain ⟨hle, hget⟩ := hasAt_iff.1 h
  refine hasAt_iff.2 ⟨by rwa [size_overwrite], fun i hi => ?_⟩
  rw [getElem?_overwrite, if_neg (by omega), hget i hi]

/-- Writing two bytes leaves alone what stands in front of them or behind them. -/
theorem HasAt.setUInt16 {b p : Bytes} {offset position : Nat} (h : b.HasAt offset p) (n : UInt16)
    (hd : offset + p.size ≤ position ∨ position + 2 ≤ offset) : (Bytes.setUInt16 b position n).HasAt offset p :=
  h.overwrite (by rwa [Array.length_toList, size_ofUInt16])

/-- Writing four bytes leaves alone what stands in front of them or behind them. -/
theorem HasAt.setUInt32 {b p : Bytes} {offset position : Nat} (h : b.HasAt offset p) (n : UInt32)
    (hd : offset + p.size ≤ position ∨ position + 4 ≤ offset) : (Bytes.setUInt32 b position n).HasAt offset p :=
  h.overwrite (by rwa [Array.length_toList, size_ofUInt32])

/-- A number of two bytes stands where it was written. -/
theorem hasAt_setUInt16 {b : Bytes} {position : Nat} (h : position + 2 ≤ b.size) (n : UInt16) :
    (setUInt16 b position n).HasAt position (ofUInt16 n) :=
  HasAt.overwrite_self (by rwa [size_ofUInt16])

/-- A number of four bytes stands where it was written. -/
theorem hasAt_setUInt32 {b : Bytes} {position : Nat} (h : position + 4 ≤ b.size) (n : UInt32) :
    (setUInt32 b position n).HasAt position (ofUInt32 n) :=
  HasAt.overwrite_self (by rwa [size_ofUInt32])

/-- A byte string that stands in another one of its size is that one. -/
theorem HasAt.eq_of_size {b p : Bytes} (h : b.HasAt 0 p) (hs : b.size = p.size) : b = p := by
  obtain ⟨before, after, rfl, hbefore⟩ := h
  obtain rfl := Array.eq_empty_of_size_eq_zero hbefore
  have : after.size = 0 := by
    simp only [Array.size_append] at hs
    omega
  obtain rfl := Array.eq_empty_of_size_eq_zero this
  simp

end Bytes

/-- Number of bytes of the room that a jump left. -/
def Reference.size (r : Reference) : Nat :=
  if r.wide then 4 else 2

/-- A piece of the code of a method. -/
inductive CodePiece where
  /-- Bytes that stay as they are. -/
  | bytes (b : Bytes)
  /-- The distance to a label from the instruction at an offset, in four bytes or in two. -/
  | distance (label : Label) (origin : Nat) (wide : Bool)

namespace CodePiece

/-- Number of bytes of a piece. -/
def size : CodePiece → Nat
  | bytes b => b.size
  | distance _ _ wide => if wide then 4 else 2

/-- A piece, given the positions of the labels. -/
def render (place : Label → Nat) : CodePiece → Bytes
  | bytes b => b
  | distance label origin wide => Blocks.distanceBytes wide (place label - origin)

/-- Number of bytes of pieces. -/
def totalSize (ps : List CodePiece) : Nat :=
  (ps.map size).sum

/-- A piece stands at an offset, among pieces one after the other. -/
def StandsAt (ps : List CodePiece) (offset : Nat) (p : CodePiece) : Prop :=
  ∃ before after, ps = before ++ p :: after ∧ totalSize before = offset

@[simp] theorem totalSize_nil : totalSize [] = 0 := rfl

@[simp] theorem totalSize_cons (p : CodePiece) (ps : List CodePiece) : totalSize (p :: ps) = p.size + totalSize ps := rfl

@[simp] theorem totalSize_append (ps qs : List CodePiece) : totalSize (ps ++ qs) = totalSize ps + totalSize qs := by
  simp [totalSize]

@[simp] theorem size_distanceBytes (wide : Bool) (distance : Int) :
    (Blocks.distanceBytes wide distance).size = if wide then 4 else 2 := by
  cases wide <;> rfl

@[simp] theorem size_render (place : Label → Nat) (p : CodePiece) : (p.render place).size = p.size := by
  cases p with
  | bytes b => rfl
  | distance label origin wide => exact size_distanceBytes _ _

/-- Rendered pieces one behind the other take as many bytes as is counted for them. -/
theorem size_concat_render (place : Label → Nat) (ps : List CodePiece) :
    (Bytes.concat (ps.map (render place))).size = totalSize ps := by
  simp [totalSize, Function.comp_def]

/-- A piece that comes after some of the pieces of a part. -/
theorem StandsAt.intro (ps before : List CodePiece) (p : CodePiece) (after : List CodePiece) :
    StandsAt (ps ++ (before ++ [p] ++ after)) (totalSize (ps ++ before)) p :=
  ⟨ps ++ before, after, by simp, rfl⟩

/-- A piece stands among pieces and one more if it is the last one or stands among the others. -/
theorem standsAt_concat {ps : List CodePiece} {q p : CodePiece} {offset : Nat} :
    StandsAt (ps ++ [q]) offset p ↔ StandsAt ps offset p ∨ offset = totalSize ps ∧ p = q := by
  constructor
  · rintro ⟨before, after, h, rfl⟩
    rcases List.append_eq_append_iff.1 h with ⟨rest, rfl, hrest⟩ | ⟨rest, rfl, hrest⟩
    · cases rest with
      | nil =>
        obtain ⟨rfl, rfl⟩ := List.cons.inj hrest
        exact Or.inr ⟨by simp, rfl⟩
      | cons x rest =>
        obtain ⟨rfl, hnil⟩ := List.cons.inj hrest
        simp at hnil
    · cases rest with
      | nil =>
        obtain ⟨rfl, -⟩ := List.cons.inj hrest
        exact Or.inr ⟨by simp, rfl⟩
      | cons x rest =>
        obtain ⟨rfl, rfl⟩ := List.cons.inj hrest
        exact Or.inl ⟨before, rest, rfl, rfl⟩
  · rintro (⟨before, after, rfl, rfl⟩ | ⟨rfl, rfl⟩)
    · exact ⟨before, after ++ [q], by simp, rfl⟩
    · exact ⟨ps, [], rfl, rfl⟩

/-- Two pieces are one, or one of them ends before the other starts. -/
theorem StandsAt.apart {ps : List CodePiece} {p q : CodePiece} {i j : Nat} (hp : StandsAt ps i p) (hq : StandsAt ps j q) :
    (i = j ∧ p = q) ∨ i + p.size ≤ j ∨ j + q.size ≤ i := by
  obtain ⟨before, after, rfl, rfl⟩ := hp
  obtain ⟨before', after', h, rfl⟩ := hq
  rcases List.append_eq_append_iff.1 h with ⟨rest, rfl, hrest⟩ | ⟨rest, rfl, hrest⟩
  · cases rest with
    | nil => exact Or.inl ⟨by simp, (List.cons.inj hrest).1⟩
    | cons x rest =>
      obtain ⟨rfl, -⟩ := List.cons.inj hrest
      exact Or.inr (Or.inl (by simp))
  · cases rest with
    | nil => exact Or.inl ⟨by simp, (List.cons.inj hrest).1.symm⟩
    | cons x rest =>
      obtain ⟨rfl, -⟩ := List.cons.inj hrest
      exact Or.inr (Or.inr (by simp))

/-- A piece ends where the pieces end or before. -/
theorem StandsAt.le {ps : List CodePiece} {p : CodePiece} {i : Nat} (hp : StandsAt ps i p) : i + p.size ≤ totalSize ps := by
  obtain ⟨before, after, rfl, rfl⟩ := hp
  simp

end CodePiece

namespace Blocks

/-! ## Positions of labels -/

/-- A label has a place if its block has one. -/
theorem position_eq_some {blocks : Blocks} {label : Label} {n : Nat} (h : blocks.position label = some n) :
    ∃ i, blocks.labels[label]? = some i ∧ (blocks.get i).resolved = true ∧ (blocks.get i).position = n := by
  unfold Blocks.position at h
  split at h
  · rename_i i hi
    dsimp only at h
    split at h
    · rename_i hr
      exact ⟨i, hi, hr, Option.some.inj h⟩
    · cases h
  · cases h

/-- The place of a label is that of its block. -/
theorem position_eq {blocks : Blocks} {label : Label} {i : Nat} (h : blocks.labels[label]? = some i) :
    blocks.position label = if (blocks.get i).resolved then some (blocks.get i).position else none := by
  unfold Blocks.position
  rw [h]

/-- A label without a block has no place. -/
theorem position_eq_none_of_new {blocks : Blocks} {label : Label} (h : blocks.labels[label]? = none) :
    blocks.position label = none := by
  unfold Blocks.position
  rw [h]

/-- Only the block of a label and its place count. -/
theorem position_congr {blocks blocks' : Blocks} {label : Label} (hlabels : blocks'.labels[label]? = blocks.labels[label]?)
    (hget : ∀ i, blocks.labels[label]? = some i →
      (blocks'.get i).resolved = (blocks.get i).resolved ∧ (blocks'.get i).position = (blocks.get i).position) :
    blocks'.position label = blocks.position label := by
  cases h : blocks.labels[label]? with
  | none => rw [position_eq_none_of_new h, position_eq_none_of_new (hlabels.trans h)]
  | some i =>
    obtain ⟨hresolved, hposition⟩ := hget i h
    rw [position_eq h, position_eq (hlabels.trans h), hresolved, hposition]

/-- Every label names a block of the arena, and a block has one label at most. -/
structure Labelled (blocks : Blocks) : Prop where
  bound : ∀ (label : Label) (i : Nat), blocks.labels[label]? = some i → i < blocks.size
  unique : ∀ (label label' : Label) (i : Nat),
    blocks.labels[label]? = some i → blocks.labels[label']? = some i → label = label'

/-- No label names a block. -/
def Unnamed (blocks : Blocks) (i : Nat) : Prop :=
  ∀ label : Label, blocks.labels[label]? ≠ some i

/-- A change of the blocks that leaves the labels their places, and what waits for them. -/
structure Neutral (blocks blocks' : Blocks) : Prop where
  labels : ∀ (label : Label) (i : Nat), blocks.labels[label]? = some i → blocks'.labels[label]? = some i
  position : ∀ label, blocks'.position label = blocks.position label
  references : ∀ i, (blocks'.get i).references = (blocks.get i).references
  labelled : blocks.Labelled → blocks'.Labelled

section Neutral

variable {blocks blocks' blocks'' : Blocks}

theorem Neutral.refl (blocks : Blocks) : blocks.Neutral blocks :=
  ⟨fun _ _ h => h, fun _ => rfl, fun _ => rfl, fun h => h⟩

theorem Neutral.trans (h : blocks.Neutral blocks') (h' : blocks'.Neutral blocks'') : blocks.Neutral blocks'' :=
  ⟨fun l i hl => h'.labels l i (h.labels l i hl), fun l => (h'.position l).trans (h.position l),
    fun i => (h'.references i).trans (h.references i), fun hl => h'.labelled (h.labelled hl)⟩

/-- A change of a block changes no label. -/
theorem Labelled.modify (hl : blocks.Labelled) (i : Nat) (f : Block → Block) : (blocks.modify i f).Labelled :=
  ⟨fun label j hj => (size_modify blocks i f).symm ▸ hl.bound label j hj, hl.unique⟩

/-- A change of a block that leaves its place and its references alone. -/
theorem Neutral.modify (blocks : Blocks) (i : Nat) {f : Block → Block}
    (hf : ∀ b, (f b).resolved = b.resolved ∧ (f b).position = b.position ∧ (f b).references = b.references) :
    blocks.Neutral (blocks.modify i f) := by
  refine ⟨fun _ _ h => h, fun label => position_congr rfl fun j _ => ?_,
    get_modify_field (·.references) blocks i (hf _).2.2, fun hl => hl.modify i f⟩
  exact ⟨get_modify_field (·.resolved) blocks i (hf _).1 j, get_modify_field (·.position) blocks i (hf _).2.1 j⟩

/-- A change of a block without a label that leaves its references alone. -/
theorem Neutral.modifyUnnamed {i : Nat} (hi : blocks.Unnamed i) {f : Block → Block}
    (hf : (f (blocks.get i)).references = (blocks.get i).references) : blocks.Neutral (blocks.modify i f) := by
  refine ⟨fun _ _ h => h, fun label => position_congr rfl fun j hj => ?_,
    get_modify_field (·.references) blocks i hf, fun hl => hl.modify i f⟩
  rw [get_modify_of_ne _ fun e : j = i => hi label (e ▸ hj)]
  exact ⟨rfl, rfl⟩

/-- A new block has no place, and nothing waits for it. -/
theorem get_push_place (blocks : Blocks) (debug : Bool) (owner : Nat) (labels : Std.HashMap Label Nat) (j : Nat) :
    (get ⟨blocks.arena.push { debug, owner }, labels⟩ j).resolved = (blocks.get j).resolved ∧
      (get ⟨blocks.arena.push { debug, owner }, labels⟩ j).position = (blocks.get j).position ∧
      (get ⟨blocks.arena.push { debug, owner }, labels⟩ j).references = (blocks.get j).references := by
  rw [get_push]
  split
  · rename_i h
    rw [get_of_size_le (Nat.le_of_eq h.symm)]
    exact ⟨rfl, rfl, rfl⟩
  · exact ⟨rfl, rfl, rfl⟩

/-- A new block leaves the labels their places. -/
theorem neutral_fresh (blocks : Blocks) : blocks.Neutral blocks.fresh.2 := by
  have hget := get_push_place blocks false blocks.size blocks.labels
  refine ⟨fun _ _ h => h, fun label => position_congr rfl fun j _ => ⟨(hget j).1, (hget j).2.1⟩, fun j => (hget j).2.2,
    fun hl => ⟨fun label j hj => ?_, hl.unique⟩⟩
  have hlt := hl.bound label j hj
  have hsize : blocks.fresh.2.size = blocks.size + 1 := Array.size_push _
  omega

/-- A new block has no label. -/
theorem unnamed_fresh (hl : blocks.Labelled) : blocks.fresh.2.Unnamed blocks.fresh.1 :=
  fun label h => absurd (hl.bound label _ h) (Nat.lt_irrefl _)

/-- Naming a label makes the arena no smaller. -/
theorem size_index_le (blocks : Blocks) (label : Label) : blocks.size ≤ (blocks.index label).2.size := by
  unfold Blocks.index
  split
  · exact Nat.le_refl _
  · simp [size]

/-- A label names its block from now on. -/
theorem labels_index (blocks : Blocks) (label : Label) :
    (blocks.index label).2.labels[label]? = some (blocks.index label).1 := by
  unfold Blocks.index
  split
  · rename_i i hi
    exact hi
  · exact Std.HashMap.getElem?_insert_self

/-- Naming a label leaves all labels their places. -/
theorem neutral_index (blocks : Blocks) (label : Label) : blocks.Neutral (blocks.index label).2 := by
  unfold Blocks.index
  split
  · exact Neutral.refl blocks
  · rename_i hnew
    have hget := get_push_place blocks label.debug blocks.size (blocks.labels.insert label blocks.size)
    refine ⟨fun l i hl => ?_, fun l => ?_, fun j => (hget j).2.2, fun hl => ⟨fun l j hj => ?_, fun l l' j hj hj' => ?_⟩⟩
    · change (blocks.labels.insert label blocks.size)[l]? = some i
      rw [Std.HashMap.getElem?_insert, if_neg, hl]
      intro h
      obtain rfl : label = l := by simpa using h
      rw [hnew] at hl
      cases hl
    · by_cases h : label = l
      · subst h
        have hplace : (get _ blocks.size).resolved = false :=
          (hget blocks.size).1.trans (congrArg Block.resolved (get_of_size_le (Nat.le_refl _)))
        rw [position_eq_none_of_new hnew, position_eq (i := blocks.size) Std.HashMap.getElem?_insert_self]
        exact if_neg fun h : (get _ blocks.size).resolved = true => Bool.false_ne_true (hplace.symm.trans h)
      · refine position_congr ?_ fun j _ => ⟨(hget j).1, (hget j).2.1⟩
        change (blocks.labels.insert label blocks.size)[l]? = blocks.labels[l]?
        rw [Std.HashMap.getElem?_insert, if_neg (by simpa using h)]
    · change (blocks.labels.insert label blocks.size)[l]? = some j at hj
      change j < (blocks.arena.push _).size
      rw [Array.size_push]
      rw [Std.HashMap.getElem?_insert] at hj
      split at hj
      · obtain rfl := Option.some.inj hj
        exact Nat.lt_succ_self _
      · exact Nat.lt_succ_of_lt (hl.bound l j hj)
    · change (blocks.labels.insert label blocks.size)[l]? = some j at hj
      change (blocks.labels.insert label blocks.size)[l']? = some j at hj'
      rw [Std.HashMap.getElem?_insert] at hj hj'
      split at hj
      · rename_i hlabel
        obtain rfl : label = l := by simpa using hlabel
        split at hj'
        · rename_i hlabel'
          simpa using hlabel'
        · obtain rfl := Option.some.inj hj
          exact absurd (hl.bound l' _ hj') (Nat.lt_irrefl _)
      · split at hj'
        · obtain rfl := Option.some.inj hj'
          exact absurd (hl.bound l _ hj) (Nat.lt_irrefl _)
        · exact hl.unique l l' j hj hj'

/-- A block that has no place yet gets one: its label, and no other. -/
theorem position_resolve (hl : blocks.Labelled) {label : Label} {i : Nat} (hi : blocks.labels[label]? = some i)
    (position : Nat) (code : Bytes) (l : Label) :
    (blocks.resolve i position code).1.position l = if l = label then some position else blocks.position l := by
  change (blocks.modify i _).position l = _
  split
  · rename_i h
    subst h
    have hname : (blocks.modify i fun b => { b with resolved := true, position, references := #[] }).labels[l]? =
      some i := hi
    rw [position_eq hname, get_modify_self (hl.bound l i hi)]
    rfl
  · rename_i h
    refine position_congr rfl fun j hj => ?_
    rw [get_modify_of_ne _ fun e : j = i => h (hl.unique l label i (e ▸ hj) hi)]
    exact ⟨rfl, rfl⟩

/-- A label has no place as long as its block has none. -/
theorem resolved_eq_false {label : Label} {i : Nat} (hi : blocks.labels[label]? = some i)
    (h : blocks.position label = none) :
    (blocks.get i).resolved = false := by
  rw [position_eq hi] at h
  split at h
  · cases h
  · rename_i hr
    exact Bool.eq_false_iff.2 hr

end Neutral

end Blocks

/-! ## Layout -/

/-- Greatest distance back that fits in two bytes, and greatest distance ahead. -/
def InReach (distance : Int) : Prop :=
  -0x8000 ≤ distance ∧ distance ≤ 0x7FFF

/-- Code holds pieces one after the other, of distances to labels that have no place yet only the room. All distances of two
bytes fit. -/
structure Laid (blocks : Blocks) (code : Bytes) (places : Label → Option Nat) (ps : List CodePiece) : Prop where
  size : code.size = CodePiece.totalSize ps
  bytes : ∀ offset b, CodePiece.StandsAt ps offset (.bytes b) → code.HasAt offset b
  settled : ∀ offset label origin wide position, CodePiece.StandsAt ps offset (.distance label origin wide) →
    places label = some position →
      code.HasAt offset (Blocks.distanceBytes wide (position - origin)) ∧ (wide = false → InReach (position - origin))
  waiting : ∀ offset label origin wide, CodePiece.StandsAt ps offset (.distance label origin wide) → places label = none →
    ∃ i, blocks.labels[label]? = some i ∧ (⟨origin, offset, wide⟩ : Reference) ∈ (blocks.get i).references
  waits : ∀ i, ∀ r ∈ (blocks.get i).references, ∃ label, blocks.labels[label]? = some i ∧ places label = none ∧
    CodePiece.StandsAt ps r.operand (.distance label r.origin r.wide)
  origins : ∀ offset label origin wide, CodePiece.StandsAt ps offset (.distance label origin wide) → origin ≤ offset
  placed : ∀ label, blocks.position label = places label
  bounded : ∀ label position, places label = some position → position ≤ code.size
  labelled : blocks.Labelled

namespace Laid

open CodePiece

variable {blocks blocks' : Blocks} {code : Bytes} {places : Label → Option Nat} {ps : List CodePiece}

theorem neutral (h : Laid blocks code places ps) (hn : blocks.Neutral blocks') : Laid blocks' code places ps := by
  refine ⟨h.size, h.bytes, h.settled, fun offset label origin wide hs hp => ?_, fun i r hr => ?_, h.origins,
    fun label => (hn.position label).trans (h.placed label), h.bounded, hn.labelled h.labelled⟩
  · obtain ⟨i, hi, hr⟩ := h.waiting offset label origin wide hs hp
    exact ⟨i, hn.labels label i hi, by rwa [hn.references]⟩
  · rw [hn.references] at hr
    obtain ⟨label, hi, hp, hs⟩ := h.waits i r hr
    exact ⟨label, hn.labels label i hi, hp, hs⟩

/-- What stands in a byte string stands in any that goes on with it. -/
theorem hasAt_append {b p q : Bytes} {offset : Nat} (h : b.HasAt offset p) : (b ++ q).HasAt offset p := by
  obtain ⟨before, after, rfl, rfl⟩ := h
  exact ⟨before, after ++ q, by simp, rfl⟩

/-- What goes on with a byte string stands at its end. -/
theorem hasAt_end (b q : Bytes) : (b ++ q).HasAt b.size q :=
  ⟨b, #[], by simp, rfl⟩

/-- Bytes are written. -/
theorem emit (h : Laid blocks code places ps) (b : Bytes) : Laid blocks (code ++ b) places (ps ++ [.bytes b]) := by
  refine ⟨by simp [h.size, CodePiece.size], fun offset b' hs => ?_, fun offset label origin wide position hs hp => ?_,
    fun offset label origin wide hs hp => ?_, fun i r hr => ?_, fun offset label origin wide hs => ?_, h.placed,
    fun label position hp => ?_, h.labelled⟩
  · rcases standsAt_concat.1 hs with hs | ⟨rfl, hb⟩
    · exact hasAt_append (h.bytes offset b' hs)
    · obtain rfl := CodePiece.bytes.inj hb
      rw [← h.size]
      exact hasAt_end code b'
  · rcases standsAt_concat.1 hs with hs | ⟨-, hb⟩
    · exact (h.settled offset label origin wide position hs hp).imp_left hasAt_append
    · cases hb
  · rcases standsAt_concat.1 hs with hs | ⟨-, hb⟩
    · exact h.waiting offset label origin wide hs hp
    · cases hb
  · obtain ⟨label, hi, hp, hs⟩ := h.waits i r hr
    exact ⟨label, hi, hp, standsAt_concat.2 (Or.inl hs)⟩
  · rcases standsAt_concat.1 hs with hs | ⟨-, hb⟩
    · exact h.origins offset label origin wide hs
    · cases hb
  · have := h.bounded label position hp
    rw [Array.size_append]
    omega

/-- What stood in front of a new piece starts before it, and so does a new distance that is told from there. -/
theorem origins_concat (h : Laid blocks code places ps) (label : Label) {origin : Nat} (wide : Bool)
    (horigin : origin ≤ code.size) (offset : Nat) (l : Label) (o : Nat) (w : Bool)
    (hs : StandsAt (ps ++ [.distance label origin wide]) offset (.distance l o w)) : o ≤ offset := by
  rcases standsAt_concat.1 hs with hs | ⟨rfl, hb⟩
  · exact h.origins offset l o w hs
  · obtain ⟨-, rfl, -⟩ := CodePiece.distance.inj hb
    rwa [← h.size]

/-- A label lies in the code when the code goes on. -/
theorem bounded_append (h : Laid blocks code places ps) (b : Bytes) (l : Label) (position : Nat)
    (hp : places l = some position) : position ≤ (code ++ b).size := by
  have := h.bounded l position hp
  rw [Array.size_append]
  omega

/-- The distance to a label that has a place is written. -/
theorem putDistance (h : Laid blocks code places ps) {label : Label} {origin position : Nat} {wide : Bool}
    (horigin : origin ≤ code.size) (hplace : places label = some position)
    (hreach : wide = false → InReach (position - origin)) :
    Laid blocks (code ++ Blocks.distanceBytes wide (position - origin)) places (ps ++ [.distance label origin wide]) := by
  refine ⟨by simp [h.size, CodePiece.size], fun offset b hs => ?_, fun offset l o w position' hs hp => ?_,
    fun offset l o w hs hp => ?_, fun j r hj => ?_, h.origins_concat label wide horigin, h.placed, h.bounded_append _,
    h.labelled⟩
  · rcases standsAt_concat.1 hs with hs | ⟨-, hb⟩
    · exact hasAt_append (h.bytes offset b hs)
    · cases hb
  · rcases standsAt_concat.1 hs with hs | ⟨rfl, hb⟩
    · exact (h.settled offset l o w position' hs hp).imp_left hasAt_append
    · obtain ⟨rfl, rfl, rfl⟩ := CodePiece.distance.inj hb
      obtain rfl := Option.some.inj (hplace.symm.trans hp)
      refine ⟨?_, hreach⟩
      rw [← h.size]
      exact hasAt_end _ _
  · rcases standsAt_concat.1 hs with hs | ⟨-, hb⟩
    · exact h.waiting offset l o w hs hp
    · obtain ⟨rfl, -, -⟩ := CodePiece.distance.inj hb
      cases hplace.symm.trans hp
  · obtain ⟨l, hj', hp, hs⟩ := h.waits j r hj
    exact ⟨l, hj', hp, standsAt_concat.2 (Or.inl hs)⟩

/-- Room is left for the distance to a label without a place, and its block keeps a reference to the room. -/
theorem putRoom (h : Laid blocks code places ps) {label : Label} {origin i : Nat} {wide : Bool} (horigin : origin ≤ code.size)
    (hi : blocks.labels[label]? = some i) (hplace : places label = none) (distance : Int) :
    Laid (blocks.modify i fun b => { b with references := b.references.push ⟨origin, code.size, wide⟩ })
      (code ++ Blocks.distanceBytes wide distance) places (ps ++ [.distance label origin wide]) := by
  have hlt : i < blocks.size := h.labelled.bound label i hi
  have hpushed : ∀ j r, r ∈ ((blocks.modify i fun b =>
      { b with references := b.references.push ⟨origin, code.size, wide⟩ }).get j).references ↔
        r ∈ (blocks.get j).references ∨ j = i ∧ r = ⟨origin, code.size, wide⟩ := by
    intro j r
    rw [Blocks.get_modify]
    split
    · rename_i hj
      rw [hj.1, Array.mem_push]
      simp
    · rename_i hj
      simp only [hlt, and_true] at hj
      simp [hj]
  refine ⟨by simp [h.size, CodePiece.size], fun offset b hs => ?_, fun offset l o w position hs hp => ?_,
    fun offset l o w hs hp => ?_, fun j r hj => ?_, h.origins_concat label wide horigin, fun l => ?_, h.bounded_append _,
    h.labelled.modify i _⟩
  · rcases standsAt_concat.1 hs with hs | ⟨-, hb⟩
    · exact hasAt_append (h.bytes offset b hs)
    · cases hb
  · rcases standsAt_concat.1 hs with hs | ⟨rfl, hb⟩
    · exact (h.settled offset l o w position hs hp).imp_left hasAt_append
    · obtain ⟨rfl, -, -⟩ := CodePiece.distance.inj hb
      cases hplace.symm.trans hp
  · rcases standsAt_concat.1 hs with hs | ⟨rfl, hb⟩
    · obtain ⟨j, hj, hr⟩ := h.waiting offset l o w hs hp
      exact ⟨j, hj, (hpushed j _).2 (Or.inl hr)⟩
    · obtain ⟨rfl, rfl, rfl⟩ := CodePiece.distance.inj hb
      refine ⟨i, hi, (hpushed i _).2 (Or.inr ⟨rfl, ?_⟩)⟩
      rw [h.size]
  · rcases (hpushed j r).1 hj with hr | ⟨rfl, rfl⟩
    · obtain ⟨l, hj', hp, hs⟩ := h.waits j r hr
      exact ⟨l, hj', hp, standsAt_concat.2 (Or.inl hs)⟩
    · exact ⟨label, hi, hplace, standsAt_concat.2 (Or.inr ⟨h.size, rfl⟩)⟩
  · rw [← h.placed l]
    exact Blocks.position_congr rfl fun j _ =>
      ⟨Blocks.get_modify_field (·.resolved) blocks i rfl j, Blocks.get_modify_field (·.position) blocks i rfl j⟩

/-- The distance to a label is written, or room is left for it. -/
theorem putReference (h : Laid blocks code places ps) (label : Label) {origin : Nat} {wide : Bool}
    (horigin : origin ≤ code.size)
    (hreach : wide = false → ∀ position, places label = some position → InReach (position - origin)) :
    Laid (blocks.putReference label origin code wide).1 (blocks.putReference label origin code wide).2 places
      (ps ++ [.distance label origin wide]) := by
  have hi := blocks.labels_index label
  have hlaid := h.neutral (blocks.neutral_index label)
  unfold Blocks.putReference
  generalize blocks.index label = r at hi hlaid
  obtain ⟨i, blocks'⟩ := r
  dsimp only at hi hlaid ⊢
  have hplace := hlaid.placed label
  rw [Blocks.position_eq hi] at hplace
  by_cases hr : (blocks'.get i).resolved = true
  · rw [if_pos hr] at hplace ⊢
    exact hlaid.putDistance horigin hplace.symm fun hw => hreach hw _ hplace.symm
  · rw [if_neg hr] at hplace ⊢
    exact hlaid.putRoom horigin hi hplace.symm _

/-! ## Filling room -/

/-- Filling room writes the distance there unless it is too far, and all apart from the room stays. -/
theorem fill_one (position : Nat) {r : Reference} {code : Bytes} (hr : r.operand + r.size ≤ code.size) (overflow : Option Int) :
    (Blocks.fill position (code, overflow) r).1.size = code.size ∧
      (∀ offset p, code.HasAt offset p → (offset + p.size ≤ r.operand ∨ r.operand + r.size ≤ offset) →
        (Blocks.fill position (code, overflow) r).1.HasAt offset p) ∧
      ((Blocks.fill position (code, overflow) r).2 = none → overflow = none ∧
        (Blocks.fill position (code, overflow) r).1.HasAt r.operand (Blocks.distanceBytes r.wide (position - r.origin)) ∧
        (r.wide = false → (position : Int) - r.origin ≤ 0x7FFF)) := by
  obtain ⟨origin, operand, wide⟩ := r
  unfold Blocks.fill
  cases wide with
  | true =>
    simp only [if_true]
    exact ⟨Bytes.size_setUInt32 _ _ _, fun offset p hp hd => hp.setUInt32 _ hd,
      fun h => ⟨h, Bytes.hasAt_setUInt32 hr _, fun e => nomatch e⟩⟩
  | false =>
    simp only [Bool.false_eq_true, if_false]
    split
    · refine ⟨rfl, fun offset p hp _ => hp, fun h => ?_⟩
      cases overflow <;> cases h
    · rename_i hnear
      dsimp only
      exact ⟨Bytes.size_setUInt16 _ _ _, fun offset p hp hd => hp.setUInt16 _ hd,
        fun h => ⟨h, Bytes.hasAt_setUInt16 hr _, fun _ => Int.not_lt.1 hnear⟩⟩

/-- What stands apart from all room that is filled stays, and all distances are written if none was too far. -/
theorem fill_all (position : Nat) (rs : List Reference)
    (hrs : ∀ r ∈ rs, ∀ r' ∈ rs, r = r' ∨ r.operand + r.size ≤ r'.operand ∨
      r'.operand + r'.size ≤ r.operand) (code : Bytes) (hroom : ∀ r ∈ rs, r.operand + r.size ≤ code.size)
    (overflow : Option Int) :
    let filled := rs.foldl (Blocks.fill position) (code, overflow)
    filled.1.size = code.size ∧
      (∀ offset p, code.HasAt offset p → (∀ r ∈ rs, offset + p.size ≤ r.operand ∨ r.operand + r.size ≤ offset) →
        filled.1.HasAt offset p) ∧
      (filled.2 = none → overflow = none ∧
        ∀ r ∈ rs, filled.1.HasAt r.operand (Blocks.distanceBytes r.wide (position - r.origin)) ∧
          (r.wide = false → (position : Int) - r.origin ≤ 0x7FFF)) := by
  induction rs generalizing code overflow with
  | nil => exact ⟨rfl, fun _ _ h _ => h, fun h => ⟨h, fun _ hr => (nomatch hr)⟩⟩
  | cons r rest ih =>
    have hr := hroom r List.mem_cons_self
    have hstep := fill_one position hr overflow
    rw [List.foldl_cons]
    generalize Blocks.fill position (code, overflow) r = state at hstep
    obtain ⟨code', overflow'⟩ := state
    obtain ⟨hsize, hkeep, hwritten⟩ := hstep
    obtain ⟨hsize', hkeep', hwritten'⟩ := ih
      (fun x hx y hy => hrs x (List.mem_cons_of_mem r hx) y (List.mem_cons_of_mem r hy)) code'
      (fun x hx => hsize ▸ hroom x (List.mem_cons_of_mem r hx)) overflow'
    refine ⟨hsize'.trans hsize, fun offset p hp hd => ?_, fun h => ?_⟩
    · exact hkeep' offset p (hkeep offset p hp (hd r List.mem_cons_self)) fun x hx => hd x (List.mem_cons_of_mem r hx)
    · obtain ⟨hnone, hrest⟩ := hwritten' h
      obtain ⟨hnone', hself, hnear⟩ := hwritten hnone
      refine ⟨hnone', fun x hx => ?_⟩
      rcases List.mem_cons.1 hx with rfl | hx
      · by_cases hmem : x ∈ rest
        · exact hrest x hmem
        · refine ⟨hkeep' _ _ hself fun y hy => ?_, hnear⟩
          rcases hrs x List.mem_cons_self y (List.mem_cons_of_mem x hy) with rfl | hd
          · exact absurd hy hmem
          · simpa [Reference.size] using hd
      · exact hrest x hx

/-- All that waits in the block of a label waits for this label. -/
theorem standsAt_reference (h : Laid blocks code places ps) {label : Label} {i : Nat} (hi : blocks.labels[label]? = some i)
    {r : Reference} (hr : r ∈ (blocks.get i).references.toList) :
    StandsAt ps r.operand (.distance label r.origin r.wide) := by
  obtain ⟨l, hl, -, hs⟩ := h.waits i r (Array.mem_toList_iff.1 hr)
  rwa [h.labelled.unique l label i hl hi] at hs

/-- Two references that wait for one label have room apart from each other. -/
theorem references_apart (h : Laid blocks code places ps) {label : Label} {i : Nat} (hi : blocks.labels[label]? = some i)
    {r r' : Reference} (hr : r ∈ (blocks.get i).references.toList) (hr' : r' ∈ (blocks.get i).references.toList) :
    r = r' ∨ r.operand + r.size ≤ r'.operand ∨ r'.operand + r'.size ≤ r.operand := by
  refine ((h.standsAt_reference hi hr).apart (h.standsAt_reference hi hr')).imp_left fun ⟨ho, hp⟩ => ?_
  obtain ⟨-, horigin, hwide⟩ := CodePiece.distance.inj hp
  obtain ⟨origin, operand, wide⟩ := r
  obtain ⟨origin', operand', wide'⟩ := r'
  simp only at ho horigin hwide
  rw [ho, horigin, hwide]

/-- When a label gets its place, the pieces that are no distances to it stay, and the distances to it are written. -/
theorem filled (h : Laid blocks code places ps) {label : Label} {i : Nat} (hi : blocks.labels[label]? = some i)
    {code' : Bytes} (hcode : (blocks.get i).references.foldl (Blocks.fill code.size) (code, none) = (code', none)) :
    code'.size = code.size ∧
      (∀ offset p, StandsAt ps offset p → (∀ origin wide, p ≠ .distance label origin wide) →
        ∀ b, b.size = p.size → code.HasAt offset b → code'.HasAt offset b) ∧
      ∀ r ∈ (blocks.get i).references.toList, code'.HasAt r.operand (Blocks.distanceBytes r.wide (code.size - r.origin)) ∧
        (r.wide = false → (code.size : Int) - r.origin ≤ 0x7FFF) := by
  have hroom : ∀ r ∈ (blocks.get i).references.toList,
    r.operand + r.size ≤ code.size := fun r hr => h.size ▸ (h.standsAt_reference hi hr).le
  obtain ⟨hsize, hkeep, hwritten⟩ :=
    fill_all code.size _ (fun r hr r' hr' => h.references_apart hi hr hr') code hroom none
  rw [← Array.foldl_toList] at hcode
  rw [hcode] at hsize hkeep hwritten
  refine ⟨hsize, fun offset p hs hp b hb hat => hkeep offset b hat fun r hr => ?_, (hwritten rfl).2⟩
  rcases hs.apart (h.standsAt_reference hi hr) with ⟨-, rfl⟩ | hd
  · exact absurd rfl (hp _ _)
  · rwa [hb]

/-- A label gets its place at the end of the code, and all distances to it fit. -/
theorem resolve (h : Laid blocks code places ps) {label : Label} {i : Nat} (hi : blocks.labels[label]? = some i)
    (hnew : places label = none) (hfits : (blocks.resolve i code.size code).2.2 = none) :
    Laid (blocks.resolve i code.size code).1 (blocks.resolve i code.size code).2.1
      (fun l => if l = label then some code.size else places l) ps := by
  have hposition := fun l => Blocks.position_resolve h.labelled hi code.size code l
  have hreferences : ∀ j, j ≠ i → ((blocks.resolve i code.size code).1.get j) = blocks.get j := fun j hj =>
    Blocks.get_modify_of_ne blocks hj _
  have hself : ((blocks.resolve i code.size code).1.get i).references = #[] := by
    change ((blocks.modify i _).get i).references = _
    rw [Blocks.get_modify_self (h.labelled.bound label i hi)]
  have hlabels : (blocks.resolve i code.size code).1.labels = blocks.labels := rfl
  have hlabelled : (blocks.resolve i code.size code).1.Labelled := h.labelled.modify i _
  generalize hcode : (blocks.resolve i code.size code).2 = filled at hfits
  unfold Blocks.resolve at hcode
  dsimp only at hcode
  generalize (blocks.resolve i code.size code).1 = blocks' at *
  obtain ⟨code', overflow⟩ := filled
  dsimp only at hfits ⊢
  subst hfits
  obtain ⟨hsize, hkeep, hall⟩ := h.filled hi hcode
  refine ⟨hsize.trans h.size, fun offset b hs => ?_, fun offset l origin wide q hs hq => ?_,
    fun offset l origin wide hs hq => ?_, fun j r hj => ?_, h.origins, fun l => ?_, fun l q hq => ?_, hlabelled⟩
  · exact hkeep offset _ hs (fun _ _ e => nomatch e) b rfl (h.bytes offset b hs)
  · split at hq
    · rename_i hl
      subst hl
      obtain rfl := Option.some.inj hq
      obtain ⟨j, hj, hr⟩ := h.waiting offset l origin wide hs hnew
      rw [hi] at hj
      obtain rfl := Option.some.inj hj
      obtain ⟨hat, hnear⟩ := hall _ (Array.mem_toList_iff.2 hr)
      refine ⟨hat, fun hw => ⟨?_, hnear hw⟩⟩
      have := h.origins offset l origin wide hs
      have := hs.le
      have := h.size
      omega
    · rename_i hl
      obtain ⟨hold, hreach⟩ := h.settled offset l origin wide q hs hq
      exact ⟨hkeep offset _ hs (fun o w e => hl (CodePiece.distance.inj e).1) _ (by simp [CodePiece.size]) hold, hreach⟩
  · split at hq
    · cases hq
    · rename_i hl
      obtain ⟨j, hj, hr⟩ := h.waiting offset l origin wide hs hq
      refine ⟨j, hlabels ▸ hj, ?_⟩
      rwa [hreferences j fun e : j = i => hl (h.labelled.unique l label i (e ▸ hj) hi)]
  · by_cases hji : j = i
    · subst hji
      rw [hself] at hj
      exact (nomatch Array.not_mem_empty r hj)
    · rw [hreferences j hji] at hj
      obtain ⟨l, hl, hp, hs⟩ := h.waits j r hj
      refine ⟨l, hlabels ▸ hl, ?_, hs⟩
      rw [if_neg]
      · exact hp
      · rintro rfl
        rw [hi] at hl
        exact hji (Option.some.inj hl).symm
  · rw [hposition l, h.placed l]
  · rw [hsize]
    split at hq
    · exact Nat.le_of_eq (Option.some.inj hq).symm
    · exact h.bounded l q hq

/-- A block without a label gets a position: nothing waits for it. -/
theorem resolveUnnamed (h : Laid blocks code places ps) {i : Nat} (hi : blocks.Unnamed i) (position : Nat) :
    Laid (blocks.resolve i position code).1 code places ps ∧ (blocks.resolve i position code).2 = (code, none) := by
  have hnone : (blocks.get i).references = #[] := by
    refine Array.eq_empty_iff_forall_not_mem.2 fun r hr => ?_
    obtain ⟨label, hl, -, -⟩ := h.waits i r hr
    exact hi label hl
  refine ⟨h.neutral (Blocks.Neutral.modifyUnnamed hi hnone.symm), ?_⟩
  unfold Blocks.resolve
  dsimp only
  rw [hnone]
  rfl

/-- When all labels have their places, code is what its pieces say. -/
theorem rendered (h : Laid blocks code places ps) {place : Label → Nat}
    (hplace : ∀ offset label origin wide, StandsAt ps offset (.distance label origin wide) →
      places label = some (place label)) :
    code = Bytes.concat (ps.map (render place)) := by
  have hall : ∀ offset p, StandsAt ps offset p → code.HasAt offset (p.render place) := by
    intro offset p hs
    cases p with
    | bytes b => exact h.bytes offset b hs
    | distance label origin wide => exact (h.settled offset label origin wide _ hs (hplace offset label origin wide hs)).1
  have hsuffix : ∀ before after, ps = before ++ after →
      code.HasAt (totalSize before) (Bytes.concat (after.map (render place))) := by
    intro before after hps
    induction after generalizing before with
    | nil =>
      refine Bytes.hasAt_iff.2 ⟨?_, fun i hi => absurd hi (Nat.not_lt_zero i)⟩
      simp [hps, h.size]
    | cons p rest ih =>
      rw [List.map_cons, Bytes.concat_cons, Bytes.hasAt_append]
      refine ⟨hall _ p ⟨before, rest, hps, rfl⟩, ?_⟩
      have := ih (before ++ [p]) (by simp [hps])
      simpa using this
  refine (hsuffix [] ps rfl).eq_of_size ?_
  rw [h.size, size_concat_render]

end Laid

end ClassFile
