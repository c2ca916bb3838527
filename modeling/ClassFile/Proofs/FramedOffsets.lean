import ClassFile.Proofs.DeadCode

/-!
# Offsets of frames

A stack map has a frame for every stretch that jumps lead to and that can be reached, and for every stretch that is replaced
(`Course.frames`). If the search has reached nothing but what is led to (`Course.Searched`), then these are the offsets that
a verifier looks for in the code that is left (`Code.Framed`).
-/

namespace ClassFile

/-- Frames stand in the order of the code, at instructions, and wherever a verifier needs one: where a jump or a switch
leads, and behind every instruction that code does not go on from. -/
structure Code.Framed (offsets : List Nat) (items : List (Nat × Instruction)) : Prop where
  increasing : offsets.Pairwise (· < ·)
  starts : ∀ offset ∈ offsets, offset ∈ items.map (·.1)
  targets : ∀ x ∈ items, ∀ l ∈ x.2.labels, ∃ offset ∈ offsets, l = .ofOffset offset
  behind : items.IsChain fun x y => x.2.ends = true → y.1 ∈ offsets

namespace Stretch

/-- A stretch with instructions that the search has not reached. -/
def lost (reached : Stretch → Bool) (s : Stretch) : Bool :=
  !reached s && !s.body.isEmpty

/-- A stretch that is lost had instructions. -/
theorem body_ne_of_lost {reached : Stretch → Bool} {s : Stretch} (h : s.lost reached = true) : s.body ≠ [] := by
  intro hbody
  unfold lost at h
  rw [hbody] at h
  simp at h

/-- A stretch at which there is a frame. -/
def framed (reached target : Stretch → Bool) (s : Stretch) : Bool :=
  reached s && target s || s.lost reached

/-- A stretch with instructions that is not reached is lost. -/
theorem lost_of_not_reached {reached : Stretch → Bool} {s : Stretch} (h : reached s = false) (hbody : s.body ≠ []) :
    s.lost reached = true := by
  unfold lost
  rw [h, List.isEmpty_eq_false_iff.2 hbody]
  rfl

/-- A stretch with instructions has a frame if jumps lead to it, or else if it is not reached. -/
theorem framed_of_target {reached target : Stretch → Bool} {s : Stretch} (hbody : s.body ≠ [])
    (h : reached s = true → target s = true) :
    s.framed reached target = true := by
  unfold framed
  cases hr : reached s with
  | true => rw [h hr]; rfl
  | false => rw [lost_of_not_reached hr hbody]; rfl

/-! ## Instructions that are left of a stretch -/

/-- What an instruction that goes on is read as goes on. -/
theorem ends_decoded {place : Label → Nat} {offset : Nat} {i : Instruction} (h : i.ends = false)
    (hbranches : i.branches = false) :
    ∀ x ∈ i.decoded place offset, x.2.ends = false := by
  intro x hx
  cases i with
  | jump op l =>
    have hgoto : op = Opcode.goto := by simpa [Instruction.branches] using hbranches
    exact absurd h (by simp [Instruction.ends, hgoto])
  | _ => rw [List.mem_singleton.1 hx]; exact h

theorem ends_invertJump_fin : ∀ n : Fin 256, (n.val.toUInt8 != Opcode.goto && n.val.toUInt8 != Opcode.jsr) = true →
    (Opcode.invertJump n.val.toUInt8 == Opcode.goto) = false := by
  decide +kernel

/-- The negation of a conditional jump is a conditional jump. -/
theorem ends_invertJump {op : UInt8} (h : (op != Opcode.goto && op != Opcode.jsr) = true) :
    (Opcode.invertJump op == Opcode.goto) = false := by
  have hop := ends_invertJump_fin ⟨op.toNat, op.toNat_lt⟩
  simp only [Nat.toUInt8_eq, UInt8.ofNat_toNat] at hop
  exact hop h

/-- Only the last instruction that an instruction is read as ends the code, unless the negated jump goes past it. -/
theorem dropLast_decoded (place : Label → Nat) (offset : Nat) (i : Instruction) :
    ∀ x ∈ (i.decoded place offset).dropLast, x.2.ends = false := by
  intro x hx
  cases i with
  | jump op l =>
    unfold Instruction.decoded at hx
    dsimp only at hx
    split at hx
    · rename_i hfar
      obtain rfl := List.mem_singleton.1 hx
      exact ends_invertJump (Bool.and_eq_true_iff.1 hfar).2
    · exact absurd hx List.not_mem_nil
  | _ => exact absurd hx List.not_mem_nil

variable {view : PoolView} {place : Label → Nat} {size stop : Nat} {s : Stretch} {ss : List Stretch}

/-- The last instruction of a stretch is read last. -/
theorem listing_of_concat {xs : List (Nat × Instruction)} {x : Nat × Instruction} (h : s.body = xs ++ [x]) :
    s.listing place = (xs.flatMap fun x => x.2.decoded place x.1) ++ x.2.decoded place x.1 := by
  unfold listing
  rw [h, List.flatMap_append, List.flatMap_singleton]

/-- Only the last instruction of a stretch ends the code. -/
theorem Plain.dropLast_listing (h : s.Plain) (hf : s.followed = true) :
    ∀ x ∈ (s.listing place).dropLast, x.2.ends = false := by
  rcases List.eq_nil_or_concat s.body with hbody | ⟨xs, x, hbody⟩
  · intro y hy
    unfold listing at hy
    rw [hbody] at hy
    exact absurd hy List.not_mem_nil
  · rw [List.concat_eq_append] at hbody
    have hinner := h.inner hf
    rw [hbody, List.dropLast_concat] at hinner
    obtain ⟨i, rest, hdecoded⟩ := head_decoded place x.1 x.2
    intro y hy
    rw [listing_of_concat hbody, List.dropLast_append_of_ne_nil (by rw [hdecoded]; exact List.cons_ne_nil _ _)] at hy
    rcases List.mem_append.1 hy with hy | hy
    · obtain ⟨z, hz, hy⟩ := List.mem_flatMap.1 hy
      exact ends_decoded (hinner z hz).1 (hinner z hz).2 y hy
    · exact dropLast_decoded place x.1 x.2 y hy

/-- What stands in the place of code ends at its last instruction only. -/
theorem dropLast_filler (start stop : Nat) : ∀ x ∈ (Code.filler start stop).dropLast, x.2.ends = false := by
  intro x hx
  unfold Code.filler at hx
  rw [List.dropLast_concat] at hx
  obtain ⟨offset, -, rfl⟩ := List.mem_map.1 hx
  rfl

/-- What stands in the place of code leads nowhere. -/
theorem labels_filler {start stop : Nat} {x : Nat × Instruction} (hx : x ∈ Code.filler start stop) : x.2.labels = [] := by
  rcases List.mem_append.1 hx with hx | hx
  · obtain ⟨offset, -, rfl⟩ := List.mem_map.1 hx
    rfl
  · rw [List.mem_singleton.1 hx]
    rfl

/-- What stands in the place of code starts where that started. -/
theorem head_filler {start stop : Nat} (h : start < stop) : ∃ i rest, Code.filler start stop = (start, i) :: rest := by
  unfold Code.filler
  cases hn : stop - 1 - start with
  | zero =>
    rw [show stop - 1 = start by omega]
    exact ⟨_, _, rfl⟩
  | succ n =>
    rw [List.range'_succ]
    exact ⟨_, _, rfl⟩

/-- What is left of a stretch starts where the stretch did. -/
theorem Within.head_left (hw : s.Within stop) (hlt : s.start < stop) (place : Label → Nat) (lost : Bool) :
    ∃ i rest, s.left place lost stop = (s.start, i) :: rest := by
  cases lost with
  | false => exact hw.head_listing hlt place
  | true => exact head_filler hlt

/-! ## Rows of stretches -/

section Row

variable {lost : Stretch → Bool}

/-- Each stretch starts behind the one before. -/
theorem Row.ascends (hr : Row size ss) : ss.IsChain fun s s' => s.start < s'.start := by
  induction hr with
  | last _ => exact List.isChain_singleton _
  | cons _ hlt _ ih => exact .cons_cons hlt ih

/-- The starts of stretches ascend. -/
theorem Row.sorted (hr : Row size ss) : (ss.map (·.start)).Pairwise (· < ·) :=
  List.isChain_iff_pairwise.1 ((List.isChain_map _).2 hr.ascends)

/-- Every stretch starts within the code. -/
theorem Row.start_le (hr : Row size ss) : ∀ s ∈ ss, s.start ≤ size := by
  induction hr with
  | last hw =>
    intro s hs
    rw [List.mem_singleton.1 hs]
    exact hw.extent
  | cons _ hlt _ ih =>
    intro s hs
    rcases List.mem_cons.1 hs with rfl | hs
    · exact Nat.le_trans (Nat.le_of_lt hlt) (ih _ List.mem_cons_self)
    · exact ih s hs

/-- A stretch has instructions unless it starts at the end of the code. -/
theorem Row.body_ne_iff (hr : Row size ss) : ∀ s ∈ ss, s.body ≠ [] ↔ s.start < size := by
  induction hr with
  | last hw =>
    intro s hs
    rw [List.mem_singleton.1 hs, ne_eq, hw.empty]
    exact ⟨fun hne => Nat.lt_of_le_of_ne hw.extent hne, Nat.ne_of_lt⟩
  | @cons s next rest hw hlt hrest ih =>
    intro t ht
    rcases List.mem_cons.1 ht with rfl | ht
    · have hnext := hrest.start_le next List.mem_cons_self
      refine ⟨fun _ => Nat.lt_of_lt_of_le hlt hnext, fun _ hbody => ?_⟩
      exact Nat.ne_of_lt hlt (hw.empty.1 hbody)
    · exact ih t ht

/-- A stretch has instructions if another one comes behind it. -/
theorem Row.body_ne_of_next (hr : Row size ss) {before after : List Stretch} {s' : Stretch}
    (h : ss = before ++ s :: s' :: after) :
    s.body ≠ [] := by
  have hlt := List.isChain_iff_forall_rel_of_append_cons_cons.1 hr.ascends h
  exact (hr.body_ne_iff s (by rw [h]; simp)).2 (Nat.lt_of_lt_of_le hlt (hr.start_le s' (by rw [h]; simp)))

/-- What is left of stretches is left of one of them. -/
theorem mem_remains {x : Nat × Instruction} (hx : x ∈ remains place lost size ss) :
    ∃ s ∈ ss, ∃ stop, x ∈ s.left place (lost s) stop := by
  induction ss with
  | nil => exact absurd hx List.not_mem_nil
  | cons s rest ih =>
    rcases List.mem_append.1 hx with hx | hx
    · exact ⟨s, List.mem_cons_self, _, hx⟩
    · obtain ⟨t, ht, hx⟩ := ih hx
      exact ⟨t, List.mem_cons_of_mem s ht, hx⟩

/-- Where a stretch with instructions starts, there is an instruction in the end. -/
theorem Row.starts (hr : Row size ss) : ∀ s ∈ ss, s.body ≠ [] → s.start ∈ (remains place lost size ss).map (·.1) := by
  intro s hs hbody
  have hlt := (hr.body_ne_iff s hs).1 hbody
  induction hr with
  | last hw =>
    obtain rfl := List.mem_singleton.1 hs
    obtain ⟨i, rest, hleft⟩ := hw.head_left hlt place (lost s)
    exact List.mem_map.2 ⟨(s.start, i), List.mem_append_left _ (hleft ▸ List.mem_cons_self), rfl⟩
  | @cons t next rest hw hnext _ ih =>
    rcases List.mem_cons.1 hs with rfl | hs
    · obtain ⟨i, rest, hleft⟩ := hw.head_left hnext place (lost s)
      exact List.mem_map.2 ⟨(s.start, i), List.mem_append_left _ (hleft ▸ List.mem_cons_self), rfl⟩
    · obtain ⟨x, hx, hstart⟩ := List.mem_map.1 (ih hs)
      exact List.mem_map.2 ⟨x, List.mem_append_right _ hx, hstart⟩

/-- What is left of stretches starts with the first one. -/
theorem Row.head_remains (hr : Row size (s :: ss)) (hlost : lost s = true → s.body ≠ []) {x : Nat × Instruction}
    (hx : x ∈ (remains place lost size (s :: ss)).head?) : x.1 = s.start ∧ s.body ≠ [] := by
  have hbody := hr.body_ne_iff s List.mem_cons_self
  have hfirst : ∀ stop, s.Within stop → s.start < stop → ∀ rest,
      x ∈ (s.left place (lost s) stop ++ rest).head? → x.1 = s.start := by
    intro stop hw hlt rest hx
    obtain ⟨i, tail, hleft⟩ := hw.head_left hlt place (lost s)
    rw [hleft] at hx
    exact congrArg Prod.fst (Option.some.inj hx).symm
  cases hr with
  | last hw =>
    by_cases hlt : s.start < size
    · exact ⟨hfirst size hw hlt [] hx, hbody.2 hlt⟩
    · have hnot : lost s = false := Bool.eq_false_of_not_eq_true fun hl => hlt (hbody.1 (hlost hl))
      have hempty : remains place lost size [s] = [] := by
        change s.left place (lost s) size ++ [] = []
        rw [hnot, List.append_nil]
        change s.listing place = []
        exact hw.listing_of_empty (Nat.le_antisymm hw.extent (Nat.le_of_not_lt hlt)) place
      rw [hempty] at hx
      cases hx
  | @cons _ next rest hw hlt hrest =>
    exact ⟨hfirst next.start hw hlt _ hx, hbody.2 (Nat.lt_of_lt_of_le hlt (hrest.start_le next List.mem_cons_self))⟩

/-- Where only the last instruction ends the code, there is nothing to ask of what follows the others. -/
theorem isChain_of_dropLast {offsets : List Nat} {items : List (Nat × Instruction)}
    (h : ∀ x ∈ items.dropLast, x.2.ends = false) :
    items.IsChain fun x y => x.2.ends = true → y.1 ∈ offsets := by
  refine List.isChain_iff_forall_rel_of_append_cons_cons.2 fun x y before after heq hends => ?_
  rw [heq, List.dropLast_append_of_ne_nil (List.cons_ne_nil _ _)] at h
  have hmem : x ∈ before ++ (x :: y :: after).dropLast := List.mem_append_right _ List.mem_cons_self
  rw [h x hmem] at hends
  cases hends

/-- There is a frame behind every instruction that is left and ends the code, if there is one behind
every stretch that ends so. -/
theorem Row.behind (hr : Row size ss) {offsets : List Nat} (hlost : ∀ s ∈ ss, lost s = true → s.body ≠ [])
    (hinner : ∀ s ∈ ss, ∀ stop, ∀ x ∈ (s.left place (lost s) stop).dropLast, x.2.ends = false)
    (hjoin : ss.IsChain fun s s' => s'.body ≠ [] → ∀ stop, ∀ x ∈ (s.left place (lost s) stop).getLast?, x.2.ends = true →
      s'.start ∈ offsets) :
    (remains place lost size ss).IsChain fun x y => x.2.ends = true → y.1 ∈ offsets := by
  induction hr with
  | last hw =>
    change List.IsChain _ (_ ++ [])
    rw [List.append_nil]
    exact isChain_of_dropLast (hinner _ List.mem_cons_self size)
  | @cons s next rest hw hlt hrest ih =>
    obtain ⟨hfirst, hjoin⟩ := List.isChain_cons_cons.1 hjoin
    have hbehind := ih (fun t ht => hlost t (List.mem_cons_of_mem s ht))
      (fun t ht => hinner t (List.mem_cons_of_mem s ht)) hjoin
    refine List.isChain_append.2 ⟨isChain_of_dropLast (hinner s List.mem_cons_self next.start),
      hbehind, fun x hx y hy hends => ?_⟩
    obtain ⟨hy, hbody⟩ := hrest.head_remains (hlost next (List.mem_cons_of_mem s List.mem_cons_self)) hy
    rw [hy]
    exact hfirst hbody _ x hx hends

end Row

end Stretch

/-! ## Frames of a course -/

namespace Course

/-- Where the frames of stretches stand. -/
def frames (reached target : Stretch → Bool) (c : Course) : List Nat :=
  (c.all.filter (Stretch.framed reached target)).map (·.start)

/-- A search has reached nothing but what is followed, and only on the ways that lead there; where
jumps lead to has a mark. -/
structure Searched (place : Label → Nat) (size : Nat) (reached target : Stretch → Bool) (c : Course) : Prop where
  followed : ∀ s ∈ c.all, reached s = true → s.followed = true
  entered : c.all.IsChain fun s s' => reached s' = true → target s' = true ∧ s'.start < size ∨
    s.falls = true ∧ reached s = true
  jumped : ∀ s ∈ c.all, s.jumped = true → target s = true
  leads : ∀ s ∈ c.all, ∀ l ∈ s.leads, ∃ s' ∈ c.all, s'.start = place l ∧ target s' = true

section Searched

variable {place : Label → Nat} {size : Nat} {reached target : Stretch → Bool} {c : Course}

/-- Frames stand where stretches start that have one. -/
theorem mem_frames {offset : Nat} :
    offset ∈ c.frames reached target ↔ ∃ s ∈ c.all, s.framed reached target = true ∧ s.start = offset := by
  unfold frames
  simp only [List.mem_map, List.mem_filter, and_assoc]

/-- A stretch with instructions has a frame at its start if it is marked whenever it is reached. -/
theorem mem_frames_of_target {s : Stretch} (hs : s ∈ c.all) (hbody : s.body ≠ []) (h : reached s = true → target s = true) :
    s.start ∈ c.frames reached target :=
  mem_frames.2 ⟨s, hs, Stretch.framed_of_target hbody h, rfl⟩

/-- If the code does not end behind a stretch, there are instructions behind it. -/
theorem body_ne_of_goes (hr : Stretch.Row size c.all) (hend : ∀ x ∈ c.items.getLast?, x.2.ends = true) {s s' : Stretch}
    {before after : List Stretch} (hall : c.all = before ++ s :: s' :: after) {x : Nat × Instruction}
    (hx : x ∈ s.body.getLast?) (hgoes : x.2.ends = false) : s'.body ≠ [] := by
  intro hbody
  have hlast : after = [] := by
    cases after with
    | nil => rfl
    | cons t rest => exact absurd hbody (hr.body_ne_of_next (hall.trans (List.append_cons before s _)))
  have hitems : c.items.getLast? = s.body.getLast? := by
    unfold items
    rw [hall, hlast]
    simp only [List.flatMap_append, List.flatMap_cons, List.flatMap_nil, hbody, List.append_nil]
    exact List.getLast?_append_of_ne_nil _ (hr.body_ne_of_next hall)
  rw [hend x (hitems ▸ hx)] at hgoes
  cases hgoes

/-- What is reached has instructions: the code does not go on behind its end. -/
theorem Searched.body_ne (hs : c.Searched place size reached target) (hr : Stretch.Row size c.all) (hc : c.Regular place)
    (hitems : c.items ≠ []) (hend : ∀ x ∈ c.items.getLast?, x.2.ends = true) :
    ∀ s ∈ c.all, reached s = true → s.body ≠ [] := by
  intro s' hs' hreached
  obtain ⟨front, after, hall⟩ := List.append_of_mem hs'
  rcases List.eq_nil_or_concat front with rfl | ⟨before, s, rfl⟩
  · cases after with
    | nil =>
      intro hbody
      unfold items at hitems
      rw [hall] at hitems
      exact hitems (by simpa using hbody)
    | cons t rest => exact hr.body_ne_of_next hall
  · rw [List.concat_eq_append, List.append_assoc] at hall
    have hcut := List.isChain_iff_forall_rel_of_append_cons_cons.1 hc.cuts hall
    rcases List.isChain_iff_forall_rel_of_append_cons_cons.1 hs.entered hall hreached with ⟨-, hlt⟩ | ⟨hfalls, -⟩
    · exact (hr.body_ne_iff s' hs').2 hlt
    · have hx := List.getLast?_eq_some_getLast (hr.body_ne_of_next hall)
      refine body_ne_of_goes hr hend hall hx ?_
      rw [hcut.ends (hcut.goes hfalls).1 _ hx, hfalls]
      rfl

/-- Behind what is left of a stretch and ends the code, there is a frame. -/
theorem Searched.join (hs : c.Searched place size reached target) (hc : c.Regular place) :
    c.all.IsChain fun s s' => s'.body ≠ [] → ∀ stop, ∀ x ∈ (s.left place (s.lost reached) stop).getLast?, x.2.ends = true →
      s'.start ∈ c.frames reached target := by
  refine List.isChain_iff_forall_rel_of_append_cons_cons.2 fun s s' before after hall hbody stop x hx hends => ?_
  have hmem : s ∈ c.all := by rw [hall]; simp
  have hcut := List.isChain_iff_forall_rel_of_append_cons_cons.1 hc.cuts hall
  have hentered := List.isChain_iff_forall_rel_of_append_cons_cons.1 hs.entered hall
  refine mem_frames_of_target (by rw [hall]; simp) hbody fun hreached => ?_
  rcases hentered hreached with ⟨htarget, -⟩ | ⟨hfalls, hfrom⟩
  · exact htarget
  · -- the code goes on from the stretch before, so that it ends with a jump that another one is passed over by
    have hlost : s.lost reached = false := by
      unfold Stretch.lost
      rw [hfrom]
      rfl
    have hf := hs.followed s hmem hfrom
    rw [hlost] at hx
    change x ∈ (s.listing place).getLast? at hx
    rcases List.eq_nil_or_concat s.body with hsbody | ⟨xs, y, hsbody⟩
    · unfold Stretch.listing at hx
      rw [hsbody] at hx
      cases hx
    · rw [List.concat_eq_append] at hsbody
      have hy : y ∈ s.body.getLast? := by
        rw [hsbody, List.getLast?_concat]
        rfl
      have hgoes := hcut.ends hf y hy
      obtain ⟨i, rest, hdecoded⟩ := Stretch.head_decoded place y.1 y.2
      have hne : y.2.decoded place y.1 ≠ [] := by
        rw [hdecoded]
        exact List.cons_ne_nil _ _
      rw [Stretch.listing_of_concat hsbody, List.getLast?_append_of_ne_nil _ hne] at hx
      obtain ⟨offset, op⟩ := y
      cases op with
      | jump op l =>
        unfold Instruction.decoded at hx
        dsimp only at hx
        split at hx
        · rename_i hfar
          obtain ⟨hfar, hcond⟩ := Bool.and_eq_true_iff.1 hfar
          exact hs.jumped s' (by rw [hall]; simp) (hcut.jumped hf _ hy op l rfl hcond (of_decide_eq_true hfar)).1
        · obtain rfl := Option.some.inj hx
          rw [hfalls] at hgoes
          exact absurd (hends.symm.trans hgoes) (by simp)
      | _ =>
        obtain rfl := Option.some.inj hx
        rw [hfalls] at hgoes
        exact absurd (hends.symm.trans hgoes) (by simp)

/-- Where jumps and switches that are left lead to, there is a frame. -/
theorem Searched.targets (hs : c.Searched place size reached target) (hr : Stretch.Row size c.all) (hc : c.Regular place)
    (hend : ∀ x ∈ c.items.getLast?, x.2.ends = true) (hplace : ∀ x ∈ c.items, ∀ l ∈ x.2.labels, place l < size) :
    ∀ x ∈ Stretch.remains place (Stretch.lost reached) size c.all, ∀ l ∈ x.2.labels,
      ∃ offset ∈ c.frames reached target, l = .ofOffset offset := by
  intro x hx l hl
  obtain ⟨s, hmem, stop, hx⟩ := Stretch.mem_remains hx
  have hlost : s.lost reached = false := by
    refine Bool.eq_false_of_not_eq_true fun hlost => ?_
    rw [hlost] at hx
    rw [Stretch.labels_filler hx] at hl
    exact absurd hl List.not_mem_nil
  rw [hlost] at hx
  obtain ⟨y, hy, hx⟩ := List.mem_flatMap.1 (show x ∈ s.listing place from hx)
  have hreached : reached s = true := by
    refine Bool.eq_true_of_not_eq_false fun hnot => ?_
    rw [Stretch.lost_of_not_reached hnot (List.ne_nil_of_mem hy)] at hlost
    cases hlost
  have hf := hs.followed s hmem hreached
  -- where an instruction leads, the stretch leads
  have hled : ∀ label ∈ y.2.labels, place label ∈ c.frames reached target := by
    intro label hlabel
    have hleads : label ∈ s.leads := by
      rw [(hc.plain s hmem).leads, hf, if_pos rfl]
      exact List.mem_flatMap.2 ⟨y, hy, hlabel⟩
    obtain ⟨s', hmem', hstart, htarget⟩ := hs.leads s hmem label hleads
    have hsize := hplace y (List.mem_flatMap.2 ⟨s, hmem, hy⟩) label hlabel
    rw [← hstart] at hsize ⊢
    exact mem_frames_of_target hmem' ((hr.body_ne_iff s' hmem').2 hsize) fun _ => htarget
  have hplain : ∀ i : Instruction, i.labels = y.2.labels → x = (y.1, i.relabel fun label => .ofOffset (place label)) →
      ∃ offset ∈ c.frames reached target, l = .ofOffset offset := by
    rintro i hi rfl
    rw [Instruction.labels_relabel, hi] at hl
    obtain ⟨label, hlabel, rfl⟩ := List.mem_map.1 hl
    exact ⟨place label, hled label hlabel, rfl⟩
  obtain ⟨offset, i⟩ := y
  cases i with
  | jump op label =>
    unfold Instruction.decoded at hx
    dsimp only at hx
    split at hx
    · rename_i hfar
      obtain ⟨hfar, hcond⟩ := Bool.and_eq_true_iff.1 hfar
      rcases List.mem_cons.1 hx with rfl | hx
      · -- the negated jump leads to the next stretch
        obtain rfl := List.mem_singleton.1 hl
        have hbranches := Instruction.branches_of_conditional (i := .jump op label) hcond
        have hlast : (offset, Instruction.jump op label) ∈ s.body.getLast? := by
          rcases List.eq_nil_or_concat s.body with hbody | ⟨xs, z, hbody⟩
          · rw [hbody] at hy
            exact absurd hy List.not_mem_nil
          · rw [List.concat_eq_append] at hbody
            rw [hbody] at hy
            rcases List.mem_append.1 hy with hy | hy
            · have hinner := (hc.plain s hmem).inner hf
              rw [hbody, List.dropLast_concat] at hinner
              rw [(hinner _ hy).2] at hbranches
              cases hbranches
            · rw [List.mem_singleton.1 hy, hbody, List.getLast?_concat]
              rfl
        obtain ⟨before, rest, hall⟩ := List.append_of_mem hmem
        cases rest with
        | nil =>
          have hwhole := hc.whole
          have heq : c.last = s := by
            unfold all at hall
            exact (List.append_singleton_inj.1 hall).2
          rw [heq] at hwhole
          rw [(hwhole hf _ hy).2] at hbranches
          cases hbranches
        | cons s' after =>
          have hcut := List.isChain_iff_forall_rel_of_append_cons_cons.1 hc.cuts hall
          obtain ⟨hjumped, hstart⟩ := hcut.jumped hf _ hlast op label rfl hcond (of_decide_eq_true hfar)
          have hbody := body_ne_of_goes hr hend hall hlast (Instruction.ends_of_branches hbranches)
          have hmem' : s' ∈ c.all := by rw [hall]; simp
          exact ⟨s'.start, mem_frames_of_target hmem' hbody fun _ => hs.jumped s' hmem' hjumped,
            congrArg Label.ofOffset hstart.symm⟩
      · obtain rfl := List.mem_singleton.1 hx
        obtain rfl := List.mem_singleton.1 hl
        exact ⟨place label, hled label List.mem_cons_self, rfl⟩
    · obtain rfl := List.mem_singleton.1 hx
      obtain rfl := List.mem_singleton.1 hl
      exact ⟨place label, hled label List.mem_cons_self, rfl⟩
  | _ => exact hplain _ rfl (List.mem_singleton.1 hx)

/-- The frames of stretches stand where a verifier looks for them. -/
theorem Searched.framed (hs : c.Searched place size reached target) (hr : Stretch.Row size c.all) (hc : c.Regular place)
    (hitems : c.items ≠ []) (hend : ∀ x ∈ c.items.getLast?, x.2.ends = true)
    (hplace : ∀ x ∈ c.items, ∀ l ∈ x.2.labels, place l < size) :
    Code.Framed (c.frames reached target) (Stretch.remains place (Stretch.lost reached) size c.all) := by
  have hlost : ∀ s ∈ c.all, s.lost reached = true → s.body ≠ [] := by
    intro s _ hl hbody
    unfold Stretch.lost at hl
    rw [hbody] at hl
    simp at hl
  refine ⟨hr.sorted.sublist (List.Sublist.map _ List.filter_sublist), fun offset ho => ?_, hs.targets hr hc hend hplace,
    hr.behind hlost (fun s hmem stop x hx => ?_) (hs.join hc)⟩
  · obtain ⟨s, hmem, hframed, rfl⟩ := mem_frames.1 ho
    refine hr.starts s hmem ?_
    rcases Bool.or_eq_true_iff.1 hframed with hreached | hl
    · exact hs.body_ne hr hc hitems hend s hmem (Bool.and_eq_true_iff.1 hreached).1
    · exact hlost s hmem hl
  · cases hl : s.lost reached with
    | true =>
      rw [hl] at hx
      exact Stretch.dropLast_filler _ _ x hx
    | false =>
      rw [hl] at hx
      cases hreached : reached s with
      | true => exact (hc.plain s hmem).dropLast_listing (hs.followed s hmem hreached) x hx
      | false =>
        have hbody : s.body = [] := by
          by_contra hbody
          rw [Stretch.lost_of_not_reached hreached hbody] at hl
          cases hl
        have hx := List.mem_of_mem_dropLast hx
        change x ∈ s.listing place at hx
        unfold Stretch.listing at hx
        rw [hbody] at hx
        exact absurd hx List.not_mem_nil

end Searched

end Course

end ClassFile
