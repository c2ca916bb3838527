import ClassFile.Bytes.Basic
import ClassFile.Descriptor
import Mathlib.Algebra.Group.Nat.Defs

/-!
# Scanning descriptors

Two scanners walk over the parameters of a method descriptor, whatever the text: one counts slots, the other cuts the
text into types. Both take the same step, which is named here (`splitParameter`): opening brackets, and then a class
name up to its semicolon or else one character. Where the text ends early the step takes what is left. What is proved
of one step, by the induction over a whole walk (`scan_induction`), is that the slots counted are those of the types
cut out, and that the text is put together from the types and the rest. The slots end in one word, which has thirty
bits for those of the parameters.
-/

namespace ClassFile.Descriptor

/-! ## One parameter -/

/-- The parameter that starts a text, and what follows it. -/
def splitParameter (cs : List Char) : List Char × List Char :=
  (takeBrackets cs ++ (splitElement (skipBrackets cs)).1, (splitElement (skipBrackets cs)).2)

/-- The brackets in front and what stands behind them are all characters. -/
theorem takeBrackets_append_skipBrackets (cs : List Char) : takeBrackets cs ++ skipBrackets cs = cs := by
  induction cs with
  | nil => rfl
  | cons c rest ih =>
    simp only [takeBrackets, skipBrackets]
    split
    · rw [List.cons_append, ih]
    · rfl

/-- A name and what stands behind it are all characters. -/
theorem splitName_append (cs : List Char) : (splitName cs).1 ++ (splitName cs).2 = cs := by
  induction cs with
  | nil => rfl
  | cons c rest ih =>
    simp only [splitName]
    split
    · rfl
    · rw [List.cons_append, ih]

/-- The type of an element and what stands behind it are all characters. -/
theorem splitElement_append (cs : List Char) : (splitElement cs).1 ++ (splitElement cs).2 = cs := by
  cases cs with
  | nil => rfl
  | cons c rest =>
    simp only [splitElement]
    split
    · rw [List.cons_append, splitName_append]
    · rfl

/-- A step loses nothing. -/
theorem splitParameter_append (cs : List Char) : (splitParameter cs).1 ++ (splitParameter cs).2 = cs := by
  rw [splitParameter, List.append_assoc, splitElement_append, takeBrackets_append_skipBrackets]

/-- Skipping a class name ends where cutting it off does. -/
theorem skipName_eq (cs : List Char) : skipName cs = (splitName cs).2 := by
  induction cs with
  | nil => rfl
  | cons c rest ih =>
    simp only [skipName, splitName]
    split
    · rfl
    · exact ih

theorem takeBrackets_cons_ne {c : Char} (h : c ≠ '[') (rest : List Char) : takeBrackets (c :: rest) = [] :=
  if_neg h

theorem skipBrackets_cons_ne {c : Char} (h : c ≠ '[') (rest : List Char) : skipBrackets (c :: rest) = c :: rest :=
  if_neg h

theorem skipBrackets_bracket (rest : List Char) : skipBrackets ('[' :: rest) = skipBrackets rest :=
  if_pos rfl

/-- Brackets in front of something else are passed over, however many there are. -/
theorem skipBrackets_replicate (n : Nat) {c : Char} (h : c ≠ '[') (rest : List Char) :
    skipBrackets (List.replicate n '[' ++ c :: rest) = c :: rest := by
  induction n with
  | zero => exact skipBrackets_cons_ne h rest
  | succ n ih => rw [List.replicate_succ, List.cons_append, skipBrackets_bracket, ih]

/-- Brackets in front of something else are taken, however many there are. -/
theorem takeBrackets_replicate (n : Nat) {c : Char} (h : c ≠ '[') (rest : List Char) :
    takeBrackets (List.replicate n '[' ++ c :: rest) = List.replicate n '[' := by
  induction n with
  | zero => exact takeBrackets_cons_ne h rest
  | succ n ih => rw [List.replicate_succ, List.cons_append, takeBrackets, if_pos rfl, ih]

/-- A parameter without brackets is an element type. -/
theorem splitParameter_cons_ne {c : Char} (h : c ≠ '[') (rest : List Char) :
    splitParameter (c :: rest) = splitElement (c :: rest) := by
  rw [splitParameter, takeBrackets_cons_ne h, skipBrackets_cons_ne h]
  rfl

/-- A type that is no class is one character. -/
theorem splitElement_cons_ne {c : Char} (h : c ≠ 'L') (rest : List Char) : splitElement (c :: rest) = ([c], rest) :=
  if_neg h

/-- The type of a class is its letter and its name. -/
theorem splitElement_name (rest : List Char) :
    splitElement ('L' :: rest) = ('L' :: (splitName rest).1, (splitName rest).2) := by
  simp only [splitElement, if_true]

/-- A step takes at least one character. -/
theorem splitParameter_length (c : Char) (rest : List Char) : (splitParameter (c :: rest)).2.length ≤ rest.length := by
  by_cases hc : c = '['
  · subst hc
    have hskip := skipBrackets_length rest
    rw [splitParameter, skipBrackets_bracket]
    cases hs : skipBrackets rest with
    | nil => exact Nat.zero_le _
    | cons e after =>
      have he := splitElement_length e after
      rw [hs, List.length_cons] at hskip
      exact Nat.le_trans he (by omega)
  · rw [splitParameter_cons_ne hc]
    exact splitElement_length c rest

/-! ## The walk -/

/-- What holds at the end of a text and at a parenthesis, and before a parameter if it holds behind it, holds everywhere. -/
theorem scan_induction {P : List Char → Prop} (stop : P []) (close : ∀ rest, P (')' :: rest))
    (step : ∀ c rest, c ≠ ')' → P (splitParameter (c :: rest)).2 → P (c :: rest)) (cs : List Char) : P cs := by
  induction h : cs.length using Nat.strongRecOn generalizing cs with
  | ind n ih =>
    cases cs with
    | nil => exact stop
    | cons c rest =>
      by_cases hc : c = ')'
      · subst hc
        exact close rest
      · refine step c rest hc (ih _ ?_ _ rfl)
        rw [← h, List.length_cons]
        exact Nat.lt_succ_of_le (splitParameter_length c rest)

theorem parameterChars_nil : parameterChars [] = [] := by
  rw [parameterChars]

theorem parameterChars_close (rest : List Char) : parameterChars (')' :: rest) = [] := by
  rw [parameterChars, if_pos rfl]

/-- A step of the scanner that cuts. -/
theorem parameterChars_step {c : Char} (h : c ≠ ')') (rest : List Char) : parameterChars (c :: rest) =
    (splitParameter (c :: rest)).1 :: parameterChars (splitParameter (c :: rest)).2 := by
  rw [parameterChars, if_neg h]
  dsimp only
  split
  · rename_i hs
    rw [splitParameter, hs]
    simp only [splitElement, List.append_nil, parameterChars_nil]
  · rename_i e after hs
    rw [splitParameter, hs]

/-- Every parameter is cut off by a step, from a text that does not start with a parenthesis. -/
theorem exists_splitParameter {cs p : List Char} (h : p ∈ parameterChars cs) :
    ∃ c rest, c ≠ ')' ∧ p = (splitParameter (c :: rest)).1 := by
  induction cs using scan_induction with
  | stop => rw [parameterChars_nil] at h; cases h
  | close rest => rw [parameterChars_close] at h; cases h
  | step c rest hc ih =>
    rw [parameterChars_step hc] at h
    rcases List.mem_cons.1 h with rfl | h
    · exact ⟨c, rest, hc, rfl⟩
    · exact ih h

/-- The slots of a type: two for the long and the double, and one for any other. -/
def typeSlots (p : List Char) : Nat :=
  if p = ['J'] ∨ p = ['D'] then 2 else 1

/-- A text of ASCII characters alone. -/
def Ascii (cs : List Char) : Prop :=
  ∀ c ∈ cs, c.toNat < 128

/-- An ASCII character has one byte. -/
theorem slotsOfChar_ascii {c : Char} (h : c.toNat < 128) : slotsOfChar c = 1 := by
  have hsize : c.utf8Size = 1 := by
    rw [Char.utf8Size_eq_one_iff, UInt32.le_iff_toNat_le]
    exact Nat.le_of_lt_succ h
  rw [slotsOfChar, hsize]
  rfl

/-- What follows a parameter of an ASCII text is ASCII text. -/
theorem Ascii.splitParameter {cs : List Char} (h : Ascii cs) : Ascii (splitParameter cs).2 := by
  intro c hc
  rw [← splitParameter_append cs] at h
  exact h c (List.mem_append_right _ hc)

/-- What starts with a bracket takes one slot. -/
theorem typeSlots_bracket (p : List Char) : typeSlots ('[' :: p) = 1 := by
  simp [typeSlots]

/-- What starts with a class name takes one slot. -/
theorem typeSlots_name (p : List Char) : typeSlots ('L' :: p) = 1 := by
  simp [typeSlots]

/-- The first character of a bracketed parameter is the bracket. -/
theorem splitParameter_bracket (rest : List Char) : splitParameter ('[' :: rest) =
    ('[' :: (takeBrackets rest ++ (splitElement (skipBrackets rest)).1), (splitElement (skipBrackets rest)).2) := by
  rw [splitParameter, skipBrackets_bracket, takeBrackets, if_pos rfl, List.cons_append]

/-- A step of the scanner that counts. -/
theorem countSlots_step {c : Char} (h : c ≠ ')') {rest : List Char} (hascii : Ascii (c :: rest)) (n : UInt32) :
    countSlots n (c :: rest) =
      countSlots (n + UInt32.ofNat (typeSlots (splitParameter (c :: rest)).1)) (splitParameter (c :: rest)).2 := by
  rw [countSlots, if_neg h]
  by_cases hbracket : c = '['
  · subst hbracket
    rw [if_neg (by decide), if_pos rfl, splitParameter_bracket, typeSlots_bracket]
    split
    · rename_i hs
      rw [hs]
      simp only [splitElement, countSlots]
      rfl
    · rename_i e after hs
      rw [hs]
      by_cases he : e = 'L'
      · subst he
        rw [if_pos rfl, splitElement_name, skipName_eq]
        rfl
      · have hmem : e ∈ '[' :: rest := by
          rw [← takeBrackets_append_skipBrackets rest, hs]
          simp
        rw [if_neg he, splitElement_cons_ne he, slotsOfChar_ascii (hascii e hmem)]
        rfl
  · rw [splitParameter_cons_ne hbracket]
    by_cases hname : c = 'L'
    · subst hname
      rw [if_pos rfl, splitElement_name, typeSlots_name, skipName_eq]
      rfl
    · rw [if_neg hname, if_neg hbracket, splitElement_cons_ne hname]
      by_cases hwide : c = 'J' ∨ c = 'D'
      · rw [if_pos hwide, typeSlots, if_pos (by simpa using hwide)]
        rfl
      · rw [if_neg hwide, typeSlots, if_neg (by simpa using hwide), slotsOfChar_ascii (hascii c List.mem_cons_self)]
        rfl

/-- A result has two slots at most. -/
theorem resultSlots_le (cs : List Char) : resultSlots cs ≤ 2 := by
  unfold resultSlots
  split <;> omega

/-- The two scanners agree on every ASCII text: the slots counted are those of the types cut out, and those of the result are
read behind the parenthesis at which both end. -/
theorem countSlots_eq (cs : List Char) (hascii : Ascii cs) (n : UInt32) :
    ∃ result ≤ 2, countSlots n cs = packSlots (n + UInt32.ofNat ((parameterChars cs).map typeSlots).sum) result ∧
      ∀ rest, cs = (parameterChars cs).flatten ++ ')' :: rest → result = resultSlots rest := by
  induction cs using scan_induction generalizing n with
  | stop => exact ⟨0, by omega, by simp [countSlots, parameterChars_nil], fun rest h => by simp [parameterChars_nil] at h⟩
  | close rest =>
    refine ⟨resultSlots rest, resultSlots_le rest, by simp [countSlots, parameterChars_close], fun rest' h => ?_⟩
    rw [parameterChars_close, List.flatten_nil, List.nil_append] at h
    rw [(List.cons.inj h).2]
  | step c rest hc ih =>
    obtain ⟨result, hresult, hcount, hends⟩ := ih hascii.splitParameter
      (n + UInt32.ofNat (typeSlots (splitParameter (c :: rest)).1))
    refine ⟨result, hresult, ?_, fun rest' h => hends rest' ?_⟩
    · rw [countSlots_step hc hascii, hcount, parameterChars_step hc, List.map_cons, List.sum_cons,
        UInt32.ofNat_add, UInt32.add_assoc]
    · rw [parameterChars_step hc, List.flatten_cons, List.append_assoc] at h
      conv at h => lhs; rw [← splitParameter_append (c :: rest)]
      exact List.append_cancel_left h

/-- Any text is the parameters one after the other and a rest: none, or one that starts with the
parenthesis at which the scan ends. -/
theorem parameterChars_split (cs : List Char) :
    ∃ rest, cs = (parameterChars cs).flatten ++ rest ∧ (rest = [] ∨ ∃ result, rest = ')' :: result) := by
  induction cs using scan_induction with
  | stop => exact ⟨[], by simp [parameterChars_nil], Or.inl rfl⟩
  | close rest => exact ⟨')' :: rest, by simp [parameterChars_close], Or.inr ⟨rest, rfl⟩⟩
  | step c rest hc ih =>
    obtain ⟨left, hleft, hend⟩ := ih
    refine ⟨left, ?_, hend⟩
    rw [parameterChars_step hc, List.flatten_cons, List.append_assoc, ← hleft, splitParameter_append]

/-- A text with one parenthesis, which is in no parameter, is the parameters, the parenthesis and the result. -/
theorem parameterChars_closed {cs : List Char} (hone : cs.count ')' = 1) (hparameters : ∀ p ∈ parameterChars cs, ')' ∉ p) :
    ∃ result, cs = (parameterChars cs).flatten ++ ')' :: result ∧ ')' ∉ result := by
  obtain ⟨rest, hrest, hend⟩ := parameterChars_split cs
  have hnone : ')' ∉ (parameterChars cs).flatten := by
    intro h
    obtain ⟨p, hp, hmem⟩ := List.mem_flatten.1 h
    exact hparameters p hp hmem
  rw [hrest, List.count_append, List.count_eq_zero_of_not_mem hnone, Nat.zero_add] at hone
  rcases hend with rfl | ⟨result, rfl⟩
  · simp at hone
  · refine ⟨result, hrest, ?_⟩
    rw [List.count_cons_self] at hone
    exact List.count_eq_zero.1 (by omega)

/-! ## The word of the slots -/

/-- The word as a number: four times the slots of the parameters, without the bits beyond thirty, and
the slots of the result. -/
theorem toNat_packSlots (n : Nat) {result : Nat} (h : result ≤ 2) :
    (packSlots (UInt32.ofNat n) result).toNat = n % 2 ^ 30 * 4 + result := by
  have hhigh : ((UInt32.ofNat n) <<< 2).toNat = (n % 2 ^ 30) <<< 2 := by
    rw [UInt32.toNat_shiftLeft, UInt32.toNat_ofNat', Nat.shiftLeft_eq, Nat.shiftLeft_eq]
    change n % 2 ^ 32 * 2 ^ 2 % 2 ^ 32 = _
    omega
  have hlow : (UInt32.ofNat result).toNat = result := by
    rw [UInt32.toNat_ofNat']
    exact Nat.mod_eq_of_lt (by omega)
  rw [packSlots, UInt32.toNat_or, hhigh, hlow, ← Nat.shiftLeft_add_eq_or_of_lt (by omega : result < 2 ^ 2), Nat.shiftLeft_eq]

/-- The slots of the parameters come back from the word without the bits beyond thirty. -/
theorem packSlots_arguments (n : Nat) {result : Nat} (h : result ≤ 2) :
    (packSlots (UInt32.ofNat n) result >>> 2).toNat = n % 2 ^ 30 := by
  rw [UInt32.toNat_shiftRight, toNat_packSlots n h, Nat.shiftRight_eq_div_pow]
  change (n % 2 ^ 30 * 4 + result) / 2 ^ 2 = _
  omega

/-- The slots of the result come back from the word. -/
theorem packSlots_result (n : Nat) {result : Nat} (h : result ≤ 2) :
    (packSlots (UInt32.ofNat n) result &&& 3).toNat = result := by
  rw [UInt32.toNat_and, toNat_packSlots n h]
  change (n % 2 ^ 30 * 4 + result) &&& (2 ^ 2 - 1) = result
  rw [Nat.and_two_pow_sub_one_eq_mod]
  omega

/-- The word of few enough slots is no negative number when its highest bit is read as a sign, and
the slots come back from it. -/
theorem packSlots_signed {n : Nat} (hn : n < 2 ^ 29) {result : Nat} (h : result ≤ 2) :
    ((packSlots (UInt32.ofNat n) result).toInt32 &&& 3).toInt = result ∧
      ((packSlots (UInt32.ofNat n) result).toInt32 >>> 2).toInt = n := by
  have hword : (packSlots (UInt32.ofNat n) result).toBitVec.toNat = n * 4 + result := by
    rw [UInt32.toNat_toBitVec, toNat_packSlots n h, Nat.mod_eq_of_lt (by omega)]
  have hsmall : 2 * (packSlots (UInt32.ofNat n) result).toBitVec.toNat < 2 ^ 32 := by omega
  constructor
  · have hand : ((packSlots (UInt32.ofNat n) result).toInt32 &&& 3).toBitVec.toNat = result := by
      change ((packSlots (UInt32.ofNat n) result).toBitVec &&& 3#32).toNat = _
      rw [BitVec.toNat_and, hword]
      change (n * 4 + result) &&& (2 ^ 2 - 1) = result
      rw [Nat.and_two_pow_sub_one_eq_mod]
      omega
    rw [← Int32.toInt_toBitVec, BitVec.toInt_eq_toNat_of_lt (by omega), hand]
  · rw [← Int32.toInt_toBitVec, Int32.toBitVec_shiftRight]
    change ((packSlots (UInt32.ofNat n) result).toBitVec.sshiftRight' (2#32)).toInt = _
    rw [BitVec.sshiftRight', BitVec.toInt_sshiftRight, BitVec.toInt_eq_toNat_of_lt hsmall, hword]
    change ((n * 4 + result : Nat) : Int) >>> (2 : Nat) = _
    rw [Int.shiftRight_eq_div_pow]
    omega

/-! ## Results -/

/-- The type behind the last parenthesis is all that follows it. -/
theorem returnChars_append (before : List Char) {result : List Char} (h : ')' ∉ result) :
    returnChars (before ++ ')' :: result) = result := by
  have hall : ∀ c ∈ result.reverse, decide (c ≠ ')') = true := by
    intro c hc
    exact decide_eq_true fun e => h (e ▸ List.mem_reverse.1 hc)
  rw [returnChars, if_pos (List.mem_append_right _ List.mem_cons_self), List.reverse_append,
    List.reverse_cons, List.append_assoc, List.takeWhile_append_of_pos hall, List.singleton_append, List.takeWhile_cons,
    if_neg (by simp), List.append_nil, List.reverse_reverse]

/-- A text without a parenthesis is the type itself. -/
theorem returnChars_plain {cs : List Char} (h : ')' ∉ cs) : returnChars cs = cs :=
  if_neg h

/-- What is taken in front is brackets and nothing else. -/
theorem takeBrackets_eq_replicate (cs : List Char) : ∃ n, takeBrackets cs = List.replicate n '[' := by
  induction cs with
  | nil => exact ⟨0, rfl⟩
  | cons c rest ih =>
    obtain ⟨n, hn⟩ := ih
    simp only [takeBrackets]
    split
    · rename_i hc
      exact ⟨n + 1, by rw [hc, hn, List.replicate_succ]⟩
    · exact ⟨0, rfl⟩

/-- What follows the brackets starts with none. -/
theorem head_skipBrackets {cs after : List Char} {e : Char} (h : skipBrackets cs = e :: after) : e ≠ '[' := by
  induction cs with
  | nil => cases h
  | cons c rest ih =>
    simp only [skipBrackets] at h
    split at h
    · exact ih h
    · rename_i hc
      obtain ⟨rfl, -⟩ := List.cons.inj h
      exact hc

end ClassFile.Descriptor
