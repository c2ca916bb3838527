import ClassFile.Draft.Method
import ClassFile.Proofs.DescriptorScans

/-!
# Slots and locals of parameters

The slots that a method descriptor is counted to have decide how many locals a method starts with and how many stack
slots a call takes. The locals themselves are laid out from the types that the parameters describe, one after the
other. The two come to the same number as long as no class name holds a parenthesis: a type is read behind the last
parenthesis of its descriptor.
-/

namespace ClassFile

namespace FrameType

variable {types : TypeTable} {t : FrameType}

/-- A class takes one slot. -/
theorem isWide_ofName {rest : List Char} (h : (ofName types rest).1 = some t) : t.isWide = false := by
  unfold ofName at h
  split at h
  · obtain rfl := Option.some.inj h
    rfl
  · cases h

/-- An array takes one slot. -/
theorem isWide_array {n : Nat} (hpos : 0 < n) (hmax : n ≤ maxDimensions) :
    ({ t with dims := BitVec.ofNat 4 n } : FrameType).isWide = false := by
  have hdims : BitVec.ofNat 4 n ≠ 0#4 := by
    intro h
    have hn : n % 2 ^ 4 = 0 := by simpa using congrArg BitVec.toNat h
    unfold maxDimensions at hmax
    omega
  simp [isWide, long, double, hdims]

/-- A descriptor describes a type of two slots exactly if it starts with the letter of the long or of the double. -/
theorem isWide_ofValue {cs : List Char} (h : (ofValue types cs).1 = some t) :
    t.isWide = true ↔ cs.head? = some 'J' ∨ cs.head? = some 'D' := by
  unfold ofValue at h
  split at h
  case h_10 rest => simp [isWide_ofName h]
  case h_11 rest =>
    dsimp only at h
    split at h
    · cases h
    · rename_i hmax
      obtain ⟨u, -, rfl⟩ := Option.map_eq_some_iff.1 h
      have hpos : 0 < (Descriptor.takeBrackets ('[' :: rest)).length := by simp [Descriptor.takeBrackets]
      simp [isWide_array hpos (Nat.le_of_not_lt hmax)]
  case h_12 => cases h
  all_goals
    obtain rfl := Option.some.inj h
    simp [isWide, unset, integer, float, long, double]

/-- The type of a descriptor is found behind its last parenthesis. -/
theorem ofDescriptor_ok {descriptor : String} {grown : TypeTable} (h : ofDescriptor types descriptor = (.ok t, grown)) :
    ofValue types (Descriptor.returnChars descriptor.toList) = (some t, grown) := by
  unfold ofDescriptor at h
  split at h
  · rename_i hvalue
    rw [hvalue]
    simpa using h
  · cases h

end FrameType

namespace Descriptor

/-- The class name of a parameter, with what closes it; empty for a parameter that is no class and no array of one. -/
def nameOf (p : List Char) : List Char :=
  match skipBrackets p with
  | 'L' :: name => name
  | _ => []

/-- No class name among the parameters of a method holds a parenthesis. -/
def NamesPlain (descriptor : String) : Prop :=
  ∀ p ∈ parameterTypes descriptor, ')' ∉ nameOf p.toList

/-- A parameter is a number of brackets, and then nothing, a class name or one character. -/
theorem splitParameter_cases (cs : List Char) : ∃ n,
    (splitParameter cs).1 = List.replicate n '[' ∨
    (∃ name, (splitParameter cs).1 = List.replicate n '[' ++ 'L' :: name) ∨
    ∃ e, e ≠ '[' ∧ e ≠ 'L' ∧ (n = 0 → cs.head? = some e) ∧ (splitParameter cs).1 = List.replicate n '[' ++ [e] := by
  obtain ⟨n, hn⟩ := takeBrackets_eq_replicate cs
  have hall := takeBrackets_append_skipBrackets cs
  refine ⟨n, ?_⟩
  rw [splitParameter, hn]
  cases hs : skipBrackets cs with
  | nil => exact Or.inl (List.append_nil _)
  | cons e after =>
    by_cases he : e = 'L'
    · subst he
      exact Or.inr (Or.inl ⟨_, by rw [splitElement_name]⟩)
    · refine Or.inr (Or.inr ⟨e, head_skipBrackets hs, he, fun hzero => ?_, by rw [splitElement_cons_ne he]⟩)
      rw [hn, hs, hzero, List.replicate_zero, List.nil_append] at hall
      rw [← hall, List.head?_cons]

/-- What the type of a parameter is read from starts with the letter of a long or a double exactly if it is the parameter,
and no more than that letter. -/
theorem head_returnChars {c : Char} (hc : c ≠ ')') (rest : List Char) (hname : ')' ∉ nameOf (splitParameter (c :: rest)).1) :
    ((returnChars (splitParameter (c :: rest)).1).head? = some 'J' ∨
    (returnChars (splitParameter (c :: rest)).1).head? = some 'D') ↔
      (splitParameter (c :: rest)).1 = ['J'] ∨ (splitParameter (c :: rest)).1 = ['D'] := by
  obtain ⟨n, hp | ⟨name, hp⟩ | ⟨e, hbracket, helement, hhead, hp⟩⟩ := splitParameter_cases (c :: rest)
  · rw [hp, returnChars_plain (by simp [List.mem_replicate])]
    cases n <;> simp [List.replicate_succ]
  · rw [hp, nameOf, skipBrackets_replicate n (by decide)] at hname
    rw [hp, returnChars_plain (by simpa [List.mem_replicate] using hname)]
    cases n <;> simp [List.replicate_succ]
  · rw [hp]
    by_cases he : e = ')'
    · subst he
      have hn : n ≠ 0 := fun hzero => hc (Option.some.inj (hhead hzero))
      rw [returnChars_append _ List.not_mem_nil]
      cases n with
      | zero => exact absurd rfl hn
      | succ n => simp [List.replicate_succ]
    · rw [returnChars_plain (by simp [List.mem_replicate, Ne.symm he])]
      cases n <;> simp [List.replicate_succ]

/-! ## Strings -/

/-- The slots of all parameters of a method. -/
def parameterSlots (descriptor : String) : Nat :=
  ((parameterTypes descriptor).map fun p => typeSlots p.toList).sum

/-- The slots of the parameters are counted character by character. -/
theorem parameterSlots_eq (descriptor : String) :
    parameterSlots descriptor = ((parameterChars (descriptor.toList.drop 1)).map typeSlots).sum := by
  rw [parameterSlots, parameterTypes, List.map_map]
  congr 1
  refine List.map_congr_left fun p _ => ?_
  simp

/-- The word of the slots holds those of the parameter types, with one for the receiver, and those of the result that follows
the parenthesis at which the parameters end. -/
theorem packedSlots_eq {descriptor : String} (h : Ascii descriptor.toList) :
    ∃ result ≤ 2, packedSlots descriptor = packSlots (UInt32.ofNat (1 + parameterSlots descriptor)) result ∧
      ∀ rest, descriptor.toList.drop 1 = (parameterChars (descriptor.toList.drop 1)).flatten ++ ')' :: rest →
        result = resultSlots rest := by
  rw [packedSlots, parameterSlots_eq]
  cases hd : descriptor.toList with
  | nil => exact ⟨0, by omega, by simp [parameterChars_nil], fun rest hrest => by simp [parameterChars_nil] at hrest⟩
  | cons c rest =>
    rw [hd] at h
    dsimp only
    rw [slotsOfChar_ascii (h c List.mem_cons_self), List.drop_one, List.tail_cons, UInt32.ofNat_add]
    exact countSlots_eq rest (fun e he => h e (List.mem_cons_of_mem _ he)) 1

/-- The slots that are read back for the arguments are those of the parameter types, with one for the receiver,
without the bits beyond thirty. -/
theorem argumentSlots_eq {descriptor : String} (h : Ascii descriptor.toList) :
    argumentSlots descriptor = (1 + parameterSlots descriptor) % 2 ^ 30 := by
  obtain ⟨result, hresult, hword, -⟩ := packedSlots_eq h
  rw [argumentSlots, slots, hword]
  exact packSlots_arguments _ hresult

/-- A type of two slots is described by a parameter exactly if the parameter counts two. -/
theorem isWide_parameter {descriptor : String} (hnames : NamesPlain descriptor) {p : String}
    (hp : p ∈ parameterTypes descriptor)
    {types grown : TypeTable} {t : FrameType} (h : FrameType.ofDescriptor types p = (.ok t, grown)) :
    typeSlots p.toList = if t.isWide then 2 else 1 := by
  have hname := hnames p hp
  have hwide := FrameType.isWide_ofValue (congrArg Prod.fst (FrameType.ofDescriptor_ok h))
  obtain ⟨cs, hcs, rfl⟩ := List.mem_map.1 hp
  obtain ⟨c, rest, hc, rfl⟩ := exists_splitParameter hcs
  rw [String.toList_ofList] at hname hwide ⊢
  rw [head_returnChars hc rest hname] at hwide
  rw [typeSlots]
  by_cases hw : t.isWide = true
  · rw [if_pos hw, if_pos (hwide.1 hw)]
  · rw [if_neg hw, if_neg (fun h => hw (hwide.2 h))]

end Descriptor

namespace Frame

/-- Parameters that all describe types take as many locals as they are counted to have slots. -/
theorem size_parameterLocals {ps : List String} {locals locals' : Array FrameType} {types grown : TypeTable}
    (hwide : ∀ p ∈ ps, ∀ {types grown : TypeTable} {t : FrameType}, FrameType.ofDescriptor types p = (.ok t, grown) →
      Descriptor.typeSlots p.toList = if t.isWide then 2 else 1)
    (h : parameterLocals locals types ps = (locals', grown, none)) :
    locals'.size = locals.size + (ps.map fun p => Descriptor.typeSlots p.toList).sum := by
  induction ps generalizing locals types with
  | nil =>
    cases h
    simp
  | cons p rest ih =>
    unfold parameterLocals at h
    split at h
    · rename_i t later ht
      have hp := hwide p List.mem_cons_self ht
      rw [ih (fun q hq => hwide q (List.mem_cons_of_mem _ hq)) h, List.map_cons, List.sum_cons, hp]
      split <;> simp <;> omega
    · cases h

/-- A method that is entered without failure has the locals of its receiver and its parameters, and
as many more as it asks for. -/
theorem size_locals_enter {f g : Frame} {types grown : TypeTable} {m : Method} (hnames : Descriptor.NamesPlain m.descriptor)
    (h : f.enter types m = (g, grown, none)) :
    g.locals.size = max m.maxLocals ((if m.isStatic then 0 else 1) + Descriptor.parameterSlots m.descriptor) := by
  have hreceiver : ∃ locals later, (if m.isStatic then ((#[], types) : Array FrameType × TypeTable)
      else if m.isConstructor then (#[FrameType.uninitializedThis], types)
      else (#[FrameType.object (types.addNormal m.className).1], (types.addNormal m.className).2)) = (locals, later) ∧
      locals.size = if m.isStatic then 0 else 1 := by
    split
    · exact ⟨_, _, rfl, rfl⟩
    · split
      · exact ⟨_, _, rfl, rfl⟩
      · exact ⟨_, _, rfl, rfl⟩
  obtain ⟨locals, later, hreceiver, hsize⟩ := hreceiver
  unfold enter at h
  dsimp only at h
  rw [hreceiver] at h
  dsimp only at h
  split at h
  · rename_i locals' later' hparameters
    have hlaid := size_parameterLocals (fun p hp => Descriptor.isWide_parameter hnames hp) hparameters
    cases h
    rw [Array.size_append, Array.size_replicate, hlaid, hsize, Descriptor.parameterSlots]
    omega
  · cases h

/-- A call takes the slots of its parameters off the stack. -/
theorem dropDescriptor_parameters {descriptor : String} (hascii : Descriptor.Ascii descriptor.toList)
    (hsmall : 1 + Descriptor.parameterSlots descriptor < 2 ^ 30) (hopen : descriptor.toList.head? = some '(') (f : Frame) :
    f.dropDescriptor descriptor = f.drop (Descriptor.parameterSlots descriptor) := by
  obtain ⟨rest, hrest⟩ := List.head?_eq_some_iff.1 hopen
  rw [dropDescriptor, hrest]
  exact congrArg f.drop (by rw [Descriptor.argumentSlots_eq hascii, Nat.mod_eq_of_lt hsmall, Nat.add_sub_cancel_left])

end Frame

/-- The locals that a method starts with. -/
theorem MethodDraft.maxLocals_start (ctx : Context) (access : UInt32) (name descriptor : String) (signature : Option String)
    (exceptions : List String) : (MethodDraft.start ctx access name descriptor signature exceptions).1.maxLocals =
      if AccessFlags.isStatic access then Descriptor.argumentSlots descriptor - 1 else Descriptor.argumentSlots descriptor :=
  rfl

/-- A call of few enough slots raises the stack by those of the result and lowers it by those of the arguments. -/
theorem ControlFlow.invokeDelta_eq {descriptor : String} (hascii : Descriptor.Ascii descriptor.toList)
    (hsmall : 1 + Descriptor.parameterSlots descriptor < 2 ^ 29) (isStatic : Bool) :
    ControlFlow.invokeDelta descriptor isStatic =
      (Descriptor.slots descriptor).2 - (Descriptor.parameterSlots descriptor + if isStatic then 0 else 1 : Nat) := by
  obtain ⟨result, hresult, hword, -⟩ := Descriptor.packedSlots_eq hascii
  obtain ⟨hback, harguments⟩ := Descriptor.packSlots_signed hsmall hresult
  rw [ControlFlow.invokeDelta, Descriptor.slots, hword]
  dsimp only
  rw [hback, harguments, Descriptor.packSlots_result _ hresult]
  split <;> omega

namespace Descriptor

/-- The slots of a result by its first letter. -/
theorem resultSlots_eq (cs : List Char) : resultSlots cs =
    if cs.head? = some 'V' then 0 else if cs.head? = some 'J' ∨ cs.head? = some 'D' then 2 else 1 := by
  cases cs with
  | nil => rfl
  | cons c rest =>
    unfold resultSlots
    split <;> simp_all

/-- A descriptor that opens with a parenthesis and has one closing one, in no parameter, is its parameters in parentheses and
its result, and the slots of the result are those of what follows the parenthesis. -/
theorem scans_closed {d : String} (hascii : Ascii d.toList) (hopen : d.toList.head? = some '(')
    (hone : d.toList.count ')' = 1) (hparameters : ∀ p ∈ parameterTypes d, ')' ∉ p.toList) :
    ∃ result, d.toList = '(' :: ((parameterChars (d.toList.drop 1)).flatten ++ ')' :: result) ∧
      returnType d = String.ofList result ∧ (slots d).2 = resultSlots result := by
  obtain ⟨cs, hcs⟩ := List.head?_eq_some_iff.1 hopen
  have hchars : d.toList.drop 1 = cs := by rw [hcs, List.drop_one, List.tail_cons]
  obtain ⟨result, hsplit, hresult⟩ : ∃ result, cs = (parameterChars cs).flatten ++ ')' :: result ∧ ')' ∉ result := by
    refine parameterChars_closed (by simpa [hcs] using hone) fun p hp => ?_
    simpa using hparameters (String.ofList p) (List.mem_map.2 ⟨p, hchars ▸ hp, rfl⟩)
  obtain ⟨count, hcount, hword, hends⟩ := packedSlots_eq hascii
  rw [hchars] at hends ⊢
  refine ⟨result, by rw [hcs, ← hsplit], ?_, ?_⟩
  · rw [returnType, hcs, hsplit, ← List.cons_append, returnChars_append _ hresult]
  · rw [slots, hword, packSlots_result _ hcount, hends result hsplit]

/-- The scanner that counts slots and the one that cuts out types agree on every ASCII text: the slots are those of the
types, with one for the receiver, as far as the thirty bits reach that the word of the slots has for them. If no class name
holds a parenthesis, and the word is no negative number when its highest bit is read as a sign, a method therefore starts
with as many locals as entering it lays out, when that does not fail, and a call takes as many slots off the stack as its
parameters have locals. If the text opens with a parenthesis and has one closing one, which is in no parameter, the slots of
the result are told by its first letter, and the parts give the text back. -/
theorem scanners_agree {d : String} (hascii : Ascii d.toList) :
    argumentSlots d = (1 + ((parameterTypes d).map fun p => if p = "J" ∨ p = "D" then 2 else 1).sum) % 2 ^ 30 ∧
    (NamesPlain d → 1 + ((parameterTypes d).map fun p => if p = "J" ∨ p = "D" then 2 else 1).sum < 2 ^ 29 →
      (∀ (ctx : Context) (access : UInt32) (name : String) (signature : Option String) (exceptions : List String)
          (f g : Frame) (types grown : TypeTable) (m : Frame.Method),
        m.descriptor = d → m.isStatic = AccessFlags.isStatic access →
        f.enter types m = (g, grown, none) →
        g.locals.size = max m.maxLocals (MethodDraft.start ctx access name d signature exceptions).1.maxLocals) ∧
      (∀ (types grown : TypeTable) (locals : Array FrameType),
        Frame.parameterLocals #[] types (parameterTypes d) = (locals, grown, none) →
        (d.toList.head? = some '(' → ∀ f : Frame, f.dropDescriptor d = f.drop locals.size) ∧
        ∀ isStatic, ControlFlow.invokeDelta d isStatic = (slots d).2 - (locals.size + if isStatic then 0 else 1 : Nat))) ∧
    (d.toList.head? = some '(' → d.toList.count ')' = 1 → (∀ p ∈ parameterTypes d, ')' ∉ p.toList) →
      (slots d).2 = (if (returnType d).toList.head? = some 'V' then 0
        else if (returnType d).toList.head? = some 'J' ∨ (returnType d).toList.head? = some 'D' then 2 else 1) ∧
      "(" ++ String.join (parameterTypes d) ++ ")" ++ returnType d = d) := by
  have hsum : ((parameterTypes d).map fun p => if p = "J" ∨ p = "D" then 2 else 1).sum = parameterSlots d := by
    refine congrArg List.sum (List.map_congr_left fun p _ => ?_)
    simp only [typeSlots, ← String.toList_inj]
    rfl
  have hslots := argumentSlots_eq hascii
  rw [hsum]
  refine ⟨hslots, fun hnames hsmall => ⟨?_, ?_⟩, fun hopen hone hparameters => ?_⟩
  · intro ctx access name signature exceptions f g types grown m hd hstatic henter
    subst hd
    rw [Frame.size_locals_enter hnames henter, MethodDraft.maxLocals_start, hstatic, hslots, Nat.mod_eq_of_lt (by omega)]
    split <;> simp
  · intro types grown locals hlaid
    have hsize := Frame.size_parameterLocals (fun p hp => isWide_parameter hnames hp) hlaid
    rw [Array.size_empty, Nat.zero_add, ← parameterSlots] at hsize
    rw [hsize]
    exact ⟨fun hopen f => Frame.dropDescriptor_parameters hascii (by omega) hopen f,
      ControlFlow.invokeDelta_eq hascii hsmall⟩
  · obtain ⟨result, hd, hreturn, hresult⟩ := scans_closed hascii hopen hone hparameters
    refine ⟨by rw [hresult, hreturn, String.toList_ofList, resultSlots_eq], ?_⟩
    have hjoined : (String.join (parameterTypes d)).toList = (parameterChars (d.toList.drop 1)).flatten := by
      simp [parameterTypes, String.toList_join, List.flatMap, Function.comp_def]
    rw [← String.toList_inj]
    simp only [String.toList_append, hjoined, hreturn, String.toList_ofList]
    exact (hd.trans (by simp)).symm

/-- A descriptor with parameters of all forms. -/
def mixed : String := "(I[[La/B;J)[D"

/-- The descriptor of all forms is written in the basic characters. -/
theorem ascii_mixed : Ascii mixed.toList := by
  have h : mixed.toList.all (fun c => c.toNat < 128) = true := by decide
  exact fun c hc => of_decide_eq_true (List.all_eq_true.1 h c hc)

/-- The parameters of all forms are an int, an array of arrays of a class and a long. -/
theorem parameterTypes_mixed : parameterTypes mixed = ["I", "[[La/B;", "J"] := by
  have hchars : mixed.toList.drop 1 = ['I', '[', '[', 'L', 'a', '/', 'B', ';', 'J', ')', '[', 'D'] := by decide
  rw [parameterTypes, hchars]
  simp [parameterChars, skipBrackets, takeBrackets, splitElement, splitName]

/-- The class of the second parameter has no parenthesis in its name. -/
theorem namesPlain_mixed : NamesPlain mixed := by
  intro p hp
  rw [parameterTypes_mixed] at hp
  revert p
  decide

/-- A static method of it. -/
def mixedMethod : Frame.Method := ⟨"a/A", "m", mixed, true, false, 0⟩

/-- A method with parameters of all forms is entered without an error. -/
theorem enter_mixed : ∃ g grown, Frame.empty.enter .empty mixedMethod = (g, grown, none) := by
  unfold Frame.enter
  rw [show mixedMethod.descriptor = mixed from rfl, parameterTypes_mixed]
  exact ⟨_, _, rfl⟩

/-- Of the parameters of all forms both scanners count five slots. -/
theorem scanners_agree_mixed :
    Ascii mixed.toList ∧ argumentSlots mixed = 5 ∧ NamesPlain mixed ∧
    (∃ g grown, Frame.empty.enter .empty mixedMethod = (g, grown, none) ∧ g.locals.size = 4) ∧
    (∃ locals grown, Frame.parameterLocals #[] .empty (parameterTypes mixed) = (locals, grown, none) ∧
      (∀ f : Frame, f.dropDescriptor mixed = f.drop locals.size) ∧ ControlFlow.invokeDelta mixed true = 1 - locals.size) ∧
    mixed.toList.count ')' = 1 ∧ (∀ p ∈ parameterTypes mixed, ')' ∉ p.toList) ∧ (slots mixed).2 = 1 ∧
    "(" ++ String.join (parameterTypes mixed) ++ ")" ++ returnType mixed = mixed := by
  obtain ⟨hslots, hlocals, hclosed⟩ := scanners_agree ascii_mixed
  have hfive : argumentSlots mixed = 5 := by
    rw [hslots, parameterTypes_mixed]
    decide
  obtain ⟨hentered, htaken⟩ := hlocals namesPlain_mixed (by rw [parameterTypes_mixed]; decide)
  obtain ⟨g, grown, henter⟩ := enter_mixed
  have hparameters : ∀ p ∈ parameterTypes mixed, ')' ∉ p.toList := by
    rw [parameterTypes_mixed]
    decide
  obtain ⟨hresult, hjoined⟩ := hclosed (by decide) (by decide) hparameters
  have hone : (slots mixed).2 = 1 := by
    rw [hresult, show (returnType mixed).toList = ['[', 'D'] by decide]
    rfl
  refine ⟨ascii_mixed, hfive, namesPlain_mixed, ⟨g, grown, henter, ?_⟩, ?_, by decide, hparameters, hone, hjoined⟩
  · have hstatic : AccessFlags.isStatic 8 = true := by decide
    rw [hentered { pool := .empty, hierarchy := .empty, policy := .auto, source := none } 8 "m" none []
        Frame.empty g .empty grown mixedMethod rfl hstatic.symm henter, MethodDraft.maxLocals_start,
      hstatic, hfive]
    rfl
  · have hlaid : ∃ locals grown, Frame.parameterLocals #[] .empty (parameterTypes mixed) = (locals, grown, none) := by
      rw [parameterTypes_mixed]
      exact ⟨_, _, rfl⟩
    obtain ⟨locals, grown, hlaid⟩ := hlaid
    obtain ⟨hdrop, hdelta⟩ := htaken .empty grown locals hlaid
    refine ⟨locals, grown, hlaid, hdrop (by decide), ?_⟩
    rw [hdelta true, hone]
    rfl

/-- A descriptor of longs alone. -/
def longs (n : Nat) : String := String.ofList ('(' :: List.replicate n 'J')

/-- Each letter is a parameter. -/
theorem parameterChars_longs (n : Nat) : parameterChars (List.replicate n 'J') = List.replicate n ['J'] := by
  induction n with
  | zero => exact parameterChars_nil
  | succ n ih =>
    rw [List.replicate_succ, parameterChars_step (by decide), splitParameter_cons_ne (by decide),
      splitElement_cons_ne (by decide), ih, List.replicate_succ]

/-- A descriptor of longs has as many parameters. -/
theorem parameterTypes_longs (n : Nat) : parameterTypes (longs n) = List.replicate n "J" := by
  rw [parameterTypes, longs, String.toList_ofList, List.drop_one, List.tail_cons, parameterChars_longs, List.map_replicate]

/-- Each long takes two slots. -/
theorem parameterSlots_longs (n : Nat) : parameterSlots (longs n) = n * 2 := by
  rw [parameterSlots, parameterTypes_longs, List.map_replicate, List.sum_replicate_nat]
  rfl

/-- A descriptor of longs is written in the basic characters. -/
theorem ascii_longs (n : Nat) : Ascii (longs n).toList := by
  intro c hc
  rw [longs, String.toList_ofList, List.mem_cons, List.mem_replicate] at hc
  rcases hc with rfl | ⟨-, rfl⟩ <;> decide

/-- The slots of very many parameters do not fit in the word, and a call with the descriptor of a value takes that value off
the stack, not what stands behind its first character. -/
theorem not_scanners_agree :
    (Ascii (longs (2 ^ 29)).toList ∧ argumentSlots (longs (2 ^ 29)) = 1 ∧
      ((parameterTypes (longs (2 ^ 29))).map fun p => if p = "J" ∨ p = "D" then 2 else 1).sum = 2 ^ 30) ∧
    (NamesPlain "IJ" ∧ Frame.parameterLocals #[] .empty (parameterTypes "IJ") = (#[.long, .top], .empty, none) ∧
      ∀ f : Frame, f.dropDescriptor "IJ" = f.drop 1) := by
  have hlong : parameterTypes "IJ" = ["J"] := by
    rw [parameterTypes, show "IJ".toList.drop 1 = List.replicate 1 'J' by decide, parameterChars_longs]
    rfl
  refine ⟨⟨ascii_longs _, ?_, ?_⟩, ?_, ?_, fun f => rfl⟩
  · rw [argumentSlots_eq (ascii_longs _), parameterSlots_longs]
    rfl
  · rw [parameterTypes_longs, List.map_replicate, List.sum_replicate_nat]
    rfl
  · rw [NamesPlain, hlong]
    decide
  · rw [hlong]
    rfl

end Descriptor

end ClassFile
