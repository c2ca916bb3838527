import ClassFile.Proofs.WideTypes

/-!
# Stores and the halves of longs and doubles

A store says of three locals what they hold: its own, the next one for a value of two slots, and the one before, which no
longer holds a value of two slots (`Frame.leftLocal_store`). A block that stores no long or double in one local, and
increments ints alone, lets no usable value stand behind a long or a double. That is said of a block with two inputs, an
earlier and a later one (`FrameType.Paired`): what is true of the later one is known only where the earlier one was the same.
-/

namespace ClassFile

namespace FrameType

/-- A type that is set by its shape is set. -/
theorem isUnset_of_shape {t : FrameType} (ht : t.shape ≠ .unset) : t.isUnset = false :=
  beq_eq_false_iff_ne.2 fun heq => ht (by rw [heq]; rfl)

/-- A type that becomes unusable if it takes two slots is still set. -/
theorem shape_topIfWide {t : FrameType} (ht : t.shape ≠ .unset) : t.topIfWide.shape ≠ .unset := by
  obtain ⟨d, s⟩ := t
  cases s <;> first | exact ht | exact fun heq => nomatch heq

end FrameType

open FrameType (Paired)

namespace Frame

/-- What an instruction finds that sets a local: an int where it counts, and no long or double where it
stores a value of one slot. -/
def Fits (f : Frame) : Operation → Prop
  | .moveLocal op _ => op = Opcode.istore ∨ op = Opcode.fstore ∨ op = Opcode.astore → (f.resolve f.pop.1).isWide = false
  | .increment slot => f.leftLocal slot.toNat = .integer
  | _ => True

section Stores

variable {h : Hierarchy} {types : TypeTable} {f g : Frame} {locals stack : Array FrameType}
  {is : List Operation} {t : FrameType}
variable {a b : Nat → FrameType} {i j s : Nat} {wide : Bool}

/-! ## What a store leaves in locals -/

/-- What is said of a local stands for what is left there. -/
theorem resolve_getLocal (f : Frame) (hi : i < 2 ^ 23) : f.resolve (f.getLocal i) = f.leftLocal i := by
  unfold Frame.getLocal Frame.leftLocal
  cases f.outLocals[i]? with
  | none => exact resolve_localSlot hi
  | some t =>
    by_cases hunset : t.isUnset = true
    · simp only [hunset, if_true]
      exact resolve_localSlot hi
    · simp only [hunset, Bool.false_eq_true, if_false]

/-- A type that stands for itself says nothing of the input. -/
theorem resolve_of_isConcrete (f : Frame) (ht : t.shape.isConcrete = true) : f.resolve t = t := by
  obtain ⟨d, s⟩ := t
  cases s <;> first | rfl | cases ht

/-- A slot whose second half has been overwritten stands for no usable value instead of a long or a double. -/
theorem resolve_topIfWide (f : Frame) (ht : t.shape.isConcrete = false) :
    f.resolve t.topIfWide = if (f.resolve t).isWide then .top else f.resolve t := by
  have hinput : ∀ (u : FrameType) (wants : Bool), (if true && u.isWide then FrameType.top else u) =
      if (if wants && u.isWide then FrameType.top else u).isWide then .top else if wants && u.isWide then .top else u := by
    intro u wants
    have htop : FrameType.top.isWide = false := rfl
    cases wants <;> cases hu : u.isWide <;> simp [hu, htop]
  obtain ⟨d, s⟩ := t
  cases s with
  | localSlot slot wants => exact hinput _ wants
  | stackSlot slot wants => exact hinput _ wants
  | straySlot kind slot wants => exact hinput _ wants
  | unset =>
    have hnarrow : (⟨d, .unset⟩ : FrameType).isWide = false := by simp [FrameType.isWide, FrameType.long, FrameType.double]
    exact (if_neg (by rw [show f.resolve ⟨d, .unset⟩ = ⟨d, .unset⟩ from rfl, hnarrow]; exact Bool.false_ne_true)).symm
  | _ => cases ht

/-- The first half of a value whose second half is overwritten. -/
theorem leftLocal_spoil (f : Frame) (hi : i < 2 ^ 23) (ht : (f.getLocal i).shape ≠ .unset) (j : Nat) :
    (f.spoil i).leftLocal j = if i = j ∧ (f.leftLocal j).isWide then .top else f.leftLocal j := by
  by_cases hij : i = j
  · subst hij
    rw [← resolve_getLocal f hi]
    unfold spoil
    by_cases hwide : (f.getLocal i).isWide = true
    · have hconcrete : (f.getLocal i).shape.isConcrete = true := by
        rcases Bool.or_eq_true_iff.1 hwide with hw | hw <;> rw [eq_of_beq hw] <;> rfl
      rw [if_pos hwide, leftLocal_setLocal f i i rfl, if_pos rfl, resolve_of_isConcrete f hconcrete, if_pos ⟨rfl, hwide⟩]
      rfl
    · rw [if_neg hwide]
      split
      · rename_i hconcrete
        rw [← resolve_getLocal f hi, resolve_of_isConcrete f hconcrete, if_neg fun h => hwide h.2]
      · rename_i hsymbolic
        rw [leftLocal_setLocal f i i (FrameType.isUnset_of_shape (FrameType.shape_topIfWide ht)), if_pos rfl,
          resolve_topIfWide f (Bool.eq_false_of_not_eq_true hsymbolic)]
        simp
  · rw [if_neg fun h => hij h.1]
    unfold spoil
    split
    · rw [leftLocal_setLocal f i j rfl, if_neg hij]
    · split
      · rfl
      · rw [leftLocal_setLocal f i j (FrameType.isUnset_of_shape (FrameType.shape_topIfWide ht)), if_neg hij]

/-- What a store leaves in locals. -/
theorem leftLocal_store (hset : ∀ i, (f.getLocal i).shape ≠ .unset) (hs : s < 2 ^ 23) (ht : t.shape ≠ .unset) (wide : Bool)
    (j : Nat) :
    (f.store s t wide).leftLocal j =
      if s = j then f.resolve t else if wide ∧ s + 1 = j then .top
      else if s = j + 1 ∧ (f.leftLocal j).isWide then .top else f.leftLocal j := by
  have hunset := FrameType.isUnset_of_shape ht
  -- the local itself, and the next one
  have hset' : ∀ k, (if wide then (f.setLocal s t).setLocal (s + 1) .top else f.setLocal s t).leftLocal k =
      if s = k then f.resolve t else if wide ∧ s + 1 = k then .top else f.leftLocal k := by
    intro k
    cases wide with
    | false => simp [leftLocal_setLocal f s k hunset]
    | true =>
      simp only [if_true, true_and]
      rw [leftLocal_setLocal _ (s + 1) k rfl, leftLocal_setLocal f s k hunset]
      by_cases hk : s = k
      · rw [if_pos hk, if_neg (by omega), if_pos hk]
      · rw [if_neg hk, if_neg hk]
        rfl
  rw [store_eq]
  dsimp only
  by_cases hzero : s = 0
  · rw [if_pos hzero, hset', if_neg (c := s = j + 1 ∧ _) (by omega)]
  · have hbefore : (if wide then (f.setLocal s t).setLocal (s + 1) .top else f.setLocal s t).getLocal (s - 1) =
      f.getLocal (s - 1) := by
      cases wide with
      | false => exact (getLocal_setLocal f s (s - 1) hunset).trans (if_neg (by omega))
      | true =>
        exact ((getLocal_setLocal _ (s + 1) (s - 1) rfl).trans (if_neg (by omega))).trans
          ((getLocal_setLocal f s (s - 1) hunset).trans (if_neg (by omega)))
    rw [if_neg hzero, leftLocal_spoil _ (by omega) (by rw [hbefore]; exact hset _), hset']
    by_cases hj : s = j + 1
    · subst hj
      have hnext : ¬(wide = true ∧ j + 1 + 1 = j) := fun h => absurd h.2 (by omega)
      simp [hnext]
    · rw [if_neg fun h => hj (by omega), if_neg (c := s = j + 1 ∧ _) fun h => hj h.1]

/-! ## Pairs of inputs -/

/-- A store keeps usable values from standing behind longs and doubles. -/
theorem paired_store {x y : FrameType} (hy : wide = false → y.isWide = false) (hp : Paired a b) :
    Paired (fun j => if s = j then x else if wide ∧ s + 1 = j then .top else if s = j + 1 ∧ (a j).isWide then .top else a j)
      (fun j => if s = j then y else if wide ∧ s + 1 = j then .top else if s = j + 1 ∧ (b j).isWide then .top else b j) := by
  intro i hwide hsame
  dsimp only at hwide hsame ⊢
  by_cases hself : s = i
  · -- what is stored takes two slots
    rw [if_pos hself] at hwide hsame
    rw [if_pos hself] at hsame
    have hboth : wide = true := Bool.eq_true_of_not_eq_false fun hone => by
      rw [← hsame, hy hone] at hwide
      cases hwide
    rw [if_neg (by omega), if_pos ⟨hboth, by omega⟩]
  rw [if_neg hself] at hwide hsame
  rw [if_neg hself] at hsame
  by_cases hnext : wide = true ∧ s + 1 = i
  · rw [if_pos hnext] at hwide
    cases hwide
  rw [if_neg hnext] at hwide hsame
  rw [if_neg hnext] at hsame
  by_cases hbefore : s = i + 1
  · -- the first half of what has been overwritten
    split at hwide
    · cases hwide
    · rename_i hnot
      exact absurd ⟨hbefore, hwide⟩ hnot
  · rw [if_neg fun h => hbefore h.1] at hwide hsame
    rw [if_neg fun h => hbefore h.1] at hsame
    have htop := hp i hwide hsame
    rw [if_neg hbefore, if_neg fun h => hself (by omega), htop, ite_self]

/-- So does an increment of an int. -/
theorem paired_increment (hint : b s = .integer) (hp : Paired a b) :
    Paired (fun j => if s = j then .integer else a j) (fun j => if s = j then .integer else b j) := by
  intro i hwide hsame
  dsimp only at hwide hsame ⊢
  by_cases hself : s = i
  · rw [if_pos hself] at hwide
    cases hwide
  · rw [if_neg hself] at hwide hsame
    rw [if_neg hself] at hsame
    have htop := hp i hwide hsame
    rw [if_neg]
    · exact htop
    · rintro rfl
      rw [hint] at htop
      cases htop

/-! ## Instructions in one frame -/

/-- Pushing does the same whatever the input. -/
theorem pushAll_on (f : Frame) (locals stack : Array FrameType) (ts : List FrameType) :
    (f.on locals stack).pushAll ts = (f.pushAll ts).on locals stack := by
  induction ts generalizing f with
  | nil => rfl
  | cons t rest ih => exact ih (f.push t)

/-- Popping does the same whatever the input. -/
theorem pop_on (f : Frame) (locals stack : Array FrameType) :
    (f.on locals stack).pop = (f.pop.1, f.pop.2.on locals stack) := by
  have hsame : (f.on locals stack).outStack = f.outStack := rfl
  unfold pop
  rw [hsame]
  cases f.outStack.back? <;> rfl

theorem drop_on (f : Frame) (locals stack : Array FrameType) (n : Nat) :
    (f.on locals stack).drop n = (f.drop n).on locals stack := by
  rw [drop_eq, drop_eq]
  rfl

theorem spoil_on (f : Frame) (locals stack : Array FrameType) (i : Nat) :
    (f.on locals stack).spoil i = (f.spoil i).on locals stack := by
  have hsame : (f.on locals stack).getLocal i = f.getLocal i := rfl
  unfold spoil
  rw [hsame]
  split
  · rfl
  · split <;> rfl

theorem setLocal_on (f : Frame) (locals stack : Array FrameType) (i : Nat) (t : FrameType) :
    (f.on locals stack).setLocal i t = (f.setLocal i t).on locals stack := rfl

theorem store_on (f : Frame) (locals stack : Array FrameType) (i : Nat) (t : FrameType) (wide : Bool) :
    (f.on locals stack).store i t wide = (f.store i t wide).on locals stack := by
  have hset : (if wide then ((f.on locals stack).setLocal i t).setLocal (i + 1) .top else (f.on locals stack).setLocal i t) =
      (if wide then (f.setLocal i t).setLocal (i + 1) .top else f.setLocal i t).on locals stack := by
    split
    · rw [setLocal_on, setLocal_on]
    · rw [setLocal_on]
  rw [store_eq, store_eq]
  dsimp only
  rw [hset]
  split
  · rfl
  · rw [spoil_on]

/-- What an instruction does to locals does not hang on the input. -/
theorem moveLocal_on (f : Frame) (locals stack : Array FrameType) (op : UInt8) (i : Nat) :
    (f.on locals stack).moveLocal op i = (f.moveLocal op i).on locals stack := by
  rcases moveLocal_cases op with ⟨ts, -, heq⟩ | heq | heq | heq | heq
  all_goals rw [heq, heq]
  · exact pushAll_on f locals stack ts
  · rfl
  · rw [pop_on]
    exact store_on _ locals stack i _ false
  · rw [drop_on, pop_on]
    exact store_on _ locals stack i _ true

/-- One more instruction runs behind the others. -/
theorem run_concat (f : Frame) (types : TypeTable) (is : List Operation) (i : Operation) :
    f.run types (is ++ [i]) = (((f.run types is).1.execute (f.run types is).2 i).1,
      ((f.run types is).1.execute (f.run types is).2 i).2.1) := by
  induction is generalizing f types with
  | nil => rfl
  | cons first rest ih => exact ih _ _

/-- Instructions that have been followed before the input was known are followed again in a table that has grown. -/
theorem Traced.run (ht : f.Traced h types is) {known : TypeTable} (hknown : TypeTable.Consistent h known)
    (hext : types.Extends known)
    (locals stack : Array FrameType) : (entering locals stack).run known is = (f.on locals stack, known) := by
  induction ht with
  | nil => rfl
  | grow _ hgrown _ ih => exact ih (hgrown.trans hext)
  | @step types is f ht i ih =>
    obtain ⟨hc, hunentered⟩ := ht.unentered
    rw [run_concat, ih ((hunentered.execute hc i).grown.trans hext)]
    dsimp only
    by_cases hstores : i.stores = true
    · cases i with
      | moveLocal op slot => exact congrArg (·, known) (moveLocal_on f locals stack op slot.toNat)
      | _ => cases hstores
    · by_cases hcounter : ∃ slot, i = .increment slot
      · obtain ⟨slot, rfl⟩ := hcounter
        rfl
      · obtain ⟨m, -, table, e, hnow, hlater⟩ :=
          exists_move hc.sound (Bool.eq_false_of_not_eq_true hstores) fun slot hi => hcounter ⟨slot, hi⟩
        have hnow : f.execute types i = (f.moved m, table, e) := hnow f
        rw [hnow] at hext
        have hexecuted : (f.on locals stack).execute known i = ((f.on locals stack).moved m, known, e) :=
          hlater known hknown.sound hext _
        rw [hexecuted, hnow, moved_on]

/-! ## Instructions of a block -/

/-- What is left in locals depends on the input and on the locals of the effect only. -/
theorem leftLocal_congr (hout : g.outLocals = f.outLocals) (hlocals : g.locals = f.locals) (hstack : g.stack = f.stack) :
    g.leftLocal = f.leftLocal := by
  funext i
  have hresolve : g.resolve = f.resolve := funext fun t => resolve_congr hlocals hstack t
  unfold Frame.leftLocal
  rw [hout, hlocals, hresolve]

/-- A store takes a value of one slot or of two off the stack. -/
theorem moveLocal_stores {op : UInt8} (hop : Opcode.istore ≤ op) :
    ((op = Opcode.istore ∨ op = Opcode.fstore ∨ op = Opcode.astore) ∧ ∀ f i,
      moveLocal f op i = f.pop.2.store i f.pop.1 false) ∨
      (∀ f i, moveLocal f op i = (f.drop 1).pop.2.store i (f.drop 1).pop.1 true) ∨ ∀ f i, moveLocal f op i = f := by
  have hne : ∀ load : UInt8, load < Opcode.istore → ¬(op == load) = true := fun load hlt heq => by
    rw [beq_iff_eq.1 heq] at hop
    exact absurd hlt (UInt8.not_lt.2 hop)
  unfold Frame.moveLocal
  simp only [hne Opcode.iload (by decide), hne Opcode.fload (by decide), hne Opcode.lload (by decide),
    hne Opcode.dload (by decide), hne Opcode.aload (by decide), Bool.false_eq_true, if_false]
  by_cases hstore : (op == Opcode.istore || op == Opcode.fstore || op == Opcode.astore) = true
  · refine Or.inl ⟨?_, fun f i => if_pos hstore⟩
    simpa [or_assoc] using hstore
  · refine Or.inr ?_
    by_cases hboth : (op == Opcode.lstore || op == Opcode.dstore) = true
    · exact Or.inl fun f i => by rw [if_neg hstore, if_pos hboth]
    · exact Or.inr fun f i => by rw [if_neg hstore, if_neg hboth]

/-- What a block has left in its locals after one more store, with an input. -/
theorem leftLocal_store_on (hg : g.Unentered types) (hout : g.outLocals = f.outLocals) (hs : s < 2 ^ 23)
    (ht : t.shape ≠ .unset) (wide : Bool) (locals stack : Array FrameType) :
    ((g.store s t wide).on locals stack).leftLocal = fun j =>
      if s = j then (f.on locals stack).resolve t else if wide ∧ s + 1 = j then .top
      else if s = j + 1 ∧ ((f.on locals stack).leftLocal j).isWide then .top else (f.on locals stack).leftLocal j := by
  have hsame : (g.on locals stack).leftLocal = (f.on locals stack).leftLocal := leftLocal_congr hout rfl rfl
  have hset : ∀ i, ((g.on locals stack).getLocal i).shape ≠ .unset := fun i => (hg.getLocal i).set
  funext j
  rw [← store_on, leftLocal_store hset hs ht, hsame]
  rfl

/-- An instruction keeps usable values from standing behind longs and doubles, if it finds what it
takes in the later input. -/
theorem paired_execute {locals' stack' : Array FrameType} (hc : TypeTable.Consistent h types) (hf : f.Unentered types)
    (i : Operation)
    (hfits : (f.on locals' stack').Fits i) (hp : Paired (f.on locals stack).leftLocal (f.on locals' stack').leftLocal) :
    Paired ((f.execute types i).1.on locals stack).leftLocal ((f.execute types i).1.on locals' stack').leftLocal := by
  have hsame : ∀ g : Frame, g.outLocals = f.outLocals →
    Paired (g.on locals stack).leftLocal (g.on locals' stack').leftLocal := by
    intro g hout
    rwa [leftLocal_congr (f := f.on locals stack) (g := g.on locals stack) hout rfl rfl,
      leftLocal_congr (f := f.on locals' stack') (g := g.on locals' stack') hout rfl rfl]
  by_cases hstores : i.stores = true
  · cases i with
    | moveLocal op slot =>
      have hslot : slot.toNat < 2 ^ 23 := Nat.lt_trans slot.toNat_lt (by decide)
      change Paired ((f.moveLocal op slot.toNat).on locals stack).leftLocal
        ((f.moveLocal op slot.toNat).on locals' stack').leftLocal
      rcases moveLocal_stores (of_decide_eq_true hstores) with ⟨hop, heq⟩ | heq | heq
      · obtain ⟨hleft, hrest⟩ := hf.pop
        have hout : f.pop.2.outLocals = f.outLocals := by rw [pop_snd, drop_eq]
        have hnarrow := hfits hop
        rw [pop_on] at hnarrow
        rw [heq, leftLocal_store_on hrest hout hslot hleft.set, leftLocal_store_on hrest hout hslot hleft.set]
        exact paired_store (fun _ => hnarrow) hp
      · obtain ⟨hleft, hrest⟩ := (hf.drop 1).pop
        have hout : (f.drop 1).pop.2.outLocals = f.outLocals := by rw [pop_snd, drop_drop, drop_eq]
        rw [heq, leftLocal_store_on hrest hout hslot hleft.set, leftLocal_store_on hrest hout hslot hleft.set]
        exact paired_store (fun hone => (nomatch hone)) hp
      · rw [heq]
        exact hp
    | _ => cases hstores
  · by_cases hcounter : ∃ slot, i = .increment slot
    · obtain ⟨slot, rfl⟩ := hcounter
      have hset : ∀ locals stack : Array FrameType, ((f.increment slot.toNat).on locals stack).leftLocal = fun j =>
          if slot.toNat = j then .integer else (f.on locals stack).leftLocal j := by
        intro locals stack
        funext j
        exact leftLocal_setLocal (f.on locals stack) slot.toNat j rfl
      change Paired ((f.increment slot.toNat).on locals stack).leftLocal
        ((f.increment slot.toNat).on locals' stack').leftLocal
      rw [hset, hset]
      exact paired_increment hfits hp
    · obtain ⟨m, -, table, e, hnow, -⟩ :=
        exists_move hc.sound (Bool.eq_false_of_not_eq_true hstores) fun slot hi => hcounter ⟨slot, hi⟩
      obtain ⟨peak, hmoved⟩ := moved_eq f m
      rw [show f.execute types i = (f.moved m, table, e) from hnow f, hmoved]
      exact hsame _ rfl

/-- A block keeps usable values from standing behind longs and doubles, if each of its instructions finds
what it takes in the later input. -/
theorem Traced.paired (ht : f.Traced h types is) {known : TypeTable} (hknown : TypeTable.Consistent h known)
    (hext : types.Extends known) {locals' stack' : Array FrameType}
    (hfits : ∀ before i after, is = before ++ i :: after → ((entering locals' stack').run known before).1.Fits i)
    (hp : Paired (locals.getD · .top) (locals'.getD · .top)) :
    Paired (f.on locals stack).leftLocal (f.on locals' stack').leftLocal := by
  induction ht with
  | nil => exact hp
  | grow _ hgrown _ ih => exact ih (hgrown.trans hext) hfits
  | @step types is f ht i ih =>
    obtain ⟨hc, hunentered⟩ := ht.unentered
    have hgrown := (hunentered.execute hc i).grown.trans hext
    have hlast := hfits is i [] rfl
    rw [ht.run hknown hgrown] at hlast
    refine paired_execute hc hunentered i hlast (ih hgrown fun before j after his => ?_)
    exact hfits before j (after ++ [i]) (by rw [his, List.append_assoc, List.cons_append])

end Stores

end Frame

end ClassFile
