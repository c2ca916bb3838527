import ClassFile.Proofs.ClassLayout
import ClassFile.Proofs.CodeListing
import ClassFile.Proofs.DraftDriving

/-!
# Closing a method

A class records the events of an open method in it (`Writer.play_body`). A method that is closed without a failure has
become one more method of the class, whose first attribute is its code (`Writer.closeMember_eq`), and there it stays
whatever the class is told then.
-/

namespace ClassFile

open ConstantPool

namespace MethodDraft

variable {ctx ctx' : Context} {m m' : MethodDraft} {bytes : Bytes}

/-- The content of a code attribute is what the analysis has found. Debug tables stand before the stack map. -/
structure CodeResult.FoundIn (result : CodeResult) (content : CodeContent) : Prop where
  code : content.code = result.code
  exceptions : content.exceptions = result.exceptions
  stackMap : ∃ tables, content.attributes = tables ++ result.stackMap

/-- The attribute of the code says what the analysis has found. -/
theorem ensures_resultAttribute (m : MethodDraft) (result : CodeResult) :
    Ensures (m.resultAttribute result) fun a later => ∃ content : CodeContent, result.FoundIn content ∧
    a.Says later (.code content) := by
  refine (ensures_internAttributes m.debugContents).bind
    (R := fun tables a later => a.Says later (.code {
      maxStack := result.maxStack.toUInt16, maxLocals := m.maxLocals.toUInt16, code := result.code
      exceptions := result.exceptions, attributes := tables ++ result.stackMap })) (fun tables => ensures_attribute _) ?_
  exact fun tables a later _ h => ⟨_, ⟨rfl, rfl, tables, rfl⟩, h⟩

/-- The attribute of the code of a method says what the analysis has found. -/
theorem codeAttribute_says (ctx : Context) (m : MethodDraft) (a : Attribute) (ctx' : Context) (m' : MethodDraft)
    (h : m.codeAttribute ctx = (.ok a, ctx', m')) (hs : ctx.pool.Sound) :
    m.code.size ≤ maxCodeLength ∧ ∃ result ctx₁, (m.analysed (ctx.intern (exceptionTable m.flow.blocks m.handlers.toList)).2
      (ctx.intern (exceptionTable m.flow.blocks m.handlers.toList)).1) = (.ok result, ctx₁, m') ∧
    ∀ later : ConstantPool, later.Built → ctx'.pool.Extends later → later.Fits →
      ∃ content : CodeContent, result.FoundIn content ∧ a.Says later (.code content) := by
  rw [codeAttribute_eq] at h
  split at h
  · cases h
  · rename_i hsize
    refine ⟨Nat.le_of_not_lt hsize, ?_⟩
    have hexceptions := Context.Later.intern ctx (grows_exceptionTable m.flow.blocks m.handlers.toList)
    generalize ctx.intern (exceptionTable m.flow.blocks m.handlers.toList) = r at *
    have hanalysed := later_analysed r.2 m r.1
    dsimp only at h
    generalize m.analysed r.2 r.1 = analysed at *
    obtain ⟨result, ctx₁, m₁⟩ := analysed
    cases result with
    | error e => cases h
    | ok result =>
      obtain ⟨rfl, rfl, rfl⟩ : (m₁.resultAttribute result ctx₁.pool).1 = a ∧
        (ctx₁.intern (m₁.resultAttribute result)).2 = ctx' ∧
          m₁ = m' := by
        simpa [Context.intern_eq] using h
      have hbuilt := ((hexceptions.trans hanalysed).pool hs).1.built
      exact ⟨result, ctx₁, rfl, fun later hl hle hf =>
        (ensures_resultAttribute m₁ result ctx₁.pool hbuilt).2.2 later hl hle hf⟩

/-- A method with code is written as its head and its attributes, the code first. -/
theorem encode_says (h : m.encode ctx = (.ok bytes, ctx')) (hcode : m.code.isEmpty = false) (hs : ctx.pool.Sound) :
    m.code.size ≤ maxCodeLength ∧ ∃ result ctx₁ m₁,
    (m.analysed (ctx.intern (exceptionTable m.flow.blocks m.handlers.toList)).2
      (ctx.intern (exceptionTable m.flow.blocks m.handlers.toList)).1) = (.ok result, ctx₁, m₁) ∧
    ∀ later : ConstantPool, later.Built → ctx'.pool.Extends later → later.Fits →
      ∃ (content : CodeContent) (attributes : List Attribute), result.FoundIn content ∧
        List.Forall₂ (Attribute.Says later) (.code content :: m₁.plainContents ctx.version.major) attributes ∧
        bytes = m₁.encodeHead ctx.version.major ++ Attribute.encodeTable attributes := by
  unfold MethodDraft.encode at h
  dsimp only at h
  rw [if_neg (by simp [hcode])] at h
  have hlater := later_codeAttribute ctx m
  have hsays := codeAttribute_says ctx m
  generalize m.codeAttribute ctx = r at *
  obtain ⟨code, ctx₂, m₂⟩ := r
  cases code with
  | error e => cases h
  | ok a =>
    obtain ⟨hsize, result, ctx₁, hanalysed, ha⟩ := hsays a ctx₂ m₂ rfl hs
    obtain ⟨hbuilt, hgrown, hrest⟩ := ensures_internAttributes (m₂.plainContents ctx.version.major)
      ctx₂.pool (hlater.pool hs).1.built
    obtain ⟨rfl, rfl⟩ : m₂.encodeHead ctx.version.major ++
        Attribute.encodeTable ([a] ++ (internAttributes (m₂.plainContents ctx.version.major) ctx₂.pool).1) = bytes ∧
          (ctx₂.intern (internAttributes (m₂.plainContents ctx.version.major))).2 = ctx' := by
      simpa [Context.intern_eq] using h
    refine ⟨hsize, result, ctx₁, m₂, hanalysed, fun later hl hle hf => ?_⟩
    obtain ⟨content, hcontent, hsay⟩ := ha later hl (hgrown.trans hle) hf
    exact ⟨content, _, hcontent, .cons hsay (hrest later hl hle hf), rfl⟩

end MethodDraft

namespace Writer

variable {w : Writer} {m : MethodDraft}

/-- Events are played one behind the other. -/
theorem play_append (w : Writer) (es fs : List Event) : w.play (es ++ fs) = (w.play es).play fs :=
  List.foldl_append

/-- A method that is closed becomes one more method of the class, unless it cannot be written. -/
theorem closeMember_eq (hm : w.member = some (.method m)) (hopen : m.finished = false) : w.closeMember =
    match m.encode w.context with
    | (.ok bytes, context) =>
      { w with context, draft := { w.draft with methods := w.draft.methods.push bytes }, member := none }
    | (.error e, context) => { w with context := context.fail e, member := none } := by
  obtain ⟨context, draft, member, notes, copies⟩ := w
  obtain rfl : member = some (.method m) := hm
  unfold closeMember
  dsimp only
  generalize m.encode context = r
  obtain ⟨result, context'⟩ := r
  cases result <;> exact if_neg (by simp [hopen])

end Writer

end ClassFile
