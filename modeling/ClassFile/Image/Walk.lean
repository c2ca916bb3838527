import ClassFile.Event
import ClassFile.Image.Basic

/-!
# Reading that reports

A walk reads a class file and reports events. When it fails, what has been reported stays reported.
-/

namespace ClassFile

/-- A step that reports events and may fail. -/
abbrev Narration := ExceptT Error (StateM (Array Event))

/-- A step that reads at a position, reports events and may fail. -/
abbrev Walk := StateT Cursor Narration

/-- Reports an event. -/
def Narration.report (e : Event) : Narration Unit :=
  modify fun (events : Array Event) => events.push e

namespace Walk

/-- Reads without a report. -/
def read {α : Type} (d : Decoder α) : Walk α := fun c =>
  match d c with
  | .ok r => pure r
  | .error e => throw e

/-- Reports an event. -/
def report (e : Event) : Walk Unit := fun c => do
  Narration.report e
  return ((), c)

/-- Reports an event if someone listens. -/
def reportIf (heard : Bool) (e : Event) : Walk Unit :=
  if heard then report e else pure ()

/-- Walks the same way `n` times. -/
def times (w : Walk Unit) : Nat → Walk Unit
  | 0 => pure ()
  | n + 1 => do
    w
    times w n

/-- Walks the same way as many times as a count of two bytes says. -/
def counted (w : Walk Unit) : Walk Unit := do
  let n ← read Decoder.u16
  times w n.toNat

/-- Walks from an offset on. -/
def runAt (w : Walk Unit) (bytes : Bytes) (offset : Nat) : Narration Unit := do
  let _ ← w.run ⟨bytes, offset⟩

end Walk

/-- What the reader of a class leaves out. -/
structure Omissions where
  /-- The bodies of methods. -/
  code : Bool := false
  /-- The source file, local variables and line numbers. -/
  debug : Bool := false
  innerClasses : Bool := false
  deriving DecidableEq, Repr, Inhabited

/-- Whether something is wanted: it is announced, and then one who has heard all so far is asked. -/
structure Wish where
  grants : Array Event → Bool
  deriving Inhabited

/-- All is wanted, or nothing is. -/
instance : Coe Bool Wish where
  coe b := ⟨fun _ => b⟩

/-- What one who listens wants to hear of. What is not wanted is still announced, but nothing of what it holds is. -/
structure Interest where
  annotations : Wish := true
  nested : Wish := true
  arrays : Wish := true
  fields : Wish := true
  methods : Wish := true
  /-- Whether methods are taken as they stand, from a class file of the given number. -/
  copies : Option SourceId := none
  deriving Inhabited

/-- Whether someone listens to what has just been announced, if someone has listened so far. -/
def Walk.wanted (heard : Bool) (wish : Wish) : Walk Bool := fun c => do
  return (heard && wish.grants (← get), c)

end ClassFile
