import ClassFile.Event
import Std.Data.HashMap

/-!
# Numbers for labels

A listing names the labels of a method by the order in which the events of the method first mention them. `numberLabels` puts
these numbers in place of the labels' own.
-/

namespace ClassFile

namespace Instruction

/-- The instruction with each label replaced, in the order in which it mentions them. -/
def mapLabels {m : Type → Type} [Monad m] (f : Label → m Label) : Instruction → m Instruction
  | jump op l => return jump op (← f l)
  | tableSwitch low high d ls => return tableSwitch low high (← f d) (← ls.mapM f)
  | lookupSwitch d keys ls => return lookupSwitch (← f d) keys (← ls.mapM f)
  | other => return other

end Instruction

namespace Event

/-- The event with each label replaced, in the order in which it mentions them. -/
def mapLabels {m : Type → Type} [Monad m] (f : Label → m Label) : Event → m Event
  | instruction i => return instruction (← i.mapLabels f)
  | label l => return label (← f l)
  | tryCatch start stop handler type => return tryCatch (← f start) (← f stop) (← f handler) type
  | localVariable name descriptor signature start stop slot =>
    return localVariable name descriptor signature (← f start) (← f stop) slot
  | lineNumber line start => return lineNumber line (← f start)
  | other => return other

end Event

/-- The numbers of the labels mentioned so far. -/
abbrev LabelNumbers := Std.HashMap Label Nat

namespace LabelNumbers

/-- The label under its number, which is the count of labels before it if this is its first mention. -/
def mention (l : Label) : StateM LabelNumbers Label :=
  modifyGet fun (numbers : LabelNumbers) =>
    match numbers[l]? with
    | some n => ({ l with id := n }, numbers)
    | none => ({ l with id := numbers.size }, numbers.insert l numbers.size)

/-- One event with its labels numbered; a method starts afresh. -/
def event : Event → StateM LabelNumbers Event
  | e@(.methodOpen ..) => do
    set (∅ : LabelNumbers)
    return e
  | e => e.mapLabels mention

end LabelNumbers

/-- The events with the labels of each method numbered from zero, in the order of their first mention. -/
def numberLabels (events : List Event) : List Event :=
  ((events.mapM LabelNumbers.event).run ∅).run.1

end ClassFile
