import ClassFile.Frame.Type
import ClassFile.Opcode.Basic

/-!
# Effects of plain instructions

What an instruction without operands does to the operand stack, as a table: it takes slots off and puts types of its own on,
it reorders the topmost slots, or it replaces an array by what the array holds.
-/

namespace ClassFile

/-- What an instruction does to the operand stack. -/
inductive StackEffect where
  /-- Takes slots off and then puts types on, the last of which becomes the topmost. -/
  | replace (pops : Nat) (pushes : List FrameType)
  /-- Takes `depth` slots off and puts some of them back, each named by how far below the top it stood, from one on. -/
  | shuffle (depth : Nat) (order : List Nat)
  /-- Takes an index and an array off and puts on what the array holds. -/
  | loadElement
  deriving Repr, DecidableEq

namespace StackEffect

/-- The two slots of a long. -/
def longSlots : List FrameType := [.long, .top]

/-- The two slots of a double. -/
def doubleSlots : List FrameType := [.double, .top]

/-- The effects on the stack by opcode; an opcode that is not listed has none. -/
def table : List (List Nat × StackEffect) :=
  [([1], replace 0 [.null]),
   ([2, 3, 4, 5, 6, 7, 8], replace 0 [.integer]),
   ([9, 10], replace 0 longSlots),
   ([11, 12, 13], replace 0 [.float]),
   ([14, 15], replace 0 doubleSlots),
   ([46, 51, 52, 53], replace 2 [.integer]),
   ([47, 143], replace 2 longSlots),
   ([48], replace 2 [.float]),
   ([49, 138], replace 2 doubleSlots),
   ([50], loadElement),
   ([79, 81, 83, 84, 85, 86], replace 3 []),
   ([80, 82], replace 4 []),
   ([87, 172, 174, 176, 191, 194, 195], replace 1 []),
   ([88, 173, 175], replace 2 []),
   ([89], shuffle 1 [1, 1]),
   ([90], shuffle 2 [1, 2, 1]),
   ([91], shuffle 3 [1, 3, 2, 1]),
   ([92], shuffle 2 [2, 1, 2, 1]),
   ([93], shuffle 3 [2, 1, 3, 2, 1]),
   ([94], shuffle 4 [2, 1, 4, 3, 2, 1]),
   ([95], shuffle 2 [1, 2]),
   ([96, 100, 104, 108, 112, 120, 122, 124, 126, 128, 130, 136, 142, 149, 150], replace 2 [.integer]),
   ([97, 101, 105, 109, 113, 127, 129, 131], replace 4 longSlots),
   ([98, 102, 106, 110, 114, 137, 144], replace 2 [.float]),
   ([99, 103, 107, 111, 115], replace 4 doubleSlots),
   ([121, 123, 125], replace 3 longSlots),
   ([133, 140], replace 1 longSlots),
   ([134], replace 1 [.float]),
   ([135, 141], replace 1 doubleSlots),
   ([139, 190], replace 1 [.integer]),
   ([148, 151, 152], replace 4 [.integer])]

/-- The effect of an opcode, looked up in the table. -/
def find (op : Nat) : StackEffect :=
  ((table.find? fun row => row.1.contains op).map (·.2)).getD (replace 0 [])

/-- The effects of all opcodes, in order. -/
def effects : Array StackEffect :=
  Array.ofFn fun op : Fin 256 => find op

/-- The effect of an opcode. -/
def ofOpcode (op : UInt8) : StackEffect :=
  effects.getD op.toNat (replace 0 [])

end StackEffect

end ClassFile
