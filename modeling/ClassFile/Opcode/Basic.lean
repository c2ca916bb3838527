/-!
# Opcodes

An opcode is a byte. The numbers that some rule names one by one stand here, with the shape of the operands that follow an
opcode in a code array.
-/

namespace ClassFile.Opcode

def nop : UInt8 := 0
def sipush : UInt8 := 17
def ldc : UInt8 := 18
def ldcW : UInt8 := 19
def ldc2W : UInt8 := 20
def iload : UInt8 := 21
def lload : UInt8 := 22
def fload : UInt8 := 23
def dload : UInt8 := 24
def aload : UInt8 := 25
def iload0 : UInt8 := 26
def aaload : UInt8 := 50
def istore : UInt8 := 54
def lstore : UInt8 := 55
def fstore : UInt8 := 56
def dstore : UInt8 := 57
def astore : UInt8 := 58
def istore0 : UInt8 := 59
def iinc : UInt8 := 132
def ifeq : UInt8 := 153
def ifAcmpne : UInt8 := 166
def goto : UInt8 := 167
def jsr : UInt8 := 168
def ret : UInt8 := 169
def tableswitch : UInt8 := 170
def lookupswitch : UInt8 := 171
def getstatic : UInt8 := 178
def putstatic : UInt8 := 179
def getfield : UInt8 := 180
def invokevirtual : UInt8 := 182
def invokespecial : UInt8 := 183
def invokestatic : UInt8 := 184
def invokeinterface : UInt8 := 185
def invokedynamic : UInt8 := 186
def newObject : UInt8 := 187
def newarray : UInt8 := 188
def anewarray : UInt8 := 189
def athrow : UInt8 := 191
def checkcast : UInt8 := 192
def wide : UInt8 := 196
def multianewarray : UInt8 := 197
def ifnull : UInt8 := 198
def ifnonnull : UInt8 := 199
def gotoW : UInt8 := 200
def jsrW : UInt8 := 201

/-- Whether an opcode leaves the method with or without a value. -/
def isReturn (op : UInt8) : Bool :=
  172 ≤ op && op ≤ 177

/-- Whether an opcode jumps only if a condition holds. -/
def isConditional (op : UInt8) : Bool :=
  (ifeq ≤ op && op ≤ ifAcmpne) || op == ifnull || op == ifnonnull

/-- Conditional jumps stand in pairs, each the negation of the other. -/
def invertJump (op : UInt8) : UInt8 :=
  if op == ifnull then ifnonnull
  else if op == ifnonnull then ifnull
  else ((op + 1) ^^^ 1) - 1

/-- Whether a load or store moves a value of two slots. -/
def movesWide (op : UInt8) : Bool :=
  op == lload || op == dload || op == lstore || op == dstore

/-- The shape of the operands behind an opcode. -/
inductive Layout where
  /-- No operands. -/
  | bare
  /-- A signed byte. -/
  | signedByte
  /-- A signed number of two bytes. -/
  | signedShort
  /-- A local variable in a byte. -/
  | localIndex
  /-- A local variable said by the opcode. -/
  | impliedIndex
  /-- A class constant. -/
  | type
  /-- A field or method constant. -/
  | member
  /-- A method constant, a count of arguments and a zero byte. -/
  | interfaceMethod
  /-- A call site and two zero bytes. -/
  | callSite
  /-- A jump distance of two bytes. -/
  | jump
  /-- A jump distance of four bytes. -/
  | wideJump
  /-- A constant in a byte. -/
  | constant
  /-- A constant in two bytes. -/
  | wideConstant
  /-- A local variable and a signed increment, a byte each. -/
  | increment
  | tableSwitch
  | lookupSwitch
  /-- A class constant and a number of dimensions in a byte. -/
  | multiArray
  /-- An opcode whose operands are twice as wide. -/
  | wide
  deriving DecidableEq, Repr, Inhabited

/-- The operands of an opcode; a byte that no instruction uses has none. -/
def layout (op : UInt8) : Layout :=
  if op == 16 || op == newarray then .signedByte
  else if op == sipush then .signedShort
  else if op == ldc then .constant
  else if op == ldcW || op == ldc2W then .wideConstant
  else if (iload ≤ op && op ≤ aload) || (istore ≤ op && op ≤ astore) || op == ret then .localIndex
  else if (iload0 ≤ op && op ≤ 45) || (istore0 ≤ op && op ≤ 78) then .impliedIndex
  else if op == iinc then .increment
  else if (153 ≤ op && op ≤ jsr) || op == ifnull || op == ifnonnull then .jump
  else if op == gotoW || op == jsrW then .wideJump
  else if op == tableswitch then .tableSwitch
  else if op == lookupswitch then .lookupSwitch
  else if getstatic ≤ op && op ≤ invokestatic then .member
  else if op == invokeinterface then .interfaceMethod
  else if op == invokedynamic then .callSite
  else if op == newObject || op == anewarray || op == checkcast || op == 193 then .type
  else if op == wide then .wide
  else if op == multianewarray then .multiArray
  else .bare

end ClassFile.Opcode
