/-!
Opcodes and what the instruction set fixes about each of them. Facts that hold
of runs of opcodes are kept as tables of ranges.
-/
namespace Embargo

abbrev Opcode := UInt8

namespace Opcode

def nop : Opcode := 0x00
def ldc : Opcode := 0x12
def ldcW : Opcode := 0x13
def ldc2W : Opcode := 0x14
def dup : Opcode := 0x59
def iinc : Opcode := 0x84
def jsr : Opcode := 0xa8
def ret : Opcode := 0xa9
def tableSwitch : Opcode := 0xaa
def lookupSwitch : Opcode := 0xab
def getStatic : Opcode := 0xb2
def putStatic : Opcode := 0xb3
def getField : Opcode := 0xb4
def putField : Opcode := 0xb5
def invokeSpecial : Opcode := 0xb7
def invokeStatic : Opcode := 0xb8
def invokeDynamic : Opcode := 0xba
def new : Opcode := 0xbb
def athrow : Opcode := 0xbf
def wide : Opcode := 0xc4
def multiNewArray : Opcode := 0xc5
def gotoW : Opcode := 0xc8
def jsrW : Opcode := 0xc9

/-- Whether an opcode lies between two others, both included. -/
def within (op first last : Opcode) : Bool := first ≤ op && op ≤ last

/-- The entry of the first row whose range holds the opcode. -/
def lookup {α : Type} (rows : List (Opcode × Opcode × α)) (op : Opcode) : Option α :=
  (rows.find? fun row => op.within row.1 row.2.1).map fun row => row.2.2

/-- Operand bytes of the instructions of fixed length without code offsets. -/
def operandRows : List (Opcode × Opcode × Nat) := [
  (0x00, 0x0f, 0), (0x10, 0x10, 1), (0x11, 0x11, 2), (0x12, 0x12, 1), (0x13, 0x14, 2),
  (0x15, 0x19, 1), (0x1a, 0x35, 0), (0x36, 0x3a, 1), (0x3b, 0x83, 0), (0x84, 0x84, 2),
  (0x85, 0x98, 0), (0xa9, 0xa9, 1), (0xac, 0xb1, 0), (0xb2, 0xb8, 2), (0xb9, 0xba, 4),
  (0xbb, 0xbb, 2), (0xbc, 0xbc, 1), (0xbd, 0xbd, 2), (0xbe, 0xbf, 0), (0xc0, 0xc1, 2),
  (0xc2, 0xc3, 0), (0xc5, 0xc5, 3)]

def operandLength? (op : Opcode) : Option Nat := lookup operandRows op

/-- A branch with a 16-bit delta. -/
def isNarrowBranch (op : Opcode) : Bool :=
  op.within 0x99 0xa8 || op.within 0xc6 0xc7

/-- A branch with a 32-bit delta. -/
def isWideBranch (op : Opcode) : Bool := op.within gotoW jsrW

/-- The loads `iload` to `aload` and the stores `istore` to `astore`, which name
their variable in an operand. -/
def namesLocal (op : Opcode) : Bool := op.within 0x15 0x19 || op.within 0x36 0x3a

/-- Operand bytes behind the inner opcode of a widened instruction. -/
def widenedLength? (inner : Opcode) : Option Nat :=
  if inner = iinc then some 4
  else if inner.namesLocal || inner = ret then some 2
  else none

def isFieldAccess (op : Opcode) : Bool := op.within getStatic putField

/-- The four invocations that name their method by a member constant. -/
def isMethodInvoke (op : Opcode) : Bool := op.within 0xb6 0xb9

/-- Whether control never goes on to the next instruction. -/
def endsFlow (op : Opcode) : Bool :=
  op = 0xa7 || op = gotoW || op = ret || op = tableSwitch || op = lookupSwitch
    || op = athrow || op.within 0xac 0xb1

/-- Whether the two operand bytes behind the opcode are a pool index. -/
def hasPoolIndex (op : Opcode) : Bool :=
  op = ldcW || op = ldc2W || op.within getStatic new || op = 0xbd
    || op.within 0xc0 0xc1 || op = multiNewArray

/-- The short forms of loads and stores, four variables for each of the types
int, long, float, double and reference: the first opcode of the run. -/
def shortFormStart? (op : Opcode) : Option Opcode :=
  if op.within 0x1a 0x2d then some 0x1a
  else if op.within 0x3b 0x4e then some 0x3b
  else none

/-- The variable that a short form is for. -/
def shortFormLocal? (op : Opcode) : Option UInt16 :=
  (shortFormStart? op).map fun start => ((op - start) % 4).toUInt16

/-- Whether the variable of a load or store takes two slots. -/
def isWideLocal (op : Opcode) : Bool :=
  match shortFormStart? op with
  | some start => (op - start) / 4 = 1 || (op - start) / 4 = 3
  | none => op = 0x16 || op = 0x18 || op = 0x37 || op = 0x39

end Opcode

end Embargo
