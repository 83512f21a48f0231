import Embargo.Bytes.Output
import Embargo.Code.Opcode
import Embargo.Fault

/-!
Instructions whose branch targets are absolute code offsets, so that they can be
moved. Everything else of an instruction keeps its operand bytes as read.
-/
namespace Embargo

inductive Instruction where
  | plain (opcode : Opcode) (operands : List UInt8)
  | branch (opcode : Opcode) (target : Nat)
  | tableSwitch (otherwise : Nat) (low high : Int32) (targets : List Nat)
  | lookupSwitch (otherwise : Nat) (pairs : List (Int32 × Nat))
  deriving DecidableEq, Repr

/-- An instruction at its place in a code array. -/
structure Located where
  offset : Nat
  instruction : Instruction
  deriving DecidableEq, Repr

/-- Padding bytes that align the operands of a switch at `offset` to four. -/
def switchPadding (offset : Nat) : Nat := 3 - offset % 4

namespace Instruction

def simple (opcode : Opcode) : Instruction := plain opcode []

/-- An instruction with a 16-bit pool index. -/
def indexed (opcode : Opcode) (index : UInt16) : Instruction :=
  plain opcode (Bytes.u16 index)

def opcode : Instruction → Opcode
  | plain op _ | branch op _ => op
  | tableSwitch .. => Opcode.tableSwitch
  | lookupSwitch .. => Opcode.lookupSwitch

def endsFlow (i : Instruction) : Bool := i.opcode.endsFlow

/-- The number of bytes that the instruction takes at `offset`. -/
def sizeAt (offset : Nat) : Instruction → Nat
  | plain _ operands => 1 + operands.length
  | branch op _ => if op.isWideBranch then 5 else 3
  | tableSwitch _ _ _ targets => 1 + switchPadding offset + 12 + 4 * targets.length
  | lookupSwitch _ pairs => 1 + switchPadding offset + 8 + 8 * pairs.length

/-- The code offsets that the instruction can jump to. -/
def targets : Instruction → List Nat
  | plain .. => []
  | branch _ target => [target]
  | tableSwitch otherwise _ _ targets => otherwise :: targets
  | lookupSwitch otherwise pairs => otherwise :: pairs.map Prod.snd

/-- The instruction with every target sent through `move`, from the first to the
last. -/
def mapTargets {m : Type → Type} [Monad m] (move : Nat → m Nat) :
    Instruction → m Instruction
  | plain op operands => pure (plain op operands)
  | branch op target => do return branch op (← move target)
  | tableSwitch otherwise low high targets => do
    let otherwise ← move otherwise
    let targets ← targets.mapM move
    return tableSwitch otherwise low high targets
  | lookupSwitch otherwise pairs => do
    let otherwise ← move otherwise
    let pairs ← pairs.mapM fun (key, target) => do return (key, ← move target)
    return lookupSwitch otherwise pairs

/-- The pool index among the operands. -/
def poolIndex? : Instruction → Option UInt16
  | plain op operands =>
    if op = Opcode.ldc then operands.head?.map UInt8.toUInt16
    else if op.hasPoolIndex then
      match operands with
      | high :: low :: _ => some (high.toUInt16 <<< 8 ||| low.toUInt16)
      | _ => none
    else none
  | _ => none

/-- The first variable slot that the instruction touches, and how many it
touches from there on. -/
def localSlot? : Instruction → Option (UInt16 × UInt16)
  | plain op operands =>
    if op = Opcode.wide then
      match operands with
      | inner :: high :: low :: _ =>
        some (high.toUInt16 <<< 8 ||| low.toUInt16, if Opcode.isWideLocal inner then 2 else 1)
      | _ => none
    else if op.namesLocal || op = Opcode.iinc || op = Opcode.ret then
      operands.head?.map fun index => (index.toUInt16, if op.isWideLocal then 2 else 1)
    else
      op.shortFormLocal?.map fun index => (index, if op.isWideLocal then 2 else 1)
  | _ => none

end Instruction

end Embargo
