import Embargo.Code.Instruction

/-!
Instructions as bytes. The bytes depend on where an instruction stands: targets
are written as deltas and switch operands are aligned.
-/
namespace Embargo.Instruction

/-- The distance from an instruction to its target. -/
def delta (offset target : Nat) : Int := (target : Int) - (offset : Int)

/-- The low 32 bits of a distance. -/
def wideDelta (offset target : Nat) : List UInt8 :=
  Bytes.i32 (Int32.ofInt (delta offset target))

/-- A distance in 16 bits, where it fits. -/
def narrowDelta (offset target : Nat) : Except Fault (List UInt8) :=
  let distance := delta offset target
  if -32768 ≤ distance ∧ distance ≤ 32767 then
    .ok (Bytes.u16 (Int16.ofInt distance).toUInt16)
  else .error (.branchOutOfRange offset distance)

/-- Zero bytes that align the operands of a switch. -/
def padding (offset : Nat) : List UInt8 := List.replicate (switchPadding offset) 0

def encode (offset : Nat) : Instruction → Except Fault (List UInt8)
  | plain op operands => .ok (op :: operands)
  | branch op target =>
    if op.isWideBranch then .ok (op :: wideDelta offset target)
    else (narrowDelta offset target).map (op :: ·)
  | tableSwitch otherwise low high targets =>
    .ok (Opcode.tableSwitch :: (padding offset ++ wideDelta offset otherwise
      ++ Bytes.i32 low ++ Bytes.i32 high ++ targets.flatMap (wideDelta offset)))
  | lookupSwitch otherwise pairs =>
    .ok (Opcode.lookupSwitch :: (padding offset ++ wideDelta offset otherwise
      ++ Bytes.i32 (Int32.ofNat pairs.length)
      ++ pairs.flatMap fun (key, target) => Bytes.i32 key ++ wideDelta offset target))

end Embargo.Instruction
