import Embargo.Code.Descriptor
import Embargo.Code.Instruction

/-!
The local variable slots of a method: enough for its parameters, its receiver and
every instruction that names a variable.
-/
namespace Embargo.LocalSlots

/-- The slots that one instruction needs. -/
def needed (i : Instruction) : Nat :=
  match i.localSlot? with
  | some (slot, width) => slot.toNat + width.toNat
  | none => 0

/-- The slots that the parameters and all instructions need, if 16 bits can hold them. -/
def limit (code : List Located) (descriptor : String) (isStatic : Bool) :
    Except Fault UInt16 := do
  let arguments ← Descriptor.argumentSlots descriptor
  let receiver := if isStatic then 0 else 1
  let slots := code.foldl (fun slots located => max slots (needed located.instruction))
    (arguments.toNat + receiver)
  if slots < 65536 then return UInt16.ofNat slots
  else throw (.tooMany "local variable slots" slots)

end Embargo.LocalSlots
