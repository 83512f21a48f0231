import Embargo.Bytes.Reader
import Embargo.Code.Instruction
import Std.Data.TreeSet

/-!
Code arrays as instruction lists. A code array is accepted only if every target
of every instruction is the start of an instruction.
-/
namespace Embargo

namespace Reader

def position : Reader Nat := fun cursor => (.ok cursor.position, cursor)

/-- Whether at least `n` bytes are left. -/
def available (n : Nat) : Reader Bool := fun cursor =>
  (.ok (n = 0 || !(cursor.rest.drop (n - 1)).isEmpty), cursor)

end Reader

namespace Instruction

/-- The offset at a distance from an instruction; it has to fit in 32 bits. -/
def absolute (offset : Nat) (distance : Int32) : Except Fault Nat :=
  let target := (offset : Int) + distance.toInt
  if 0 ≤ target ∧ target < 4294967296 then .ok target.toNat
  else .error (.badCodeOffset offset)

/-- A part of the instruction at `offset`; it is truncated if the code ends
inside the part. -/
def part {α : Type} (offset : Nat) (reader : Reader α) : Reader α :=
  reader.reporting fun _ => .truncatedInstruction offset

/-- A target written as a 32-bit distance. -/
def readTarget (offset : Nat) : Reader Nat := do
  let distance ← part offset Reader.i32
  Attempt.ofExcept (absolute offset distance)

/-- What follows the opcode of a `tableswitch`. -/
def readTableSwitch (offset : Nat) : Reader Instruction := do
  let _ ← part offset (Reader.bytes (switchPadding offset))
  let otherwise ← readTarget offset
  let low ← part offset Reader.i32
  let high ← part offset Reader.i32
  if high < low then
    throw (.truncatedInstruction offset)
  let count := (high.toInt - low.toInt + 1).toNat
  unless ← Reader.available (4 * count) do
    throw (.truncatedInstruction offset)
  let targets ← Reader.many count (readTarget offset)
  return tableSwitch otherwise low high targets

def readPair (offset : Nat) : Reader (Int32 × Nat) := do
  let key ← part offset Reader.i32
  let target ← readTarget offset
  return (key, target)

/-- What follows the opcode of a `lookupswitch`. -/
def readLookupSwitch (offset : Nat) : Reader Instruction := do
  let _ ← part offset (Reader.bytes (switchPadding offset))
  let otherwise ← readTarget offset
  let count ← part offset Reader.i32
  if count < 0 then
    throw (.truncatedInstruction offset)
  unless ← Reader.available (8 * count.toInt.toNat) do
    throw (.truncatedInstruction offset)
  let pairs ← Reader.many count.toInt.toNat (readPair offset)
  return lookupSwitch otherwise pairs

/-- The instruction of an opcode that was just read at `offset`. -/
def readOperands (offset : Nat) (op : Opcode) : Reader Instruction := do
  if let some length := op.operandLength? then
    return plain op (← part offset (Reader.bytes length))
  else if op.isNarrowBranch then
    let distance ← part offset Reader.u16
    return branch op (← Attempt.ofExcept (absolute offset distance.toInt16.toInt32))
  else if op.isWideBranch then
    return branch op (← readTarget offset)
  else if op = Opcode.wide then
    let inner ← part offset Reader.u8
    match Opcode.widenedLength? inner with
    | some length => return plain op (inner :: (← part offset (Reader.bytes length)))
    | none => throw (.unknownOpcode inner offset)
  else if op = Opcode.tableSwitch then readTableSwitch offset
  else if op = Opcode.lookupSwitch then readLookupSwitch offset
  else throw (.unknownOpcode op offset)

def read : Reader Located := do
  let offset ← Reader.position
  let op ← Reader.u8
  let instruction ← readOperands offset op
  return { offset, instruction }

/-- Instructions to the end of the data, put behind those of `done`, which is
reversed. Each takes at least one byte, so the length of the data is fuel
enough. -/
def readAllOnto : Nat → List Located → Cursor → Except Fault (List Located)
  | 0, done, _ => .ok done.reverse
  | fuel + 1, done, cursor =>
    if cursor.rest.isEmpty then .ok done.reverse
    else
      match read.run cursor with
      | (.ok located, cursor) => readAllOnto fuel (located :: done) cursor
      | (.error fault, _) => .error fault

/-- The first target that is not the offset of an instruction in the list. -/
def strayTarget? (code : List Located) : Option Nat :=
  let boundaries := Std.TreeSet.ofList (code.map Located.offset)
  (code.flatMap fun located => located.instruction.targets).find? fun target =>
    !boundaries.contains target

def decode (code : List UInt8) : Except Fault (List Located) := do
  let instructions ← readAllOnto code.length [] (Cursor.start code)
  match strayTarget? instructions with
  | some target => .error (.badCodeOffset target)
  | none => return instructions

end Instruction

end Embargo
