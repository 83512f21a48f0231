import Embargo.Text.Hex

/-!
What can be wrong with class file data. A fault names its cause; the wording is
in `Fault.message` alone.
-/
namespace Embargo
open Text

/-- The kind of constant that a pool index was expected to name. -/
inductive ConstantRole where
  | utf8
  | classRef
  | nameAndType
  | member
  | dynamic
  deriving DecidableEq, Repr

def ConstantRole.label : ConstantRole → String
  | .utf8 => "Utf8"
  | .classRef => "Class"
  | .nameAndType => "NameAndType"
  | .member => "member reference"
  | .dynamic => "dynamic constant"

/-- A stack map table that breaks the rules of its format. -/
inductive FrameFault where
  | unknownTypeTag (tag : UInt8)
  | chopTooDeep (chop available : Nat)
  | reservedKind (kind : UInt8) (frame : Nat)
  | outOfOrder (offset : Nat)
  deriving DecidableEq, Repr

def FrameFault.message : FrameFault → String
  | .unknownTypeTag tag => s!"unknown verification type tag {tag}"
  | .chopTooDeep chop available => s!"chop of {chop} locals from {available}"
  | .reservedKind kind frame => s!"reserved frame type {kind} in frame {frame}"
  | .outOfOrder offset => s!"frame at {offset} is out of order"

/-- Why class file data was refused. -/
inductive Fault where
  | unexpectedEnd (offset : Nat)
  | badMagic (found : UInt32)
  | trailingBytes (count : Nat)
  | badConstantIndex (index : UInt16)
  | unknownConstantTag (tag : UInt8) (index : UInt16)
  | constantRole (index : UInt16) (expected : ConstantRole)
  | invalidText
  | poolFull
  | unknownOpcode (opcode : UInt8) (offset : Nat)
  | truncatedInstruction (offset : Nat)
  | badCodeOffset (offset : Nat)
  | branchOutOfRange (offset : Nat) (delta : Int)
  | tooMany (what : String) (count : Nat)
  | codeTooLarge (size : Nat)
  | badDescriptor (descriptor : String)
  | badStackMap (cause : FrameFault)
  | stackUnderflow (offset : Nat)
  | inMethod (method : String) (cause : Fault)
  deriving DecidableEq, Repr

def Fault.message : Fault → String
  | .unexpectedEnd offset => s!"Unexpected end of class data at offset {offset}"
  | .badMagic found => "Bad magic number: " ++ Hex.literal 8 found.toNat
  | .trailingBytes count => s!"{count} trailing bytes after class data"
  | .badConstantIndex index => s!"Invalid constant pool index: {index}"
  | .unknownConstantTag tag index => s!"Unknown constant pool tag {tag} at index {index}"
  | .constantRole index expected => s!"Constant #{index} is not a " ++ expected.label
  | .invalidText => "Malformed modified UTF-8 in constant pool"
  | .poolFull => "Constant pool is full"
  | .unknownOpcode opcode offset =>
    "Unknown opcode " ++ Hex.literal 2 opcode.toNat ++ s!" at offset {offset}"
  | .truncatedInstruction offset => s!"Truncated instruction at offset {offset}"
  | .badCodeOffset offset => s!"Code offset {offset} is not an instruction boundary"
  | .branchOutOfRange offset delta =>
    s!"Branch at offset {offset} needs a delta of {delta}, which does not fit in 16 bits"
  | .tooMany what count => s!"Too many {what}: {count} (max: 65535)"
  | .codeTooLarge size => s!"Method code is {size} bytes (max: 65535)"
  | .badDescriptor descriptor => "Invalid descriptor: " ++ descriptor
  | .badStackMap cause => "Malformed stack map frame: " ++ cause.message
  | .stackUnderflow offset => s!"Operand stack underflow at offset {offset}"
  | .inMethod method cause => "In method " ++ method ++ ": " ++ cause.message

/-- A step that may fail and leaves a state behind either way. -/
abbrev Attempt (σ α : Type) := ExceptT Fault (StateM σ) α

namespace Attempt
variable {σ α : Type}

/-- A state-free outcome as a step. -/
def ofExcept (outcome : Except Fault α) : Attempt σ α :=
  fun state => (outcome, state)

/-- The same step under another name for whatever goes wrong in it. -/
def reporting (step : Attempt σ α) (rename : Fault → Fault) : Attempt σ α :=
  fun state =>
    match step.run state with
    | (.ok value, state) => (.ok value, state)
    | (.error fault, state) => (.error (rename fault), state)

end Attempt

end Embargo
