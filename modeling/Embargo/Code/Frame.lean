import Embargo.Code.Descriptor

/-!
Stack map frames at absolute code offsets, with whole local and stack lists.
-/
namespace Embargo

/-- What the verifier knows about a value. -/
inductive ValueType where
  | top
  | integer
  | float
  | double
  | long
  | null
  | uninitializedThis
  /-- A class name or the text of an array type. -/
  | object (name : String)
  /-- The result of the `new` instruction at a code offset, before its
  constructor ran. -/
  | uninitialized (offset : Nat)
  deriving DecidableEq, Repr

namespace ValueType

/-- The slots of a value; long and double take two. -/
def slots : ValueType → Nat
  | long | double => 2
  | _ => 1

def ofField : FieldType → ValueType
  | .int => integer
  | .float => float
  | .long => long
  | .double => double
  | .reference name => object name

/-- The code offset that the type names, if any. -/
def newOffset? : ValueType → Option Nat
  | uninitialized offset => some offset
  | _ => none

end ValueType

structure Frame where
  offset : Nat
  locals : List ValueType
  stack : List ValueType
  deriving DecidableEq, Repr

namespace Frame

def slotCount (types : List ValueType) : Nat :=
  types.foldl (fun slots type => slots + type.slots) 0

def localSlots (frame : Frame) : Nat := slotCount frame.locals

def stackSlots (frame : Frame) : Nat := slotCount frame.stack

/-- The offsets of the `new` instructions whose results the frame mentions. -/
def newOffsets (frame : Frame) : List Nat :=
  (frame.locals ++ frame.stack).filterMap ValueType.newOffset?

/-- The receiver of a method on entry. In a constructor it is not initialized
yet, except in the constructor of the root class. -/
def receiver (className methodName : String) : ValueType :=
  if methodName = "<init>" ∧ className ≠ "java/lang/Object" then .uninitializedThis
  else .object className

/-- The locals on entry to a method: its receiver, if any, and its parameters. -/
def initialLocals (className methodName descriptor : String) (isStatic : Bool) :
    Except Fault (List ValueType) := do
  let (parameters, _) ← Descriptor.parseMethod descriptor
  let receivers := if isStatic then [] else [receiver className methodName]
  return receivers ++ parameters.map ValueType.ofField

end Frame

end Embargo
