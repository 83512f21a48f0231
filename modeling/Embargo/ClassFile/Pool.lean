import Embargo.ClassFile.Constant
import Embargo.Text.ModifiedUtf8

/-!
The constant pool: indexed slots, of which slot zero and the slot behind every
wide constant hold nothing.
-/
namespace Embargo
open Text

/-- A field or method named by its owner, its name and its descriptor. -/
structure MemberRef where
  owner : String
  name : String
  descriptor : String
  deriving DecidableEq, Repr

structure Pool where
  slots : Array (Option Constant)
  deriving DecidableEq, Repr

namespace Pool

def empty : Pool := ⟨#[none]⟩

/-- One more than the highest index. -/
def count (pool : Pool) : UInt16 := UInt16.ofNat pool.slots.size

/-- A constant in the next free slots. -/
def push (pool : Pool) (constant : Constant) : Pool :=
  let slots := pool.slots.push (some constant)
  ⟨if constant.isWide then slots.push none else slots⟩

def get (pool : Pool) (index : UInt16) : Except Fault Constant :=
  match pool.slots[index.toNat]? with
  | some (some constant) => .ok constant
  | _ => .error (.badConstantIndex index)

def utf8 (pool : Pool) (index : UInt16) : Except Fault String := do
  match ← pool.get index with
  | .utf8 bytes => ModifiedUtf8.decode bytes
  | _ => .error (.constantRole index .utf8)

/-- The internal name or array descriptor of a class constant. -/
def className (pool : Pool) (index : UInt16) : Except Fault String := do
  match ← pool.get index with
  | .classRef name => pool.utf8 name
  | _ => .error (.constantRole index .classRef)

def nameAndType (pool : Pool) (index : UInt16) : Except Fault (String × String) := do
  match ← pool.get index with
  | .nameAndType name descriptor =>
    let name ← pool.utf8 name
    let descriptor ← pool.utf8 descriptor
    return (name, descriptor)
  | _ => .error (.constantRole index .nameAndType)

def member (pool : Pool) (index : UInt16) : Except Fault MemberRef := do
  match ← pool.get index with
  | .member _ owner nameAndType =>
    let (name, descriptor) ← pool.nameAndType nameAndType
    let owner ← pool.className owner
    return { owner, name, descriptor }
  | _ => .error (.constantRole index .member)

/-- The descriptor that a dynamic constant or call site carries. -/
def dynamicDescriptor (pool : Pool) (index : UInt16) : Except Fault String := do
  match ← pool.get index with
  | .dynamic _ nameAndType | .invokeDynamic _ nameAndType =>
    return (← pool.nameAndType nameAndType).2
  | _ => .error (.constantRole index .dynamic)

/-- Each constant with its index, in order. -/
def entries (pool : Pool) : List (UInt16 × Constant) :=
  pool.slots.toList.zipIdx.filterMap fun (slot, index) =>
    slot.map fun constant => (UInt16.ofNat index, constant)

/-- Constants until `count` slots are taken; every constant takes at least one,
so `fuel` of at least `count` never runs out. -/
def readOnto (count : Nat) : Nat → Pool → Cursor → Except Fault Pool × Cursor
  | 0, pool, cursor => (.ok pool, cursor)
  | fuel + 1, pool, cursor =>
    if pool.slots.size < count then
      match (Constant.read pool.count).run cursor with
      | (.ok constant, cursor) => readOnto count fuel (pool.push constant) cursor
      | (.error fault, cursor) => (.error fault, cursor)
    else (.ok pool, cursor)

/-- A pool behind its slot count. A wide constant in the last slot would run
over the count and is refused, as is a count of zero. -/
def read : Reader Pool := do
  let count ← Reader.u16
  let pool ← (readOnto count.toNat count.toNat empty : Reader Pool)
  if count.toNat < pool.slots.size then
    throw (.badConstantIndex count)
  return pool

def toBytes (pool : Pool) : List UInt8 :=
  Bytes.u16 pool.count ++ pool.slots.toList.flatMap fun slot =>
    match slot with
    | some constant => constant.toBytes
    | none => []

end Pool

end Embargo
