import Embargo.ClassFile.Pool

/-!
Adding constants to a pool. A constant that is already there is found again
instead of being added twice, and what was added stays when a later step fails.
-/
namespace Embargo
open Text

/-- A step that may add constants. -/
abbrev PoolStep (α : Type) := Attempt Pool α

namespace Pool

/-- The most slots that a pool may have. -/
def capacity : Nat := 65535

/-- Whether a slot holds a constant. -/
def isHeld (constant : Constant) : Option Constant → Bool
  | some other => constant.isSame other
  | none => false

theorem isHeld_iff {constant : Constant} {slot : Option Constant} :
    isHeld constant slot = true ↔ slot = some constant := by
  cases slot with
  | none => simp [isHeld]
  | some other => rw [isHeld, Constant.isSame_iff, Option.some.injEq, eq_comm]

/-- The position of a constant that the pool already holds. -/
def find? (pool : Pool) (constant : Constant) : Option Nat :=
  pool.slots.findIdx? (isHeld constant)

/-- The index of a constant, which is added unless it is there already. -/
def intern (constant : Constant) : PoolStep UInt16 := fun pool =>
  match pool.find? constant with
  | some position => (.ok (UInt16.ofNat position), pool)
  | none =>
    if pool.slots.size + constant.width ≤ capacity then (.ok pool.count, pool.push constant)
    else (.error .poolFull, pool)

def addUtf8 (text : String) : PoolStep UInt16 :=
  intern (.utf8 (ModifiedUtf8.encode text))

def addClass (name : String) : PoolStep UInt16 := do
  let name ← addUtf8 name
  intern (.classRef name)

def addString (text : String) : PoolStep UInt16 := do
  let text ← addUtf8 text
  intern (.string text)

def addNameAndType (name descriptor : String) : PoolStep UInt16 := do
  let name ← addUtf8 name
  let descriptor ← addUtf8 descriptor
  intern (.nameAndType name descriptor)

def addMember (kind : MemberKind) (member : MemberRef) : PoolStep UInt16 := do
  let owner ← addClass member.owner
  let nameAndType ← addNameAndType member.name member.descriptor
  intern (.member kind owner nameAndType)

end Pool

end Embargo
