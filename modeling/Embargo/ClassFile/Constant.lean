import Embargo.Bytes.Output
import Embargo.Bytes.Reader

/-!
Constants of a class file, one by one.
-/
namespace Embargo

/-- The three kinds of member reference. -/
inductive MemberKind where
  | field
  | method
  | interfaceMethod
  deriving DecidableEq, Repr

/-- One constant. Text keeps its bytes and floating point its bits, so that a
constant that is only read is written back unchanged. -/
inductive Constant where
  | utf8 (bytes : List UInt8)
  | integer (value : Int32)
  | float (bits : UInt32)
  | long (value : Int64)
  | double (bits : UInt64)
  | classRef (name : UInt16)
  | string (text : UInt16)
  | member (kind : MemberKind) (owner nameAndType : UInt16)
  | nameAndType (name descriptor : UInt16)
  | methodHandle (kind : UInt8) (reference : UInt16)
  | methodType (descriptor : UInt16)
  | dynamic (bootstrap nameAndType : UInt16)
  | invokeDynamic (bootstrap nameAndType : UInt16)
  | module (name : UInt16)
  | package (name : UInt16)
  deriving DecidableEq, Repr

namespace Constant

def tag : Constant → UInt8
  | utf8 _ => 1
  | integer _ => 3
  | float _ => 4
  | long _ => 5
  | double _ => 6
  | classRef _ => 7
  | string _ => 8
  | member .field _ _ => 9
  | member .method _ _ => 10
  | member .interfaceMethod _ _ => 11
  | nameAndType _ _ => 12
  | methodHandle _ _ => 15
  | methodType _ => 16
  | dynamic _ _ => 17
  | invokeDynamic _ _ => 18
  | module _ => 19
  | package _ => 20

/-- Whether the constant takes two slots of its pool. -/
def isWide : Constant → Bool
  | long _ | double _ => true
  | _ => false

/-- The number of pool slots that the constant takes. -/
def width (constant : Constant) : Nat := if constant.isWide then 2 else 1

/-- What follows the tag. -/
def payload : Constant → List UInt8
  | utf8 bytes => Bytes.u16 (UInt16.ofNat bytes.length) ++ bytes
  | integer value => Bytes.i32 value
  | float bits => Bytes.u32 bits
  | long value => Bytes.u64 value.toUInt64
  | double bits => Bytes.u64 bits
  | classRef index | string index | methodType index | module index | package index =>
    Bytes.u16 index
  | member _ first second | nameAndType first second | dynamic first second
  | invokeDynamic first second => Bytes.u16 first ++ Bytes.u16 second
  | methodHandle kind reference => Bytes.u8 kind ++ Bytes.u16 reference

def toBytes (constant : Constant) : List UInt8 := constant.tag :: constant.payload

/-- Whether two constants are the same, told without copies of them. -/
def isSame : Constant → Constant → Bool
  | utf8 a, utf8 b => a == b
  | integer a, integer b => a == b
  | float a, float b => a == b
  | long a, long b => a == b
  | double a, double b => a == b
  | classRef a, classRef b => a == b
  | string a, string b => a == b
  | member kind a b, member kind' c d => kind = kind' && a == c && b == d
  | nameAndType a b, nameAndType c d => a == c && b == d
  | methodHandle a b, methodHandle c d => a == c && b == d
  | methodType a, methodType b => a == b
  | dynamic a b, dynamic c d => a == c && b == d
  | invokeDynamic a b, invokeDynamic c d => a == c && b == d
  | module a, module b => a == b
  | package a, package b => a == b
  | _, _ => false

theorem isSame_iff {a b : Constant} : a.isSame b = true ↔ a = b := by
  cases a <;> cases b <;> simp [isSame, and_assoc]

/-- Two pool indices in a row. -/
def pair (make : UInt16 → UInt16 → Constant) : Reader Constant := do
  let first ← Reader.u16
  let second ← Reader.u16
  return make first second

/-- The constant that starts with its tag; `index` is where it goes. -/
def read (index : UInt16) : Reader Constant := do
  let tag ← Reader.u8
  match tag with
  | 1 => return .utf8 (← Reader.bytes (← Reader.u16).toNat)
  | 3 => return .integer (← Reader.i32)
  | 4 => return .float (← Reader.u32)
  | 5 => return .long (← Reader.u64).toInt64
  | 6 => return .double (← Reader.u64)
  | 7 => return .classRef (← Reader.u16)
  | 8 => return .string (← Reader.u16)
  | 9 => pair (.member .field)
  | 10 => pair (.member .method)
  | 11 => pair (.member .interfaceMethod)
  | 12 => pair .nameAndType
  | 15 =>
    let kind ← Reader.u8
    return .methodHandle kind (← Reader.u16)
  | 16 => return .methodType (← Reader.u16)
  | 17 => pair .dynamic
  | 18 => pair .invokeDynamic
  | 19 => return .module (← Reader.u16)
  | 20 => return .package (← Reader.u16)
  | _ => throw (.unknownConstantTag tag index)

end Constant

end Embargo
