import Embargo.ClassFile.Attribute
import Embargo.ClassFile.Pool

/-!
Fields and methods as a class declares them.
-/
namespace Embargo

structure Member where
  flags : UInt16
  name : UInt16
  descriptor : UInt16
  attributes : List Attribute
  deriving DecidableEq, Repr

namespace Member

def read : Reader Member := do
  let flags ← Reader.u16
  let name ← Reader.u16
  let descriptor ← Reader.u16
  let attributes ← Attribute.readList
  return { flags, name, descriptor, attributes }

def toBytes (member : Member) : Except Fault (List UInt8) := do
  let attributes ← Attribute.listBytes member.attributes
  return Bytes.u16 member.flags ++ Bytes.u16 member.name ++ Bytes.u16 member.descriptor
    ++ attributes

def readList : Reader (List Member) := Reader.counted read

def listBytes (members : List Member) : Except Fault (List UInt8) := do
  let count ← Bytes.count "members" members.length
  let parts ← members.mapM toBytes
  return Bytes.u16 count ++ parts.flatten

def isStatic (member : Member) : Bool := member.flags &&& 0x0008 != 0

/-- The position of the first attribute of a given name. Names that the pool
cannot resolve match nothing. -/
def findAttribute (member : Member) (pool : Pool) (name : String) : Option Nat :=
  member.attributes.findIdx? fun a =>
    match pool.utf8 a.name with
    | .ok found => found == name
    | .error _ => false

end Member

end Embargo
