import Embargo.Bytes.Count
import Embargo.Bytes.Output
import Embargo.Bytes.Reader

/-!
Attributes: a name and a payload that only the attribute's own reader
understands.
-/
namespace Embargo

structure Attribute where
  name : UInt16
  payload : List UInt8
  deriving DecidableEq, Repr

namespace Attribute

def read : Reader Attribute := do
  let name ← Reader.u16
  let length ← Reader.u32
  let payload ← Reader.bytes length.toNat
  return { name, payload }

def toBytes (a : Attribute) : List UInt8 :=
  Bytes.u16 a.name ++ Bytes.u32 (UInt32.ofNat a.payload.length)
    ++ a.payload

def readList : Reader (List Attribute) := Reader.counted read

def listBytes (attributes : List Attribute) : Except Fault (List UInt8) := do
  let count ← Bytes.count "attributes" attributes.length
  return Bytes.u16 count ++ attributes.flatMap toBytes

end Attribute

end Embargo
