import Embargo.ClassFile.Member

/-!
Whole class files. Everything that is not given structure here is kept as raw
bytes, so that a class that is only read is written back byte for byte.
-/
namespace Embargo

structure ClassFile where
  minorVersion : UInt16
  majorVersion : UInt16
  pool : Pool
  flags : UInt16
  thisClass : UInt16
  superClass : UInt16
  interfaces : List UInt16
  fields : List Member
  methods : List Member
  attributes : List Attribute
  deriving DecidableEq, Repr

namespace ClassFile

def magic : UInt32 := 0xCAFEBABE

/-- The first version whose verifier checks stack map frames. -/
def stackMapVersion : UInt16 := 50

/-- The internal name of the class. -/
def name (c : ClassFile) : Except Fault String := c.pool.className c.thisClass

/-- The internal name of the superclass; the root class has none. -/
def superName (c : ClassFile) : Except Fault (Option String) :=
  if c.superClass = 0 then .ok none else (c.pool.className c.superClass).map some

def usesStackMaps (c : ClassFile) : Bool := stackMapVersion ≤ c.majorVersion

def read : Reader ClassFile := do
  let found ← Reader.u32
  if found ≠ magic then
    throw (.badMagic found)
  let minorVersion ← Reader.u16
  let majorVersion ← Reader.u16
  let pool ← Pool.read
  let flags ← Reader.u16
  let thisClass ← Reader.u16
  let superClass ← Reader.u16
  let interfaces ← Reader.counted Reader.u16
  let fields ← Member.readList
  let methods ← Member.readList
  let attributes ← Attribute.readList
  return {
    minorVersion, majorVersion, pool, flags, thisClass, superClass, interfaces, fields,
    methods, attributes }

/-- The class that the data holds. A class that cannot be named is refused. -/
def parse (data : List UInt8) : Except Fault ClassFile := do
  let c ← Reader.parse read data
  let _ ← c.name
  return c

def toBytes (c : ClassFile) : Except Fault (List UInt8) := do
  let interfaces ← Bytes.count "interfaces" c.interfaces.length
  let fields ← Member.listBytes c.fields
  let methods ← Member.listBytes c.methods
  let attributes ← Attribute.listBytes c.attributes
  return Bytes.u32 magic ++ Bytes.u16 c.minorVersion ++ Bytes.u16 c.majorVersion
    ++ c.pool.toBytes ++ Bytes.u16 c.flags ++ Bytes.u16 c.thisClass
    ++ Bytes.u16 c.superClass ++ Bytes.u16 interfaces ++ c.interfaces.flatMap Bytes.u16
    ++ fields ++ methods ++ attributes

end ClassFile

end Embargo
