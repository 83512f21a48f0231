import Embargo.ClassFile.Attribute

/-!
Method bodies: the payload of a method's code attribute.
-/
namespace Embargo

/-- A row of the exception table. A catch type of zero catches everything. -/
structure Handler where
  startPc : UInt16
  endPc : UInt16
  handlerPc : UInt16
  catchType : UInt16
  deriving DecidableEq, Repr

def Handler.read : Reader Handler := do
  let startPc ← Reader.u16
  let endPc ← Reader.u16
  let handlerPc ← Reader.u16
  let catchType ← Reader.u16
  return { startPc, endPc, handlerPc, catchType }

def Handler.toBytes (handler : Handler) : List UInt8 :=
  Bytes.u16 handler.startPc ++ Bytes.u16 handler.endPc ++ Bytes.u16 handler.handlerPc
    ++ Bytes.u16 handler.catchType

structure Body where
  maxStack : UInt16
  maxLocals : UInt16
  code : List UInt8
  handlers : List Handler
  attributes : List Attribute
  deriving DecidableEq, Repr

namespace Body

def read : Reader Body := do
  let maxStack ← Reader.u16
  let maxLocals ← Reader.u16
  let length ← Reader.u32
  let code ← Reader.bytes length.toNat
  let handlers ← Reader.counted Handler.read
  let attributes ← Attribute.readList
  return { maxStack, maxLocals, code, handlers, attributes }

def parse (data : List UInt8) : Except Fault Body := Reader.parse read data

/-- The written form. It can declare any code length of 32 bits, but the format
allows 16. -/
def toBytes (body : Body) : Except Fault (List UInt8) := do
  if 65535 < body.code.length then
    throw (.codeTooLarge body.code.length)
  let handlers ← Bytes.count "exception handlers" body.handlers.length
  let attributes ← Attribute.listBytes body.attributes
  return Bytes.u16 body.maxStack ++ Bytes.u16 body.maxLocals
    ++ Bytes.u32 (UInt32.ofNat body.code.length) ++ body.code
    ++ Bytes.u16 handlers ++ body.handlers.flatMap Handler.toBytes ++ attributes

end Body

end Embargo
