import Embargo.Bytes.Count
import Embargo.ClassFile.PoolGrowth
import Embargo.Code.Frame

/-!
Stack map tables. A frame is written relative to the one before it: its offset as
the gap between the two, and its locals, where possible, as a change of the
locals before.
-/
namespace Embargo

namespace ValueType

def read (pool : Pool) : Reader ValueType := do
  let tag ← Reader.u8
  match tag with
  | 0 => return top
  | 1 => return integer
  | 2 => return float
  | 3 => return double
  | 4 => return long
  | 5 => return null
  | 6 => return uninitializedThis
  | 7 =>
    let index ← Reader.u16
    return object (← Attempt.ofExcept (pool.className index))
  | 8 => return uninitialized (← Reader.u16).toNat
  | _ => throw (.badStackMap (.unknownTypeTag tag))

/-- The bytes of a type; a class name goes into the pool. -/
def write : ValueType → PoolStep (List UInt8)
  | top => return [0]
  | integer => return [1]
  | float => return [2]
  | double => return [3]
  | long => return [4]
  | null => return [5]
  | uninitializedThis => return [6]
  | object name => return 7 :: Bytes.u16 (← Pool.addClass name)
  | uninitialized offset =>
    if offset < 65536 then return 8 :: Bytes.u16 (UInt16.ofNat offset)
    else throw (.codeTooLarge offset)

/-- Types one after another. -/
def writeList (types : List ValueType) : PoolStep (List UInt8) :=
  return (← types.mapM write).flatten

end ValueType

namespace FrameTable

/-- What one written frame says: the gap before it, the locals it leaves and its
stack. -/
structure Entry where
  gap : Nat
  locals : List ValueType
  stack : List ValueType

def readGap : Reader Nat := return (← Reader.u16).toNat

/-- The frame of a kind that was just read; `before` are the locals of the frame
in front and `index` is its place in the table. -/
def readKind (pool : Pool) (index : Nat) (before : List ValueType) (kind : UInt8) :
    Reader Entry := do
  if kind < 64 then
    return ⟨kind.toNat, before, []⟩
  else if kind < 128 then
    return ⟨kind.toNat - 64, before, [← ValueType.read pool]⟩
  else if kind < 247 then
    throw (.badStackMap (.reservedKind kind index))
  else if kind = 247 then
    let gap ← readGap
    return ⟨gap, before, [← ValueType.read pool]⟩
  else if kind < 251 then
    let gap ← readGap
    let chop := 251 - kind.toNat
    if before.length < chop then
      throw (.badStackMap (.chopTooDeep chop before.length))
    return ⟨gap, before.take (before.length - chop), []⟩
  else if kind = 251 then
    return ⟨← readGap, before, []⟩
  else if kind < 255 then
    let gap ← readGap
    let added ← Reader.many (kind.toNat - 251) (ValueType.read pool)
    return ⟨gap, before ++ added, []⟩
  else
    let gap ← readGap
    let locals ← Reader.counted (ValueType.read pool)
    let stack ← Reader.counted (ValueType.read pool)
    return ⟨gap, locals, stack⟩

def readEntry (pool : Pool) (index : Nat) (before : List ValueType) : Reader Entry := do
  readKind pool index before (← Reader.u8)

/-- The offset of the frame that follows `previous` after a gap. -/
def offsetAfter (previous : Option Nat) (gap : Nat) : Nat :=
  match previous with
  | none => gap
  | some offset => offset + gap + 1

/-- `n` frames, put behind those of `done`, which is reversed. -/
def readOnto (pool : Pool) (index : Nat) (previous : Option Nat) (before : List ValueType) :
    Nat → List Frame → Cursor → Except Fault (List Frame) × Cursor
  | 0, done, cursor => (.ok done.reverse, cursor)
  | n + 1, done, cursor =>
    match (readEntry pool index before).run cursor with
    | (.ok entry, cursor) =>
      let offset := offsetAfter previous entry.gap
      let frame : Frame := { offset, locals := entry.locals, stack := entry.stack }
      readOnto pool (index + 1) (some offset) entry.locals n (frame :: done) cursor
    | (.error fault, cursor) => (.error fault, cursor)

def read (pool : Pool) (initial : List ValueType) : Reader (List Frame) := do
  let count ← Reader.u16
  readOnto pool 0 none initial count.toNat []

/-- The frames of a table; `initial` are the locals on entry to the method. -/
def decode (pool : Pool) (initial : List ValueType) (data : List UInt8) :
    Except Fault (List Frame) :=
  Reader.parse (read pool initial) data

/-- The gap between two frames; the second has to come later. -/
def gapAfter (previous : Option Nat) (offset : Nat) : Except Fault Nat :=
  match previous with
  | none => .ok offset
  | some before =>
    if before < offset then .ok (offset - before - 1)
    else .error (.badStackMap (.outOfOrder offset))

/-- A kind with a short gap in it, or a long form and the gap behind it. -/
def gapBytes (short : Nat → UInt8) (long : UInt8) (gap : Nat) : List UInt8 :=
  if gap < 64 then [short gap] else long :: Bytes.u16 (UInt16.ofNat gap)

/-- The form that states all locals and the whole stack. -/
def writeFull (gap : Nat) (frame : Frame) : PoolStep (List UInt8) := do
  let localCount ← Attempt.ofExcept (Bytes.count "frame locals" frame.locals.length)
  let locals ← ValueType.writeList frame.locals
  let stackCount ← Attempt.ofExcept (Bytes.count "frame stack items" frame.stack.length)
  let stack ← ValueType.writeList frame.stack
  return 255 :: (Bytes.u16 (UInt16.ofNat gap) ++ Bytes.u16 localCount ++ locals
    ++ Bytes.u16 stackCount ++ stack)

/-- Whether `longer` is `shorter` and one to three types more. -/
def extendsByFew (shorter longer : List ValueType) : Bool :=
  shorter.length < longer.length && longer.length - shorter.length ≤ 3
    && shorter.isPrefixOf longer

/-- The shortest form of a frame, relative to the locals in front of it. -/
def writeEntry (before : List ValueType) (gap : Nat) (frame : Frame) :
    PoolStep (List UInt8) :=
  let locals := frame.locals
  match frame.stack with
  | [] =>
    if locals = before then
      return gapBytes UInt8.ofNat 251 gap
    else if extendsByFew locals before then
      return UInt8.ofNat (251 - (before.length - locals.length))
        :: Bytes.u16 (UInt16.ofNat gap)
    else if extendsByFew before locals then do
      let added ← ValueType.writeList (locals.drop before.length)
      return UInt8.ofNat (251 + (locals.length - before.length))
        :: (Bytes.u16 (UInt16.ofNat gap) ++ added)
    else writeFull gap frame
  | [item] =>
    if locals = before then
      return gapBytes (fun gap => UInt8.ofNat (64 + gap)) 247 gap ++ (← item.write)
    else writeFull gap frame
  | _ => writeFull gap frame

/-- Frames behind `previous`, whose locals are `before`. -/
def writeOnto (previous : Option Nat) (before : List ValueType) :
    List Frame → List (List UInt8) → Pool → Except Fault (List (List UInt8)) × Pool
  | [], done, pool => (.ok done.reverse, pool)
  | frame :: frames, done, pool =>
    match gapAfter previous frame.offset with
    | .error fault => (.error fault, pool)
    | .ok gap =>
      if 65535 < gap then (.error (.codeTooLarge frame.offset), pool)
      else
        match (writeEntry before gap frame).run pool with
        | (.ok bytes, pool) =>
          writeOnto (some frame.offset) frame.locals frames (bytes :: done) pool
        | (.error fault, pool) => (.error fault, pool)

/-- The table of frames in the order of their offsets. -/
def encode (initial : List ValueType) (frames : List Frame) : PoolStep (List UInt8) := do
  let count ← Attempt.ofExcept (Bytes.count "frames" frames.length)
  let parts ← (writeOnto none initial frames [] : PoolStep _)
  return Bytes.u16 count ++ parts.flatten

end FrameTable

end Embargo
