/-!
What the parts of an archive have in common: a mark at the start of each, and numbers
with the lowest byte first.
-/
namespace Embargo.Zip.Layout

def localMark : Nat := 0x04034b50
def centralMark : Nat := 0x02014b50
def endMark : Nat := 0x06054b50
def wideEndMark : Nat := 0x06064b50
def locatorMark : Nat := 0x07064b50

/-- The number of four bytes that stands for one that does not fit. -/
def unfit : Nat := 0xFFFFFFFF

/-- A number of some bytes at an offset. -/
def number (data : ByteArray) (offset : Nat) : Nat → Option Nat
  | 0 => some 0
  | width + 1 => do
    let low ← data[offset]?
    let high ← number data (offset + 1) width
    return low.toNat + 256 * high

/-- Whether a number stands at an offset in some bytes. -/
def holds (data : ByteArray) (offset value : Nat) : Nat → Bool
  | 0 => true
  | width + 1 =>
    match data[offset]? with
    | some low => low.toNat = value % 256 && holds data (offset + 1) (value / 256) width
    | none => false

/-- Whether a part with a mark starts at an offset. -/
def isMarked (data : ByteArray) (offset mark : Nat) : Bool := holds data offset mark 4

/-- The bytes from one offset to another, as far as there are any. -/
def slice (data : ByteArray) (start stop : Nat) : List UInt8 := (data.extract start stop).data.toList

/-- The offsets below a bound where a mark may stand, in front of those of `after`. -/
def startsOnto (data : ByteArray) : Nat → List Nat → List Nat
  | 0, after => after
  | offset + 1, after =>
    startsOnto data offset (if holds data offset 0x4b50 2 then offset :: after else after)

/-- The offsets where a mark may stand, in order. All marks start with the same two
bytes. -/
def starts (data : ByteArray) : List Nat := startsOnto data data.size []

end Embargo.Zip.Layout
