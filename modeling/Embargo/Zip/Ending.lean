import Embargo.Zip.Layout

/-!
The records at the end of an archive, which tell where its directory is. Where a
number does not fit in the end record, a wide one stands in front of it, and right
before the end record a locator of the wide one. Junk in front of the archive moves
all of them forward, so a record is looked for from its noted place on.
-/
namespace Embargo.Zip

/-- Where the directory of an archive is. -/
structure Ending where
  /-- How far the archive is moved forward. -/
  shift : Nat
  /-- Where the directory starts. -/
  start : Nat
  /-- How many records it has. -/
  count : Nat
  deriving DecidableEq, Repr

/-- Where the records of an archive may be, by their marks and in order. -/
structure Places where
  directory : List Nat
  wideEnds : List Nat
  ends : List Nat
  deriving DecidableEq, Repr

def Places.of (data : ByteArray) : Places :=
  let starts := Layout.starts data
  let marked (mark : Nat) := starts.filter fun offset => Layout.isMarked data offset mark
  { directory := marked Layout.centralMark
    wideEnds := marked Layout.wideEndMark
    ends := marked Layout.endMark }

namespace Ending

/-- Whether an offset is from a noted one on and in front of another record. -/
def isBetween (noted stop offset : Nat) : Bool := noted ≤ offset && offset < stop

/-- The locator of a wide end record. -/
structure Locator where
  offset : Nat
  directoryDisk : Nat
  /-- Where the wide end record is noted to be. -/
  noted : Nat
  disks : Nat
  deriving DecidableEq, Repr

/-- The locator in front of an end record. -/
def locatorBefore? (data : ByteArray) (offset : Nat) : Option Locator := do
  if offset < 20 then none
  let offset := offset - 20
  let number (place width : Nat) := Layout.number data (offset + place) width
  if !Layout.isMarked data offset Layout.locatorMark then none
  return { offset, directoryDisk := ← number 4 4, noted := ← number 8 8, disks := ← number 16 4 }

structure Wide where
  offset : Nat
  disk : Nat
  directoryDisk : Nat
  onDisk : Nat
  total : Nat
  /-- Where the directory is noted to start. -/
  noted : Nat
  deriving DecidableEq, Repr

/-- The wide end record at a place. It reaches up to its locator and agrees with
it, and there is room for the directory in front of it. -/
def wideAt? (data : ByteArray) (locator : Locator) (offset : Nat) : Option Wide := do
  let size := locator.offset - (offset + 12)
  if size < 44 ∨ !Layout.holds data (offset + 4) size 8 then none
  let number (place width : Nat) := Layout.number data (offset + place) width
  let wide : Wide := {
    offset
    disk := ← number 16 4
    directoryDisk := ← number 20 4
    onDisk := ← number 24 8
    total := ← number 32 8
    noted := ← number 48 8 }
  if wide.directoryDisk ≠ locator.directoryDisk then none
  if offset < 46 * wide.total + wide.noted then none
  return wide

/-- The directory as a wide end record has it. -/
def ofLocator? (data : ByteArray) (places : Places) (locator : Locator) : Option Ending := do
  if locator.offset ≤ locator.noted ∨ 1 < locator.disks then none
  let inFront := places.wideEnds.filter (isBetween locator.noted locator.offset)
  let wide ← inFront.findSome? (wideAt? data locator)
  if wide.total < wide.onDisk then none
  if wide.disk ≠ wide.directoryDisk then none
  let shift := wide.offset - locator.noted
  return { shift, start := wide.noted + shift, count := wide.total }

/-- The directory of the archive whose end record is at a place. -/
def at? (data : ByteArray) (places : Places) (offset : Nat) : Option Ending := do
  let number (place width : Nat) := Layout.number data (offset + place) width
  let disk ← number 4 2
  let directoryDisk ← number 6 2
  let onDisk ← number 8 2
  let total ← number 10 2
  let noted ← number 16 4
  let commentLength ← number 20 2
  if data.size < offset + 22 + commentLength then none
  let isWide := total = 0xFFFF ∨ noted = Layout.unfit
  match if isWide then locatorBefore? data offset else none with
  | some locator => ofLocator? data places locator
  | none =>
    if disk ≠ directoryDisk then none
    if total = 0 then
      return { shift := offset - noted, start := max noted offset, count := onDisk }
    let start ← places.directory.find? (isBetween noted offset)
    return { shift := start - noted, start, count := onDisk }

end Ending

end Embargo.Zip
