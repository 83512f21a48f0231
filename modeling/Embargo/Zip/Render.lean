import Embargo.Text.Utf8
import Embargo.Zip.Basic
import Embargo.Zip.Checksum
import Embargo.Zip.Deflate
import Embargo.Zip.Layout

/-!
Archives written as bytes: each member behind its header, then the directory,
then the end record. Members keep their order.
-/
namespace Embargo.Zip

/-- What is written as one entry. -/
structure Member where
  name : String
  method : Method
  modified : Moment
  /-- File type and permissions. -/
  mode : UInt32
  data : List UInt8
  deriving DecidableEq, Repr

namespace Member

/-- A file; of a mode only the permissions count. -/
def file (name : String) (method : Method) (modified : Option Moment) (mode : Option UInt32)
    (data : List UInt8) : Member :=
  { name, method, data
    modified := modified.getD .earliest
    mode := 0o100000 ||| (mode.getD 0o644 &&& 0o777) }

/-- A directory, which has no data. -/
def directory (name : String) (modified : Option Moment) (mode : Option UInt32) : Member :=
  { name
    method := .stored
    modified := modified.getD .earliest
    mode := 0o040000 ||| (mode.getD 0o755 &&& 0o777)
    data := [] }

end Member

namespace Moment

def packedDate (moment : Moment) : Nat :=
  moment.day + 32 * moment.month + 512 * (moment.year - 1980)

/-- The time of day; odd seconds cannot be noted. -/
def packedTime (moment : Moment) : Nat :=
  moment.second / 2 + 32 * moment.minute + 2048 * moment.hour

end Moment

namespace Record

/-- A number in some bytes, the lowest first. -/
def number : Nat → Nat → List UInt8
  | 0, _ => []
  | width + 1, value => UInt8.ofNat (value % 256) :: number width (value / 256)

/-- Numbers one after another, each as its width and its value. -/
def fields (values : List (Nat × Nat)) : List UInt8 :=
  values.flatMap fun (width, value) => number width value

end Record

/-- A member with its data packed. -/
structure Packed where
  member : Member
  name : List UInt8
  checksum : UInt32
  payload : List UInt8

namespace Packed

def ofMember (member : Member) : Packed :=
  { member
    name := Text.Utf8.encode member.name
    checksum := Checksum.ofBytes member.data
    payload := match member.method with
      | .stored => member.data
      | .deflated => Deflate.wrap member.data }

/-- The part that both headers share, from the version needed to the name's length. -/
def shared (packed : Packed) : List (Nat × Nat) :=
  let member := packed.member
  [(2, 20), (2, if packed.name.all (· < 0x80) then 0 else 0x800),
    (2, match member.method with | .stored => 0 | .deflated => 8),
    (2, member.modified.packedTime), (2, member.modified.packedDate),
    (4, packed.checksum.toNat), (4, packed.payload.length),
    (4, member.data.length), (2, packed.name.length), (2, 0)]

def localPart (packed : Packed) : List UInt8 :=
  Record.fields ((4, Layout.localMark) :: packed.shared) ++ packed.name ++ packed.payload

def directoryPart (packed : Packed) (offset : Nat) : List UInt8 :=
  Record.fields ((4, Layout.centralMark) :: (2, 3 * 256 + 20) :: packed.shared ++
    [(2, 0), (2, 0), (2, 0), (4, packed.member.mode.toNat * 0x10000), (4, offset)]) ++ packed.name

end Packed

/-- Directory parts of members whose local parts start at an offset, put behind those
of `done`, which is reversed. -/
def directoryOnto (done : List (List UInt8)) : Nat → List (Packed × List UInt8) → List UInt8
  | _, [] => done.reverse.flatten
  | offset, (packed, written) :: rest =>
    directoryOnto (packed.directoryPart offset :: done) (offset + written.length) rest

/-- The end record of an archive with so many entries, a directory and parts in front
of it of such lengths. A wide one and its locator come before it where there are too
many entries for it. -/
def endPart (count directory body : Nat) : List UInt8 :=
  let wide :=
    if count ≤ 0xFFFF then []
    else
      [(4, Layout.wideEndMark), (8, 44), (2, 3 * 256 + 45), (2, 45), (4, 0), (4, 0), (8, count),
        (8, count), (8, directory), (8, body),
        (4, Layout.locatorMark), (4, 0), (8, body + directory), (4, 1)]
  Record.fields (wide ++ [(4, Layout.endMark), (2, 0), (2, 0), (2, min count 0xFFFF),
    (2, min count 0xFFFF), (4, directory), (4, body), (2, 0)])

/-- The bytes of an archive. -/
def render (members : List Member) : List UInt8 :=
  let written := members.map fun member =>
    let packed := Packed.ofMember member
    (packed, packed.localPart)
  let body := (written.map Prod.snd).flatten
  let directory := directoryOnto [] 0 written
  body ++ directory ++ endPart members.length directory.length body.length

end Embargo.Zip
