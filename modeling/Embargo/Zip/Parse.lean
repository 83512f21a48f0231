import Embargo.Zip.Basic
import Embargo.Zip.CodePage
import Embargo.Zip.Ending
import Embargo.Zip.Label
import Embargo.Zip.Stream
import Std.Data.HashMap

/-!
Archives read from bytes. The end record is looked for from the end backwards,
and one that leads to no readable directory is passed over.
-/
namespace Embargo.Zip

namespace Moment

def isLeap (year : Nat) : Bool := year % 4 = 0 && (year % 100 ≠ 0 || year % 400 = 0)

def daysIn (year month : Nat) : Nat :=
  if month = 2 then (if isLeap year then 29 else 28)
  else if month = 4 ∨ month = 6 ∨ month = 9 ∨ month = 11 then 30
  else 31

/-- A moment from its packed date and time, if there is such a moment. -/
def unpack? (date time : Nat) : Option Moment :=
  let year := 1980 + date / 512
  let month := date / 32 % 16
  let day := date % 32
  let hour := time / 2048
  let minute := time / 32 % 64
  let second := 2 * (time % 32)
  if 1 ≤ month ∧ month ≤ 12 ∧ 1 ≤ day ∧ day ≤ daysIn year month ∧ hour ≤ 23 ∧ minute ≤ 59 ∧
      second ≤ 60 then
    some ⟨year, month, day, hour, minute, min second 58⟩
  else none

end Moment

namespace Entry

/-- The mode that an entry's attributes stand for on the system that wrote it. -/
def modeOf (system attributes : Nat) : Option UInt32 :=
  if attributes = 0 then none
  else if system = 3 then some (UInt32.ofNat (attributes / 0x10000))
  else if system = 0 then
    let mode : UInt32 := if attributes / 16 % 2 = 1 then 0o40775 else 0o100664
    some (if attributes % 2 = 1 then mode &&& 0o555 else mode)
  else none

/-- The method that is noted in place of the true one under the second encryption
scheme. -/
def secretMethod : Nat := 99

/-- Where the data behind the local header at an offset starts. -/
def dataStart (data : ByteArray) (header : Nat) : Except Fault Nat :=
  match Layout.number data header 4, Layout.number data (header + 26) 2,
    Layout.number data (header + 28) 2 with
  | some mark, some nameLength, some extraLength =>
    if mark = Layout.localMark then .ok (header + 30 + nameLength + extraLength)
    else .error .badEntry
  | _, _, _ => .error (.unreadable .truncated)

/-- The data of an entry in an archive that is moved forward so far. -/
def streamOf (data : ByteArray) (shift : Nat) (isEncrypted : Bool) (checksum : UInt32)
    (label : Label) : Except Fault Stream := do
  if isEncrypted then throw .encrypted
  let start ← dataStart data (shift + label.header)
  let stop := min data.size (start + label.packedSize)
  let stream ←
    if label.method = 0 then pure (Stream.stored data start stop checksum)
    else if label.method = 8 then pure (Stream.deflated data start stop checksum)
    else throw .unsupportedMethod
  if label.secret then throw .wrongPassword
  return stream

/-- The entry that a directory record describes, and where the next record starts. -/
def ofRecord? (data : ByteArray) (shift offset : Nat) : Option (Entry × Nat) := do
  let number (place width : Nat) := Layout.number data (offset + place) width
  if !Layout.isMarked data offset Layout.centralMark then none
  let madeBy ← number 4 2
  let flags ← number 8 2
  let method ← number 10 2
  let time ← number 12 2
  let date ← number 14 2
  let checksum ← number 16 4
  let packedSize ← number 20 4
  let size ← number 24 4
  let nameLength ← number 28 2
  let extraLength ← number 30 2
  let commentLength ← number 32 2
  let attributes ← number 38 4
  let header ← number 42 4
  let extraStart := offset + 46 + nameLength
  let commentStart := extraStart + extraLength
  let next := commentStart + commentLength
  if data.size < next then none
  let decode := if flags.testBit 11 then Text.Utf8.decodeLossy else CodePage.decode
  let rawName := Layout.slice data (offset + 46) extraStart
  let noted : Label := {
    rawName, method, size, packedSize, header
    name := decode rawName
    comment := decode (Layout.slice data commentStart next)
    secret := false }
  let label ← noted.complete? (Layout.slice data extraStart commentStart)
  if label.method = secretMethod ∧ ¬label.secret then none
  if 0x10000000000000000 ≤ shift + label.header then none
  let entry : Entry := {
    name := label.name
    method := if label.method = 0 then .stored else .deflated
    modified := Moment.unpack? date time
    mode := modeOf (madeBy / 256) attributes
    declaredSize := UInt64.ofNat label.size
    content := streamOf data shift (flags.testBit 0) (UInt32.ofNat checksum) label }
  return (entry, next)

end Entry

namespace Archive

/-- The entries for the names of a list, each at the first place of its name and put
behind those of `done`, which is reversed. -/
def distinct (entries : Std.HashMap String Entry) : List Entry → List Entry → Archive
  | [], done => done.reverse
  | first :: rest, done =>
    match entries[first.name]? with
    | some entry => distinct (entries.erase first.name) rest (entry :: done)
    | none => distinct entries rest done

/-- Entries with no name twice. Each name keeps its first place and its last entry. -/
def ofEntries (entries : List Entry) : Archive :=
  distinct (.ofList (entries.map fun entry => (entry.name, entry))) entries []

/-- So many directory records in a row, their entries put behind those of `done`,
which is reversed. -/
def records (data : ByteArray) (shift : Nat) : Nat → Nat → List Entry → Option (List Entry)
  | 0, _, done => some done.reverse
  | count + 1, offset, done => do
    let (entry, next) ← Entry.ofRecord? data shift offset
    records data shift count next (entry :: done)

/-- The archive whose end record is at a place. -/
def endingAt (data : ByteArray) (places : Places) (offset : Nat) : Option Archive := do
  let ending ← Ending.at? data places offset
  let entries ← records data ending.shift ending.count ending.start []
  return ofEntries entries

/-- The archive with the last end record that leads to one. -/
def parse (bytes : List UInt8) : Except Fault Archive :=
  let data : ByteArray := ⟨bytes.toArray⟩
  let places := Places.of data
  match places.ends.reverse.findSome? (endingAt data places) with
  | some archive => .ok archive
  | none => .error .noDirectory

end Archive

end Embargo.Zip
