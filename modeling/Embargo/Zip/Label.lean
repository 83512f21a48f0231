import Embargo.Text.Utf8
import Embargo.Zip.Checksum
import Embargo.Zip.Layout

/-!
What the directory notes of an entry, and the extra fields that complete it.

A field gives its kind, its length and its data. Sizes that do not fit in four
bytes, names in UTF-8 and a second encryption scheme are noted there. Fields that
end early are passed over from there on; a field that breaks the rules of its kind
spoils the directory.
-/
namespace Embargo.Zip

structure Label where
  rawName : List UInt8
  name : String
  comment : String
  method : Nat
  size : Nat
  packedSize : Nat
  /-- Where the header in front of the data is, counted from the start of the archive. -/
  header : Nat
  /-- Whether the data is encrypted under the second scheme. -/
  secret : Bool
  deriving DecidableEq, Repr

namespace ExtraField

inductive Stop where
  | ended
  | broken
  deriving DecidableEq, Repr

/-- The bytes ahead, and the label as far as fields have completed it. -/
structure Progress where
  ahead : List UInt8
  label : Label

/-- A step of reading fields; what the label has become before a stop stays. -/
abbrev Step (α : Type) := ExceptT Stop (StateM Progress) α

def bytes (n : Nat) : Step (List UInt8) := fun p =>
  if n ≤ p.ahead.length then (.ok (p.ahead.take n), { p with ahead := p.ahead.drop n })
  else (.error .ended, p)

/-- A number of some bytes, the lowest first. -/
def number (width : Nat) : Step Nat := do
  return (← bytes width).foldr (fun b high => b.toNat + 256 * high) 0

def skip (n : Nat) : Step Unit := do
  let _ ← bytes n

def relabel (change : Label → Label) : Step Unit := modify fun p =>
  { p with label := change p.label }

/-- A number of eight bytes in place of a noted one that did not fit. -/
def widened (isGiven : Bool) (noted : Nat) : Step Nat :=
  if isGiven || noted = Layout.unfit then number 8 else return noted

/-- Wide numbers for those that did not fit; a field of 24 bytes or more gives all. -/
def wideNumbers (length : Nat) : Step Unit := do
  let isFull := decide (24 ≤ length)
  let p ← get
  let size ← widened isFull p.label.size
  relabel fun label => { label with size }
  let packedSize ← widened isFull p.label.packedSize
  relabel fun label => { label with packedSize }
  let header ← widened isFull p.label.header
  relabel fun label => { label with header }
  let taken := p.ahead.length - (← get).ahead.length
  if length < taken then throw .broken
  skip (length - taken)

/-- Text in UTF-8 in place of other bytes, which its checksum is of. -/
def text (length : Nat) (replaced : List UInt8) : Step (List UInt8 × String) := do
  skip 1
  let checksum ← number 4
  if length < 5 then throw .broken
  let raw ← bytes (length - 5)
  if UInt32.ofNat checksum ≠ Checksum.ofBytes replaced then throw .broken
  match Text.Utf8.decode? raw with
  | some text => return (raw, text)
  | none => throw .broken

def name (length : Nat) : Step Unit := do
  let (rawName, name) ← text length (← get).label.rawName
  relabel fun label => { label with rawName, name }

def comment (length : Nat) : Step Unit := do
  let (_, comment) ← text length (Text.Utf8.encode (← get).label.comment)
  relabel fun label => { label with comment }

/-- The method of data that is encrypted under the second scheme, of which there are
two versions and three strengths. -/
def secret (length : Nat) : Step Unit := do
  if length ≠ 7 then throw .broken
  let version ← number 2
  let vendor ← number 2
  let strength ← number 1
  let method ← number 2
  if vendor ≠ 0x4541 then throw .broken
  if version < 1 ∨ 2 < version then throw .broken
  if strength < 1 ∨ 3 < strength then throw .broken
  relabel fun label => { label with method, secret := true }

/-- Times of four bytes for each flag that is set, which are not needed. A single
time may come with any flags. -/
def times (length : Nat) : Step Unit := do
  if length = 0 then throw .broken
  let flags ← number 1
  let count := ((List.range 8).filter flags.testBit).length
  if length ≠ 5 ∧ length ≠ 1 + 4 * count then throw .broken
  skip (length - 1)

/-- Times in one attribute of 24 bytes, which are not needed. -/
def fineTimes (length : Nat) : Step Unit := do
  if length ≠ 32 then throw .broken
  skip 4
  let tag ← number 2
  if tag ≠ 1 then throw .broken
  let size ← number 2
  if size ≠ 24 then throw .broken
  skip size

def field (kind length : Nat) : Step Unit :=
  match kind with
  | 0x0001 => wideNumbers length
  | 0x000A => fineTimes length
  | 0x5455 => times length
  | 0x6375 => comment length
  | 0x7075 => name length
  | 0x9901 => secret length
  | _ => skip length

/-- All fields. Each takes four bytes at least, so the bytes ahead are fuel enough. -/
def fields : Nat → Step Unit
  | 0 => return
  | fuel + 1 => do
    if (← get).ahead.isEmpty then return
    let kind ← number 2
    let length ← number 2
    field kind length
    fields fuel

end ExtraField

/-- The label with its extra fields, unless one of them is broken. -/
def Label.complete? (label : Label) (extra : List UInt8) : Option Label :=
  match (ExtraField.fields extra.length).run ⟨extra, label⟩ with
  | (.error .broken, _) => none
  | (_, p) => some p.label

end Embargo.Zip
