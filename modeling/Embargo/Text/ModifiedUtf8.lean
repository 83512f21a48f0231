import Embargo.Fault

/-!
The text encoding of class files. Text is cut into 16-bit units. The unit zero
and the units from `0x80` to `0x7FF` take two bytes, larger ones three, and a
character beyond the 16-bit range is the pair of its surrogate units, three
bytes each.
-/
namespace Embargo.Text.ModifiedUtf8

/-- The low six bits of a byte of the form `10xxxxxx`. -/
def continuation (b : UInt8) : Option UInt16 :=
  if b &&& 0xC0 = 0x80 then some (b &&& 0x3F).toUInt16 else none

/-- The units of a byte list, put behind those of `done`, which is reversed. -/
def unitsOnto (done : List UInt16) : List UInt8 → Option (List UInt16)
  | [] => some done.reverse
  | a :: rest =>
    if a &&& 0x80 = 0 then
      if a = 0 then none else unitsOnto (a.toUInt16 :: done) rest
    else if a &&& 0xE0 = 0xC0 then
      match rest with
      | b :: rest =>
        match continuation b with
        | some low => unitsOnto (((a &&& 0x1F).toUInt16 <<< 6 ||| low) :: done) rest
        | none => none
      | [] => none
    else if a &&& 0xF0 = 0xE0 then
      match rest with
      | b :: c :: rest =>
        match continuation b, continuation c with
        | some middle, some low =>
          unitsOnto (((a &&& 0x0F).toUInt16 <<< 12 ||| middle <<< 6 ||| low) :: done) rest
        | _, _ => none
      | _ => none
    else none

/-- The 16-bit units that a byte list stands for. -/
def units (bytes : List UInt8) : Option (List UInt16) := unitsOnto [] bytes

def isHighSurrogate (u : UInt16) : Bool := 0xD800 ≤ u && u < 0xDC00

def isLowSurrogate (u : UInt16) : Bool := 0xDC00 ≤ u && u < 0xE000

/-- The character of a surrogate pair. -/
def pairChar (high low : UInt16) : Char :=
  Char.ofNat (0x10000 + (high.toNat - 0xD800) * 0x400 + (low.toNat - 0xDC00))

/-- The character of a unit outside a pair; a surrogate has none of its own and
becomes the replacement character. -/
def loneChar (u : UInt16) : Char :=
  if isHighSurrogate u || isLowSurrogate u then '\uFFFD' else Char.ofNat u.toNat

/-- The characters of a unit list, put behind those of `done`, which is reversed. -/
def charsOnto (done : List Char) : List UInt16 → List Char
  | [] => done.reverse
  | [u] => (loneChar u :: done).reverse
  | u :: v :: rest =>
    if isHighSurrogate u && isLowSurrogate v then charsOnto (pairChar u v :: done) rest
    else charsOnto (loneChar u :: done) (v :: rest)

def decode (bytes : List UInt8) : Except Fault String :=
  match units bytes with
  | some us => .ok (String.ofList (charsOnto [] us))
  | none => .error .invalidText

/-- The one or two units of a character. -/
def charUnits (c : Char) : List UInt16 :=
  let n := c.toNat
  if n < 0x10000 then [UInt16.ofNat n]
  else
    let offset := n - 0x10000
    [UInt16.ofNat (0xD800 + offset / 0x400), UInt16.ofNat (0xDC00 + offset % 0x400)]

/-- A byte of the form `10xxxxxx` with the low six bits of a unit. -/
def continuationByte (u : UInt16) : UInt8 := 0x80 ||| (u &&& 0x3F).toUInt8

/-- The shortest byte group of a unit, except that zero takes two bytes. -/
def unitBytes (u : UInt16) : List UInt8 :=
  if 0x01 ≤ u && u ≤ 0x7F then [u.toUInt8]
  else if u ≤ 0x7FF then [(0xC0 : UInt8) ||| (u >>> 6).toUInt8, continuationByte u]
  else
    [(0xE0 : UInt8) ||| (u >>> 12).toUInt8, continuationByte (u >>> 6), continuationByte u]

def encode (text : String) : List UInt8 :=
  (text.toList.flatMap charUnits).flatMap unitBytes

end Embargo.Text.ModifiedUtf8
