/-!
UTF-8 text in bytes. A byte that cannot go on with the character begun before it
ends that character, which is then malformed, and is looked at anew; so each
malformed part is the longest beginning of a character found there.
-/
namespace Embargo.Text.Utf8

/-- A character whose first bytes are known: its bits so far, how many bytes are
still to come, and the range of the next one. -/
structure Begun where
  bits : Nat
  left : Nat
  lowest : UInt8
  highest : UInt8

/-- The characters so far, the last one first, malformed parts among them. -/
structure Decoding where
  begun : Option Begun
  done : List (Option Char)

/-- The first byte of a character. -/
def first (done : List (Option Char)) (b : UInt8) : Decoding :=
  if b < 0x80 then ⟨none, some (Char.ofNat b.toNat) :: done⟩
  else if 0xC2 ≤ b ∧ b ≤ 0xDF then ⟨some ⟨b.toNat - 0xC0, 1, 0x80, 0xBF⟩, done⟩
  else if 0xE0 ≤ b ∧ b ≤ 0xEF then
    ⟨some ⟨b.toNat - 0xE0, 2, if b = 0xE0 then 0xA0 else 0x80, if b = 0xED then 0x9F else 0xBF⟩,
      done⟩
  else if 0xF0 ≤ b ∧ b ≤ 0xF4 then
    ⟨some ⟨b.toNat - 0xF0, 3, if b = 0xF0 then 0x90 else 0x80, if b = 0xF4 then 0x8F else 0xBF⟩,
      done⟩
  else ⟨none, none :: done⟩

def step (decoding : Decoding) (b : UInt8) : Decoding :=
  match decoding.begun with
  | none => first decoding.done b
  | some begun =>
    if begun.lowest ≤ b ∧ b ≤ begun.highest then
      let bits := 64 * begun.bits + (b.toNat - 0x80)
      if begun.left ≤ 1 then ⟨none, some (Char.ofNat bits) :: decoding.done⟩
      else ⟨some ⟨bits, begun.left - 1, 0x80, 0xBF⟩, decoding.done⟩
    else first (none :: decoding.done) b

/-- The characters of bytes and a place for every malformed part. -/
def characters (bytes : List UInt8) : List (Option Char) :=
  let decoding := bytes.foldl step ⟨none, []⟩
  let done := if decoding.begun.isSome then none :: decoding.done else decoding.done
  done.reverse

/-- The text of bytes that are well formed throughout. -/
def decode? (bytes : List UInt8) : Option String :=
  ((characters bytes).mapM id).map String.ofList

/-- The text of any bytes; malformed parts become replacement characters. -/
def decodeLossy (bytes : List UInt8) : String :=
  String.ofList ((characters bytes).map (·.getD '\uFFFD'))

def encode (text : String) : List UInt8 := text.toList.flatMap String.utf8EncodeChar

end Embargo.Text.Utf8
