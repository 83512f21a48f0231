import Embargo.Bytes.Output
import Embargo.Text.Hex

/-!
SHA-256, one byte at a time, and the digest as text.
-/
namespace Embargo

namespace Sha256

/-- Eight words, the first named `a`. -/
structure Registers where
  a : UInt32
  b : UInt32
  c : UInt32
  d : UInt32
  e : UInt32
  f : UInt32
  g : UInt32
  h : UInt32

namespace Registers

def start : Registers :=
  ⟨0x6a09e667, 0xbb67ae85, 0x3c6ef372, 0xa54ff53a, 0x510e527f, 0x9b05688c, 0x1f83d9ab, 0x5be0cd19⟩

def add (s t : Registers) : Registers :=
  ⟨s.a + t.a, s.b + t.b, s.c + t.c, s.d + t.d, s.e + t.e, s.f + t.f, s.g + t.g, s.h + t.h⟩

def words (s : Registers) : List UInt32 := [s.a, s.b, s.c, s.d, s.e, s.f, s.g, s.h]

end Registers

/-- The constants of the 64 rounds. -/
def constants : List UInt32 :=
  [0x428a2f98, 0x71374491, 0xb5c0fbcf, 0xe9b5dba5, 0x3956c25b, 0x59f111f1, 0x923f82a4, 0xab1c5ed5,
    0xd807aa98, 0x12835b01, 0x243185be, 0x550c7dc3, 0x72be5d74, 0x80deb1fe, 0x9bdc06a7, 0xc19bf174,
    0xe49b69c1, 0xefbe4786, 0x0fc19dc6, 0x240ca1cc, 0x2de92c6f, 0x4a7484aa, 0x5cb0a9dc, 0x76f988da,
    0x983e5152, 0xa831c66d, 0xb00327c8, 0xbf597fc7, 0xc6e00bf3, 0xd5a79147, 0x06ca6351, 0x14292967,
    0x27b70a85, 0x2e1b2138, 0x4d2c6dfc, 0x53380d13, 0x650a7354, 0x766a0abb, 0x81c2c92e, 0x92722c85,
    0xa2bfe8a1, 0xa81a664b, 0xc24b8b70, 0xc76c51a3, 0xd192e819, 0xd6990624, 0xf40e3585, 0x106aa070,
    0x19a4c116, 0x1e376c08, 0x2748774c, 0x34b0bcb5, 0x391c0cb3, 0x4ed8aa4a, 0x5b9cca4f, 0x682e6ff3,
    0x748f82ee, 0x78a5636f, 0x84c87814, 0x8cc70208, 0x90befffa, 0xa4506ceb, 0xbef9a3f7, 0xc67178f2]

def rotate (word count : UInt32) : UInt32 := (word >>> count) ||| (word <<< (32 - count))

/-- The word behind sixteen words of the schedule. -/
def scheduled (window : List UInt32) : UInt32 :=
  let early := window[1]?.getD 0
  let late := window[14]?.getD 0
  (rotate late 17 ^^^ rotate late 19 ^^^ (late >>> 10)) + window[9]?.getD 0 +
    (rotate early 7 ^^^ rotate early 18 ^^^ (early >>> 3)) + window[0]?.getD 0

/-- One round, with the sum of its constant and its word of the schedule. -/
def round (s : Registers) (sum : UInt32) : Registers :=
  let added := s.h + (rotate s.e 6 ^^^ rotate s.e 11 ^^^ rotate s.e 25) +
    ((s.e &&& s.f) ^^^ (~~~s.e &&& s.g)) + sum
  let mixed := (rotate s.a 2 ^^^ rotate s.a 13 ^^^ rotate s.a 22) +
    ((s.a &&& s.b) ^^^ (s.a &&& s.c) ^^^ (s.b &&& s.c))
  ⟨added + mixed, s.a, s.b, s.c, s.d + added, s.e, s.f, s.g⟩

/-- The rounds of some constants, with the next sixteen words of the schedule. -/
def rounds (s : Registers) : List UInt32 → List UInt32 → Registers
  | constant :: constants, word :: window =>
    rounds (round s (constant + word)) constants (window ++ [scheduled (word :: window)])
  | _, _ => s

/-- What has been seen of some data: the registers behind its whole blocks, the words of the block
that it ends in, the last first, and the bytes of an unfinished word. -/
structure Absorption where
  registers : Registers
  words : List UInt32
  word : UInt32
  count : Nat

def absorb (state : Absorption) (b : UInt8) : Absorption :=
  let word := (state.word <<< 8) ||| b.toUInt32
  if state.count < 3 then { state with word, count := state.count + 1 }
  else
    let words := word :: state.words
    if words.length < 16 then { state with words, word := 0, count := 0 }
    else ⟨state.registers.add (rounds state.registers constants words.reverse), [], 0, 0⟩

/-- Data in whole blocks: a mark and the number of its bits are put behind it. -/
def padded (bytes : List UInt8) : List UInt8 :=
  bytes ++ 0x80 :: List.replicate ((119 - bytes.length % 64) % 64) 0 ++
    Bytes.u64 (UInt64.ofNat (8 * bytes.length))

def digest (bytes : List UInt8) : List UInt32 :=
  ((padded bytes).foldl absorb ⟨.start, [], 0, 0⟩).registers.words

/-- The digest in hexadecimal digits. -/
def text (bytes : List UInt8) : String :=
  String.ofList ((digest bytes).flatMap fun word => Text.Hex.digits 8 word.toNat)

example : text [0x61, 0x62, 0x63] =
    "ba7816bf8f01cfea414140de5dae2223b00361a396177a9cb410ff61f20015ad" := by
  decide +kernel

end Sha256

/-- The digest by which a file is told from others. -/
class Digest where
  text : List UInt8 → String

instance : Digest := ⟨Sha256.text⟩

end Embargo
