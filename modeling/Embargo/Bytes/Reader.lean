import Embargo.Fault

/-!
Reading big-endian words from the front of a byte list. A read that finds too
few bytes fails at the position where it started and consumes nothing.
-/
namespace Embargo

/-- A position in a byte list together with the bytes still ahead. -/
structure Cursor where
  position : Nat
  rest : List UInt8
  deriving DecidableEq, Repr

def Cursor.start (data : List UInt8) : Cursor := ⟨0, data⟩

def Cursor.remaining (cursor : Cursor) : Nat := cursor.rest.length

/-- A step that consumes bytes. -/
abbrev Reader (α : Type) := Attempt Cursor α

namespace Reader
variable {α : Type}

/-- The next `n` bytes, all of them or a failure. -/
def bytes (n : Nat) : Reader (List UInt8) := fun cursor =>
  let taken := cursor.rest.take n
  if taken.length = n then
    (.ok taken, ⟨cursor.position + n, cursor.rest.drop n⟩)
  else
    (.error (.unexpectedEnd cursor.position), cursor)

def u8 : Reader UInt8 := fun cursor =>
  match cursor.rest with
  | a :: rest => (.ok a, ⟨cursor.position + 1, rest⟩)
  | _ => (.error (.unexpectedEnd cursor.position), cursor)

def u16 : Reader UInt16 := fun cursor =>
  match cursor.rest with
  | a :: b :: rest => (.ok (a.toUInt16 <<< 8 ||| b.toUInt16), ⟨cursor.position + 2, rest⟩)
  | _ => (.error (.unexpectedEnd cursor.position), cursor)

def u32 : Reader UInt32 := fun cursor =>
  match cursor.rest with
  | a :: b :: c :: d :: rest =>
    (.ok (a.toUInt32 <<< 24 ||| b.toUInt32 <<< 16 ||| c.toUInt32 <<< 8 ||| d.toUInt32),
      ⟨cursor.position + 4, rest⟩)
  | _ => (.error (.unexpectedEnd cursor.position), cursor)

def i32 : Reader Int32 := do
  return (← u32).toInt32

def u64 : Reader UInt64 := do
  let high ← u32
  let low ← u32
  return high.toUInt64 <<< 32 ||| low.toUInt64

/-- Succeeds only where nothing is left. -/
def finish : Reader Unit := fun cursor =>
  if cursor.rest.isEmpty then (.ok (), cursor)
  else (.error (.trailingBytes cursor.remaining), cursor)

/-- `n` items in a row, put behind those of `done`, which is reversed. -/
def manyOnto (item : Reader α) : Nat → List α → Cursor → Except Fault (List α) × Cursor
  | 0, done, cursor => (.ok done.reverse, cursor)
  | n + 1, done, cursor =>
    match item.run cursor with
    | (.ok value, cursor) => manyOnto item n (value :: done) cursor
    | (.error fault, cursor) => (.error fault, cursor)

/-- `n` items in a row. -/
def many (n : Nat) (item : Reader α) : Reader (List α) := manyOnto item n []

/-- A list whose 16-bit length stands in front of it. -/
def counted (item : Reader α) : Reader (List α) := do
  many (← u16).toNat item

/-- The value of a reader over whole data; bytes behind it are a failure. -/
def parse (reader : Reader α) (data : List UInt8) : Except Fault α :=
  ((do let value ← reader; finish; return value : Reader α).run (Cursor.start data)).1

end Reader

end Embargo
