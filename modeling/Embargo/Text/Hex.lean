/-!
Hexadecimal text of fixed width.
-/
namespace Embargo.Text.Hex

/-- The lowercase digit of a value below sixteen. -/
def digit (n : Nat) : Char :=
  if n < 10 then Char.ofNat (48 + n) else Char.ofNat (87 + n)

/-- The last `width` hexadecimal digits of a number, most significant first. -/
def digits : Nat → Nat → List Char
  | 0, _ => []
  | width + 1, n => digits width (n / 16) ++ [digit (n % 16)]

/-- A number of `width` digits after the usual `0x`. -/
def literal (width n : Nat) : String :=
  String.ofList ('0' :: 'x' :: digits width n)

end Embargo.Text.Hex
