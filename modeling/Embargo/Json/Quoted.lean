import Embargo.Text.Hex

/-!
Text between the quotes of JSON. Quotes, backslashes and control characters are
escaped, the usual controls by a letter; all other characters stand for
themselves.
-/
namespace Embargo.Json.Quoted
open Text

/-- A character as it is written inside quotes. -/
def character (c : Char) : List Char :=
  match c with
  | '"' => ['\\', '"']
  | '\\' => ['\\', '\\']
  | '\x08' => ['\\', 'b']
  | '\x0c' => ['\\', 'f']
  | '\n' => ['\\', 'n']
  | '\r' => ['\\', 'r']
  | '\t' => ['\\', 't']
  | c => if c.toNat < 0x20 then '\\' :: 'u' :: Hex.digits 4 c.toNat else [c]

def encode (text : String) : String :=
  String.ofList ('"' :: text.toList.flatMap character ++ ['"'])

end Embargo.Json.Quoted
