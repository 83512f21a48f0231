import Embargo.Json.Token

/-!
JSON values and how they are put together from tokens. The containers that are
still open stand on a stack, so nesting may be as deep as the text makes it.
-/
namespace Embargo.Json

inductive Value where
  | null
  | bool (value : Bool)
  | number (literal : List Char)
  | string (text : Option String)
  | array (items : List Value)
  | object (members : List (Option String × Value))

/-- An open container with what it holds so far, the last first. -/
inductive Frame where
  | array (items : List Value)
  /-- An object and the key whose value comes next. -/
  | object (members : List (Option String × Value)) (key : Option String)

/-- What may come next. -/
inductive Expected where
  | value
  | valueOrClose
  | key
  | keyOrClose
  | colon
  | commaOrClose
  deriving DecidableEq

inductive Assembly where
  | within (expected : Expected) (stack : List Frame)
  | complete (value : Value)

namespace Assembly

/-- A value that has come to its end, put into the container around it. -/
def place (value : Value) : List Frame → Assembly
  | [] => complete value
  | .array items :: rest => within .commaOrClose (.array (value :: items) :: rest)
  | .object members key :: rest =>
    within .commaOrClose (.object ((key, value) :: members) key :: rest)

/-- A token where a value may start. -/
def beginValue (stack : List Frame) : Token → Option Assembly
  | .null => some (place .null stack)
  | .bool value => some (place (.bool value) stack)
  | .number literal => some (place (.number literal) stack)
  | .string text => some (place (.string text) stack)
  | .openArray => some (within .valueOrClose (.array [] :: stack))
  | .openObject => some (within .keyOrClose (.object [] none :: stack))
  | _ => none

def step (assembly : Assembly) (token : Token) : Option Assembly :=
  match assembly with
  | complete _ => none
  | within expected stack =>
    match expected, token, stack with
    | .valueOrClose, .closeArray, .array items :: rest => some (place (.array items.reverse) rest)
    | .value, token, stack => beginValue stack token
    | .valueOrClose, token, stack => beginValue stack token
    | .keyOrClose, .closeObject, .object members _ :: rest =>
      some (place (.object members.reverse) rest)
    | .key, .string key, .object members _ :: rest =>
      some (within .colon (.object members key :: rest))
    | .keyOrClose, .string key, .object members _ :: rest =>
      some (within .colon (.object members key :: rest))
    | .colon, .colon, stack => some (within .value stack)
    | .commaOrClose, .comma, .array items :: rest => some (within .value (.array items :: rest))
    | .commaOrClose, .comma, .object members key :: rest =>
      some (within .key (.object members key :: rest))
    | .commaOrClose, .closeArray, .array items :: rest => some (place (.array items.reverse) rest)
    | .commaOrClose, .closeObject, .object members _ :: rest =>
      some (place (.object members.reverse) rest)
    | _, _, _ => none

end Assembly

namespace Value

/-- The value of a whole text. -/
def parse (text : String) : Option Value := do
  match ← (← tokens text).foldlM Assembly.step (.within .value []) with
  | .complete value => some value
  | .within .. => none

/-- The member of a name among members, if at most one has it. -/
def member (members : List (Option String × Value)) (name : String) : Option (Option Value) :=
  match members.filter fun (key, _) => key = some name with
  | [] => some none
  | [(_, value)] => some (some value)
  | _ => none

/-- The fields of a record, each with its value if it has one. A record is an
object, in which unknown keys do not count, or an array of its fields in order. -/
def record (names : List String) : Value → Option (List (Option Value))
  | object members =>
    if members.all fun (key, _) => key.isSome then names.mapM (member members) else none
  | array items =>
    if items.length ≤ names.length then
      some ((List.range names.length).map fun i => items[i]?)
    else none
  | _ => none

def string? : Value → Option String
  | string text => text
  | _ => none

def bool? : Value → Option Bool
  | bool value => some value
  | _ => none

def strings? : Value → Option (List String)
  | array items => items.mapM string?
  | _ => none

/-- A number with one more digit, as long as it is in the range of 64 bits. -/
def widened? (n : Nat) (digit : Char) : Option Nat :=
  if digit.isDigit then
    let m := 10 * n + (digit.toNat - 48)
    if m < 0x10000000000000000 then some m else none
  else none

/-- A number in the range of 64 bits that is written as digits alone. -/
def word64? : Value → Option UInt64
  | number literal => (literal.foldlM widened? 0).map UInt64.ofNat
  | _ => none

end Value

end Embargo.Json
