import Embargo.Fault

/-!
Field and method descriptors.

A field type is any number of `[` before one of `B C I S Z F J D` or before a
class name between `L` and `;`. A method type is the field types of its
parameters in parentheses and `V` or the field type of its result.
-/
namespace Embargo

/-- What a field type is to the verifier. -/
inductive FieldType where
  | int
  | float
  | long
  | double
  /-- A class name, or the whole text of an array type. -/
  | reference (name : String)
  deriving DecidableEq, Repr

/-- The stack or variable slots of a value. -/
def FieldType.slots : FieldType → UInt16
  | long | double => 2
  | _ => 1

namespace Descriptor

/-- A type without brackets in front, its text, and what follows it. -/
def element : List Char → Option (FieldType × List Char × List Char)
  | 'B' :: rest => some (.int, ['B'], rest)
  | 'C' :: rest => some (.int, ['C'], rest)
  | 'I' :: rest => some (.int, ['I'], rest)
  | 'S' :: rest => some (.int, ['S'], rest)
  | 'Z' :: rest => some (.int, ['Z'], rest)
  | 'F' :: rest => some (.float, ['F'], rest)
  | 'J' :: rest => some (.long, ['J'], rest)
  | 'D' :: rest => some (.double, ['D'], rest)
  | 'L' :: rest =>
    let name := rest.takeWhile (· ≠ ';')
    match rest.dropWhile (· ≠ ';') with
    | _ :: rest =>
      if name.isEmpty then none
      else some (.reference (String.ofList name), 'L' :: (name ++ [';']), rest)
    | [] => none
  | _ => none

/-- A field type at the front of a text, and what follows it. -/
def field (text : List Char) : Option (FieldType × List Char) :=
  let brackets := text.takeWhile (· = '[')
  match element (text.dropWhile (· = '[')) with
  | some (type, written, rest) =>
    if brackets.isEmpty then some (type, rest)
    else some (.reference (String.ofList (brackets ++ written)), rest)
  | none => none

/-- Parameters up to the closing parenthesis, put behind those of `done`, which
is reversed. A type takes at least one character, so the length of the text is
fuel enough. -/
def parametersOnto : Nat → List FieldType → List Char → Option (List FieldType × List Char)
  | _, done, ')' :: rest => some (done.reverse, rest)
  | 0, _, _ => none
  | fuel + 1, done, text =>
    match field text with
    | some (type, rest) => parametersOnto fuel (type :: done) rest
    | none => none

/-- The type that a whole text describes. -/
def parseField (text : String) : Except Fault FieldType :=
  match field text.toList with
  | some (type, []) => .ok type
  | _ => .error (.badDescriptor text)

/-- Parameter types and the result type, which `void` has none of. -/
def parseMethod (text : String) : Except Fault (List FieldType × Option FieldType) :=
  match text.toList with
  | '(' :: inner =>
    match parametersOnto inner.length [] inner with
    | some (parameters, ['V']) => .ok (parameters, none)
    | some (parameters, result) =>
      (parseField (String.ofList result)).map fun type => (parameters, some type)
    | none => .error (.badDescriptor text)
  | _ => .error (.badDescriptor text)

/-- The slots of the arguments, without any receiver. -/
def argumentSlots (text : String) : Except Fault UInt16 :=
  (parseMethod text).map fun (parameters, _) =>
    parameters.foldl (fun slots type => slots + type.slots) 0

/-- The slots of the result. -/
def resultSlots (text : String) : Except Fault UInt16 :=
  (parseMethod text).map fun (_, result) =>
    match result with
    | some type => type.slots
    | none => 0

end Descriptor

end Embargo
