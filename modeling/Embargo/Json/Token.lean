/-!
The tokens of JSON text. A scan passes over the characters once; what it has
seen of an unfinished token is its mode.

A string is kept as the code points written in it. Two escaped surrogates in a
row stand for one character; any other surrogate leaves the string without a
text, though not without its place among the tokens.
-/
namespace Embargo.Json

inductive Token where
  | openArray
  | closeArray
  | openObject
  | closeObject
  | comma
  | colon
  | null
  | bool (value : Bool)
  /-- A number as it is written. -/
  | number (literal : List Char)
  /-- A string, if its surrogates pair up. -/
  | string (text : Option String)
  deriving DecidableEq, Repr

def isBlank (c : Char) : Bool := c = ' ' || c = '\n' || c = '\t' || c = '\r'

/-- Digits, then a fraction and an exponent if there are any; no leading zeros. -/
def isNumber (literal : List Char) : Bool :=
  let unsigned := match literal with
    | '-' :: rest => rest
    | rest => rest
  let whole := unsigned.takeWhile Char.isDigit
  let afterWhole := unsigned.dropWhile Char.isDigit
  let wholeFits := match whole with
    | [] => false
    | ['0'] => true
    | first :: _ => first ≠ '0'
  let afterFraction := match afterWhole with
    | '.' :: rest =>
      if (rest.takeWhile Char.isDigit).isEmpty then none else some (rest.dropWhile Char.isDigit)
    | rest => some rest
  let isExponent (rest : List Char) : Bool := !rest.isEmpty && rest.all Char.isDigit
  wholeFits && match afterFraction with
    | none => false
    | some [] => true
    | some (mark :: sign :: rest) =>
      (mark = 'e' || mark = 'E') &&
        (if sign = '+' || sign = '-' then isExponent rest else isExponent (sign :: rest))
    | some _ => false

/-- The characters of code points, put behind those of `done`, which is reversed. -/
def textOnto (done : List Char) : List Nat → Option (List Char)
  | [] => some done.reverse
  | [n] => if 0xD800 ≤ n ∧ n < 0xE000 then none else some (Char.ofNat n :: done).reverse
  | n :: m :: rest =>
    if 0xD800 ≤ n ∧ n < 0xDC00 then
      if 0xDC00 ≤ m ∧ m < 0xE000 then
        textOnto (Char.ofNat (0x10000 + (n - 0xD800) * 0x400 + (m - 0xDC00)) :: done) rest
      else none
    else if 0xDC00 ≤ n ∧ n < 0xE000 then none
    else textOnto (Char.ofNat n :: done) (m :: rest)

/-- What a scan has seen of the token that it is in. All lists are reversed. -/
inductive Mode where
  | between
  | word (letters : List Char)
  | number (characters : List Char)
  | string (points : List Nat)
  /-- Behind a backslash. -/
  | escape (points : List Nat)
  /-- Behind `\u`, with digits still to come. -/
  | unit (points : List Nat) (left value : Nat)

def isWordLetter (c : Char) : Bool := 'a' ≤ c && c ≤ 'z'

def isNumberCharacter (c : Char) : Bool :=
  c.isDigit || c = '-' || c = '+' || c = '.' || c = 'e' || c = 'E'

def wordToken (letters : List Char) : Option Token :=
  match letters with
  | ['n', 'u', 'l', 'l'] => some .null
  | ['t', 'r', 'u', 'e'] => some (.bool true)
  | ['f', 'a', 'l', 's', 'e'] => some (.bool false)
  | _ => none

def numberToken (characters : List Char) : Option Token :=
  if isNumber characters then some (.number characters) else none

def stringToken (points : List Nat) : Token :=
  .string ((textOnto [] points).map String.ofList)

/-- The character that a letter behind a backslash stands for. -/
def escaped (c : Char) : Option Char :=
  match c with
  | '"' => some '"'
  | '\\' => some '\\'
  | '/' => some '/'
  | 'b' => some '\x08'
  | 'f' => some '\x0c'
  | 'n' => some '\n'
  | 'r' => some '\r'
  | 't' => some '\t'
  | _ => none

def hexadecimal (c : Char) : Option Nat :=
  if '0' ≤ c ∧ c ≤ '9' then some (c.toNat - 48)
  else if 'a' ≤ c ∧ c ≤ 'f' then some (c.toNat - 87)
  else if 'A' ≤ c ∧ c ≤ 'F' then some (c.toNat - 55)
  else none

/-- The tokens so far, the last one first, and the mode in which a scan goes on. -/
structure Scan where
  mode : Mode
  done : List Token

/-- A character outside any token. -/
def start (done : List Token) (c : Char) : Option Scan :=
  if isBlank c then some ⟨.between, done⟩
  else if c = '[' then some ⟨.between, .openArray :: done⟩
  else if c = ']' then some ⟨.between, .closeArray :: done⟩
  else if c = '\x7b' then some ⟨.between, .openObject :: done⟩
  else if c = '\x7d' then some ⟨.between, .closeObject :: done⟩
  else if c = ',' then some ⟨.between, .comma :: done⟩
  else if c = ':' then some ⟨.between, .colon :: done⟩
  else if c = '"' then some ⟨.string [], done⟩
  else if isWordLetter c then some ⟨.word [c], done⟩
  else if c = '-' || c.isDigit then some ⟨.number [c], done⟩
  else none

/-- The tokens with an unfinished word or number closed. -/
def Scan.close (scan : Scan) : Option (List Token) :=
  match scan.mode with
  | .between => some scan.done
  | .word letters => (wordToken letters.reverse).map (· :: scan.done)
  | .number characters => (numberToken characters.reverse).map (· :: scan.done)
  | _ => none

def Scan.step (scan : Scan) (c : Char) : Option Scan :=
  match scan.mode with
  | .between => start scan.done c
  | .word letters =>
    if isWordLetter c then some ⟨.word (c :: letters), scan.done⟩
    else scan.close.bind (start · c)
  | .number characters =>
    if isNumberCharacter c then some ⟨.number (c :: characters), scan.done⟩
    else scan.close.bind (start · c)
  | .string points =>
    if c = '"' then some ⟨.between, stringToken points.reverse :: scan.done⟩
    else if c = '\\' then some ⟨.escape points, scan.done⟩
    else if c.toNat < 0x20 then none
    else some ⟨.string (c.toNat :: points), scan.done⟩
  | .escape points =>
    if c = 'u' then some ⟨.unit points 4 0, scan.done⟩
    else (escaped c).map fun e => ⟨.string (e.toNat :: points), scan.done⟩
  | .unit points left value =>
    (hexadecimal c).map fun digit =>
      let value := 16 * value + digit
      if left ≤ 1 then ⟨.string (value :: points), scan.done⟩
      else ⟨.unit points (left - 1) value, scan.done⟩

/-- The tokens of a text, or nothing where some part of it is no token. -/
def tokens (text : String) : Option (List Token) :=
  (text.toList.foldlM Scan.step ⟨.between, []⟩).bind fun scan => scan.close.map List.reverse

end Embargo.Json
