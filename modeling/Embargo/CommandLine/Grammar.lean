/-!
Reading arguments by a grammar of options, flags, positions and subcommands.

An option takes its value from behind `=`, from the rest of a group of short
options, or from the next argument, unless that begins with a dash. Behind `--`
all arguments stand in positions. A value is judged only when something follows
that settles it, so a request for help can come before the verdict.
-/
namespace Embargo.CommandLine

/-- What a value must be. -/
inductive Kind where
  | text
  /-- Anything but nothing. -/
  | path
  | choice (labels : List String)
  deriving DecidableEq, Repr

def Kind.admits : Kind → String → Bool
  | text, _ => true
  | path, value => !value.isEmpty
  | choice labels, value => labels.contains value

/-- An option or a position. -/
structure Parameter where
  name : String
  letter : Option Char := none
  kind : Kind := .text
  repeats : Bool := false
  deriving DecidableEq, Repr

/-- Why no run follows from the arguments. -/
inductive Halt where
  | help
  | version
  /-- The argument that does not fit, or the parameter whose value does not. -/
  | misuse (culprit : String)
  deriving DecidableEq, Repr

structure Flag where
  name : String
  letter : Char
  halt : Halt
  deriving DecidableEq, Repr

structure Grammar where
  options : List Parameter
  flags : List Flag
  positions : List Parameter
  commands : List String

/-- What has been read. -/
structure Reading where
  /-- Values that are settled, in order. -/
  values : List (String × String) := []
  /-- A parameter that is not settled yet, and its value once there is one. -/
  pending : Option (Parameter × Option String) := none
  /-- How many positions are taken. -/
  positions : Nat := 0
  /-- Whether `--` has been met. -/
  literal : Bool := false

namespace Reading

/-- A value that is settled at once. -/
def accept (reading : Reading) (parameter : Parameter) (value : String) : Except Halt Reading :=
  if !parameter.kind.admits value then .error (.misuse parameter.name)
  else if !parameter.repeats && (reading.values.lookup parameter.name).isSome then
    .error (.misuse parameter.name)
  else
    .ok { reading with values := reading.values ++ [(parameter.name, value)], pending := none }

/-- Settles what is pending. -/
def settle (reading : Reading) : Except Halt Reading :=
  match reading.pending with
  | none => .ok reading
  | some (parameter, none) => .error (.misuse parameter.name)
  | some (parameter, some value) => reading.accept parameter value

/-- An option, with its value if that is attached to it. -/
def option (reading : Reading) (parameter : Parameter) (attached : Option String) :
    Except Halt Reading := do
  let reading ← reading.settle
  match attached with
  | some value => reading.accept parameter value
  | none => return { reading with pending := some (parameter, none) }

def flag (reading : Reading) (flag : Flag) : Except Halt Reading := do
  let _ ← reading.settle
  throw flag.halt

/-- Whether the next argument is the value of an option. -/
def awaits (reading : Reading) : Bool :=
  match reading.pending with
  | some (_, none) => true
  | _ => false

end Reading

namespace Grammar

/-- An argument behind two dashes. -/
def long (grammar : Grammar) (reading : Reading) (text : List Char) : Except Halt Reading :=
  let name := String.ofList (text.takeWhile (· ≠ '='))
  let attached := match text.dropWhile (· ≠ '=') with
    | _ :: value => some (String.ofList value)
    | [] => none
  match grammar.options.find? (·.name = name), grammar.flags.find? (·.name = name) with
  | some parameter, _ => reading.option parameter attached
  | none, some flag => if attached.isSome then .error (.misuse name) else reading.flag flag
  | none, none => .error (.misuse name)

/-- The first letter of an argument behind one dash; a flag leaves nothing to read and
an option takes the rest as its value. -/
def short (grammar : Grammar) (reading : Reading) (letter : Char) (rest : List Char) :
    Except Halt Reading :=
  match grammar.options.find? (·.letter = some letter),
    grammar.flags.find? (·.letter = letter) with
  | some parameter, _ =>
    let attached := match rest with
      | [] => none
      | '=' :: value => some (String.ofList value)
      | value => some (String.ofList value)
    reading.option parameter attached
  | none, some flag => reading.flag flag
  | none, none => .error (.misuse (String.ofList [letter]))

def position (grammar : Grammar) (reading : Reading) (argument : String) :
    Except Halt Reading :=
  match grammar.positions[reading.positions]? with
  | none => .error (.misuse argument)
  | some parameter => do
    let reading ← reading.settle
    return { reading with
      pending := some (parameter, some argument), positions := reading.positions + 1 }

/-- An argument that is no subcommand. -/
def argument (grammar : Grammar) (reading : Reading) (text : String) : Except Halt Reading :=
  if reading.literal then grammar.position reading text
  else
    match text.toList with
    | ['-', '-'] => .ok { reading with literal := true }
    | '-' :: '-' :: rest => grammar.long reading rest
    | '-' :: letter :: rest => grammar.short reading letter rest
    | _ =>
      match reading.pending with
      | some (parameter, none) => .ok { reading with pending := some (parameter, some text) }
      | _ => grammar.position reading text

/-- Reads up to a subcommand, if there is one, or to the end. -/
def read (grammar : Grammar) (reading : Reading) :
    List String → Except Halt (Reading × Option (String × List String))
  | [] => .ok (reading, none)
  | text :: rest =>
    if !reading.literal && !reading.awaits && grammar.commands.contains text then
      .ok (reading, some (text, rest))
    else
      match grammar.argument reading text with
      | .error halt => .error halt
      | .ok reading => grammar.read reading rest

end Grammar

end Embargo.CommandLine
