import Embargo.CommandLine.Grammar
import Embargo.Settings

/-!
The requests of the command line: a jar put under an embargo, or the registry of
a classpath. The options `config` and `log-level` may stand before or behind the
subcommand; behind it they count.
-/
namespace Embargo.CommandLine

def shared : List Parameter :=
  [{ name := "config", kind := .path }, { name := "log-level" }]

def helpFlag : Flag := ⟨"help", 'h', .help⟩

def registryCommand : String := "reflect-config"

def grammar : Grammar where
  options := [{ name := "prefix" }, { name := "exception" }, { name := "message-prefix" },
    { name := "on-parse-error", kind := .choice (["abort", "copy"]) }] ++ shared
  flags := [helpFlag, ⟨"version", 'V', .version⟩]
  positions := [{ name := "input", kind := .path }, { name := "output", kind := .path }]
  commands := [registryCommand, "help"]

def registryGrammar : Grammar where
  options := [{ name := "package", repeats := true }, { name := "class", repeats := true },
    { name := "classpath", kind := .path, repeats := true },
    { name := "output", letter := some 'o', kind := .path }] ++ shared
  flags := [helpFlag]
  positions := []
  commands := []

inductive Request where
  | jar (config : Option String) (overrides : JarSettings → JarSettings) (input output : String)
  | registry (config : Option String) (overrides : ScanSettings → ScanSettings)
      (output : Option String)
  /-- A jar is wanted and a path is missing. -/
  | incomplete

/-- Names behind `help`: those of subcommands, of which none has its own. -/
def helpFor (names : List String) : Halt :=
  match names with
  | [] => .help
  | [name] => if grammar.commands.contains name then .help else .misuse name
  | _ => .misuse "help"

/-- All values of a parameter that may be repeated. -/
def allOf (values : List (String × String)) (name : String) : List String :=
  (values.filter fun (key, _) => key = name).map Prod.snd

def overrideJar (values : List (String × String)) (settings : JarSettings) : JarSettings :=
  { settings with
    scope := (values.lookup "prefix").getD settings.scope
    exception := (values.lookup "exception").getD settings.exception
    preamble := (values.lookup "message-prefix").getD settings.preamble
    policy := ((values.lookup "on-parse-error").bind Policy.ofLabel?).getD settings.policy }

/-- Values that are given, or else those that stand already. -/
def orElse (given standing : List String) : List String :=
  if given.isEmpty then standing else given

def overrideScan (values : List (String × String)) (settings : ScanSettings) : ScanSettings :=
  { packages := orElse (allOf values "package") settings.packages
    classes := orElse (allOf values "class") settings.classes
    classpath := orElse (allOf values "classpath") settings.classpath }

/-- What the arguments ask for. -/
def Request.parse (arguments : List String) : Except Halt Request := do
  match ← grammar.read {} arguments with
  | (reading, none) =>
    let values := (← reading.settle).values
    match values.lookup "input", values.lookup "output" with
    | some input, some output =>
      return .jar (values.lookup "config") (overrideJar values) input output
    | _, _ => return .incomplete
  | (reading, some (command, rest)) =>
    if command = registryCommand then
      let (inner, _) ← registryGrammar.read {} rest
      let values := (← inner.settle).values
      let outer := (← reading.settle).values
      let config := (values.lookup "config").or (outer.lookup "config")
      return .registry config (overrideScan values) (values.lookup "output")
    else throw (helpFor rest)

end Embargo.CommandLine
