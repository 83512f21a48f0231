import Embargo.Json.Value
import Embargo.Rule
import Embargo.Storage.Access
import Embargo.Text.Utf8

/-!
The settings of a run and the JSON files that hold them. Whatever a file does not
mention keeps its default; a setting that is given twice or with a value of the
wrong kind spoils the file.
-/
namespace Embargo

/-- What becomes of a class entry that cannot be read or encoded again. -/
inductive Policy where
  /-- The whole run fails. -/
  | abort
  /-- The entry is copied as it is. -/
  | copy
  deriving DecidableEq, Repr

namespace Policy

structure Unknown where
  text : String

def Unknown.message (unknown : Unknown) : String :=
  "unknown parse error policy '" ++ unknown.text ++ "' (expected abort or copy)"

def label : Policy → String
  | abort => "abort"
  | copy => "copy"

def ofLabel? (text : String) : Option Policy :=
  if text = "abort" then some abort else if text = "copy" then some copy else none

/-- The policy of a label in capitals or small letters of the ASCII range. -/
def parse (text : String) : Except Unknown Policy :=
  let lower := String.ofList (text.toList.map Char.toLower)
  match ofLabel? lower with
  | some policy => .ok policy
  | none => .error ⟨lower⟩

end Policy

/-- The settings for putting an embargo on a jar. -/
structure JarSettings where
  scope : String := Rule.defaultScope
  exception : String := Rule.defaultException
  preamble : String := Rule.defaultPreamble
  policy : Policy := .abort
  /-- The size of the largest entry that is read. -/
  maxEntrySize : UInt64 := 256 * 1024 * 1024
  deriving DecidableEq, Repr

def JarSettings.rule (settings : JarSettings) : Rule :=
  Rule.of settings.scope settings.exception settings.preamble

/-- The settings for finding classes on a classpath. -/
structure ScanSettings where
  /-- Packages whose classes are all registered. -/
  packages : List String :=
    ["com.crowdin.cli", "com.crowdin.client", "org.apache.commons.logging.impl"]
  /-- Classes that are registered whatever their package. -/
  classes : List String := ["org.apache.commons.logging.impl.LogFactoryImpl"]
  classpath : List String := []
  deriving DecidableEq, Repr

structure Settings where
  jar : JarSettings := {}
  scan : ScanSettings := {}
  deriving DecidableEq, Repr

/-- A value that may be left out. -/
def optional {α : Type} (default : α) (read : Json.Value → Option α) :
    Option Json.Value → Option α
  | none => some default
  | some value => read value

/-- A policy, by its label or as the only key of an object that gives it nothing. -/
def Policy.ofJson? : Json.Value → Option Policy
  | .string (some text) => ofLabel? text
  | .object [(some text, .null)] => ofLabel? text
  | _ => none

def JarSettings.ofJson? (value : Json.Value) : Option JarSettings := do
  match ← value.record
      ["disallowed_prefix", "exception_class", "message_prefix", "on_parse_error",
        "max_entry_size"] with
  | [scope, exception, preamble, policy, maxEntrySize] =>
    let default : JarSettings := {}
    return {
      scope := ← optional default.scope Json.Value.string? scope
      exception := ← optional default.exception Json.Value.string? exception
      preamble := ← optional default.preamble Json.Value.string? preamble
      policy := ← optional default.policy Policy.ofJson? policy
      maxEntrySize := ← optional default.maxEntrySize Json.Value.word64? maxEntrySize }
  | _ => none

def ScanSettings.ofJson? (value : Json.Value) : Option ScanSettings := do
  match ← value.record ["packages", "classes", "classpath"] with
  | [packages, classes, classpath] =>
    let default : ScanSettings := {}
    return {
      packages := ← optional default.packages Json.Value.strings? packages
      classes := ← optional default.classes Json.Value.strings? classes
      classpath := ← optional default.classpath Json.Value.strings? classpath }
  | _ => none

namespace Settings

def ofJson? (value : Json.Value) : Option Settings := do
  match ← value.record ["strip", "scan"] with
  | [jar, scan] =>
    return {
      jar := ← optional {} JarSettings.ofJson? jar
      scan := ← optional {} ScanSettings.ofJson? scan }
  | _ => none

inductive Fault where
  | unreadable (path : String) (cause : StorageFault)
  | malformed (path : String)
  deriving DecidableEq, Repr

/-- What went wrong, and each cause behind it. -/
def Fault.chain : Fault → List String
  | unreadable path cause =>
    ["Failed to read config file " ++ path ++ ": " ++ cause.message, cause.message]
  | malformed path =>
    ["Failed to parse config file " ++ path ++ ": invalid settings", "invalid settings"]

/-- The settings in a file. -/
def load {m : Type → Type} [Monad m] [Storage m] (path : String) : m (Except Fault Settings) := do
  match ← Storage.read path with
  | .error cause => return .error (.unreadable path cause)
  | .ok bytes =>
    match Text.Utf8.decode? bytes with
    | none => return .error (.unreadable path .notText)
    | some text =>
      match (Json.Value.parse text).bind ofJson? with
      | some settings => return .ok settings
      | none => return .error (.malformed path)

end Settings

end Embargo
