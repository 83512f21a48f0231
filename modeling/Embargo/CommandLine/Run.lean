import Embargo.Classpath.Registration
import Embargo.CommandLine.Request
import Embargo.Jar.File

/-!
Requests carried out. A failure is told as a chain: the step that failed, then
what went wrong in it, then each cause behind that.
-/
namespace Embargo.CommandLine

/-- What a run leaves besides files. -/
structure Outcome where
  exitCode : UInt8
  output : String
  /-- What is told about a failure. -/
  diagnostic : Option String
  deriving DecidableEq, Repr

namespace Outcome

def success (output : String) : Outcome := ⟨0, output, none⟩

def failure (chain : List String) : Outcome := ⟨1, "", some ("Error: " ++ ": ".intercalate chain)⟩

end Outcome

def usage : String := "Usage: jarstrip [OPTIONS] [INPUT] [OUTPUT] [COMMAND]\n"

def version : String := "jarstrip 0.1.0\n"

def Halt.outcome : Halt → Outcome
  | help => .success usage
  | version => .success CommandLine.version
  | misuse culprit => ⟨2, "", some ("error: unusable argument '" ++ culprit ++ "'")⟩

variable {m : Type → Type} [Monad m] [Storage m]

def loadSettings (config : Option String) : m (Except (List String) Settings) := do
  match config with
  | none => return .ok {}
  | some path =>
    return (← Settings.load path).mapError fun fault =>
      "Failed to load configuration" :: fault.chain

def runJar [Zip.Library] [Digest] (settings : JarSettings) (input output : String) : m Outcome := do
  match ← Jar.transform settings input output with
  | .error fault => return .failure (("Failed to transform " ++ input) :: fault.chain)
  | .ok _ =>
    match ← Storage.resolve output with
    | .error cause => return .failure ["Failed to resolve " ++ output, cause.message]
    | .ok path => return .success ("Transformed jar written to " ++ path ++ "\n")

/-- The document of a classpath, written to a file or put out. -/
def runRegistry [Zip.Library] (settings : ScanSettings) (output : Option String) :
    m Outcome := do
  if settings.classpath.isEmpty then
    return .failure ["No classpath roots given (use --classpath or the config file)"]
  match ← Classpath.ofPaths settings.classpath with
  | .error fault => return .failure ("Failed to open classpath" :: fault.chain)
  | .ok roots =>
    let pass ← Classpath.register roots settings.packages settings.classes Reflection.Registry.empty
    let document := pass.registry.document ++ "\n"
    match output with
    | none => return .success document
    | some path =>
      match ← Storage.write path (Text.Utf8.encode document) with
      | .ok () => return .success ""
      | .error cause => return .failure ["Failed to write " ++ path, cause.message]

def Request.run [Zip.Library] [Digest] : Request → m Outcome
  | jar config overrides input output => do
    match ← loadSettings config with
    | .error chain => return .failure chain
    | .ok settings => runJar (overrides settings.jar) input output
  | registry config overrides output => do
    match ← loadSettings config with
    | .error chain => return .failure chain
    | .ok settings => runRegistry (overrides settings.scan) output
  | incomplete => return ⟨2, usage, none⟩

/-- Carries out what the arguments ask for. -/
def run [Zip.Library] [Digest] (arguments : List String) : m Outcome := do
  match Request.parse arguments with
  | .error halt => return halt.outcome
  | .ok request => request.run

end Embargo.CommandLine
