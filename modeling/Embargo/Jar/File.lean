import Embargo.Jar.Enforcement
import Embargo.Storage.Access

/-!
A rule enforced on a jar file. The new jar is a file of its own. It is there only
after success: whatever goes wrong once it has been created, it is removed again.
-/
namespace Embargo.Jar
variable {m : Type → Type} [Monad m] [Storage m] [Zip.Library]

section Output
variable [Digest]

/-- Fills a new file with the archive for an old one, and reads it back for its digest. -/
def fill (settings : JarSettings) (archive : Zip.Archive) (output : String) :
    m (Except Fault Report) := do
  match build settings archive with
  | .error fault => return .error fault
  | .ok (bytes, report) =>
    match ← Storage.write output bytes with
    | .error cause => return .error (.outputFile output cause)
    | .ok () =>
      match ← Storage.read output with
      | .error cause => return .error (.outputFile output cause)
      | .ok written => return .ok (report.seal written)

/-- Creates the new file, which is removed where it cannot be filled. -/
def produce (settings : JarSettings) (archive : Zip.Archive) (output : String) :
    m (Except Fault Report) := do
  match ← Storage.write output [] with
  | .error cause => return .error (.outputFile output cause)
  | .ok () =>
    match ← fill settings archive output with
    | .ok report => return .ok report
    | .error fault =>
      let _ ← Storage.remove output
      return .error fault

end Output

/-- The archive in the file at a canonical path, which `input` is another name of. -/
def openArchive (input path : String) : m (Except Fault Zip.Archive) := do
  match ← Storage.read path with
  | .error .isDirectory => return .error (.input (.unreadable .isDirectory))
  | .error cause => return .error (.inputFile input cause)
  | .ok bytes => return (Zip.Library.read bytes).mapError .input

/-- Writes a new jar for an old one. The two must not be the same file. -/
def transform [Digest] (settings : JarSettings) (input output : String) :
    m (Except Fault Report) := do
  match ← Storage.resolve input with
  | .error cause => return .error (.inputFile input cause)
  | .ok path =>
    match ← Storage.resolve output with
    | .ok outputPath =>
      if outputPath = path then
        return .error (.sameFile output)
    | .error _ => pure ()
    match ← openArchive input path with
    | .error fault => return .error fault
    | .ok archive => produce settings archive output

end Embargo.Jar
