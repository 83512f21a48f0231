import Embargo.Fault
import Embargo.Zip.Basic

/-!
Why putting an embargo on a jar fails.
-/
namespace Embargo

/-- What is wrong with class data, and each cause behind it. -/
def Fault.chain (fault : Fault) : List String :=
  match fault with
  | .inMethod _ cause => fault.message :: cause.chain
  | _ => [fault.message]

namespace Jar

inductive Fault where
  | inputFile (path : String) (cause : StorageFault)
  | input (cause : Zip.Fault)
  | entry (name : String) (cause : StorageFault)
  | entryTooLarge (name : String) (size max : Nat)
  | classFile (name : String) (cause : Embargo.Fault)
  | outputFile (path : String) (cause : StorageFault)
  | output (cause : Zip.Fault)
  | outputEntry (name : String) (cause : StorageFault)
  | sameFile (path : String)
  deriving DecidableEq, Repr

namespace Fault

def message : Fault → String
  | inputFile path cause => "Failed to open input archive " ++ path ++ ": " ++ cause.message
  | input cause => "Failed to read input archive: " ++ cause.message
  | entry name cause => "Failed to read entry " ++ name ++ ": " ++ cause.message
  | entryTooLarge name size max => "Entry " ++ name ++ s!" too large: {size} bytes (max: {max})"
  | classFile name cause => "Failed to transform class " ++ name ++ ": " ++ cause.message
  | outputFile path cause => "Failed to write output archive " ++ path ++ ": " ++ cause.message
  | output cause => "Failed to write output archive: " ++ cause.message
  | outputEntry name cause => "Failed to write entry " ++ name ++ ": " ++ cause.message
  | sameFile path => "Input and output are the same file: " ++ path

/-- What went wrong, and each cause behind it. -/
def chain (fault : Fault) : List String :=
  fault.message ::
    match fault with
    | inputFile _ cause | entry _ cause | outputFile _ cause | outputEntry _ cause =>
      [cause.message]
    | input cause | output cause => cause.chain
    | classFile _ cause => cause.chain
    | entryTooLarge .. | sameFile _ => []

end Fault

end Jar

end Embargo
