import Embargo.Classpath.EntryPath
import Embargo.Fault
import Embargo.Zip.Basic

/-!
Why a classpath root cannot be listed, or a class not be loaded from it.
-/
namespace Embargo.Classpath

inductive RootFault where
  | badPath (cause : EntryPath.Fault)
  /-- A path that a root refuses for a reason of its own. -/
  | refusedPath (reason : String)
  | cannotOpen (path : String) (cause : StorageFault)
  | archive (path : String) (cause : Zip.Fault)
  | cannotList (path : String) (cause : StorageFault)
  deriving DecidableEq, Repr

namespace RootFault

def cause : RootFault → String
  | badPath cause => cause.message
  | refusedPath reason => reason
  | cannotOpen _ cause => cause.message
  | archive _ cause => cause.message
  | cannotList path cause => "IO error for operation on " ++ path ++ ": " ++ cause.message

def message (fault : RootFault) : String :=
  let context := match fault with
    | badPath _ | refusedPath _ => "Invalid path"
    | cannotOpen path _ => "Failed to open classpath root " ++ path
    | archive path _ => "Failed to read archive " ++ path
    | cannotList path _ => "Failed to walk directory " ++ path
  context ++ ": " ++ fault.cause

/-- What went wrong, and each cause behind it. -/
def chain (fault : RootFault) : List String :=
  match fault with
  | badPath _ | refusedPath _ => [fault.message]
  | archive _ cause => fault.message :: cause.chain
  | _ => [fault.message, fault.cause]

end RootFault

inductive LoadFault where
  | missing (name : String)
  | unreadable (name : String) (cause : StorageFault)
  | archive (name : String) (cause : Zip.Fault)
  | malformed (name : String) (cause : Embargo.Fault)
  | tooLarge (name : String) (size max : Nat)
  /-- A class file that declares another class than its path says. -/
  | otherClass (expected found : String)
  deriving DecidableEq, Repr

def LoadFault.message : LoadFault → String
  | missing name => "Class not found: " ++ name
  | unreadable name cause => "Failed to read class " ++ name ++ ": " ++ cause.message
  | archive name cause => "Failed to read class " ++ name ++ " from archive: " ++ cause.message
  | malformed name cause => "Malformed class " ++ name ++ ": " ++ cause.message
  | tooLarge name size max => "Class " ++ name ++ s!" too large: {size} bytes (max: {max})"
  | otherClass expected found => "Class file for " ++ expected ++ " declares " ++ found

end Embargo.Classpath
