import Embargo.Classpath.Root

/-!
Classpaths: roots that are searched in order. A root may be anything that lists the
classes of a package and loads a class by its name. A class comes from the first root
that does not miss it, whatever is wrong with it there.
-/
namespace Embargo

namespace Classpath

/-- A root as a search sees it. -/
structure Walker (m : Type → Type) [Monad m] where
  path : String
  /-- The classes in a package and the packages below it, and whatever is at fault. -/
  classNames : String → m (List (Except RootFault String))
  /-- The data of the class file for a name. -/
  readClass : String → m (Except LoadFault (List UInt8))
  /-- The class of a name; the one in its class file, unless a root has other ways. -/
  load : String → m (Except LoadFault ClassFile) := fun name => Root.loadRead name (readClass name)

end Classpath

abbrev Classpath (m : Type → Type) [Monad m] := List (Classpath.Walker m)

namespace Classpath
variable {m : Type → Type} [Monad m]

section Roots
variable [Storage m]

def Root.walker (root : Root) : Walker m where
  path := root.path
  classNames := root.classNames
  readClass := root.readClass

/-- The roots at some paths, up to the first that cannot be opened. -/
def ofPaths [Zip.Library] : List String → m (Except RootFault (Classpath m))
  | [] => return .ok []
  | path :: rest => do
    match ← Root.ofPath path with
    | .error fault => return .error fault
    | .ok root =>
      match ← ofPaths rest with
      | .error fault => return .error fault
      | .ok roots => return .ok (root.walker :: roots)

end Roots

/-- The classes in a package and those below it, root by root. -/
def classNames (roots : Classpath m) (package : String) :
    m (List (Except RootFault String)) := do
  return (← roots.mapM (Walker.classNames · package)).flatten

/-- The class of a name, from the first root that does not miss it. -/
def load (name : String) : Classpath m → m (Except LoadFault ClassFile)
  | [] => return .error (.missing name)
  | root :: rest => do
    match ← root.load name with
    | .error (.missing _) => load name rest
    | outcome => return outcome

end Classpath

end Embargo
