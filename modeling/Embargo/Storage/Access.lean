import Embargo.Storage.Fault

/-!
What a program may ask of the files around it. The archive and classpath code is
written against these operations alone, so that it runs on a disk as well as on
a file tree held in memory.
-/
namespace Embargo

class Storage (m : Type → Type) where
  /-- The absolute path of what a path names, without `.` and `..` in it. -/
  resolve : String → m (Except StorageFault String)
  isDirectory : String → m Bool
  read : String → m (Except StorageFault (List UInt8))
  /-- Makes a file hold the given bytes alone, creating it where it is missing. -/
  write : String → List UInt8 → m (Except StorageFault Unit)
  remove : String → m (Except StorageFault Unit)
  /-- The paths of the files below a directory, relative to it. Names are in order
  within each directory, and a directory's files stand at the place of its name. -/
  list : String → m (List (Except StorageFault String))

namespace Storage

/-- A path inside another one; an absolute path stays what it is. -/
def join (base path : String) : String :=
  if path.toList.head? = some '/' then path
  else if base.isEmpty || base.toList.getLast? = some '/' then base ++ path
  else base ++ "/" ++ path

end Storage

end Embargo
