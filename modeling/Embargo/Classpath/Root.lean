import Embargo.ClassFile.Basic
import Embargo.Classpath.Fault
import Embargo.Settings
import Embargo.Storage.Access
import Embargo.Zip.Library

/-!
Two kinds of roots for a classpath: directories laid out by package, and archives.
Both list the classes of a package and give the class file for a name.
-/
namespace Embargo.Classpath

inductive Root where
  | directory (path : String)
  /-- An archive and the size of the largest class file that is read from it. -/
  | archive (path : String) (entries : Zip.Archive) (limit : UInt64)

namespace Root

def path : Root → String
  | directory path => path
  | archive path .. => path

/-- The class in the file at a path, if it holds one that is in the package. -/
def classAt (package path : String) : Option (Except RootFault String) :=
  match EntryPath.className? path with
  | .ok (some name) => if EntryPath.inPackage name package then some (.ok name) else none
  | .ok none => none
  | .error cause => some (.error (.badPath cause))

/-- The paths of the files in an archive. -/
def filePaths (entries : Zip.Archive) : List String :=
  (entries.map Zip.Entry.name).filter fun name => name.toList.getLast? ≠ some '/'

/-- The data of the class file for a name among the entries of an archive. -/
def readEntry (entries : Zip.Archive) (limit : UInt64) (name : String) :
    Except LoadFault (List UInt8) :=
  match entries.find? (EntryPath.ofClass name) with
  | none => .error (.missing name)
  | some entry =>
    match entry.content with
    | .error cause => .error (.archive name cause)
    | .ok stream =>
      match entry.payload stream limit with
      | .ok data => .ok data
      | .error (.tooLarge size) => .error (.tooLarge name size limit.toNat)
      | .error (.unreadable cause) => .error (.unreadable name cause)

/-- The class file in some data, if it is the one for a name. -/
def parseClass (name : String) (data : List UInt8) : Except LoadFault ClassFile :=
  match ClassFile.parse data with
  | .error cause => .error (.malformed name cause)
  | .ok classFile =>
    match classFile.name with
    | .error cause => .error (.malformed name cause)
    | .ok internal =>
      let found := Text.Name.toDotted internal
      if found = name then .ok classFile else .error (.otherClass name found)

variable {m : Type → Type} [Monad m] [Storage m]

/-- The classes in a package and the packages below it, and whatever path is
at fault. -/
def classNames (root : Root) (package : String) : m (List (Except RootFault String)) := do
  match root with
  | archive _ entries _ => return (filePaths entries).filterMap (classAt package)
  | directory path =>
    let found ← Storage.list path
    return found.filterMap fun
      | .error cause => some (.error (.cannotList path cause))
      | .ok file => classAt package file

/-- The data of the class file for a name. -/
def readClass (root : Root) (name : String) : m (Except LoadFault (List UInt8)) := do
  match root with
  | archive _ entries limit => return readEntry entries limit name
  | directory path =>
    match ← Storage.read (Storage.join path (EntryPath.ofClass name)) with
    | .ok data => return .ok data
    | .error .missing => return .error (.missing name)
    | .error cause => return .error (.unreadable name cause)

/-- The class in the data that reading a class file yields. -/
def loadRead (name : String) (read : m (Except LoadFault (List UInt8))) :
    m (Except LoadFault ClassFile) := do
  match ← read with
  | .ok data => return parseClass name data
  | .error fault => return .error fault

/-- The class of a name. -/
def load (root : Root) (name : String) : m (Except LoadFault ClassFile) :=
  loadRead name (root.readClass name)

def openArchive [Zip.Library] (path : String) (limit : UInt64) : m (Except RootFault Root) := do
  match ← Storage.read path with
  | .error .isDirectory => return .error (.archive path (.unreadable .isDirectory))
  | .error cause => return .error (.cannotOpen path cause)
  | .ok bytes =>
    match Zip.Library.read bytes with
    | .error cause => return .error (.archive path cause)
    | .ok entries => return .ok (archive path entries limit)

/-- The size of the largest class file read from an archive, unless told otherwise. -/
def defaultLimit : UInt64 := JarSettings.maxEntrySize {}

/-- The root at a path, a directory if there is one and else an archive. -/
def ofPath [Zip.Library] (path : String) : m (Except RootFault Root) := do
  if ← Storage.isDirectory path then
    return .ok (directory path)
  openArchive path defaultLimit

end Root

end Embargo.Classpath
