import Embargo.CommandLine.Run

/-!
The program: the command line run on the files of the system.
-/
namespace Embargo

namespace Disk

/-- The fault that a failure of the system stands for. -/
def fault (failure : IO.Error) : StorageFault :=
  match failure with
  | .noFileOrDirectory .. => .missing
  | .inappropriateType _ code details => byCode code details
  | .invalidArgument _ code details => byCode code details
  | .resourceExhausted _ code details => byCode code details
  | .permissionDenied _ code details => byCode code details
  | .otherError code details => byCode code details
  | failure => .other (toString failure)
where
  byCode (code : UInt32) (details : String) : StorageFault :=
    if code = 2 then .missing
    else if code = 20 then .notDirectory
    else if code = 21 then .isDirectory
    else if code = 36 then .nameTooLong
    else .other (details ++ " (os error " ++ toString code ++ ")")

/-- The outcome of an action, or the fault that kept it from one. -/
def attempt {α : Type} (action : IO α) : IO (Except StorageFault α) := do
  match ← action.toBaseIO with
  | .ok value => return .ok value
  | .error failure => return .error (fault failure)

def isDirectory (path : String) : IO Bool := (System.mkFilePath [path]).isDir

/-- The files among the entries of a directory and below, each put behind the names
that lead to it. -/
partial def filesIn (lead : String) (entries : Array IO.FS.DirEntry) :
    IO (List (Except StorageFault String)) := do
  let ordered := entries.toList.mergeSort fun a b => !decide (b.fileName < a.fileName)
  let parts ← ordered.mapM fun entry => do
    let path := Storage.join lead entry.fileName
    match ← attempt entry.path.symlinkMetadata with
    | .error cause => return [.error cause]
    | .ok about =>
      match about.type with
      | .file => return [.ok path]
      | .dir =>
        match ← attempt entry.path.readDir with
        | .error cause => return [.error cause]
        | .ok inner => filesIn path inner
      | _ => return []
  return parts.flatten

def list (path : String) : IO (List (Except StorageFault String)) := do
  let place := System.mkFilePath [path]
  match ← attempt place.metadata with
  | .error cause => return [.error cause]
  | .ok _ =>
    if ← place.isDir then
      match ← attempt place.readDir with
      | .error cause => return [.error cause]
      | .ok entries => filesIn "" entries
    else return [.ok ""]

end Disk

instance : Storage IO where
  resolve path := Disk.attempt do return (← IO.FS.realPath path).toString
  isDirectory := Disk.isDirectory
  read path := Disk.attempt do return (← IO.FS.readBinFile path).toList
  write path bytes := Disk.attempt (IO.FS.writeBinFile path ⟨bytes.toArray⟩)
  remove path := Disk.attempt (IO.FS.removeFile path)
  list := Disk.list

end Embargo

def main (arguments : List String) : IO UInt32 := do
  let outcome ← Embargo.CommandLine.run arguments
  IO.print outcome.output
  if let some diagnostic := outcome.diagnostic then
    IO.eprintln diagnostic
  return outcome.exitCode.toUInt32
