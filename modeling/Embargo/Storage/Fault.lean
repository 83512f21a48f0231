/-!
Why data could not be read or written. Faults of the file system carry the
number that the system gives them.
-/
namespace Embargo

inductive StorageFault where
  | missing
  | notDirectory
  | isDirectory
  | nameTooLong
  | nulInPath
  /-- Text was wanted and the bytes are not UTF-8. -/
  | notText
  /-- The data of an archive entry does not have the checksum noted for it. -/
  | checksum
  /-- The compressed data of an archive entry cannot be expanded. -/
  | corrupt
  /-- The compressed data of an archive entry stops before its end. -/
  | incomplete
  /-- Fewer bytes are left than a record takes. -/
  | truncated
  | other (message : String)
  deriving DecidableEq, Repr

def StorageFault.message : StorageFault → String
  | missing => "No such file or directory (os error 2)"
  | notDirectory => "Not a directory (os error 20)"
  | isDirectory => "Is a directory (os error 21)"
  | nameTooLong => "File name too long (os error 36)"
  | nulInPath => "file name contained an unexpected NUL byte"
  | notText => "stream did not contain valid UTF-8"
  | checksum => "Invalid checksum"
  | corrupt => "corrupt deflate stream"
  | incomplete => "incomplete deflate stream"
  | truncated => "failed to fill whole buffer"
  | other message => message

end Embargo
