import Embargo.Zip.Parse
import Embargo.Zip.Render

/-!
What the jar code asks of a library for zip archives. Archives are read as a whole and
written member by member; a library may refuse any archive, any member and the end.
-/
namespace Embargo.Zip

/-- Why a member cannot be written: the archive has no place for it, or not for its data. -/
inductive MemberFault where
  | place (cause : Fault)
  | data (cause : StorageFault)
  deriving DecidableEq, Repr

class Library where
  read : List UInt8 → Except Fault Archive
  /-- An archive that is being written. -/
  Draft : Type
  start : Draft
  add : Draft → Member → Except MemberFault Draft
  /-- The bytes of an archive that no member is added to any more. -/
  finish : Draft → Except Fault (List UInt8)

/-- A library without the wide forms of sizes and offsets: what does not fit into the fields of
the plain ones is refused. -/
instance : Library where
  read := Archive.parse
  Draft := List Member
  start := []
  add members member :=
    if 0xFFFF < (Text.Utf8.encode member.name).length then .error (.place .unfit)
    else if 0xFFFFFFFF < member.data.length then
      .error (.data (.other "Large file option has not been set"))
    else .ok (member :: members)
  finish members :=
    let bytes := render members.reverse
    if 0xFFFFFFFF < bytes.length then .error .unfit else .ok bytes

end Embargo.Zip
