import Embargo.Bytes.Sha256
import Embargo.Enforcement.Class
import Embargo.Jar.Fault
import Embargo.Settings
import Embargo.Zip.Library

/-!
A rule enforced on every class of an archive. All entries keep their order, name,
packing, time and permissions; only class entries change, and only those in which
the rule finds something.
-/
namespace Embargo.Jar

/-- What a run did. -/
structure Report where
  entries : Nat := 0
  classes : Nat := 0
  /-- The classes with a forbidden access in them. -/
  changedClasses : Nat := 0
  calls : Nat := 0
  fields : Nat := 0
  /-- The class entries that could not be read and were copied. -/
  passedThrough : List String := []
  /-- The digest of the new archive, once there is one. -/
  digest : String := ""
  deriving DecidableEq, Repr

/-- The data of an entry. -/
def readEntry (limit : UInt64) (entry : Zip.Entry) : Except Fault (List UInt8) :=
  match entry.content with
  | .error cause => .error (.input cause)
  | .ok stream =>
    match entry.payload stream limit with
    | .ok data => .ok data
    | .error (.tooLarge size) => .error (.entryTooLarge entry.name size limit.toNat)
    | .error (.unreadable cause) => .error (.entry entry.name cause)

def isClass (entry : Zip.Entry) : Bool :=
  !entry.isDirectory && ".class".toList.isSuffixOf entry.name.toList

/-- The new data of a class entry. -/
def enforceClass (settings : JarSettings) (name : String) (data : List UInt8) (report : Report) :
    Except Fault (List UInt8 × Report) :=
  match settings.rule.enforceBytes data with
  | .ok enforced =>
    match enforced.bytes with
    | none => .ok (data, report)
    | some bytes =>
      .ok (bytes, { report with
        changedClasses := report.changedClasses + 1
        calls := report.calls + enforced.counts.calls
        fields := report.fields + enforced.counts.fields })
  | .error cause =>
    match settings.policy with
    | .abort => .error (.classFile name cause)
    | .copy => .ok (data, { report with passedThrough := report.passedThrough ++ [name] })

/-- The member that stands for an entry in the new archive. -/
def enforceEntry (settings : JarSettings) (entry : Zip.Entry) (report : Report) :
    Except Fault (Zip.Member × Report) := do
  let data ← readEntry settings.maxEntrySize entry
  let report := { report with entries := report.entries + 1 }
  if entry.isDirectory then
    return (Zip.Member.directory entry.name entry.modified entry.mode, report)
  let (data, report) ←
    if isClass entry then
      enforceClass settings entry.name data { report with classes := report.classes + 1 }
    else pure (data, report)
  return (Zip.Member.file entry.name entry.method entry.modified entry.mode data, report)

/-- Goes over entries in order and hands the member for each on. -/
def enforceOnto {δ : Type} (add : δ → Zip.Member → Except Fault δ) (settings : JarSettings)
    (draft : δ) (report : Report) : Zip.Archive → Except Fault (δ × Report)
  | [] => .ok (draft, report)
  | entry :: rest =>
    match enforceEntry settings entry report with
    | .error fault => .error fault
    | .ok (member, report) =>
      match add draft member with
      | .error fault => .error fault
      | .ok draft => enforceOnto add settings draft report rest

/-- The members of the new archive and what was done. -/
def enforce (settings : JarSettings) (archive : Zip.Archive) :
    Except Fault (List Zip.Member × Report) :=
  (enforceOnto (fun done member => .ok (member :: done)) settings [] {} archive).map
    fun (done, report) => (done.reverse, report)

section Build
variable [Zip.Library]

/-- Writes a member behind those of a draft. -/
def addMember (draft : Zip.Library.Draft) (member : Zip.Member) :
    Except Fault Zip.Library.Draft :=
  (Zip.Library.add draft member).mapError fun
    | .place cause => .output cause
    | .data cause => .outputEntry member.name cause

/-- The bytes of the new archive and what was done. -/
def build (settings : JarSettings) (archive : Zip.Archive) :
    Except Fault (List UInt8 × Report) := do
  let (draft, report) ← enforceOnto addMember settings Zip.Library.start {} archive
  let bytes ← (Zip.Library.finish draft).mapError .output
  return (bytes, report)

variable [Digest]

/-- The report of a run with the digest of what was written. -/
def Report.seal (report : Report) (written : List UInt8) : Report :=
  { report with digest := Digest.text written }

/-- A new archive from the bytes of an old one. -/
def enforceBytes (settings : JarSettings) (input : List UInt8) :
    Except Fault (List UInt8 × Report) := do
  let archive ← (Zip.Library.read input).mapError .input
  let (bytes, report) ← build settings archive
  return (bytes, report.seal bytes)

end Build

end Embargo.Jar
