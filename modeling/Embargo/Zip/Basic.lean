import Embargo.Storage.Fault

/-!
What a zip archive holds: entries in order, each with a stream of its data.

An entry notes a size that need not be the true one. Reading under a limit
refuses an entry that is too large by its noted size, and then one that yields
more bytes than the limit.
-/
namespace Embargo.Zip

inductive Method where
  | stored
  | deflated
  deriving DecidableEq, Repr

/-- A point in time as an entry notes it. -/
structure Moment where
  year : Nat
  month : Nat
  day : Nat
  hour : Nat
  minute : Nat
  second : Nat
  deriving DecidableEq, Repr

/-- The earliest moment that can be noted. -/
def Moment.earliest : Moment := ⟨1980, 1, 1, 0, 0, 0⟩

/-- Why an archive or an entry cannot be opened, or not be written. -/
inductive Fault where
  | noDirectory
  | badEntry
  | encrypted
  | wrongPassword
  | unsupportedMethod
  /-- A length or an offset that its field cannot hold. -/
  | unfit
  | unreadable (cause : StorageFault)
  deriving DecidableEq, Repr

def Fault.message : Fault → String
  | noDirectory => "invalid Zip archive: Could not find EOCD"
  | badEntry => "invalid Zip archive: Invalid local file header"
  | encrypted => "unsupported Zip archive: Password required to decrypt file"
  | wrongPassword => "provided password is incorrect"
  | unsupportedMethod => "unsupported Zip archive: Compression method not supported"
  | unfit => "unsupported Zip archive: Field too small"
  | unreadable _ => "i/o error"

/-- What went wrong, and each cause behind it. -/
def Fault.chain (fault : Fault) : List String :=
  fault.message ::
    match fault with
    | unreadable cause => [cause.message]
    | _ => []

/-- Data that is read from its start on. -/
structure Stream where
  /-- What reading at most so many bytes yields. -/
  take : Nat → Except StorageFault ByteArray

structure Entry where
  name : String
  /-- How the entry is packed; methods that are not known count as `deflated`. -/
  method : Method
  modified : Option Moment
  /-- File type and permissions, as Unix has them. -/
  mode : Option UInt32
  /-- The size that the archive notes for the data. -/
  declaredSize : UInt64
  /-- The data, if the entry can be opened. -/
  content : Except Fault Stream

/-- The entries of an archive in order, with no name twice. -/
abbrev Archive := List Entry

namespace Entry

def isDirectory (entry : Entry) : Bool :=
  match entry.name.toList.getLast? with
  | some c => c = '/' || c = '\\'
  | none => false

end Entry

def Archive.find? (archive : Archive) (name : String) : Option Entry :=
  List.find? (fun entry => entry.name = name) archive

/-- The first bytes of some data in front of a list. -/
def bytesOnto (data : ByteArray) : Nat → List UInt8 → List UInt8
  | 0, after => after
  | count + 1, after => bytesOnto data count (data[count]?.getD 0 :: after)

theorem bytesOnto_eq (data : ByteArray) (count : Nat) (after : List UInt8)
    (h : count ≤ data.size) :
    bytesOnto data count after = data.data.toList.take count ++ after := by
  induction count generalizing after with
  | zero => simp [bytesOnto]
  | succ count ih =>
    have inside : count < data.data.size := h
    have here : data[count]?.getD 0 = data.data[count] := by
      simp [getElem?_pos data count h, ByteArray.getElem_eq_getElem_data]
    rw [bytesOnto, ih _ (Nat.le_of_succ_le h), here, List.take_add_one,
      List.getElem?_eq_getElem (by simpa using inside)]
    simp

/-- All bytes of some data. -/
def bytesOf (data : ByteArray) : List UInt8 := bytesOnto data data.size []

theorem bytesOf_eq (data : ByteArray) : bytesOf data = data.data.toList := by
  rw [bytesOf, bytesOnto_eq data _ _ (Nat.le_refl _), List.append_nil]
  exact List.take_of_length_le (Nat.le_of_eq Array.length_toList)

/-- Why the data of an opened entry is refused. -/
inductive PayloadFault where
  | tooLarge (size : Nat)
  | unreadable (cause : StorageFault)
  deriving DecidableEq, Repr

/-- The data of an opened entry, unless it is larger than the limit. -/
def Entry.payload (entry : Entry) (stream : Stream) (limit : UInt64) :
    Except PayloadFault (List UInt8) :=
  if limit < entry.declaredSize then .error (.tooLarge entry.declaredSize.toNat)
  else
    match stream.take (limit + 1).toNat with
    | .error fault => .error (.unreadable fault)
    | .ok data =>
      if limit.toNat < data.size then .error (.tooLarge data.size) else .ok (bytesOf data)

end Embargo.Zip
