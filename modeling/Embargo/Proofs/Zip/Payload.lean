import Embargo.Classpath.Root
import Embargo.Jar.Enforcement
import Embargo.Proofs.Attempt

/-!
Data read under a limit. An entry is read whole or refused, except under the highest limit of all,
of which one more byte is none: nothing is read then, and no entry refused.
-/
namespace Embargo.Zip

/-- A stream gives the front of some data however much is asked for, and no error. -/
def Stream.Yields (stream : Stream) (data : List UInt8) : Prop :=
  ∀ count, (stream.take count).map bytesOf = .ok (data.take count)

theorem length_bytesOf (bytes : ByteArray) : (bytesOf bytes).length = bytes.size := by
  rw [bytesOf_eq]
  rfl

theorem bytesOf_extract (bytes : ByteArray) (count : Nat) :
    bytesOf (bytes.extract 0 count) = (bytesOf bytes).take count := by
  rw [bytesOf_eq, bytesOf_eq, ByteArray.data_extract, Array.toList_extract,
    List.extract_eq_take_drop, List.drop_zero, Nat.sub_zero]

/-- Data that is stored as it is, under its own checksum. -/
theorem Stream.yields_stored (bytes : ByteArray) :
    (stored bytes 0 bytes.size (Checksum.ofData bytes)).Yields (bytesOf bytes) := by
  intro count
  have hsize : (bytes.extract 0 (min bytes.size (0 + count))).size = min bytes.size count := by
    rw [ByteArray.size_extract]
    omega
  change (checked _ (bytes.extract 0 (min bytes.size (0 + count))) count).map bytesOf = _
  rw [checked, hsize]
  split
  case isTrue hle =>
    rw [Except.map, bytesOf_extract, bytesOf_extract, List.take_take]
    congr 2
    omega
  case isFalse hlt =>
    have hall : bytes.extract 0 (min bytes.size (0 + count)) = bytes := by
      rw [Nat.min_eq_left (by omega), ByteArray.extract_zero_size]
    rw [hall, if_pos rfl, Except.map, List.take_of_length_le]
    rw [length_bytesOf]
    omega

namespace Entry
variable {ε : Type}

/-- The size for which an entry is refused: the one that it notes, or else that of what was read
until it was too much. -/
def excess (entry : Entry) (limit : UInt64) : Nat :=
  if limit < entry.declaredSize then entry.declaredSize.toNat else limit.toNat + 1

/-- All the data of an entry, or a refusal where the size that it notes or that of the data is
above the limit. -/
def whole (entry : Entry) (data : List UInt8) (limit : UInt64) (refuse : Nat → ε) :
    Except ε (List UInt8) :=
  if entry.declaredSize ≤ limit ∧ data.length ≤ limit.toNat then .ok data
  else .error (refuse (entry.excess limit))

/-- What is made of an entry under a limit: all of it or a refusal, but nothing at all of any entry
where one more than the limit is out of range. -/
def capped (entry : Entry) (data : List UInt8) (limit : UInt64) (refuse : Nat → ε) :
    Except ε (List UInt8) :=
  if limit.toNat + 1 < UInt64.size then entry.whole data limit refuse else .ok []

variable {entry : Entry} {stream : Stream} {data : List UInt8} {limit : UInt64} {refuse : Nat → ε}

theorem whole_of_lt (h : limit < entry.declaredSize) :
    entry.whole data limit refuse = .error (refuse entry.declaredSize.toNat) := by
  rw [whole, excess, if_pos h]
  exact if_neg fun hle => UInt64.not_lt.2 hle.1 h

theorem whole_of_not_lt (h : ¬ limit < entry.declaredSize) : entry.whole data limit refuse =
    if data.length ≤ limit.toNat then .ok data else .error (refuse (limit.toNat + 1)) := by
  rw [whole, excess, if_neg h]
  simp only [UInt64.not_lt.1 h, true_and]

/-- Whether an entry is refused does not depend on the name of the fault. -/
theorem capped_cases (entry : Entry) (data : List UInt8) (limit : UInt64) :
    (∃ read, ∀ (ε : Type) (refuse : Nat → ε), entry.capped data limit refuse = .ok read) ∨
      ∃ size, ∀ (ε : Type) (refuse : Nat → ε),
        entry.capped data limit refuse = .error (refuse size) := by
  by_cases hroom : limit.toNat + 1 < UInt64.size
  · by_cases hfits : entry.declaredSize ≤ limit ∧ data.length ≤ limit.toNat
    · exact .inl ⟨data, fun ε refuse => by rw [capped, if_pos hroom, whole, if_pos hfits]⟩
    · exact .inr ⟨entry.excess limit, fun ε refuse => by
        rw [capped, if_pos hroom, whole, if_neg hfits]⟩
  · exact .inl ⟨[], fun ε refuse => if_neg hroom⟩

theorem capped_eq_whole_iff :
    entry.capped data limit refuse = entry.whole data limit refuse ↔
      limit.toNat + 1 < UInt64.size ∨ data = [] := by
  by_cases hroom : limit.toNat + 1 < UInt64.size
  · exact iff_of_true (if_pos hroom) (.inl hroom)
  · have hdeclared : ¬ limit < entry.declaredSize := by
      rw [UInt64.lt_iff_toNat_lt]
      have := entry.declaredSize.toNat_lt_size
      omega
    rw [capped, if_neg hroom, or_iff_right hroom, whole_of_not_lt hdeclared]
    constructor
    · intro heq
      split at heq
      · exact (Except.ok.inj heq).symm
      · cases heq
    · rintro rfl
      exact (if_pos (Nat.zero_le _)).symm

theorem payload_eq (h : stream.Yields data) :
    entry.payload stream limit = entry.capped data limit .tooLarge := by
  have hsum : (limit + 1).toNat = (limit.toNat + 1) % UInt64.size := UInt64.toNat_add limit 1
  rw [capped]
  by_cases hdeclared : limit < entry.declaredSize
  · have hroom : limit.toNat + 1 < UInt64.size :=
      Nat.lt_of_le_of_lt (UInt64.lt_iff_toNat_lt.1 hdeclared) entry.declaredSize.toNat_lt
    rw [payload, if_pos hdeclared, if_pos hroom, whole_of_lt hdeclared]
  · obtain ⟨bytes, htake, hbytes⟩ := Except.map_eq_ok_iff.1 (h (limit + 1).toNat)
    have hsize := congrArg List.length hbytes
    rw [length_bytesOf, List.length_take] at hsize
    rw [payload, if_neg hdeclared, htake, whole_of_not_lt hdeclared]
    dsimp only
    rw [hbytes, hsize, hsum]
    by_cases hroom : limit.toNat + 1 < UInt64.size
    · rw [if_pos hroom, Nat.mod_eq_of_lt hroom]
      by_cases hfits : data.length ≤ limit.toNat
      · rw [if_pos hfits, if_neg (by omega), List.take_of_length_le (by omega)]
      · rw [if_neg hfits, if_pos (by omega), Nat.min_eq_left (by omega)]
    · have hhighest : limit.toNat + 1 = UInt64.size :=
        Nat.le_antisymm limit.toNat_lt (Nat.not_lt.1 hroom)
      rw [if_neg hroom, hhighest, Nat.mod_self, Nat.zero_min, if_neg (Nat.not_lt_zero _),
        List.take_zero]

end Entry

section Readers
variable {entry : Entry} {stream : Stream} {data : List UInt8} {limit : UInt64}

theorem readEntry_eq_of_jar (hcontent : entry.content = .ok stream) (hdata : stream.Yields data) :
    Jar.readEntry limit entry
      = entry.capped data limit (.entryTooLarge entry.name · limit.toNat) := by
  rw [Jar.readEntry, hcontent]
  dsimp only
  rw [Entry.payload_eq hdata]
  obtain ⟨read, hread⟩ | ⟨size, hrefused⟩ := entry.capped_cases data limit
  · rw [hread, hread]
  · rw [hrefused, hrefused]

theorem readEntry_eq_of_root (hcontent : entry.content = .ok stream) (hdata : stream.Yields data)
    {entries : Archive} {name : String}
    (hfind : entries.find? (EntryPath.ofClass name) = some entry) :
    Classpath.Root.readEntry entries limit name
      = entry.capped data limit (.tooLarge name · limit.toNat) := by
  rw [Classpath.Root.readEntry, hfind]
  dsimp only
  rw [hcontent]
  dsimp only
  rw [Entry.payload_eq hdata]
  obtain ⟨read, hread⟩ | ⟨size, hrefused⟩ := entry.capped_cases data limit
  · rw [hread, hread]
  · rw [hrefused, hrefused]

end Readers

/-- Entries of a jar, and class files that are looked up in an archive, are read whole or refused,
unless the limit is the highest of all and there is something to read. -/
theorem Entry.reads_whole_iff (entry : Entry) {stream : Stream} {data : List UInt8}
    (hcontent : entry.content = .ok stream) (hdata : stream.Yields data) (limit : UInt64) :
    (Jar.readEntry limit entry = entry.whole data limit (.entryTooLarge entry.name · limit.toNat) ↔
      limit.toNat + 1 < UInt64.size ∨ data = []) ∧
    ∀ (entries : Archive) (name : String), entries.find? (EntryPath.ofClass name) = some entry →
      (Classpath.Root.readEntry entries limit name
          = entry.whole data limit (.tooLarge name · limit.toNat) ↔
        limit.toNat + 1 < UInt64.size ∨ data = []) := by
  constructor
  · rw [readEntry_eq_of_jar hcontent hdata]
    exact capped_eq_whole_iff
  · intro entries name hfind
    rw [readEntry_eq_of_root hcontent hdata hfind]
    exact capped_eq_whole_iff

/-- A class file of two bytes that are stored as they are. -/
def storedBytes : ByteArray := ⟨#[104, 105]⟩

def storedEntry : Entry where
  name := "a/B.class"
  method := .stored
  modified := none
  mode := none
  declaredSize := 2
  content := .ok (.stored storedBytes 0 2 (Checksum.ofData storedBytes))

theorem Entry.reads_whole_iff_stored :
    Jar.readEntry 2 storedEntry = .ok [104, 105] ∧
      Jar.readEntry 1 storedEntry = .error (.entryTooLarge "a/B.class" 2 1) ∧
      Classpath.Root.readEntry [storedEntry] 1 "a.B" = .error (.tooLarge "a.B" 2 1) ∧
      Jar.readEntry 0xFFFFFFFFFFFFFFFF storedEntry ≠ .ok [104, 105] ∧
      Classpath.Root.readEntry [storedEntry] 0xFFFFFFFFFFFFFFFF "a.B" ≠ .ok [104, 105] := by
  have hdata : (Stream.stored storedBytes 0 2 (Checksum.ofData storedBytes)).Yields [104, 105] :=
    Stream.yields_stored storedBytes
  have hname : storedEntry.name = EntryPath.ofClass "a.B" := by decide +kernel
  have hfind : Archive.find? [storedEntry] (EntryPath.ofClass "a.B") = some storedEntry := by
    simp [Archive.find?, hname]
  have hreads (limit : UInt64) := storedEntry.reads_whole_iff rfl hdata limit
  refine ⟨?_, ?_, ?_, ?_, ?_⟩
  · exact (hreads 2).1.2 (.inl (by decide))
  · exact (hreads 1).1.2 (.inl (by decide))
  · exact ((hreads 1).2 _ "a.B" hfind).2 (.inl (by decide))
  · intro heq
    exact absurd ((hreads 0xFFFFFFFFFFFFFFFF).1.1 heq) (by decide)
  · intro heq
    exact absurd (((hreads 0xFFFFFFFFFFFFFFFF).2 _ "a.B" hfind).1 heq) (by decide)

end Embargo.Zip
