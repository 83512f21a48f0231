import Embargo.Zip.Parse
import Mathlib.Data.List.Nodup

/-!
The directory that an archive is read from. Where no name stands twice in it, the archive has the
entries of the directory, in order.
-/
namespace Embargo.Zip.Archive

variable {bytes : List UInt8} {entries : List Entry}

/-- The entries of the directory that an archive is read from, with all repetitions. -/
def noted? (bytes : List UInt8) : Option (List Entry) :=
  let data : ByteArray := ⟨bytes.toArray⟩
  let places := Places.of data
  places.ends.reverse.findSome? fun offset => do
    let ending ← Ending.at? data places offset
    records data ending.shift ending.count ending.start []

theorem findSome?_endingAt (bytes : List UInt8) :
    (Places.of ⟨bytes.toArray⟩).ends.reverse.findSome?
      (endingAt ⟨bytes.toArray⟩ (Places.of ⟨bytes.toArray⟩)) = (noted? bytes).map ofEntries := by
  rw [noted?, List.map_findSome?]
  congr 1
  funext offset
  rw [endingAt, Function.comp_apply]
  cases Ending.at? ⟨bytes.toArray⟩ (Places.of ⟨bytes.toArray⟩) offset with
  | none => rfl
  | some ending =>
    simp only [bind, Option.bind_some]
    cases records ⟨bytes.toArray⟩ ending.shift ending.count ending.start [] <;> rfl

theorem parse_eq_ok_iff {archive : Archive} :
    parse bytes = .ok archive ↔
      ∃ entries, noted? bytes = some entries ∧ ofEntries entries = archive := by
  simp only [parse, findSome?_endingAt]
  cases noted? bytes <;> simp

theorem distinct_of_nodup {noted : Std.HashMap String Entry} {done : List Entry}
    (hnames : (entries.map Entry.name).Nodup)
    (hnoted : ∀ entry ∈ entries, noted[entry.name]? = some entry) :
    distinct noted entries done = done.reverse ++ entries := by
  induction entries generalizing noted done with
  | nil => simp [distinct]
  | cons first rest ih =>
    rw [List.map_cons, List.nodup_cons] at hnames
    have hrest : ∀ entry ∈ rest, (noted.erase first.name)[entry.name]? = some entry := by
      intro entry hentry
      have hne : first.name ≠ entry.name :=
        fun heq => hnames.1 (heq ▸ List.mem_map_of_mem hentry)
      rw [Std.HashMap.getElem?_erase, if_neg (by simpa using hne)]
      exact hnoted entry (.tail _ hentry)
    simp only [distinct, hnoted first (.head _)]
    rw [ih hnames.2 hrest]
    simp

theorem ofEntries_of_nodup (hnames : (entries.map Entry.name).Nodup) :
    ofEntries entries = entries := by
  refine (distinct_of_nodup hnames fun entry hentry => ?_).trans (List.nil_append _)
  refine Std.HashMap.getElem?_ofList_of_mem BEq.rfl ?_ (List.mem_map_of_mem hentry)
  rw [List.pairwise_map]
  exact (List.pairwise_map.1 hnames).imp fun hne => by simpa using hne

end Embargo.Zip.Archive
