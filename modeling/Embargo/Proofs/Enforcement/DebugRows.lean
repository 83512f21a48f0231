import Embargo.Enforcement.DebugTable
import Embargo.Proofs.Bytes.Reading
import Embargo.Proofs.Code.LocalSlots

/-!
Debug tables as rows. A table for a new layout reads back as the rows of the old one whose offsets
can be moved, in order and at their new offsets.
-/
namespace Embargo.DebugTable
open Reader
variable {α : Type}

/-- The rows of a table; bytes behind them do not count. -/
def rows (row : Reader α) (table : List UInt8) : Except Fault (List α) :=
  ((counted row).run (Cursor.start table)).1

/-- A row of a line number table. -/
structure Line where
  start : UInt16
  line : UInt16
  deriving DecidableEq, Repr

/-- A row of a local variable table, or of one of their signatures. -/
structure Variable where
  start : UInt16
  length : UInt16
  name : UInt16
  type : UInt16
  slot : UInt16
  deriving DecidableEq, Repr

def Line.read : Reader Line := do
  let start ← u16
  let line ← u16
  return ⟨start, line⟩

def Line.toBytes (row : Line) : List UInt8 := Bytes.u16 row.start ++ Bytes.u16 row.line

def Variable.read : Reader Variable := do
  let start ← u16
  let length ← u16
  let name ← u16
  let type ← u16
  let slot ← u16
  return ⟨start, length, name, type, slot⟩

def Variable.toBytes (row : Variable) : List UInt8 :=
  Bytes.u16 row.start ++ (Bytes.u16 row.length ++ (Bytes.u16 row.name ++ (Bytes.u16 row.type
    ++ Bytes.u16 row.slot)))

theorem Line.reads (row : Line) (position : Nat) : Reads read position row.toBytes row :=
  (reads_u16 _ row.start).bind (reads_u16 _ row.line).map

theorem Variable.reads (row : Variable) (position : Nat) : Reads read position row.toBytes row :=
  (reads_u16 _ row.start).bind <| (reads_u16 _ row.length).bind <| (reads_u16 _ row.name).bind <|
    (reads_u16 _ row.type).bind (reads_u16 _ row.slot).map

/-- A written table reads back. -/
theorem rows_of_ofRows {row : Reader α} {write : α → List UInt8} {values : List α} {what : String}
    {table : List UInt8} (hreads : ∀ value position, Reads row position (write value) value)
    (h : ofRows what (values.map write) = .ok table) : rows row table = .ok values := by
  obtain ⟨count, hcount, hpure⟩ := Except.bind_eq_ok_iff.1 h
  cases hpure
  have hlength : values.length = count.toNat := by
    simpa using Bytes.count_eq_ok_iff.1 hcount
  have hread := reads_counted hlength (forall₂_reads_map fun value _ => hreads value) 0 []
  rw [List.append_nil] at hread
  exact congrArg Prod.fst hread

/-- The rows of two readers that match. -/
theorem exists_rows_of_matches {β : Type} {row : Reader α} {other : Reader β} {R : α → β → Prop}
    (h : Matches row other R) {table : List UInt8} {values : List α}
    (hrows : rows row table = .ok values) :
    ∃ others, rows other table = .ok others ∧ List.Forall₂ R values others := by
  obtain ⟨others, hothers, hall⟩ := matches_counted h _ _ _ (Prod.ext hrows rfl)
  exact ⟨others, congrArg Prod.fst hothers, hall⟩

variable {pool : Pool} {relocation : Relocation} {table new : List UInt8}

def Line.moved? (relocation : Relocation) (row : Line) : Option Line :=
  match relocation.move row.start.toNat with
  | .ok moved => some { row with start := UInt16.ofNat moved }
  | .error _ => none

/-- A row whose two ends can be moved. -/
def Variable.moved? (relocation : Relocation) (row : Variable) : Option Variable :=
  match relocation.move row.start.toNat,
    relocation.move (row.start.toNat + row.length.toNat) with
  | .ok newStart, .ok newStop =>
    some { row with start := UInt16.ofNat newStart, length := UInt16.ofNat (newStop - newStart) }
  | _, _ => none

theorem Line.matches_read : Matches (readLine relocation) read fun found row =>
    Option.Rel (fun bytes line => bytes = line.toBytes) found (row.moved? relocation) := by
  refine .behind fun start => .behind fun line => ?_
  cases hmove : relocation.move start.toNat with
  | error =>
    refine .pure ?_
    rw [moved?, hmove]
    exact .none
  | ok =>
    refine .pure ?_
    rw [moved?, hmove]
    exact .some rfl

/-- A row that is written, with the slots that its variable needs. -/
structure VariableRow.Is (pool : Pool) (found : VariableRow) (row : Variable) : Prop where
  bytes : found.bytes = row.toBytes
  slots : ∃ type, pool.utf8 row.type = .ok type ∧
    found.slots = row.slot.toNat + variableWidth type

theorem Variable.matches_read : Matches (readVariable pool relocation) read fun found row =>
    Option.Rel (VariableRow.Is pool) found (row.moved? relocation) := by
  refine .behind fun start => .behind fun length => .behind fun name => .behind fun type =>
    .behind fun slot => ?_
  cases hstart : relocation.move start.toNat with
  | error =>
    refine .pure ?_
    rw [moved?, hstart]
    exact .none
  | ok newStart =>
    cases hstop : relocation.move (start.toNat + length.toNat) with
    | error =>
      refine .pure ?_
      rw [moved?, hstart, hstop]
      exact .none
    | ok newStop =>
      intro cursor found next hrun
      obtain ⟨text, middle, htext, hpure⟩ := Attempt.run_bind_eq_ok_iff.1 hrun
      obtain ⟨htype, rfl⟩ := Attempt.run_ofExcept_eq_ok_iff.1 htext
      cases hpure
      refine ⟨⟨start, length, name, type, slot⟩, rfl, ?_⟩
      simp only [moved?, hstart, hstop]
      exact .some ⟨by simp only [toBytes, List.append_assoc], text, htype, rfl⟩

/-- The new line number table has the rows that can be moved. -/
theorem relocateLines_eq_ok (h : relocateLines relocation table = .ok new) : ∃ lines,
    rows Line.read table = .ok lines ∧
      rows Line.read new = .ok (lines.filterMap (Line.moved? relocation)) := by
  obtain ⟨found, hfound, hnew⟩ := Except.bind_eq_ok_iff.1 h
  obtain ⟨lines, hlines, hall⟩ := exists_rows_of_matches Line.matches_read hfound
  refine ⟨lines, hlines, ?_⟩
  have hkept : List.Forall₂ (fun bytes line => bytes = Line.toBytes line) (found.filterMap id)
      (lines.filterMap (Line.moved? relocation)) :=
    List.rel_filterMap (fun _ _ hrel => hrel) hall
  have hbytes : found.filterMap id
      = (lines.filterMap (Line.moved? relocation)).map Line.toBytes := by
    simpa using Forall₂.map_eq (f := Line.toBytes) (g := id) hkept.flip
  rw [hbytes] at hnew
  exact rows_of_ofRows Line.reads hnew

/-- The new table of variables has the rows that can be moved, and no variable needs more slots
than it says. -/
theorem relocateVariables_eq_ok {slots : Nat}
    (h : relocateVariables pool relocation table = .ok (new, slots)) : ∃ known,
    rows Variable.read table = .ok known ∧
      rows Variable.read new = .ok (known.filterMap (Variable.moved? relocation)) ∧
      ∀ row ∈ known.filterMap (Variable.moved? relocation),
        ∃ type, pool.utf8 row.type = .ok type ∧ row.slot.toNat + variableWidth type ≤ slots := by
  obtain ⟨found, hfound, hrest⟩ := Except.bind_eq_ok_iff.1 h
  obtain ⟨bytes, hnew, hpure⟩ := Except.bind_eq_ok_iff.1 hrest
  cases hpure
  obtain ⟨known, hknown, hall⟩ := exists_rows_of_matches Variable.matches_read hfound
  have hkept : List.Forall₂ (VariableRow.Is pool) (found.filterMap id)
      (known.filterMap (Variable.moved? relocation)) :=
    List.rel_filterMap (fun _ _ hrel => hrel) hall
  refine ⟨known, hknown, ?_, fun row hrow => ?_⟩
  · have hbytes : (found.filterMap id).map VariableRow.bytes
        = (known.filterMap (Variable.moved? relocation)).map Variable.toBytes :=
      Forall₂.map_eq (hkept.imp fun _ _ his => his.bytes).flip
    rw [hbytes] at hnew
    exact rows_of_ofRows Variable.reads hnew
  · obtain ⟨kept, hmem, his⟩ := Forall₂.exists_of_mem_right hkept hrow
    obtain ⟨type, htype, hslots⟩ := his.slots
    refine ⟨type, htype, ?_⟩
    rw [← hslots]
    exact Nat.le_foldl_max (.inr (List.mem_map_of_mem hmem))

end Embargo.DebugTable
