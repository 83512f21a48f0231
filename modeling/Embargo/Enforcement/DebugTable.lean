import Embargo.Bytes.Count
import Embargo.Bytes.Output
import Embargo.ClassFile.Pool
import Embargo.Enforcement.Layout

/-!
Debug tables for moved code. Rows that speak of offsets which are not the start of
an instruction or the end of the code are dropped.
-/
namespace Embargo.DebugTable

/-- A row of a line number table, unless its offset cannot be moved. -/
def readLine (relocation : Relocation) : Reader (Option (List UInt8)) := do
  let start ← Reader.u16
  let line ← Reader.u16
  match relocation.move start.toNat with
  | .ok moved => return some (Bytes.u16 (UInt16.ofNat moved) ++ Bytes.u16 line)
  | .error _ => return none

/-- A table of the rows that are left. -/
def ofRows (what : String) (rows : List (List UInt8)) : Except Fault (List UInt8) := do
  let count ← Bytes.count what rows.length
  return Bytes.u16 count ++ rows.flatten

/-- The line number table for the new layout. -/
def relocateLines (relocation : Relocation) (table : List UInt8) :
    Except Fault (List UInt8) := do
  let rows ← ((Reader.counted (readLine relocation)).run (Cursor.start table)).1
  ofRows "line numbers" (rows.filterMap id)

/-- A row of a local variable table and the slots that its variable needs. -/
structure VariableRow where
  bytes : List UInt8
  slots : Nat

/-- The slots of a variable by its descriptor; a signature never starts with the
letter of a wide type. -/
def variableWidth (type : String) : Nat :=
  match type.toList with
  | 'J' :: _ | 'D' :: _ => 2
  | _ => 1

/-- A row of a local variable table, unless an end of its range cannot be moved. -/
def readVariable (pool : Pool) (relocation : Relocation) : Reader (Option VariableRow) := do
  let start ← Reader.u16
  let length ← Reader.u16
  let name ← Reader.u16
  let type ← Reader.u16
  let slot ← Reader.u16
  match relocation.move start.toNat, relocation.move (start.toNat + length.toNat) with
  | .ok newStart, .ok newStop =>
    let text ← Attempt.ofExcept (pool.utf8 type)
    return some {
      bytes := Bytes.u16 (UInt16.ofNat newStart) ++ Bytes.u16 (UInt16.ofNat (newStop - newStart))
        ++ Bytes.u16 name ++ Bytes.u16 type ++ Bytes.u16 slot
      slots := slot.toNat + variableWidth text }
  | _, _ => return none

/-- A local variable table for the new layout, and the slots that it needs. -/
def relocateVariables (pool : Pool) (relocation : Relocation) (table : List UInt8) :
    Except Fault (List UInt8 × Nat) := do
  let rows ← ((Reader.counted (readVariable pool relocation)).run (Cursor.start table)).1
  let kept := rows.filterMap id
  let bytes ← ofRows "local variables" (kept.map VariableRow.bytes)
  return (bytes, (kept.map VariableRow.slots).foldl max 0)

end Embargo.DebugTable
