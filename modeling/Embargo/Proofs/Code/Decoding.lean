import Embargo.Proofs.Code.Instruction
import Embargo.Proofs.Contiguous

/-!
Code arrays and their instructions. What decodes is a row of instructions without gaps
whose targets are all in it, and such a row decodes from its own bytes.
-/
namespace Embargo

namespace Located

/-- The size of an instruction where it stands. -/
def size (located : Located) : Nat := located.instruction.sizeAt located.offset

theorem size_pos (located : Located) : 0 < located.size :=
  located.instruction.sizeAt_pos _

/-- From `a` to `b` without gaps. -/
abbrev Row (a : Nat) (code : List Located) (b : Nat) : Prop :=
  Contiguous offset size a code b

theorem Row.start_eq {a b : Nat} {code : List Located} (h : Row a code b) {x y : Located}
    (hx : x ∈ code) (hy : y ∈ code) (hxy : x.offset = y.offset) : x = y :=
  h.eq_of_start_eq (fun z _ => z.size_pos) hx hy hxy

/-- The instructions of a code array of a given length. -/
structure Sound (code : List Located) (length : Nat) : Prop where
  row : Row 0 code length
  shaped : ∀ located ∈ code, located.instruction.Shaped
  targets : ∀ located ∈ code, ∀ target ∈ located.instruction.targets,
    ∃ other ∈ code, other.offset = target

end Located

namespace Instruction
open Located Reader

theorem strayTarget?_eq_none_iff {code : List Located} :
    strayTarget? code = none ↔ ∀ located ∈ code, ∀ target ∈ located.instruction.targets,
      ∃ other ∈ code, other.offset = target := by
  unfold strayTarget?
  rw [List.find?_eq_none]
  simp only [List.mem_flatMap, forall_exists_index, and_imp, Std.TreeSet.contains_ofList,
    List.contains_iff_mem, List.mem_map, Bool.not_eq_true',
    ← Bool.not_eq_true]
  exact ⟨fun h located hlocated target htarget =>
      not_not.1 (h target located hlocated htarget),
    fun h target located hlocated htarget =>
      not_not.2 (h located hlocated target htarget)⟩

/-- Parts of code that instructions were read from where they stand. -/
abbrev ReadFromEach (code : List Located) (parts : List (List UInt8)) : Prop :=
  List.Forall₂ (fun located part => located.instruction.ReadFrom located.offset part) code parts

theorem readAllOnto_eq_ok {fuel : Nat} {done code : List Located} {cursor : Cursor}
    (hfuel : cursor.rest.length ≤ fuel) (h : readAllOnto fuel done cursor = .ok code) :
    ∃ more parts, code = done.reverse ++ more ∧ cursor.rest = parts.flatten ∧
      Row cursor.position more (cursor.position + cursor.rest.length) ∧
      (∀ located ∈ more, located.instruction.Shaped) ∧ ReadFromEach more parts := by
  induction fuel generalizing done cursor with
  | zero =>
    cases h
    have hempty : cursor.rest = [] := List.eq_nil_of_length_eq_zero (Nat.le_zero.1 hfuel)
    exact ⟨[], [], by simp, hempty, by rw [hempty]; rfl, by simp, .nil⟩
  | succ fuel ih =>
    simp only [readAllOnto] at h
    split at h
    case isTrue hempty =>
      cases h
      rw [List.isEmpty_iff] at hempty
      exact ⟨[], [], by simp, hempty, by rw [hempty]; rfl, by simp, .nil⟩
    case isFalse =>
      split at h
      case h_2 => cases h
      case h_1 located next hread =>
        obtain ⟨hoffset, hshape, bytes, hbytes, hposition, hfrom⟩ := read_eq_ok hread
        rw [← hoffset] at hfrom
        have hsize : located.size = bytes.length := hfrom.length_eq.symm
        have hpos := located.size_pos
        have hlength : cursor.rest.length = bytes.length + next.rest.length := by
          rw [hbytes, List.length_append]
        obtain ⟨more, parts, rfl, hparts, hrow, hshaped, hall⟩ := ih (by omega) h
        refine ⟨located :: more, bytes :: parts, by simp, ?_, ⟨hoffset, ?_⟩,
          List.forall_mem_cons.2 ⟨hshape, hshaped⟩, .cons hfrom hall⟩
        · rw [hbytes, hparts, List.flatten_cons]
        · rw [hsize, hlength, ← Nat.add_assoc, ← hposition]
          exact hrow

/-- Whatever decodes is sound, and its parts are what the instructions were read from. -/
theorem readFromEach_of_decode {bytes : List UInt8} {code : List Located}
    (h : decode bytes = .ok code) :
    Sound code bytes.length ∧ ∃ parts, bytes = parts.flatten ∧ ReadFromEach code parts := by
  obtain ⟨instructions, hread, hstray⟩ := Except.bind_eq_ok_iff.1 h
  split at hstray
  case h_1 => cases hstray
  case h_2 hnone =>
    cases hstray
    have hfuel : (Cursor.start bytes).rest.length ≤ bytes.length := Nat.le_refl _
    obtain ⟨more, parts, rfl, hparts, hrow, hshaped, hall⟩ := readAllOnto_eq_ok hfuel hread
    refine ⟨⟨?_, hshaped, strayTarget?_eq_none_iff.1 hnone⟩, parts, hparts, hall⟩
    simpa [Cursor.start] using hrow

theorem decode_eq_ok {bytes : List UInt8} {code : List Located} (h : decode bytes = .ok code) :
    Sound code bytes.length :=
  (readFromEach_of_decode h).1

/-- Bytes of instructions, one part for each. -/
abbrev Encoded (code : List Located) (parts : List (List UInt8)) : Prop :=
  List.Forall₂ (fun located part => located.instruction.encode located.offset = .ok part) code parts

theorem length_flatten_of_encoded {a b : Nat} {code : List Located} {parts : List (List UInt8)}
    (hrow : Row a code b) (h : Encoded code parts) : a + parts.flatten.length = b := by
  induction h generalizing a with
  | nil => exact hrow
  | @cons located part code parts hpart _ ih =>
    have hrest := ih hrow.2
    have hlength : part.length = located.size := length_encode hpart
    rw [List.flatten_cons, List.length_append]
    omega

theorem readAllOnto_of_encoded {a b fuel : Nat} {code done : List Located}
    {parts : List (List UInt8)} (hrow : Row a code b) (hb : b < 2147483648)
    (hshaped : ∀ located ∈ code, located.instruction.Shaped)
    (htargets : ∀ located ∈ code, ∀ target ∈ located.instruction.targets, target < 2147483648)
    (hparts : Encoded code parts) (hfuel : parts.flatten.length ≤ fuel) :
    readAllOnto fuel done ⟨a, parts.flatten⟩ = .ok (done.reverse ++ code) := by
  induction hparts generalizing a fuel done with
  | nil =>
    cases fuel with
    | zero => simp [readAllOnto]
    | succ fuel => simp [readAllOnto]
  | @cons located part code parts hpart _ ih =>
    have hsize : part.length = located.size := length_encode hpart
    have hpos := located.size_pos
    rw [List.flatten_cons, List.length_append] at hfuel
    obtain ⟨fuel, rfl⟩ : ∃ n, fuel = n + 1 := ⟨fuel - 1, by omega⟩
    obtain ⟨rfl, hrest⟩ := hrow
    have hoffset : located.offset < 2147483648 := by
      have hle := hrest.le
      omega
    have hread := reads_read (hshaped _ List.mem_cons_self) hoffset
      (htargets _ List.mem_cons_self) hpart parts.flatten
    have hnonempty : (part ++ parts.flatten).isEmpty = false := by
      cases part with
      | nil => simp at hsize; omega
      | cons => rfl
    rw [List.flatten_cons, readAllOnto, hnonempty, if_neg Bool.false_ne_true, hread]
    dsimp only
    rw [hsize, ih hrest (fun x hx => hshaped x (List.mem_cons_of_mem _ hx))
      (fun x hx => htargets x (List.mem_cons_of_mem _ hx)) (by omega)]
    simp

/-- Sound code comes back from its bytes. -/
theorem decode_of_encoded {length : Nat} {code : List Located} {parts : List (List UInt8)}
    (h : Sound code length) (hlength : length < 2147483648) (hparts : Encoded code parts) :
    decode parts.flatten = .ok code := by
  have htargets : ∀ located ∈ code, ∀ target ∈ located.instruction.targets,
      target < 2147483648 := by
    intro located hlocated target htarget
    obtain ⟨other, hother, rfl⟩ := h.targets located hlocated target htarget
    exact Nat.lt_trans (h.row.start_lt (fun x _ => x.size_pos) hother) hlength
  have hread : readAllOnto parts.flatten.length [] (Cursor.start parts.flatten) = .ok code :=
    readAllOnto_of_encoded h.row hlength h.shaped htargets hparts (Nat.le_refl _)
  refine Except.bind_eq_ok_iff.2 ⟨code, hread, ?_⟩
  rw [strayTarget?_eq_none_iff.2 h.targets]
  rfl

end Instruction

end Embargo
