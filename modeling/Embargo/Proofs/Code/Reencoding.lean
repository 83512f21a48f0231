import Embargo.Proofs.Code.Decoding

/-!
Code that decodes is encoded again to the bytes that it was decoded from. Only the bytes
that align the operands of a switch are lost, and zeros take their place.
-/
namespace Embargo

/-- Bytes with zeros in some places. -/
def blank (hidden : Nat → Bool) (bytes : List UInt8) : List UInt8 :=
  bytes.mapIdx fun place byte => if hidden place then 0 else byte

section Blank
variable {hidden other : Nat → Bool} {bytes : List UInt8}

@[simp] theorem length_blank (hidden : Nat → Bool) (bytes : List UInt8) :
    (blank hidden bytes).length = bytes.length :=
  List.length_mapIdx

theorem blank_append (front back : List UInt8) : blank hidden (front ++ back) =
    blank hidden front ++ blank (fun place => hidden (place + front.length)) back :=
  List.mapIdx_append

theorem blank_of_forall_not (h : ∀ place < bytes.length, hidden place = false) :
    blank hidden bytes = bytes :=
  List.ext_getElem (by simp) fun place _ hplace => by simp [blank, h place hplace]

theorem blank_of_forall (h : ∀ place < bytes.length, hidden place = true) :
    blank hidden bytes = List.replicate bytes.length 0 :=
  List.ext_getElem (by simp) fun place hplace _ => by simp [blank, h place (by simpa using hplace)]

theorem blank_congr (h : ∀ place < bytes.length, hidden place = other place) :
    blank hidden bytes = blank other bytes :=
  List.ext_getElem (by simp) fun place hplace _ => by simp [blank, h place (by simpa using hplace)]

end Blank

namespace Located

/-- Whether a place in code is there only to align the operands of the instruction. -/
def aligns (located : Located) (place : Nat) : Bool :=
  located.offset < place && place ≤ located.offset + located.instruction.paddingAt located.offset

/-- No instruction is aligned in front of its own place. -/
theorem Row.not_aligns {a b : Nat} {code : List Located} (h : Row a code b) {place : Nat}
    (hplace : place ≤ a) : code.any (·.aligns place) = false := by
  refine List.any_eq_false.2 fun located hlocated => ?_
  have hle := (h.mem_bounds hlocated).1
  simp only [aligns, Bool.and_eq_true, decide_eq_true_eq, not_and, Nat.not_le]
  omega

end Located

namespace Instruction
open Located

/-- The bytes of one instruction, with zeros where its operands are aligned. -/
theorem encode_of_readFrom {located : Located} {bytes : List UInt8}
    (h : located.instruction.ReadFrom located.offset bytes) :
    located.instruction.encode located.offset
      = .ok (blank (fun place => located.aligns (located.offset + place)) bytes) := by
  obtain ⟨op, gap, operands, rfl, hgap, hencode⟩ := h
  have hop : blank (fun place => located.aligns (located.offset + place)) [op] = [op] :=
    blank_of_forall_not fun place hplace => by
      simp only [List.length_singleton, Nat.lt_one_iff] at hplace
      simp [aligns, hplace]
  have hzeros : blank (fun place => located.aligns (located.offset + (place + 1))) gap
      = List.replicate gap.length 0 :=
    blank_of_forall fun place hplace => by
      simp [aligns]
      omega
  have hoperands : blank (fun place =>
      located.aligns (located.offset + (place + gap.length + 1))) operands = operands :=
    blank_of_forall_not fun place _ => by
      simp [aligns]
      omega
  have hparts : op :: (gap ++ operands) = [op] ++ (gap ++ operands) := rfl
  rw [hencode, hparts, blank_append, blank_append, hop]
  simp only [List.length_singleton]
  rw [hzeros, hoperands]
  rfl

/-- The parts of a row are encoded one by one. -/
theorem exists_encoded {a b : Nat} {code : List Located} {parts : List (List UInt8)}
    (hrow : Row a code b) (h : ReadFromEach code parts) :
    ∃ written, Encoded code written ∧ written.map List.length = code.map size ∧
      written.flatten = blank (fun place => code.any (·.aligns (a + place))) parts.flatten := by
  induction h generalizing a with
  | nil => exact ⟨[], .nil, rfl, rfl⟩
  | @cons located part code parts head _ ih =>
    obtain ⟨rfl, hrest⟩ := hrow
    obtain ⟨written, hwritten, hsizes, hflatten⟩ := ih hrest
    have hencode := encode_of_readFrom head
    have hlength : part.length = located.size := head.length_eq
    refine ⟨_ :: written, .cons hencode hwritten, ?_, ?_⟩
    · rw [List.map_cons, List.map_cons, hsizes, length_encode hencode]
      rfl
    · -- the first part ends where the others start, and its places do not reach so far
      have hfirst : blank (fun place =>
          (located :: code).any (·.aligns (located.offset + place))) part
          = blank (fun place => located.aligns (located.offset + place)) part :=
        blank_congr fun place hplace => by
          rw [List.any_cons, Row.not_aligns hrest (by omega), Bool.or_false]
      have hothers : blank (fun place =>
          (located :: code).any (·.aligns (located.offset + (place + part.length)))) parts.flatten
          = blank (fun place => code.any (·.aligns (located.offset + located.size + place)))
            parts.flatten :=
        blank_congr fun place _ => by
          have hbehind : located.aligns (located.offset + (place + part.length)) = false := by
            have hpadding := located.instruction.paddingAt_lt_sizeAt located.offset
            rw [hlength, size]
            simp [aligns]
            omega
          rw [List.any_cons, hbehind, Bool.false_or, hlength, Nat.add_comm place, Nat.add_assoc]
      rw [List.flatten_cons, List.flatten_cons, blank_append, hfirst, hothers, hflatten]

/-- Instructions that code decodes to cover it without gaps, have all their targets among
them, and are encoded to the same bytes with zeros where the operands of a switch are
aligned. -/
theorem reencode_of_decode {bytes : List UInt8} {code : List Located}
    (h : decode bytes = .ok code) :
    Row 0 code bytes.length ∧
      (∀ located ∈ code, ∀ target ∈ located.instruction.targets,
        ∃ other ∈ code, other.offset = target) ∧
      ∃ parts, Encoded code parts ∧ parts.map List.length = code.map size ∧
        parts.flatten = blank (fun place => code.any (·.aligns place)) bytes := by
  obtain ⟨hsound, parts, rfl, hparts⟩ := readFromEach_of_decode h
  obtain ⟨written, hwritten, hsizes, hflatten⟩ := exists_encoded hsound.row hparts
  refine ⟨hsound.row, hsound.targets, written, hwritten, hsizes, ?_⟩
  simpa using hflatten

/-- A switch behind one instruction, aligned with two bytes that are not zero, with targets
on both sides. -/
def switchBytes : List UInt8 :=
  [0x1a, 0xaa, 9, 9, 0, 0, 0, 26, 0, 0, 0, 0, 0, 0, 0, 1, 0, 0, 0, 26, 255, 255, 255, 255,
    0xa7, 255, 232, 0xb1]

def switchCode : List Located :=
  [⟨0, plain 0x1a []⟩, ⟨1, tableSwitch 27 0 1 [27, 0]⟩, ⟨24, branch 0xa7 0⟩, ⟨27, plain 0xb1 []⟩]

theorem reencode_of_decode_switch : decode switchBytes = .ok switchCode ∧
    ∃ parts, Encoded switchCode parts ∧ parts.map List.length = [1, 23, 3, 1] ∧
      parts.flatten = (switchBytes.set 2 0).set 3 0 := by
  have hdecode : decode switchBytes = .ok switchCode := by decide +kernel
  obtain ⟨-, -, parts, hencoded, hsizes, hflatten⟩ := reencode_of_decode hdecode
  refine ⟨hdecode, parts, hencoded, ?_, ?_⟩
  · rw [hsizes]
    decide
  · rw [hflatten]
    decide

end Instruction

end Embargo
