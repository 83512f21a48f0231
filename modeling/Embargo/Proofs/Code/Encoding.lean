import Embargo.Proofs.Code.Decoding

/-!
Code that is laid out without gaps decodes from its own bytes. Only a branch of two bytes can
fail to be encoded, where its target is too far away.
-/
namespace Embargo.Instruction
open Located

/-- The operands agree with the opcode, and a table with its bounds. How many pairs there
are is left to the size of the code. -/
def Formed : Instruction → Prop
  | lookupSwitch .. => True
  | i => i.Shaped

/-- Code that is small enough has no more pairs than 31 bits can count. -/
theorem Formed.shaped {offset : Nat} {i : Instruction} (h : i.Formed)
    (hsize : i.sizeAt offset < 2147483648) : i.Shaped := by
  cases i with
  | lookupSwitch otherwise pairs =>
    simp only [sizeAt] at hsize
    exact show pairs.length < 2147483648 by omega
  | _ => exact h

/-- A branch of two bytes whose distance they cannot hold. -/
def Overreaches (offset : Nat) (distance : Int) (i : Instruction) : Prop :=
  ∃ op target, i = branch op target ∧ op.isNarrowBranch = true ∧
    distance = delta offset target ∧ (distance < -32768 ∨ 32767 < distance)

theorem narrowDelta_eq_error_iff {offset target : Nat} {fault : Fault} :
    narrowDelta offset target = .error fault ↔
      (delta offset target < -32768 ∨ 32767 < delta offset target) ∧
        fault = .branchOutOfRange offset (delta offset target) := by
  dsimp only [narrowDelta]
  split
  case isTrue hrange =>
    refine ⟨fun h => (nomatch h), fun ⟨hfar, _⟩ => ?_⟩
    omega
  case isFalse hfar =>
    rw [Except.error.injEq, eq_comm]
    exact ⟨fun h => ⟨by omega, h⟩, And.right⟩

/-- The one way in which encoding fails. -/
theorem encode_eq_error_iff {offset : Nat} {i : Instruction} {fault : Fault} (h : i.Formed) :
    i.encode offset = .error fault ↔
      ∃ distance, i.Overreaches offset distance ∧ fault = .branchOutOfRange offset distance := by
  cases i with
  | branch op target =>
    cases hwide : op.isWideBranch with
    | true =>
      have hnarrow := Opcode.isNarrowBranch_of_isWideBranch hwide
      simp [encode, Overreaches, hwide, hnarrow]
    | false =>
      have hnarrow : op.isNarrowBranch = true := by simpa [Formed, Shaped, hwide] using h
      have hencode : encode offset (branch op target) = .error fault ↔
          narrowDelta offset target = .error fault := by
        rw [encode, hwide, if_neg Bool.false_ne_true]
        cases narrowDelta offset target <;> simp [Except.map]
      rw [hencode, narrowDelta_eq_error_iff]
      constructor
      · rintro ⟨hfar, rfl⟩
        exact ⟨_, ⟨op, target, rfl, hnarrow, rfl, hfar⟩, rfl⟩
      · rintro ⟨_, ⟨_, _, ⟨⟩, -, rfl, hfar⟩, rfl⟩
        exact ⟨hfar, rfl⟩
  | plain => simp [encode, Overreaches]
  | tableSwitch => simp [encode, Overreaches]
  | lookupSwitch => simp [encode, Overreaches]

/-- In short code every branch reaches its target. -/
theorem not_overreaches_of_short {code : List Located} {length : Nat} (hrow : Row 0 code length)
    (hshort : length ≤ 32768)
    (htargets : ∀ located ∈ code, ∀ target ∈ located.instruction.targets,
      ∃ other ∈ code, other.offset = target) {located : Located} (hlocated : located ∈ code)
    {distance : Int} : ¬ located.instruction.Overreaches located.offset distance := by
  rintro ⟨op, target, hbranch, -, rfl, hfar⟩
  have htarget : target ∈ located.instruction.targets := by simp [hbranch, targets]
  obtain ⟨other, hother, rfl⟩ := htargets located hlocated target htarget
  have hstart := hrow.start_lt (fun x _ => x.size_pos) hlocated
  have hstop := hrow.start_lt (fun x _ => x.size_pos) hother
  unfold delta at hfar
  omega

/-- Instructions in a row whose targets are all among them can be encoded unless a branch of
two bytes overreaches, and their bytes decode to the same instructions at the same places. -/
theorem redecode_of_encode {code : List Located} {length : Nat} (hrow : Row 0 code length)
    (hlength : length < 2147483648) (hformed : ∀ located ∈ code, located.instruction.Formed)
    (htargets : ∀ located ∈ code, ∀ target ∈ located.instruction.targets,
      ∃ other ∈ code, other.offset = target) :
    (∀ located ∈ code, ∀ fault, located.instruction.encode located.offset = .error fault ↔
      ∃ distance, located.instruction.Overreaches located.offset distance ∧
        fault = .branchOutOfRange located.offset distance) ∧
    ((∀ located ∈ code, ∀ fault, located.instruction.encode located.offset ≠ .error fault) →
      ∃ parts, Encoded code parts ∧ decode parts.flatten = .ok code) := by
  refine ⟨fun located hlocated fault => encode_eq_error_iff (hformed located hlocated),
    fun hnone => ?_⟩
  have hsound : Sound code length := by
    refine ⟨hrow, fun located hlocated => ?_, htargets⟩
    -- the pairs of a switch are within the bound of the whole code
    have hstop : located.offset + located.size ≤ length := (hrow.mem_bounds hlocated).2
    have hsize : located.size < 2147483648 := by omega
    exact (hformed located hlocated).shaped hsize
  have hsome : ∀ located ∈ code, ∃ part,
      located.instruction.encode located.offset = .ok part := by
    intro located hlocated
    cases hrun : located.instruction.encode located.offset with
    | ok part => exact ⟨part, rfl⟩
    | error fault => exact absurd hrun (hnone located hlocated fault)
  obtain ⟨parts, hmapM⟩ := Except.exists_mapM_eq_ok hsome
  have hparts : Encoded code parts := Except.mapM_eq_ok_iff.1 hmapM
  exact ⟨parts, hparts, decode_of_encoded hsound hlength hparts⟩

/-- Instructions of every shape, with targets on both sides of them and the switches at places
that are aligned differently. -/
def mixedCode : List Located :=
  [⟨0, plain 0x1a []⟩, ⟨1, lookupSwitch 28 [(-1, 0), (7, 64)]⟩,
    ⟨28, plain Opcode.wide [Opcode.iinc, 0, 1, 255, 255]⟩, ⟨34, branch Opcode.gotoW 28⟩,
    ⟨39, branch 0xa7 0⟩, ⟨42, tableSwitch 64 (-1) 0 [39, 1]⟩, ⟨64, plain 0xb1 []⟩]

theorem redecode_of_encode_mixed :
    ∃ parts, Encoded mixedCode parts ∧ decode parts.flatten = .ok mixedCode := by
  have hrow : Row 0 mixedCode 65 := ⟨rfl, rfl, rfl, rfl, rfl, rfl, rfl, rfl⟩
  have hformed : ∀ located ∈ mixedCode, located.instruction.Formed := by
    intro located hlocated
    simp only [mixedCode, List.mem_cons, List.not_mem_nil, or_false] at hlocated
    rcases hlocated with rfl | rfl | rfl | rfl | rfl | rfl | rfl
    · exact .inl rfl
    · trivial
    · exact .inr ⟨rfl, _, _, rfl, rfl⟩
    · exact .inr rfl
    · exact .inl rfl
    · exact ⟨by decide, rfl⟩
    · exact .inl rfl
  have htargets : ∀ located ∈ mixedCode, ∀ target ∈ located.instruction.targets,
      ∃ other ∈ mixedCode, other.offset = target := by decide
  obtain ⟨hfails, hdecode⟩ := redecode_of_encode hrow (by decide) hformed htargets
  refine hdecode fun located hlocated fault hfault => ?_
  obtain ⟨distance, hfar, -⟩ := (hfails located hlocated fault).1 hfault
  exact not_overreaches_of_short hrow (by decide) htargets hlocated hfar

end Embargo.Instruction
