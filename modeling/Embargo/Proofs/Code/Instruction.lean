import Embargo.Code.Decode
import Embargo.Code.Encode
import Embargo.Proofs.Bytes.Reading

/-!
Instructions and their bytes. An instruction of a shape that the format has reads back
from its bytes, and whatever is read has such a shape and takes its own size.
-/
namespace Embargo
open Reader

namespace Opcode

theorem operandLength?_of_isNarrowBranch {op : Opcode} (h : op.isNarrowBranch = true) :
    op.operandLength? = none := by
  revert h op
  apply Bytes.forall_of_fin
  decide +kernel

theorem operandLength?_of_isWideBranch {op : Opcode} (h : op.isWideBranch = true) :
    op.operandLength? = none := by
  revert h op
  apply Bytes.forall_of_fin
  decide +kernel

theorem isNarrowBranch_of_isWideBranch {op : Opcode} (h : op.isWideBranch = true) :
    op.isNarrowBranch = false := by
  revert h op
  apply Bytes.forall_of_fin
  decide +kernel

end Opcode

namespace Instruction

/-- The shapes of instructions that the format has. -/
def Shaped : Instruction → Prop
  | plain op operands => op.operandLength? = some operands.length ∨
      op = Opcode.wide ∧ ∃ inner rest, operands = inner :: rest ∧
        Opcode.widenedLength? inner = some rest.length
  | branch op _ => op.isNarrowBranch = true ∨ op.isWideBranch = true
  | tableSwitch _ low high targets =>
    low ≤ high ∧ targets.length = (high.toInt - low.toInt + 1).toNat
  | lookupSwitch _ pairs => pairs.length < 2147483648

theorem sizeAt_pos (offset : Nat) (i : Instruction) : 0 < i.sizeAt offset := by
  cases i with
  | plain => simp only [sizeAt]; omega
  | branch =>
    simp only [sizeAt]
    split <;> omega
  | tableSwitch => simp only [sizeAt]; omega
  | lookupSwitch => simp only [sizeAt]; omega

@[simp] theorem length_wideDelta (offset target : Nat) : (wideDelta offset target).length = 4 :=
  Bytes.length_i32 _

@[simp] theorem length_padding (offset : Nat) : (padding offset).length = switchPadding offset :=
  List.length_replicate

theorem length_narrowDelta {offset target : Nat} {bytes : List UInt8}
    (h : narrowDelta offset target = .ok bytes) : bytes.length = 2 := by
  dsimp only [narrowDelta] at h
  split at h
  · cases h
    rfl
  · cases h

theorem length_encode {offset : Nat} {i : Instruction} {bytes : List UInt8}
    (h : i.encode offset = .ok bytes) : bytes.length = i.sizeAt offset := by
  cases i with
  | plain op operands =>
    cases h
    simp [sizeAt, Nat.add_comm]
  | branch op target =>
    simp only [encode, sizeAt] at h ⊢
    split at h
    · rename_i hwide
      cases h
      simp [hwide]
    · rename_i hwide
      obtain ⟨delta, hdelta, rfl⟩ := Except.map_eq_ok_iff.1 h
      simp [hwide, length_narrowDelta hdelta]
  | tableSwitch otherwise low high targets =>
    cases h
    simp [sizeAt, List.length_flatMap]
    omega
  | lookupSwitch otherwise pairs =>
    cases h
    simp [sizeAt, List.length_flatMap]
    omega

theorem absolute_eq {offset target : Nat} {distance : Int32}
    (h : (offset : Int) + distance.toInt = target) (htarget : target < 4294967296) :
    absolute offset distance = .ok target := by
  simp only [absolute, h]
  rw [if_pos (by omega), Int.toNat_natCast]

theorem reads_readTarget {offset target : Nat} (hoffset : offset < 2147483648)
    (htarget : target < 2147483648) (position : Nat) :
    Reads (readTarget offset) position (wideDelta offset target) target := by
  have hdistance : (Int32.ofInt (delta offset target)).toInt = delta offset target :=
    Int32.toInt_ofInt_of_le (by unfold delta; simp; omega) (by unfold delta; simp; omega)
  have habsolute : absolute offset (Int32.ofInt (delta offset target)) = .ok target := by
    apply absolute_eq _ (by omega)
    rw [hdistance, delta]
    omega
  rw [← List.append_nil (wideDelta offset target)]
  exact ((reads_i32 position _).reporting _).bind (Reads.ofExcept habsolute _)

theorem reads_narrowDelta {offset target : Nat} {bytes : List UInt8}
    (h : narrowDelta offset target = .ok bytes) : ∃ word : UInt16, bytes = Bytes.u16 word ∧
      (offset : Int) + word.toInt16.toInt32.toInt = target := by
  dsimp only [narrowDelta] at h
  split at h
  case isTrue hrange =>
    cases h
    refine ⟨_, rfl, ?_⟩
    have hdistance : (Int16.ofInt (delta offset target)).toInt = delta offset target :=
      Int16.toInt_ofInt_of_le hrange.1 (by omega)
    have hword : (Int16.ofInt (delta offset target)).toUInt16.toInt16
        = Int16.ofInt (delta offset target) := rfl
    rw [hword, Int16.toInt_toInt32, hdistance, delta]
    omega
  case isFalse => cases h

/-- A guard that asks for bytes which are there. -/
theorem reads_available {α : Type} {next : Reader α} {n position : Nat} {bytes : List UInt8}
    {value : α} (h : n ≤ bytes.length) (fault : Fault)
    (hnext : Reads next position bytes value) :
    Reads (do unless ← Reader.available n do throw fault
              next) position bytes value := by
  intro rest
  have hdrop : (n = 0 || !((bytes ++ rest).drop (n - 1)).isEmpty) = true := by
    by_cases hn : n = 0
    · simp [hn]
    · simp [hn]
      omega
  have havailable : (Reader.available n).run ⟨position, bytes ++ rest⟩
      = (.ok true, ⟨position, bytes ++ rest⟩) := by
    show (_, _) = _
    rw [hdrop]
  rw [Attempt.run_bind, havailable]
  exact hnext rest

theorem reads_readTableSwitch {offset otherwise : Nat} {low high : Int32} {targets : List Nat}
    (hshape : Shaped (tableSwitch otherwise low high targets)) (hoffset : offset < 2147483648)
    (htargets : ∀ target ∈ otherwise :: targets, target < 2147483648) (position : Nat) :
    Reads (readTableSwitch offset) position (padding offset ++ wideDelta offset otherwise
      ++ Bytes.i32 low ++ Bytes.i32 high ++ targets.flatMap (wideDelta offset))
      (tableSwitch otherwise low high targets) := by
  obtain ⟨hle, hcount⟩ := hshape
  simp only [List.append_assoc]
  have hpadding := reads_bytes position (padding offset)
  rw [length_padding] at hpadding
  refine (hpadding.reporting _).bind ?_
  refine (reads_readTarget hoffset (htargets _ List.mem_cons_self) _).bind ?_
  refine ((reads_i32 _ low).reporting _).bind (((reads_i32 _ high).reporting _).bind ?_)
  rw [if_neg (Int32.not_lt.2 hle)]
  apply reads_available
  · rw [← hcount]
    simp [List.length_flatMap]
    omega
  · rw [← hcount, List.flatMap_def]
    refine Reads.map (reads_manyOnto (forall₂_reads_map fun target htarget => ?_) _ [])
    exact reads_readTarget hoffset (htargets _ (List.mem_cons_of_mem _ htarget))

theorem reads_readLookupSwitch {offset otherwise : Nat} {pairs : List (Int32 × Nat)}
    (hshape : Shaped (lookupSwitch otherwise pairs)) (hoffset : offset < 2147483648)
    (htargets : ∀ target ∈ otherwise :: pairs.map Prod.snd, target < 2147483648)
    (position : Nat) :
    Reads (readLookupSwitch offset) position (padding offset ++ wideDelta offset otherwise
      ++ Bytes.i32 (Int32.ofNat pairs.length)
      ++ pairs.flatMap fun (key, target) => Bytes.i32 key ++ wideDelta offset target)
      (lookupSwitch otherwise pairs) := by
  have hlength : pairs.length < 2147483648 := hshape
  have hcount : (Int32.ofNat pairs.length).toInt = pairs.length :=
    Int32.toInt_ofNat_of_lt hlength
  have hnonneg : ¬ Int32.ofNat pairs.length < 0 := by
    rw [Int32.lt_iff_toInt_lt, hcount]
    simp
  simp only [List.append_assoc]
  have hpadding := reads_bytes position (padding offset)
  rw [length_padding] at hpadding
  refine (hpadding.reporting _).bind ?_
  refine (reads_readTarget hoffset (htargets _ List.mem_cons_self) _).bind ?_
  refine ((reads_i32 _ (Int32.ofNat pairs.length)).reporting _).bind ?_
  rw [if_neg hnonneg, hcount, Int.toNat_natCast]
  apply reads_available
  · simp [List.length_flatMap]
    omega
  · rw [List.flatMap_def]
    refine Reads.map (reads_manyOnto (forall₂_reads_map fun pair hpair position => ?_) _ [])
    refine ((reads_i32 _ pair.1).reporting _).bind ?_
    exact (reads_readTarget hoffset
      (htargets _ (List.mem_cons_of_mem _ (List.mem_map_of_mem hpair))) _).map

/-- An instruction is read back where it was written. -/
theorem reads_read {offset : Nat} {i : Instruction} {bytes : List UInt8} (hshape : i.Shaped)
    (hoffset : offset < 2147483648) (htargets : ∀ target ∈ i.targets, target < 2147483648)
    (h : i.encode offset = .ok bytes) : Reads read offset bytes ⟨offset, i⟩ := by
  have hposition : Reads Reader.position offset [] offset := fun _ => rfl
  have hoperands {op : Opcode} {rest : List UInt8} (hbytes : bytes = Bytes.u8 op ++ rest)
      (hrest : Reads (readOperands offset op) (offset + 1) rest i) :
      Reads read offset bytes ⟨offset, i⟩ := by
    rw [hbytes]
    exact hposition.bind ((reads_u8 offset op).bind hrest.map)
  cases i with
  | plain op operands =>
    cases h
    refine hoperands rfl ?_
    rcases hshape with hlength | ⟨rfl, inner, rest, rfl, hlength⟩
    · simp only [readOperands, hlength]
      exact ((reads_bytes _ operands).reporting _).map
    · refine ((reads_u8 _ inner).reporting _).bind ?_
      simp only [hlength]
      exact ((reads_bytes _ rest).reporting _).map
  | branch op target =>
    have htarget := htargets target List.mem_cons_self
    simp only [encode] at h
    split at h
    case isTrue hwide =>
      cases h
      refine hoperands rfl ?_
      simp only [readOperands, Opcode.operandLength?_of_isWideBranch hwide,
        Opcode.isNarrowBranch_of_isWideBranch hwide, hwide, ↓reduceIte, Bool.false_eq_true]
      exact (reads_readTarget hoffset htarget _).map
    case isFalse hnotWide =>
      have hnarrow : op.isNarrowBranch = true := hshape.resolve_right hnotWide
      obtain ⟨rest, hrest, rfl⟩ := Except.map_eq_ok_iff.1 h
      obtain ⟨word, rfl, hdistance⟩ := reads_narrowDelta hrest
      refine hoperands rfl ?_
      simp only [readOperands, Opcode.operandLength?_of_isNarrowBranch hnarrow, hnarrow,
        ↓reduceIte]
      refine ((reads_u16 _ word).reporting _).bind ?_
      exact (Reads.ofExcept (absolute_eq hdistance (by omega)) _).map
  | tableSwitch otherwise low high targets =>
    cases h
    exact hoperands rfl (reads_readTableSwitch hshape hoffset htargets _)
  | lookupSwitch otherwise pairs =>
    cases h
    exact hoperands rfl (reads_readLookupSwitch hshape hoffset htargets _)

/-- The number of bytes behind the opcode that only align the operands. -/
def paddingAt (offset : Nat) : Instruction → Nat
  | tableSwitch .. | lookupSwitch .. => switchPadding offset
  | _ => 0

theorem paddingAt_lt_sizeAt (offset : Nat) (i : Instruction) :
    i.paddingAt offset < i.sizeAt offset := by
  cases i with
  | plain => exact sizeAt_pos offset _
  | branch => exact sizeAt_pos offset _
  | tableSwitch => simp only [paddingAt, sizeAt]; omega
  | lookupSwitch => simp only [paddingAt, sizeAt]; omega

/-- An instruction was read from the bytes that it is written with, except that anything
may stand where the operands are aligned. -/
def ReadFrom (offset : Nat) (bytes : List UInt8) (i : Instruction) : Prop :=
  ∃ op gap operands, bytes = op :: (gap ++ operands) ∧ gap.length = i.paddingAt offset ∧
    i.encode offset = .ok (op :: (List.replicate gap.length 0 ++ operands))

theorem ReadFrom.length_eq {offset : Nat} {bytes : List UInt8} {i : Instruction}
    (h : i.ReadFrom offset bytes) : bytes.length = i.sizeAt offset := by
  obtain ⟨op, gap, operands, rfl, -, hencode⟩ := h
  simpa using length_encode hencode

/-- An instruction whose operands are not aligned. -/
theorem readFrom_of_encode {offset : Nat} {op : Opcode} {bytes : List UInt8} {i : Instruction}
    (hpadding : i.paddingAt offset = 0) (h : i.encode offset = .ok (op :: bytes)) :
    i.ReadFrom offset (op :: bytes) :=
  ⟨op, [], bytes, rfl, hpadding.symm, h⟩

theorem wideDelta_of_absolute {offset target : Nat} {distance : Int32}
    (h : absolute offset distance = .ok target) : wideDelta offset target = Bytes.i32 distance := by
  dsimp only [absolute] at h
  split at h
  case isFalse => cases h
  case isTrue hrange =>
    cases h
    have hdelta : delta offset ((offset : Int) + distance.toInt).toNat = distance.toInt := by
      unfold delta
      omega
    rw [wideDelta, hdelta, Int32.ofInt_toInt]

theorem narrowDelta_of_absolute {offset target : Nat} {word : UInt16}
    (h : absolute offset word.toInt16.toInt32 = .ok target) :
    narrowDelta offset target = .ok (Bytes.u16 word) := by
  dsimp only [absolute] at h
  split at h
  case isFalse => cases h
  case isTrue hrange =>
    cases h
    rw [Int16.toInt_toInt32] at hrange ⊢
    have hdelta : delta offset ((offset : Int) + word.toInt16.toInt).toNat
        = word.toInt16.toInt := by
      unfold delta
      omega
    have hlow := word.toInt16.le_toInt
    have hhigh := word.toInt16.toInt_lt
    dsimp only [narrowDelta]
    rw [hdelta, if_pos (by omega), Int16.ofInt_toInt]
    rfl

theorem takes_part {α : Type} {offset : Nat} {reader : Reader α} {R : List UInt8 → α → Prop}
    (h : Takes reader R) : Takes (part offset reader) R :=
  h.reporting _

theorem takes_readTarget (offset : Nat) :
    Takes (readTarget offset) fun bytes target => bytes = wideDelta offset target := by
  apply (takes_part takes_i32).bind
  rintro distance _ rfl
  refine .ofExcept fun target htarget => ?_
  rw [List.append_nil, wideDelta_of_absolute htarget]

theorem takes_available (n : Nat) : Takes (Reader.available n) fun bytes _ => bytes = [] := by
  intro cursor value next hrun
  cases hrun
  exact ⟨[], rfl, rfl, rfl⟩

/-- What follows the opcode of an instruction completes it. -/
def Completes (offset : Nat) (op : Opcode) (bytes : List UInt8) (i : Instruction) : Prop :=
  i.Shaped ∧ i.ReadFrom offset (op :: bytes)

theorem takes_readTableSwitch (offset : Nat) :
    Takes (readTableSwitch offset) (Completes offset Opcode.tableSwitch) := by
  apply (takes_part (takes_bytes _)).bind
  rintro _ gap ⟨rfl, hgap⟩
  apply (takes_readTarget offset).bind
  rintro otherwise _ rfl
  apply (takes_part takes_i32).bind
  rintro low _ rfl
  apply (takes_part takes_i32).bind
  rintro high _ rfl
  split
  case isTrue => exact .throw_bind _ _
  case isFalse hle =>
    apply (takes_available _).bind
    rintro enough _ rfl
    split
    case isFalse => exact .throw_bind _ _
    case isTrue =>
      apply (takes_many (takes_readTarget offset) _).map
      rintro targets _ ⟨hcount, parts, rfl, hparts⟩
      refine ⟨⟨Int32.not_lt.1 hle, hcount⟩, _, gap, _, rfl, hgap, ?_⟩
      rw [flatten_of_forall₂ hparts, hgap]
      simp only [encode, padding, List.append_assoc, List.nil_append]

theorem takes_readPair (offset : Nat) : Takes (readPair offset) fun bytes pair =>
    bytes = Bytes.i32 pair.1 ++ wideDelta offset pair.2 := by
  apply (takes_part takes_i32).bind
  rintro key _ rfl
  apply (takes_readTarget offset).map
  rintro target _ rfl
  rfl

theorem takes_readLookupSwitch (offset : Nat) :
    Takes (readLookupSwitch offset) (Completes offset Opcode.lookupSwitch) := by
  apply (takes_part (takes_bytes _)).bind
  rintro _ gap ⟨rfl, hgap⟩
  apply (takes_readTarget offset).bind
  rintro otherwise _ rfl
  apply (takes_part takes_i32).bind
  rintro count _ rfl
  split
  case isTrue => exact .throw_bind _ _
  case isFalse hnonneg =>
    apply (takes_available _).bind
    rintro enough _ rfl
    split
    case isFalse => exact .throw_bind _ _
    case isTrue =>
      apply (takes_many (takes_readPair offset) _).map
      rintro pairs _ ⟨hcount, parts, rfl, hparts⟩
      have hlt := count.toInt_lt
      rw [Int32.lt_iff_toInt_lt] at hnonneg
      have hlength : Int32.ofNat pairs.length = count := by
        apply Int32.toInt.inj
        rw [Int32.toInt_ofNat_of_lt (by omega), hcount]
        simp at hnonneg
        omega
      refine ⟨show pairs.length < 2147483648 by omega, _, gap, _, rfl, hgap, ?_⟩
      rw [flatten_of_forall₂ hparts, hgap]
      simp only [encode, padding, List.append_assoc, List.nil_append, hlength]

theorem takes_readOperands (offset : Nat) (op : Opcode) :
    Takes (readOperands offset op) (Completes offset op) := by
  unfold readOperands
  split
  case h_1 length hlength =>
    apply (takes_part (takes_bytes _)).map
    rintro _ operands ⟨rfl, hsize⟩
    exact ⟨.inl (by rw [hlength, hsize]), readFrom_of_encode rfl rfl⟩
  case h_2 =>
    split
    case isTrue hnarrow =>
      apply (takes_part takes_u16).bind
      rintro word _ rfl
      refine Takes.map (R := fun bytes target => bytes = [] ∧
        narrowDelta offset target = .ok (Bytes.u16 word))
        (.ofExcept fun target htarget => ⟨rfl, narrowDelta_of_absolute htarget⟩) ?_
      rintro target _ ⟨rfl, hdelta⟩
      have hwide : op.isWideBranch = false := by
        by_contra h
        rw [Opcode.isNarrowBranch_of_isWideBranch (by simpa using h)] at hnarrow
        cases hnarrow
      refine ⟨.inl hnarrow, readFrom_of_encode rfl ?_⟩
      simp [encode, hwide, hdelta, Except.map]
    case isFalse =>
      split
      case isTrue hwide =>
        apply (takes_readTarget offset).map
        rintro target _ rfl
        refine ⟨.inr hwide, readFrom_of_encode rfl ?_⟩
        simp [encode, hwide]
      case isFalse =>
        split
        case isTrue hop =>
          apply (takes_part takes_u8).bind
          rintro inner _ rfl
          split
          case h_2 => exact .throw _
          case h_1 length hlength =>
            apply (takes_part (takes_bytes _)).map
            rintro _ operands ⟨rfl, hsize⟩
            exact ⟨.inr ⟨hop, inner, operands, rfl, by rw [hlength, hsize]⟩,
              readFrom_of_encode rfl rfl⟩
        case isFalse =>
          split
          case isTrue hop => exact hop ▸ takes_readTableSwitch offset
          case isFalse =>
            split
            case isTrue hop => exact hop ▸ takes_readLookupSwitch offset
            case isFalse => exact .throw _

/-- An instruction stands where its reading began and takes the bytes that it was read
from. -/
theorem read_eq_ok {cursor next : Cursor} {located : Located}
    (h : read.run cursor = (.ok located, next)) :
    located.offset = cursor.position ∧ located.instruction.Shaped ∧
      ∃ bytes, cursor.rest = bytes ++ next.rest ∧
        next.position = cursor.position + bytes.length ∧
        located.instruction.ReadFrom cursor.position bytes := by
  obtain ⟨offset, cursor', hposition, h⟩ := Attempt.run_bind_eq_ok_iff.1 h
  cases hposition
  have hread : Takes (do
      let op ← Reader.u8
      let instruction ← readOperands cursor.position op
      return { offset := cursor.position, instruction }) fun bytes (located : Located) =>
        located.offset = cursor.position ∧ located.instruction.Shaped ∧
          located.instruction.ReadFrom cursor.position bytes := by
    apply takes_u8.bind
    rintro op _ rfl
    exact (takes_readOperands cursor.position op).map fun i bytes ⟨hshape, hfrom⟩ =>
      ⟨rfl, hshape, hfrom⟩
  obtain ⟨bytes, hrest, hnext, hoffset, hshape, hfrom⟩ := hread _ _ _ h
  exact ⟨hoffset, hshape, bytes, hrest, hnext, hfrom⟩

end Instruction

end Embargo
