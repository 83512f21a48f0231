import Embargo.Enforcement.Emission
import Embargo.Proofs.Code.Retarget
import Embargo.Proofs.Enforcement.Layout

/-!
The instructions of a layout. The new code is a row of them, and it decodes to them:
every kept instruction with its targets moved, every throwing sequence, and filler.
-/
namespace Embargo
open Located (Row)
open Instruction (Encoded)

namespace Located

/-- Instructions one behind the other from an offset on. -/
def rowFrom (offset : Nat) : List Instruction → List Located
  | [] => []
  | i :: rest => ⟨offset, i⟩ :: rowFrom (offset + i.sizeAt offset) rest

theorem map_instruction_rowFrom (offset : Nat) (is : List Instruction) :
    (rowFrom offset is).map Located.instruction = is := by
  induction is generalizing offset with
  | nil => rfl
  | cons i is ih => rw [rowFrom, List.map_cons, ih]

theorem instruction_mem_of_mem_rowFrom {offset : Nat} {is : List Instruction} {located : Located}
    (h : located ∈ rowFrom offset is) : located.instruction ∈ is := by
  rw [← map_instruction_rowFrom offset is]
  exact List.mem_map_of_mem h

/-- A row whose sizes do not depend on where it stands. -/
theorem row_rowFrom {is : List Instruction} (h : ∀ i ∈ is, Piece.Fixed i) (offset : Nat) :
    Row offset (rowFrom offset is) (offset + Piece.sequenceSize is) := by
  induction is generalizing offset with
  | nil => rfl
  | cons i is ih =>
    obtain ⟨⟨op, operands, rfl, -⟩, hrest⟩ := List.forall_mem_cons.1 h
    refine ⟨rfl, ?_⟩
    rw [Piece.sequenceSize, ← Nat.add_assoc]
    exact ih hrest _

/-- An instruction that is not among those in front of the last one is the last one. -/
theorem stop_of_not_mem_dropLast {a b : Nat} {code : List Located} {located : Located}
    (h : Row a code b) (hlocated : located ∈ code)
    (hlast : located.instruction ∉ (code.map Located.instruction).dropLast) :
    located.offset + located.size = b := by
  obtain ⟨front, back, rfl⟩ := List.append_of_mem hlocated
  cases back with
  | nil => exact h.split.2
  | cons next back =>
    refine absurd ?_ hlast
    simp [List.dropLast_append_of_ne_nil]

end Located

namespace Piece.Fixed
variable {i : Instruction}

theorem shaped (h : Fixed i) : i.Shaped := by
  obtain ⟨op, operands, rfl, hlength⟩ := h
  exact .inl hlength

theorem targets_eq_nil (h : Fixed i) : i.targets = [] := by
  obtain ⟨op, operands, rfl, -⟩ := h
  rfl

end Piece.Fixed

namespace Layout

/-- Filler as instructions. -/
def filler (size : Nat) (isLast : Bool) : List Instruction :=
  (fillerBytes size isLast).map Instruction.simple

theorem eq_of_mem_fillerBytes {size : Nat} {isLast : Bool} {op : Opcode}
    (h : op ∈ fillerBytes size isLast) : op = Opcode.nop ∨ op = Opcode.athrow := by
  unfold fillerBytes at h
  split at h
  · rcases List.mem_append.1 h with hnop | hthrow
    · exact .inl (List.eq_of_mem_replicate hnop)
    · exact .inr (List.mem_singleton.1 hthrow)
  · exact .inl (List.eq_of_mem_replicate h)

theorem length_fillerBytes {size : Nat} (hsize : 0 < size) (isLast : Bool) :
    (fillerBytes size isLast).length = size := by
  unfold fillerBytes
  split
  · rw [List.length_append, List.length_replicate, List.length_singleton]
    omega
  · exact List.length_replicate

theorem fixed_of_mem_filler {size : Nat} {isLast : Bool} {i : Instruction}
    (h : i ∈ filler size isLast) : Piece.Fixed i := by
  obtain ⟨op, hop, rfl⟩ := List.mem_map.1 h
  rcases eq_of_mem_fillerBytes hop with rfl | rfl
  · exact ⟨_, _, rfl, rfl⟩
  · exact ⟨_, _, rfl, rfl⟩

theorem sequenceSize_map_simple (ops : List Opcode) :
    Piece.sequenceSize (ops.map Instruction.simple) = ops.length := by
  induction ops with
  | nil => rfl
  | cons op ops ih =>
    rw [List.map_cons, Piece.sequenceSize, ih, List.length_cons, Nat.add_comm]
    rfl

theorem sequenceSize_filler {size : Nat} (hsize : 0 < size) (isLast : Bool) :
    Piece.sequenceSize (filler size isLast) = size := by
  rw [filler, sequenceSize_map_simple, length_fillerBytes hsize]

/-- The new instructions of a piece; `next` are the pieces behind it. -/
def pieceInstructions (move : Nat → Nat) (placed : Placed) (next : List Placed) : List Located :=
  match placed.piece.fate with
  | .kept => [⟨placed.start, placed.located.instruction.retarget move⟩]
  | .replaced sequence => Located.rowFrom placed.start sequence
  | .filled => Located.rowFrom placed.start (filler placed.size !(startsWithFiller next))

section PieceInstructions
variable {move : Nat → Nat} {placed : Placed} {next : List Placed}

theorem pieceInstructions_kept (h : placed.piece.fate = .kept) :
    pieceInstructions move placed next
      = [⟨placed.start, placed.located.instruction.retarget move⟩] := by
  rw [pieceInstructions, h]

theorem pieceInstructions_replaced {sequence : List Instruction}
    (h : placed.piece.fate = .replaced sequence) :
    pieceInstructions move placed next = Located.rowFrom placed.start sequence := by
  rw [pieceInstructions, h]

theorem pieceInstructions_filled (h : placed.piece.fate = .filled) :
    pieceInstructions move placed next
      = Located.rowFrom placed.start (filler placed.size !(startsWithFiller next)) := by
  rw [pieceInstructions, h]

end PieceInstructions

/-- The new instructions of pieces in a row. -/
def instructionsOf (move : Nat → Nat) : List Placed → List Located
  | [] => []
  | placed :: next => pieceInstructions move placed next ++ instructionsOf move next

/-- The new instructions of a layout. -/
def instructions (layout : Layout) : List Located :=
  instructionsOf layout.newOffset layout.pieces

section Pieces
variable {move : Nat → Nat} {placed : Placed} {next : List Placed} {located : Located}

theorem size_of_kept (h : placed.piece.fate = .kept) :
    Located.size ⟨placed.start, placed.located.instruction.retarget move⟩ = placed.size := by
  rw [Located.size, Instruction.sizeAt_retarget, Placed.size, Piece.sizeAt, h]
  rfl

theorem row_pieceInstructions (hvalid : placed.piece.Valid) :
    Row placed.start (pieceInstructions move placed next) (placed.start + placed.size) := by
  cases hfate : placed.piece.fate with
  | kept =>
    rw [pieceInstructions_kept hfate]
    exact ⟨rfl, congrArg (placed.start + ·) (size_of_kept hfate)⟩
  | replaced sequence =>
    obtain ⟨exception, message, constructor, rfl⟩ := hvalid.replaced sequence hfate
    rw [pieceInstructions_replaced hfate, Placed.size, Piece.sizeAt, hfate]
    exact Located.row_rowFrom (fun i hi => Piece.fixed_of_mem_throwing hi) _
  | filled =>
    have hpos : 0 < placed.size := hvalid.size_pos _
    rw [pieceInstructions_filled hfate]
    conv_rhs => rw [← sequenceSize_filler hpos !(startsWithFiller next)]
    exact Located.row_rowFrom (fun i hi => fixed_of_mem_filler hi) _

/-- A new instruction is the moved old one, or of fixed length and without targets. -/
theorem of_mem_pieceInstructions (hvalid : placed.piece.Valid)
    (h : located ∈ pieceInstructions move placed next) :
    placed.piece.fate = .kept ∧
        located = ⟨placed.start, placed.located.instruction.retarget move⟩ ∨
      placed.piece.fate ≠ .kept ∧ Piece.Fixed located.instruction := by
  cases hfate : placed.piece.fate with
  | kept =>
    rw [pieceInstructions_kept hfate] at h
    exact .inl ⟨rfl, List.mem_singleton.1 h⟩
  | replaced sequence =>
    obtain ⟨exception, message, constructor, rfl⟩ := hvalid.replaced sequence hfate
    rw [pieceInstructions_replaced hfate] at h
    exact .inr ⟨nofun, Piece.fixed_of_mem_throwing (Located.instruction_mem_of_mem_rowFrom h)⟩
  | filled =>
    rw [pieceInstructions_filled hfate] at h
    exact .inr ⟨nofun, fixed_of_mem_filler (Located.instruction_mem_of_mem_rowFrom h)⟩

theorem endsFlow_of_mem_throwing {exception message constructor : UInt16} {i : Instruction}
    (h : i ∈ (Piece.throwing exception message constructor).dropLast) : i.endsFlow = false := by
  simp only [Piece.throwing, List.dropLast_cons_cons, List.dropLast_singleton, List.mem_cons,
    List.not_mem_nil, or_false] at h
  rcases h with rfl | rfl | rfl | rfl
  · rfl
  · rfl
  · split <;> rfl
  · rfl

/-- Filler ends flow only in its last instruction, and only where no filler follows. -/
theorem endsFlow_of_mem_filler {size : Nat} {isLast : Bool} {i : Instruction}
    (h : i ∈ filler size isLast) (hends : i.endsFlow = true) :
    isLast = true ∧ i ∉ (filler size isLast).dropLast := by
  have hnop (n : Nat) : i ∉ (List.replicate n Opcode.nop).map Instruction.simple := by
    intro hmem
    obtain ⟨op, hop, rfl⟩ := List.mem_map.1 hmem
    rw [List.eq_of_mem_replicate hop] at hends
    cases hends
  cases isLast with
  | false => exact absurd h (hnop size)
  | true =>
    refine ⟨rfl, ?_⟩
    have hbytes : fillerBytes size true = List.replicate (size - 1) Opcode.nop ++ [Opcode.athrow] :=
      rfl
    rw [filler, hbytes, List.map_append, List.map_singleton, List.dropLast_concat]
    exact hnop _

/-- An instruction that ends flow is the last one of its piece, and filler follows it only
if the piece is none. -/
theorem stop_of_endsFlow (hvalid : placed.piece.Valid)
    (h : located ∈ pieceInstructions move placed next)
    (hends : located.instruction.endsFlow = true) :
    located.offset + located.size = placed.start + placed.size ∧
      (placed.piece.fate = .filled → startsWithFiller next = false) := by
  have hrow : Row placed.start (pieceInstructions move placed next) _ :=
    row_pieceInstructions hvalid
  cases hfate : placed.piece.fate with
  | kept =>
    rw [pieceInstructions_kept hfate] at h hrow
    rw [List.mem_singleton.1 h]
    exact ⟨hrow.2, nofun⟩
  | replaced sequence =>
    obtain ⟨exception, message, constructor, rfl⟩ := hvalid.replaced sequence hfate
    rw [pieceInstructions_replaced hfate] at h hrow
    refine ⟨Located.stop_of_not_mem_dropLast hrow h ?_, nofun⟩
    rw [Located.map_instruction_rowFrom]
    intro hfront
    rw [endsFlow_of_mem_throwing hfront] at hends
    cases hends
  | filled =>
    rw [pieceInstructions_filled hfate] at h hrow
    obtain ⟨hlast, hnot⟩ :=
      endsFlow_of_mem_filler (Located.instruction_mem_of_mem_rowFrom h) hends
    refine ⟨Located.stop_of_not_mem_dropLast hrow h ?_, fun _ => by simpa using hlast⟩
    rwa [Located.map_instruction_rowFrom]

theorem row_instructionsOf {pieces : List Placed} {a b : Nat}
    (hrow : Contiguous Placed.start Placed.size a pieces b)
    (hvalid : ∀ placed ∈ pieces, placed.piece.Valid) : Row a (instructionsOf move pieces) b := by
  induction pieces generalizing a with
  | nil => exact hrow
  | cons placed next ih =>
    obtain ⟨rfl, hnext⟩ := hrow
    obtain ⟨hhead, hrest⟩ := List.forall_mem_cons.1 hvalid
    exact Contiguous.append_iff.2 ⟨_, row_pieceInstructions hhead, ih hnext hrest⟩

theorem mem_instructionsOf_iff {pieces : List Placed} :
    located ∈ instructionsOf move pieces ↔ ∃ front placed next,
      pieces = front ++ placed :: next ∧ located ∈ pieceInstructions move placed next := by
  induction pieces with
  | nil => simp [instructionsOf]
  | cons placed next ih =>
    rw [instructionsOf, List.mem_append, ih]
    constructor
    · rintro (h | ⟨front, other, rest, rfl, h⟩)
      · exact ⟨[], placed, next, rfl, h⟩
      · exact ⟨placed :: front, other, rest, rfl, h⟩
    · rintro ⟨front, other, rest, heq, h⟩
      cases front with
      | nil =>
        cases heq
        exact .inl h
      | cons first front =>
        cases heq
        exact .inr ⟨front, other, rest, rfl, h⟩

theorem infix_instructions {layout : Layout} (hplaced : placed ∈ layout.pieces) :
    ∃ next, pieceInstructions layout.newOffset placed next <:+: layout.instructions := by
  obtain ⟨front, next, hpieces⟩ := List.append_of_mem hplaced
  refine ⟨next, ?_⟩
  rw [instructions, hpieces]
  clear hpieces
  induction front with
  | nil => exact ⟨[], _, by rw [List.nil_append, List.nil_append, instructionsOf]⟩
  | cons first front ih => exact ih.trans (List.suffix_append _ _).isInfix

/-- A piece that is kept is its instruction with the targets moved. -/
theorem mem_of_kept {layout : Layout} (hplaced : placed ∈ layout.pieces)
    (hfate : placed.piece.fate = .kept) :
    (⟨placed.start, placed.located.instruction.retarget layout.newOffset⟩ : Located)
      ∈ layout.instructions := by
  obtain ⟨next, hinfix⟩ := infix_instructions hplaced
  rw [pieceInstructions_kept hfate] at hinfix
  exact hinfix.subset List.mem_cons_self

end Pieces

namespace Lays
variable {layout : Layout} {old : List Located} {oldLength : Nat}
  (h : layout.Lays old oldLength)
include h

theorem row_instructions : Row 0 layout.instructions layout.length :=
  row_instructionsOf h.row h.valid

theorem offset_lt_length {located : Located} (hlocated : located ∈ layout.instructions) :
    located.offset < layout.length :=
  h.row_instructions.start_lt (fun x _ => x.size_pos) hlocated

/-- What moves to an instruction is one, because the end moves to the end. -/
theorem exists_of_newOffset_eq {offset : Nat} (hoffset : layout.Boundary oldLength offset)
    {located : Located} (hlocated : located ∈ layout.instructions)
    (heq : located.offset = layout.newOffset offset) :
    ∃ there ∈ old, there.offset = offset := by
  rcases hoffset with ⟨placed, hplaced, hplace⟩ | rfl
  · exact ⟨placed.located, h.located_mem hplaced, hplace⟩
  · have hlt := h.offset_lt_length hlocated
    rw [heq, h.newOffset_length] at hlt
    exact absurd hlt (Nat.lt_irrefl _)

/-- A new instruction belongs to a piece and lies in it. -/
theorem exists_piece {located : Located} (hlocated : located ∈ layout.instructions) :
    ∃ placed ∈ layout.pieces, (∃ front next, layout.pieces = front ++ placed :: next ∧
        located ∈ pieceInstructions layout.newOffset placed next) ∧
      placed.start ≤ located.offset ∧
      located.offset + located.size ≤ placed.start + placed.size := by
  obtain ⟨front, placed, next, hpieces, hmem⟩ := mem_instructionsOf_iff.1 hlocated
  have hplaced : placed ∈ layout.pieces := by
    rw [hpieces]
    simp
  have hbounds := (row_pieceInstructions (h.valid placed hplaced)).mem_bounds hmem
  exact ⟨placed, hplaced, ⟨front, next, hpieces, hmem⟩, hbounds⟩

/-- Every piece starts with an instruction. -/
theorem exists_instruction {placed : Placed} (hplaced : placed ∈ layout.pieces) :
    ∃ located ∈ layout.instructions, located.offset = placed.start := by
  obtain ⟨front, next, hpieces⟩ := List.append_of_mem hplaced
  have hrow : Row placed.start (pieceInstructions layout.newOffset placed next) _ :=
    row_pieceInstructions (h.valid placed hplaced)
  have hpos := h.size_pos placed hplaced
  cases hlist : pieceInstructions layout.newOffset placed next with
  | nil =>
    rw [hlist] at hrow
    have heq : placed.start = placed.start + placed.size := hrow
    omega
  | cons located rest =>
    rw [hlist] at hrow
    have hmem : located ∈ pieceInstructions layout.newOffset placed next := by
      rw [hlist]
      exact List.mem_cons_self
    exact ⟨located, mem_instructionsOf_iff.2 ⟨front, placed, next, hpieces, hmem⟩, hrow.1⟩

theorem sound_instructions (hold : Located.Sound old oldLength) :
    Located.Sound layout.instructions layout.length := by
  refine ⟨h.row_instructions, fun located hlocated => ?_, fun located hlocated target htarget => ?_⟩
  · obtain ⟨placed, hplaced, ⟨front, next, -, hmem⟩, -⟩ := h.exists_piece hlocated
    rcases of_mem_pieceInstructions (h.valid placed hplaced) hmem with ⟨-, rfl⟩ | ⟨-, hfixed⟩
    · exact (hold.shaped _ (h.located_mem hplaced)).retarget
    · exact hfixed.shaped
  · obtain ⟨placed, hplaced, ⟨front, next, -, hmem⟩, -⟩ := h.exists_piece hlocated
    rcases of_mem_pieceInstructions (h.valid placed hplaced) hmem with ⟨-, rfl⟩ | ⟨-, hfixed⟩
    · rw [Instruction.targets_retarget] at htarget
      obtain ⟨oldTarget, holdTarget, rfl⟩ := List.mem_map.1 htarget
      obtain ⟨other, hother, rfl⟩ := hold.targets _ (h.located_mem hplaced) _ holdTarget
      obtain ⟨otherPlaced, hotherPlaced, rfl⟩ := h.exists_placed hother
      rw [h.newOffset_eq hotherPlaced]
      exact h.exists_instruction hotherPlaced
    · rw [hfixed.targets_eq_nil] at htarget
      exact absurd htarget List.not_mem_nil

end Lays

theorem encodeRow_eq_ok {offset : Nat} {is : List Instruction} {bytes : List UInt8}
    (h : encodeRow offset is = .ok bytes) :
    ∃ parts, Encoded (Located.rowFrom offset is) parts ∧ bytes = parts.flatten := by
  induction is generalizing offset bytes with
  | nil =>
    cases h
    exact ⟨[], .nil, rfl⟩
  | cons i is ih =>
    obtain ⟨head, hhead, h⟩ := Except.bind_eq_ok_iff.1 h
    obtain ⟨more, hmore, h⟩ := Except.bind_eq_ok_iff.1 h
    cases h
    obtain ⟨parts, hparts, rfl⟩ := ih hmore
    exact ⟨head :: parts, .cons hhead hparts, rfl⟩

theorem encodeRow_simple (offset : Nat) (ops : List UInt8) :
    encodeRow offset (ops.map Instruction.simple) = .ok ops := by
  induction ops generalizing offset with
  | nil => rfl
  | cons op ops ih =>
    refine Except.bind_eq_ok_iff.2 ⟨[op], rfl, ?_⟩
    exact Except.bind_eq_ok_iff.2 ⟨ops, ih _, rfl⟩

section Bytes
variable {relocation : Relocation} {move : Nat → Nat}
  (hmove : ∀ target moved, relocation.move target = .ok moved → moved = move target)
include hmove

theorem pieceBytes_eq_ok {placed : Placed} {next : List Placed} {bytes : List UInt8}
    (h : pieceBytes relocation placed next = .ok bytes) :
    ∃ parts, Encoded (pieceInstructions move placed next) parts ∧ bytes = parts.flatten := by
  unfold pieceBytes at h
  split at h
  case h_1 hfate =>
    rw [pieceInstructions_kept hfate]
    obtain ⟨moved, hmoved, hencode⟩ := Except.bind_eq_ok_iff.1 h
    rw [Instruction.mapTargets_eq_ok hmove hmoved] at hencode
    exact ⟨[bytes], .cons hencode .nil, by simp⟩
  case h_2 sequence hfate =>
    rw [pieceInstructions_replaced hfate]
    exact encodeRow_eq_ok h
  case h_3 hfate =>
    rw [pieceInstructions_filled hfate]
    cases h
    exact encodeRow_eq_ok (encodeRow_simple _ _)

theorem bytesOnto_eq_ok {done : List (List UInt8)} {pieces : List Placed} {bytes : List UInt8}
    (h : bytesOnto relocation done pieces = .ok bytes) :
    ∃ parts, Encoded (instructionsOf move pieces) parts ∧
      bytes = done.reverse.flatten ++ parts.flatten := by
  induction pieces generalizing done with
  | nil =>
    cases h
    exact ⟨[], .nil, by simp⟩
  | cons placed next ih =>
    rw [bytesOnto] at h
    split at h
    case h_2 => cases h
    case h_1 head hhead =>
      obtain ⟨first, hfirst, rfl⟩ := pieceBytes_eq_ok hmove hhead
      obtain ⟨rest, hrest, rfl⟩ := ih h
      exact ⟨first ++ rest, List.rel_append hfirst hrest, by simp⟩

end Bytes

/-- The new code decodes to the instructions of the layout. -/
theorem Lays.decode_bytes {layout : Layout} {old : List Located} {oldLength : Nat}
    (h : layout.Lays old oldLength) (hold : Located.Sound old oldLength)
    (hlength : layout.length ≤ 65535) {bytes : List UInt8}
    (hbytes : layout.bytes (Relocation.ofLayout layout oldLength) = .ok bytes) :
    Instruction.decode bytes = .ok layout.instructions ∧ bytes.length = layout.length := by
  have hmove : ∀ target moved, (Relocation.ofLayout layout oldLength).move target = .ok moved →
      moved = layout.newOffset target := fun _ _ htarget => (h.move_eq_ok htarget).2
  obtain ⟨parts, hparts, rfl⟩ := bytesOnto_eq_ok hmove hbytes
  have hsize := Instruction.length_flatten_of_encoded h.row_instructions hparts
  refine ⟨?_, ?_⟩
  · exact Instruction.decode_of_encoded (h.sound_instructions hold) (by omega) hparts
  · simpa using hsize

end Layout

end Embargo
