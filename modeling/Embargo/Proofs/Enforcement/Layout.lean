import Embargo.Enforcement.Layout
import Embargo.Proofs.Code.Decoding

/-!
Layouts. Every old instruction has one piece, pieces lie one behind the other, and the
relocation sends old offsets to where their pieces are.
-/
namespace Embargo
open Located (Row)

namespace Piece
variable {exception message constructor : UInt16} {i : Instruction}

/-- An instruction of fixed length without targets. -/
def Fixed (i : Instruction) : Prop :=
  ∃ op operands, i = .plain op operands ∧ op.operandLength? = some operands.length

theorem fixed_of_mem_throwing (h : i ∈ throwing exception message constructor) : Fixed i := by
  simp only [throwing, List.mem_cons, List.not_mem_nil, or_false] at h
  rcases h with rfl | rfl | rfl | rfl | rfl
  · exact ⟨_, _, rfl, rfl⟩
  · exact ⟨_, _, rfl, rfl⟩
  · split
    · exact ⟨_, _, rfl, rfl⟩
    · exact ⟨_, _, rfl, rfl⟩
  · exact ⟨_, _, rfl, rfl⟩
  · exact ⟨_, _, rfl, rfl⟩

/-- Only what is dead is filled and nothing dead is kept; sequences throw. -/
structure Valid (piece : Piece) : Prop where
  kept : piece.fate = .kept → piece.isDead = false
  filled : piece.fate = .filled → piece.isDead = true
  replaced : ∀ sequence, piece.fate = .replaced sequence →
    ∃ exception message constructor, sequence = throwing exception message constructor

theorem Valid.size_pos {piece : Piece} (h : piece.Valid) (offset : Nat) :
    0 < piece.sizeAt offset := by
  unfold sizeAt
  split
  case h_1 sequence hfate =>
    obtain ⟨exception, message, constructor, rfl⟩ := h.replaced sequence hfate
    rw [throwing, sequenceSize]
    exact Nat.lt_of_lt_of_le (Instruction.sizeAt_pos 0 _) (Nat.le_add_right _ _)
  case h_2 => exact Instruction.sizeAt_pos _ _

/-- What becomes of a marked instruction: a site is replaced, and what is not a site is
filled where it is dead. -/
structure Of (dead : List Nat) (marked : Marked) (piece : Piece) : Prop where
  located : piece.located = marked.located
  isDead_iff : piece.isDead = true ↔ marked.offset ∈ dead
  isReplaced : marked.site.isSome = true ↔ ∃ sequence, piece.fate = .replaced sequence
  valid : piece.Valid

theorem exists_throwing {rule : Rule} {site : Site} {sequence : List Instruction} {pool new : Pool}
    (h : (throwingFor rule site).run pool = (.ok sequence, new)) :
    ∃ exception message constructor, sequence = throwing exception message constructor := by
  obtain ⟨exception, one, -, h⟩ := Attempt.run_bind_eq_ok_iff.1 h
  obtain ⟨message, two, -, h⟩ := Attempt.run_bind_eq_ok_iff.1 h
  obtain ⟨constructor, three, -, h⟩ := Attempt.run_bind_eq_ok_iff.1 h
  cases h
  exact ⟨exception, message, constructor, rfl⟩

theorem of_ofMarked {rule : Rule} {dead : List Nat} {marked : Marked} {piece : Piece}
    {pool new : Pool}
    (h : (ofMarked rule (Std.TreeSet.ofList dead).contains marked).run pool = (.ok piece, new)) :
    Of dead marked piece := by
  have hdead : (Std.TreeSet.ofList dead).contains marked.offset = true ↔ marked.offset ∈ dead := by
    rw [Std.TreeSet.contains_ofList, List.contains_iff_mem]
  unfold ofMarked at h
  generalize (Std.TreeSet.ofList dead).contains marked.offset = isDead at hdead h
  cases hsite : marked.site with
  | some site =>
    rw [hsite] at h
    obtain ⟨sequence, middle, hsequence, h⟩ := Attempt.run_bind_eq_ok_iff.1 h
    cases h
    refine ⟨rfl, hdead, by simp [hsite], by simp, by simp, fun found hfound => ?_⟩
    cases hfound
    exact exists_throwing hsequence
  | none =>
    rw [hsite] at h
    cases h
    cases isDead with
    | true => exact ⟨rfl, hdead, by simp [hsite], by simp, fun _ => rfl, by simp⟩
    | false => exact ⟨rfl, hdead, by simp [hsite], fun _ => rfl, by simp, by simp⟩

end Piece

namespace Placed

def located (placed : Placed) : Located := placed.piece.located

def size (placed : Placed) : Nat := placed.piece.sizeAt placed.start

end Placed

namespace Layout

theorem placeOnto_pieces (start : Nat) (done : List Placed) (pieces : List Piece) :
    ∃ placed, (placeOnto start done pieces).pieces = done.reverse ++ placed ∧
      placed.map Placed.piece = pieces ∧
      Contiguous Placed.start Placed.size start placed (placeOnto start done pieces).length := by
  induction pieces generalizing start done with
  | nil => exact ⟨[], by simp [placeOnto], rfl, rfl⟩
  | cons piece pieces ih =>
    obtain ⟨placed, hpieces, hmap, hrow⟩ :=
      ih (start + piece.sizeAt start) (⟨piece, start⟩ :: done)
    refine ⟨⟨piece, start⟩ :: placed, ?_, ?_, rfl, hrow⟩
    · rw [placeOnto, hpieces]
      simp
    · rw [List.map_cons, hmap]

/-- All pieces are placed, from the first to the last. -/
theorem ofPieces_pieces (pieces : List Piece) :
    (ofPieces pieces).pieces.map Placed.piece = pieces ∧
      Contiguous Placed.start Placed.size 0 (ofPieces pieces).pieces (ofPieces pieces).length := by
  obtain ⟨placed, hpieces, hmap, hrow⟩ := placeOnto_pieces 0 [] pieces
  have hplaced : (ofPieces pieces).pieces = placed := hpieces
  rw [hplaced]
  exact ⟨hmap, hrow⟩

/-- The start of the piece of the instruction at an old offset, or the end of the new
code for any other offset. -/
def newOffset (layout : Layout) (old : Nat) : Nat :=
  match layout.pieces.find? (·.located.offset = old) with
  | some placed => placed.start
  | none => layout.length

/-- A layout for old code of a given length. -/
structure Lays (layout : Layout) (old : List Located) (oldLength : Nat) : Prop where
  located : layout.pieces.map Placed.located = old
  oldRow : Row 0 old oldLength
  row : Contiguous Placed.start Placed.size 0 layout.pieces layout.length
  valid : ∀ placed ∈ layout.pieces, placed.piece.Valid

/-- An old offset that has a new place: that of an instruction or the end. -/
def Boundary (layout : Layout) (oldLength offset : Nat) : Prop :=
  (∃ placed ∈ layout.pieces, placed.located.offset = offset) ∨ offset = oldLength

namespace Lays
variable {layout : Layout} {old : List Located} {oldLength : Nat}
  (h : layout.Lays old oldLength)
include h

theorem oldPieces : Contiguous (fun placed : Placed => placed.located.offset)
    (fun placed => placed.located.size) 0 layout.pieces oldLength := by
  have hrow := h.oldRow
  rwa [← h.located, Row, Contiguous.map_iff] at hrow

theorem size_pos : ∀ placed ∈ layout.pieces, 0 < placed.size :=
  fun placed hplaced => (h.valid placed hplaced).size_pos _

theorem eq_of_start_eq {placed other : Placed} (hplaced : placed ∈ layout.pieces)
    (hother : other ∈ layout.pieces) (heq : placed.start = other.start) : placed = other :=
  h.row.eq_of_start_eq h.size_pos hplaced hother heq

theorem exists_placed {located : Located} (hlocated : located ∈ old) :
    ∃ placed ∈ layout.pieces, placed.located = located := by
  rw [← h.located] at hlocated
  exact List.mem_map.1 hlocated

theorem located_mem {placed : Placed} (hplaced : placed ∈ layout.pieces) :
    placed.located ∈ old := by
  rw [← h.located]
  exact List.mem_map_of_mem hplaced

theorem placed_eq {placed other : Placed} (hplaced : placed ∈ layout.pieces)
    (hother : other ∈ layout.pieces) (heq : placed.located.offset = other.located.offset) :
    placed = other :=
  h.oldPieces.eq_of_start_eq (fun x _ => x.located.size_pos) hplaced hother heq

theorem newOffset_eq {placed : Placed} (hplaced : placed ∈ layout.pieces) :
    layout.newOffset placed.located.offset = placed.start := by
  unfold newOffset
  split
  case h_1 other hfind =>
    have hoffset : other.located.offset = placed.located.offset := by
      simpa using List.find?_some hfind
    rw [h.placed_eq (List.mem_of_find?_eq_some hfind) hplaced hoffset]
  case h_2 hnone =>
    have habsent := List.find?_eq_none.1 hnone placed hplaced
    simp at habsent

theorem newOffset_length : layout.newOffset oldLength = layout.length := by
  unfold newOffset
  split
  case h_1 placed hfind =>
    have hoffset : placed.located.offset = oldLength := by simpa using List.find?_some hfind
    have hlt := h.oldRow.start_lt (fun x _ => x.size_pos)
      (h.located_mem (List.mem_of_find?_eq_some hfind))
    omega
  case h_2 => rfl

theorem relocation_distinct : ((oldLength, layout.length)
    :: layout.pieces.map fun placed => (placed.piece.located.offset, placed.start)).Pairwise
      fun a b => ¬ compare a.1 b.1 = .eq := by
  refine List.pairwise_cons.2 ⟨fun pair hpair heq => ?_, ?_⟩
  · obtain ⟨placed, hplaced, rfl⟩ := List.mem_map.1 hpair
    have hlt := h.oldRow.start_lt (fun x _ => x.size_pos) (h.located_mem hplaced)
    have hoffset : oldLength = placed.located.offset := Nat.compare_eq_eq.1 heq
    omega
  · refine List.pairwise_map.2 (h.oldPieces.pairwise.imp fun {x y} hxy heq => ?_)
    have hoffset : x.located.offset = y.located.offset := Nat.compare_eq_eq.1 heq
    have hpos := x.located.size_pos
    omega

theorem move_of_mem {placed : Placed} (hplaced : placed ∈ layout.pieces) :
    (Relocation.ofLayout layout oldLength).move placed.located.offset = .ok placed.start := by
  have hfound : (Relocation.ofLayout layout oldLength)[placed.located.offset]?
      = some placed.start :=
    Std.TreeMap.getElem?_ofList_of_mem (Nat.compare_eq_eq.2 rfl) h.relocation_distinct
      (List.mem_cons_of_mem _ (List.mem_map.2 ⟨placed, hplaced, rfl⟩))
  rw [Relocation.move, hfound]

theorem move_length :
    (Relocation.ofLayout layout oldLength).move oldLength = .ok layout.length := by
  have hfound : (Relocation.ofLayout layout oldLength)[oldLength]? = some layout.length :=
    Std.TreeMap.getElem?_ofList_of_mem (Nat.compare_eq_eq.2 rfl) h.relocation_distinct
      List.mem_cons_self
  rw [Relocation.move, hfound]

/-- What can be moved is a boundary, and it goes to its new offset. -/
theorem move_eq_ok {offset moved : Nat}
    (hmove : (Relocation.ofLayout layout oldLength).move offset = .ok moved) :
    layout.Boundary oldLength offset ∧ moved = layout.newOffset offset := by
  by_cases hboundary : layout.Boundary oldLength offset
  · refine ⟨hboundary, ?_⟩
    rcases hboundary with ⟨placed, hplaced, rfl⟩ | rfl
    · rw [h.move_of_mem hplaced] at hmove
      cases hmove
      exact (h.newOffset_eq hplaced).symm
    · rw [h.move_length] at hmove
      cases hmove
      exact h.newOffset_length.symm
  · have hnone : (Relocation.ofLayout layout oldLength)[offset]? = none := by
      refine Std.TreeMap.getElem?_ofList_of_contains_eq_false ?_
      rw [← Bool.not_eq_true, List.contains_iff_mem]
      intro hmem
      simp only [List.map_cons, List.map_map, List.mem_cons, List.mem_map] at hmem
      rcases hmem with rfl | ⟨placed, hplaced, rfl⟩
      · exact hboundary (.inr rfl)
      · exact hboundary (.inl ⟨placed, hplaced, rfl⟩)
    rw [Relocation.move, hnone] at hmove
    cases hmove

/-- A boundary stands in front of a place in a piece as it stood in front of the old
instruction. -/
theorem newOffset_le_iff {offset p : Nat} (hoffset : layout.Boundary oldLength offset)
    {placed : Placed} (hplaced : placed ∈ layout.pieces) (hstart : placed.start ≤ p)
    (hstop : p < placed.start + placed.size) :
    layout.newOffset offset ≤ p ↔ offset ≤ placed.located.offset := by
  rcases hoffset with ⟨other, hother, rfl⟩ | rfl
  · rw [h.newOffset_eq hother]
    have hpos := other.located.size_pos
    have hpos' := placed.located.size_pos
    rcases h.row.before_or_eq_or_after h.oldPieces hother hplaced with hbefore | rfl | hafter
    · omega
    · omega
    · omega
  · rw [h.newOffset_length]
    have hlt := h.oldRow.start_lt (fun x _ => x.size_pos) (h.located_mem hplaced)
    have hbound := (h.row.mem_bounds hplaced).2
    omega

/-- Boundaries keep their order. -/
theorem newOffset_lt {offset later : Nat} (hoffset : layout.Boundary oldLength offset)
    (hlater : layout.Boundary oldLength later) (hlt : offset < later) :
    layout.newOffset offset < layout.newOffset later := by
  rcases hoffset with ⟨placed, hplaced, rfl⟩ | rfl
  · have hpos := h.size_pos placed hplaced
    rw [h.newOffset_eq hplaced, ← Nat.not_le,
      h.newOffset_le_iff hlater hplaced (Nat.le_refl _) (by omega)]
    omega
  · rcases hlater with ⟨placed, hplaced, rfl⟩ | rfl
    · have hbound := h.oldRow.start_lt (fun x _ => x.size_pos) (h.located_mem hplaced)
      omega
    · exact absurd hlt (Nat.lt_irrefl _)

theorem newOffset_le_newOffset_iff {offset other : Nat} (hoffset : layout.Boundary oldLength offset)
    (hother : layout.Boundary oldLength other) :
    layout.newOffset offset ≤ layout.newOffset other ↔ offset ≤ other := by
  rcases Nat.lt_trichotomy offset other with hlt | rfl | hlt
  · have hnew := h.newOffset_lt hoffset hother hlt
    omega
  · simp
  · have hnew := h.newOffset_lt hother hoffset hlt
    omega

/-- Pieces touch in the new code where their instructions touch in the old. -/
theorem touch_iff {placed other : Placed} (hplaced : placed ∈ layout.pieces)
    (hother : other ∈ layout.pieces) :
    other.start = placed.start + placed.size ↔
      other.located.offset = placed.located.offset + placed.located.size := by
  have hnew := h.row.infix_iff h.size_pos (x := placed) (y := other)
  have hold := h.oldPieces.infix_iff (fun x _ => x.located.size_pos) (x := placed) (y := other)
  rw [hnew] at hold
  exact ⟨fun htouch => (hold.1 ⟨hplaced, hother, htouch⟩).2.2,
    fun htouch => (hold.2 ⟨hplaced, hother, htouch⟩).2.2⟩

/-- What stands right behind a piece is the start of a piece. -/
theorem exists_behind {placed : Placed} (hplaced : placed ∈ layout.pieces)
    (hlt : placed.start + placed.size < layout.length) :
    ∃ other ∈ layout.pieces, other.start = placed.start + placed.size := by
  obtain ⟨other, hother, hstart, hstop⟩ := h.row.exists_mem (Nat.zero_le _) hlt
  have hpos := h.size_pos placed hplaced
  rcases h.row.before_or_eq_or_after h.row hplaced hother with hbefore | rfl | hafter
  · exact ⟨other, hother, by omega⟩
  · omega
  · omega

/-- What stands right behind an old instruction goes right behind its piece. -/
theorem newOffset_stop {placed : Placed} (hplaced : placed ∈ layout.pieces) :
    layout.newOffset (placed.located.offset + placed.located.size)
      = placed.start + placed.size := by
  have hbound := (h.oldPieces.mem_bounds hplaced).2
  rcases Nat.lt_or_eq_of_le hbound with hlt | heq
  · obtain ⟨other, hother, hstart, hstop⟩ := h.oldPieces.exists_mem (Nat.zero_le _) hlt
    have htouch : other.located.offset = placed.located.offset + placed.located.size := by
      have hpos := placed.located.size_pos
      rcases h.oldPieces.before_or_eq_or_after h.oldPieces hplaced hother with
        hbefore | rfl | hafter <;> omega
    rw [← htouch, h.newOffset_eq hother]
    exact (h.touch_iff hplaced hother).2 htouch
  · rw [heq, h.newOffset_length]
    -- a piece behind would belong to an instruction behind
    by_contra hne
    have hle := (h.row.mem_bounds hplaced).2
    obtain ⟨other, hother, htouch⟩ := h.exists_behind hplaced (by omega)
    have hstart := (h.touch_iff hplaced hother).1 htouch
    have hlast := h.oldRow.start_lt (fun x _ => x.size_pos) (h.located_mem hother)
    omega

/-- Different instructions have different new offsets. -/
theorem newOffset_injective {located other : Located} (hlocated : located ∈ old)
    (hother : other ∈ old) (heq : layout.newOffset located.offset = layout.newOffset other.offset) :
    located = other := by
  obtain ⟨placed, hplaced, rfl⟩ := h.exists_placed hlocated
  obtain ⟨placed', hplaced', rfl⟩ := h.exists_placed hother
  rw [h.newOffset_eq hplaced, h.newOffset_eq hplaced'] at heq
  rw [h.eq_of_start_eq hplaced hplaced' heq]

end Lays

end Layout

end Embargo
