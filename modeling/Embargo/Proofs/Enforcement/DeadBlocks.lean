import Embargo.Enforcement.Emission
import Embargo.Proofs.Enforcement.Layout

/-!
The dead blocks of a layout. Together they hold exactly the places of dead pieces, and
one starts wherever a dead piece comes that is not filler behind filler.
-/
namespace Embargo.DeadBlock
variable {placed : Placed} {pieces : List Placed} {blocks : List DeadBlock} {a b p : Nat}

/-- The dead blocks of pieces in a row. -/
def ofPieces (pieces : List Placed) : List DeadBlock := pieces.foldr before []

theorem ofPieces_cons : ofPieces (placed :: pieces) = before placed (ofPieces pieces) := rfl

theorem before_kept (h : placed.piece.fate = .kept) : before placed blocks = blocks := by
  unfold before
  rw [h]

theorem before_replaced {sequence : List Instruction} (h : placed.piece.fate = .replaced sequence) :
    before placed blocks = if placed.piece.isDead then
      .sequence ⟨placed.start, placed.stop⟩ :: blocks else blocks := by
  unfold before
  rw [h]

/-- Filler makes one block with the filler that it touches. -/
theorem before_filled (blocks : List DeadBlock) (h : placed.piece.fate = .filled) :
    (∃ span rest, blocks = .filler span :: rest ∧ span.start = placed.stop ∧
        before placed blocks = .filler ⟨placed.start, span.stop⟩ :: rest) ∨
      before placed blocks = .filler ⟨placed.start, placed.stop⟩ :: blocks := by
  unfold before
  rw [h]
  dsimp only
  split
  case h_1 span rest =>
    split
    case isTrue htouch => exact .inl ⟨span, rest, rfl, htouch, rfl⟩
    case isFalse => exact .inr rfl
  case h_2 => exact .inr rfl

section Valid
variable (hrow : Contiguous Placed.start Placed.size a pieces b)
  (hvalid : ∀ placed ∈ pieces, placed.piece.Valid)
include hvalid

theorem start_lt_stop : ∀ block ∈ ofPieces pieces, block.span.start < block.span.stop := by
  induction pieces with
  | nil => exact fun _ hblock => absurd hblock List.not_mem_nil
  | cons placed pieces ih =>
    obtain ⟨hhead, hrest⟩ := List.forall_mem_cons.1 hvalid
    have hpos : placed.start < placed.stop := by
      have hsize := hhead.size_pos placed.start
      unfold Placed.stop
      omega
    have hlater := ih hrest
    rw [ofPieces_cons]
    cases hfate : placed.piece.fate with
    | kept =>
      rw [before_kept hfate]
      exact hlater
    | replaced sequence =>
      rw [before_replaced hfate]
      split
      · exact List.forall_mem_cons.2 ⟨hpos, hlater⟩
      · exact hlater
    | filled =>
      rcases before_filled (ofPieces pieces) hfate with ⟨span, rest, hblocks, htouch, heq⟩ | heq
      · rw [hblocks] at hlater
        obtain ⟨hspan, hlater⟩ := List.forall_mem_cons.1 hlater
        rw [heq]
        refine List.forall_mem_cons.2 ⟨?_, hlater⟩
        exact Nat.lt_trans hpos (htouch ▸ hspan)
      · rw [heq]
        exact List.forall_mem_cons.2 ⟨hpos, hlater⟩

/-- The blocks hold the places of the dead pieces and no others. -/
theorem exists_contains_iff :
    (∃ block ∈ ofPieces pieces, block.span.Contains p) ↔
      ∃ placed ∈ pieces, placed.piece.isDead = true ∧ placed.start ≤ p ∧ p < placed.stop := by
  induction pieces with
  | nil => simp [ofPieces]
  | cons placed pieces ih =>
    obtain ⟨hhead, hrest⟩ := List.forall_mem_cons.1 hvalid
    have hlater := ih hrest
    rw [List.exists_mem_cons_iff, ← hlater, ofPieces_cons]
    cases hfate : placed.piece.fate with
    | kept =>
      rw [before_kept hfate, hhead.kept hfate]
      simp
    | replaced sequence =>
      rw [before_replaced hfate]
      cases placed.piece.isDead with
      | false => simp
      | true =>
        rw [if_pos rfl, List.exists_mem_cons_iff]
        simp [span, Span.Contains]
    | filled =>
      rw [hhead.filled hfate]
      rcases before_filled (ofPieces pieces) hfate with ⟨span, rest, hblocks, htouch, heq⟩ | heq
      · have hspan := start_lt_stop hrest (.filler span) (by simp [hblocks])
        have hpos := hhead.size_pos placed.start
        rw [heq, hblocks, List.exists_mem_cons_iff, List.exists_mem_cons_iff]
        simp only [DeadBlock.span, Span.Contains, Placed.stop] at htouch hspan ⊢
        rw [true_and, ← or_assoc]
        refine or_congr_left ?_
        omega
      · rw [heq, List.exists_mem_cons_iff]
        simp [span, Span.Contains]

end Valid

/-- Filler that touches no filler makes a block of its own. -/
theorem before_filled_apart (h : placed.piece.fate = .filled)
    (hapart : ∀ span rest, blocks = .filler span :: rest → span.start ≠ placed.stop) :
    before placed blocks = .filler ⟨placed.start, placed.stop⟩ :: blocks := by
  rcases before_filled blocks h with ⟨span, rest, hblocks, htouch, -⟩ | heq
  · exact absurd htouch (hapart span rest hblocks)
  · exact heq

/-- The blocks of pieces in a row lie in the row, one after the other. -/
theorem ordered_ofPieces (hrow : Contiguous Placed.start Placed.size a pieces b)
    (hvalid : ∀ placed ∈ pieces, placed.piece.Valid) :
    (ofPieces pieces).Pairwise (fun block next => block.span.stop ≤ next.span.start) ∧
      ∀ block ∈ ofPieces pieces, a ≤ block.span.start := by
  induction pieces generalizing a with
  | nil => exact ⟨.nil, fun _ hblock => absurd hblock List.not_mem_nil⟩
  | cons placed pieces ih =>
    obtain ⟨hhead, hrest⟩ := List.forall_mem_cons.1 hvalid
    obtain ⟨rfl, hnext⟩ := hrow
    obtain ⟨horder, hbehind⟩ := ih hnext hrest
    have hfront : ∀ block ∈ ofPieces pieces, placed.start ≤ block.span.start :=
      fun block hblock => Nat.le_trans (Nat.le_add_right _ _) (hbehind block hblock)
    rw [ofPieces_cons]
    cases hfate : placed.piece.fate with
    | kept =>
      rw [before_kept hfate]
      exact ⟨horder, hfront⟩
    | replaced sequence =>
      rw [before_replaced hfate]
      split
      · exact ⟨List.pairwise_cons.2 ⟨hbehind, horder⟩,
          List.forall_mem_cons.2 ⟨Nat.le_refl _, hfront⟩⟩
      · exact ⟨horder, hfront⟩
    | filled =>
      rcases before_filled (ofPieces pieces) hfate with ⟨span, rest, hblocks, -, heq⟩ | heq
      · rw [hblocks] at horder hfront
        obtain ⟨hspan, horder⟩ := List.pairwise_cons.1 horder
        rw [heq]
        exact ⟨List.pairwise_cons.2 ⟨hspan, horder⟩,
          List.forall_mem_cons.2 ⟨Nat.le_refl _, (List.forall_mem_cons.1 hfront).2⟩⟩
      · rw [heq]
        exact ⟨List.pairwise_cons.2 ⟨hbehind, horder⟩,
          List.forall_mem_cons.2 ⟨Nat.le_refl _, hfront⟩⟩

/-- A block where the row begins is the first, and the only one there. -/
theorem eq_cons_of_start_eq (hrow : Contiguous Placed.start Placed.size a pieces b)
    (hvalid : ∀ placed ∈ pieces, placed.piece.Valid) {block : DeadBlock}
    (hblock : block ∈ ofPieces pieces) (hstart : block.span.start = a) :
    ∃ rest, ofPieces pieces = block :: rest ∧ ∀ next ∈ rest, next.span.start ≠ a := by
  obtain ⟨horder, hbehind⟩ := ordered_ofPieces hrow hvalid
  have hlt := start_lt_stop hvalid
  cases hblocks : ofPieces pieces with
  | nil =>
    rw [hblocks] at hblock
    exact absurd hblock List.not_mem_nil
  | cons head rest =>
    rw [hblocks] at hblock horder hbehind hlt
    have hlater : ∀ next ∈ rest, next.span.start ≠ a := fun next hnext => by
      have hhead := (List.forall_mem_cons.1 hbehind).1
      have hheadLt := (List.forall_mem_cons.1 hlt).1
      have hnotBefore := (List.pairwise_cons.1 horder).1 next hnext
      omega
    rcases List.mem_cons.1 hblock with rfl | hmem
    · exact ⟨rest, rfl, hlater⟩
    · exact absurd hstart (hlater block hmem)

/-- A block stops where a piece stops. -/
theorem exists_stop_eq : ∀ block ∈ ofPieces pieces,
    ∃ placed ∈ pieces, placed.stop = block.span.stop := by
  induction pieces with
  | nil => exact fun _ hblock => absurd hblock List.not_mem_nil
  | cons placed pieces ih =>
    have hlater : ∀ block ∈ ofPieces pieces,
        ∃ other ∈ placed :: pieces, other.stop = block.span.stop := fun block hblock =>
      let ⟨other, hother, hstop⟩ := ih block hblock
      ⟨other, List.mem_cons_of_mem _ hother, hstop⟩
    have hown : ∃ other ∈ placed :: pieces, other.stop = placed.stop :=
      ⟨placed, List.mem_cons_self, rfl⟩
    rw [ofPieces_cons]
    cases hfate : placed.piece.fate with
    | kept =>
      rw [before_kept hfate]
      exact hlater
    | replaced sequence =>
      rw [before_replaced hfate]
      split
      · exact List.forall_mem_cons.2 ⟨hown, hlater⟩
      · exact hlater
    | filled =>
      rcases before_filled (ofPieces pieces) hfate with ⟨span, rest, hblocks, -, heq⟩ | heq
      · rw [hblocks] at hlater
        rw [heq]
        exact List.forall_mem_cons.2 (List.forall_mem_cons.1 hlater)
      · rw [heq]
        exact List.forall_mem_cons.2 ⟨hown, hlater⟩

/-- The piece that a block starts with: filler behind no filler, or a dead sequence. -/
def StartsWith (pieces : List Placed) (placed : Placed) : DeadBlock → Prop
  | filler span => placed.start = span.start ∧ placed.piece.fate = .filled ∧
      ∀ other ∈ pieces, other.stop = placed.start → other.piece.fate ≠ .filled
  | sequence span => placed.start = span.start ∧ placed.piece.isDead = true ∧
      placed.piece.fate ≠ .filled

theorem StartsWith.start_eq {block : DeadBlock} (h : StartsWith pieces placed block) :
    placed.start = block.span.start := by
  cases block <;> exact h.1

theorem StartsWith.isDead {block : DeadBlock} (h : StartsWith pieces placed block)
    (hvalid : placed.piece.Valid) : placed.piece.isDead = true := by
  cases block with
  | filler => exact hvalid.filled h.2.1
  | sequence => exact h.2.1

/-- One more piece in front leaves the start of a block alone, unless it is filler right in
front of filler. -/
theorem StartsWith.cons {first : Placed} {block : DeadBlock}
    (h : StartsWith pieces placed block)
    (hfirst : first.piece.fate = .filled → ∀ span, block = .filler span →
      first.stop ≠ span.start) : StartsWith (first :: pieces) placed block := by
  cases block with
  | filler span =>
    obtain ⟨hstart, hfilled, hbehind⟩ := h
    refine ⟨hstart, hfilled, List.forall_mem_cons.2 ⟨fun hstop hfate => ?_, hbehind⟩⟩
    exact hfirst hfate span rfl (hstop.trans hstart)
  | sequence span => exact h

/-- Nothing stands in front of the first piece. -/
theorem StartsWith.head {first : Placed}
    (hrow : Contiguous Placed.start Placed.size first.stop pieces b)
    (hvalid : first.piece.Valid) (hfilled : first.piece.fate = .filled) (stop : Nat) :
    StartsWith (first :: pieces) first (.filler ⟨first.start, stop⟩) := by
  refine ⟨rfl, hfilled, fun other hother hstop => ?_⟩
  have hpos := hvalid.size_pos first.start
  exfalso
  rcases List.mem_cons.1 hother with rfl | hother
  · unfold Placed.stop at hstop
    omega
  · have hbounds := (hrow.mem_bounds hother).1
    simp only [Placed.stop] at hstop hbounds
    omega

/-- Every block starts with a piece. -/
theorem exists_startsWith (hrow : Contiguous Placed.start Placed.size a pieces b)
    (hvalid : ∀ placed ∈ pieces, placed.piece.Valid) : ∀ block ∈ ofPieces pieces,
    ∃ placed ∈ pieces, StartsWith pieces placed block := by
  induction pieces generalizing a with
  | nil => exact fun _ hblock => absurd hblock List.not_mem_nil
  | cons first pieces ih =>
    obtain ⟨hhead, hrest⟩ := List.forall_mem_cons.1 hvalid
    obtain ⟨rfl, hnext⟩ := hrow
    have hlater : ∀ block ∈ ofPieces pieces,
        (first.piece.fate = .filled → ∀ span, block = .filler span → first.stop ≠ span.start) →
        ∃ placed ∈ first :: pieces, StartsWith (first :: pieces) placed block :=
      fun block hblock hfirst =>
        let ⟨placed, hplaced, hstarts⟩ := ih hnext hrest block hblock
        ⟨placed, List.mem_cons_of_mem _ hplaced, hstarts.cons hfirst⟩
    rw [ofPieces_cons]
    cases hfate : first.piece.fate with
    | kept =>
      rw [before_kept hfate]
      exact fun block hblock => hlater block hblock (by rw [hfate]; nofun)
    | replaced sequence =>
      have hothers : ∀ block ∈ ofPieces pieces,
          ∃ placed ∈ first :: pieces, StartsWith (first :: pieces) placed block :=
        fun block hblock => hlater block hblock (by rw [hfate]; nofun)
      rw [before_replaced hfate]
      split
      case isTrue hdead =>
        refine List.forall_mem_cons.2 ⟨⟨first, List.mem_cons_self, rfl, hdead, ?_⟩, hothers⟩
        rw [hfate]
        nofun
      case isFalse => exact hothers
    | filled =>
      have hown (stop : Nat) : ∃ placed ∈ first :: pieces,
          StartsWith (first :: pieces) placed (.filler ⟨first.start, stop⟩) :=
        ⟨first, List.mem_cons_self, .head hnext hhead hfate stop⟩
      by_cases htouch : ∃ span rest, ofPieces pieces = .filler span :: rest ∧
          span.start = first.stop
      · obtain ⟨span, rest, hblocks, htouch⟩ := htouch
        have heq : before first (ofPieces pieces) = .filler ⟨first.start, span.stop⟩ :: rest := by
          unfold before
          rw [hfate, hblocks]
          exact if_pos htouch
        obtain ⟨_, hcons, hlast⟩ := eq_cons_of_start_eq hnext hrest
          (hblocks ▸ List.mem_cons_self : DeadBlock.filler span ∈ ofPieces pieces) htouch
        obtain ⟨-, rfl⟩ := List.cons.inj (hblocks.symm.trans hcons)
        rw [heq]
        refine List.forall_mem_cons.2 ⟨hown _, fun block hblock => ?_⟩
        refine hlater block (hblocks ▸ List.mem_cons_of_mem _ hblock) ?_
        rintro - other rfl hstop
        exact hlast _ hblock hstop.symm
      · rw [before_filled_apart hfate fun span rest hblocks hstart =>
          htouch ⟨span, rest, hblocks, hstart⟩]
        refine List.forall_mem_cons.2 ⟨hown _, fun block hblock => hlater block hblock ?_⟩
        rintro - span rfl hstop
        obtain ⟨rest, hblocks, -⟩ := eq_cons_of_start_eq hnext hrest hblock hstop.symm
        exact htouch ⟨span, rest, hblocks, hstop.symm⟩

/-- A dead piece in front starts a block of its kind. -/
theorem ofPieces_cons_of_isDead (pieces : List Placed) (hvalid : placed.piece.Valid)
    (hdead : placed.piece.isDead = true) : ∃ span rest, span.start = placed.start ∧
      (placed.piece.fate = .filled ∧ ofPieces (placed :: pieces) = .filler span :: rest ∨
        placed.piece.fate ≠ .filled ∧ ofPieces (placed :: pieces) = .sequence span :: rest) := by
  rw [ofPieces_cons]
  cases hfate : placed.piece.fate with
  | kept =>
    rw [hvalid.kept hfate] at hdead
    cases hdead
  | replaced sequence =>
    rw [before_replaced hfate, if_pos hdead]
    exact ⟨_, _, rfl, .inr ⟨nofun, rfl⟩⟩
  | filled =>
    rcases before_filled (ofPieces pieces) hfate with ⟨span, rest, -, -, heq⟩ | heq
    · exact ⟨_, _, rfl, .inl ⟨rfl, heq⟩⟩
    · exact ⟨_, _, rfl, .inl ⟨rfl, heq⟩⟩

/-- A dead piece where the first block is filler is filler as well. -/
theorem filled_of_head (hrow : Contiguous Placed.start Placed.size a pieces b)
    (hvalid : ∀ placed ∈ pieces, placed.piece.Valid) (hplaced : placed ∈ pieces)
    (hdead : placed.piece.isDead = true) {span : Span} {rest : List DeadBlock}
    (hblocks : ofPieces pieces = .filler span :: rest) (hstart : span.start = placed.start) :
    placed.piece.fate = .filled := by
  induction pieces generalizing a with
  | nil => exact absurd hplaced List.not_mem_nil
  | cons first pieces ih =>
    obtain ⟨hhead, hrest⟩ := List.forall_mem_cons.1 hvalid
    rcases List.mem_cons.1 hplaced with rfl | hplaced'
    · obtain ⟨_, _, -, ⟨hfilled, -⟩ | ⟨-, heq⟩⟩ :=
        ofPieces_cons_of_isDead pieces hhead hdead
      · exact hfilled
      · rw [heq] at hblocks
        cases hblocks
    · have hbehind := (hrow.2.mem_bounds hplaced').1
      have hpos := hhead.size_pos first.start
      have hfirst := hrow.1
      rw [ofPieces_cons] at hblocks
      cases hfate : first.piece.fate with
      | kept =>
        rw [before_kept hfate] at hblocks
        exact ih hrow.2 hrest hplaced' hblocks
      | replaced sequence =>
        rw [before_replaced hfate] at hblocks
        split at hblocks
        · cases hblocks
        · exact ih hrow.2 hrest hplaced' hblocks
      | filled =>
        have hspan : span.start = first.start := by
          rcases before_filled (ofPieces pieces) hfate with ⟨_, _, -, -, heq⟩ | heq <;>
          · rw [heq] at hblocks
            cases hblocks
            rfl
        simp only [Placed.size] at hbehind
        omega

/-- A block starts at a dead piece, unless filler lies in front of filler. -/
theorem exists_start_eq (hrow : Contiguous Placed.start Placed.size a pieces b)
    (hvalid : ∀ placed ∈ pieces, placed.piece.Valid) (hplaced : placed ∈ pieces)
    (hdead : placed.piece.isDead = true)
    (hfirst : placed.piece.fate = .filled →
      ∀ other ∈ pieces, other.stop = placed.start → other.piece.fate ≠ .filled) :
    ∃ block ∈ ofPieces pieces, block.span.start = placed.start := by
  induction pieces generalizing a with
  | nil => exact absurd hplaced List.not_mem_nil
  | cons first pieces ih =>
    obtain ⟨hhead, hrest⟩ := List.forall_mem_cons.1 hvalid
    rcases List.mem_cons.1 hplaced with rfl | hplaced'
    · obtain ⟨span, rest, hstart, ⟨-, heq⟩ | ⟨-, heq⟩⟩ :=
        ofPieces_cons_of_isDead pieces hhead hdead
      · exact ⟨.filler span, by rw [heq]; exact List.mem_cons_self, hstart⟩
      · exact ⟨.sequence span, by rw [heq]; exact List.mem_cons_self, hstart⟩
    · obtain ⟨block, hblock, hstart⟩ := ih hrow.2 hrest hplaced' fun hfilled other hother =>
        hfirst hfilled other (List.mem_cons_of_mem _ hother)
      rw [ofPieces_cons]
      cases hfate : first.piece.fate with
      | kept =>
        rw [before_kept hfate]
        exact ⟨block, hblock, hstart⟩
      | replaced sequence =>
        rw [before_replaced hfate]
        split
        · exact ⟨block, List.mem_cons_of_mem _ hblock, hstart⟩
        · exact ⟨block, hblock, hstart⟩
      | filled =>
        rcases before_filled (ofPieces pieces) hfate with
          ⟨span, rest, hblocks, htouch, heq⟩ | heq
        · rw [heq]
          rw [hblocks] at hblock
          rcases List.mem_cons.1 hblock with rfl | hblock
          · -- the block that would be swallowed belongs to `placed`, which is filler then
            have hstop : first.stop = placed.start := htouch ▸ hstart
            refine absurd hfate (hfirst ?_ first List.mem_cons_self hstop)
            exact filled_of_head hrow.2 hrest hplaced' hdead hblocks hstart
          · exact ⟨block, List.mem_cons_of_mem _ hblock, hstart⟩
        · rw [heq]
          exact ⟨block, List.mem_cons_of_mem _ hblock, hstart⟩

end Embargo.DeadBlock
