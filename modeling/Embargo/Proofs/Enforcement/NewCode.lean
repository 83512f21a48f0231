import Embargo.Proofs.Enforcement.FramePlacement
import Embargo.Proofs.Enforcement.Replacement

/-!
The new code of a method, instruction by instruction. Each old instruction has its part of the
new code, in the old order and with nothing in between: the throwing sequence of a site, filler
where the instruction is dead, or else the instruction itself with its targets moved.
-/
namespace Embargo
open Located (rowFrom)

namespace Rule

/-- What an enforcement on a body takes for dead. -/
def unreachable (rule : Rule) (method : MethodInfo) (body : Body) (pool : Pool) :
    Except Fault Unreachable := do
  let code ← Marked.ofCode pool rule (← Instruction.decode body.code)
  let source ← Source.of method body pool
  return if method.stackMaps then Unreachable.ofCode code source.frames body.handlers
    else Unreachable.nothing

/-- Whether an instruction gives way to filler: it is dead, and no site. -/
def Fills (rule : Rule) (pool : Pool) (dead : List Nat) (located : Located) : Prop :=
  rule.use? pool located = none ∧ located.offset ∈ dead

/-- New code for old code, where `move` tells where the new code for an old offset starts. -/
inductive LaidOut (rule : Rule) (pool newPool : Pool) (dead : List Nat) (move : Nat → Nat) :
    List Located → List Located → Prop
  | nil : LaidOut rule pool newPool dead move [] []
  | throwing {located : Located} {rest new : List Located} {site : Site}
      {exception message constructor : UInt16} (use : rule.use? pool located = some site)
      (throws : rule.Throws newPool site exception message constructor)
      (tail : LaidOut rule pool newPool dead move rest new) :
      LaidOut rule pool newPool dead move (located :: rest)
        (rowFrom (move located.offset) (Piece.throwing exception message constructor) ++ new)
  /-- Filler with filler behind it. -/
  | filler {located next : Located} {rest new : List Located}
      (fills : rule.Fills pool dead located) (more : rule.Fills pool dead next)
      (tail : LaidOut rule pool newPool dead move (next :: rest) new) :
      LaidOut rule pool newPool dead move (located :: next :: rest)
        (rowFrom (move located.offset)
          (.replicate (located.instruction.sizeAt (move located.offset)) (.simple Opcode.nop))
          ++ new)
  /-- Filler that is the last of its run. -/
  | lastFiller {located : Located} {rest new : List Located}
      (fills : rule.Fills pool dead located)
      (last : ∀ next ∈ rest.head?, ¬ rule.Fills pool dead next)
      (tail : LaidOut rule pool newPool dead move rest new) :
      LaidOut rule pool newPool dead move (located :: rest)
        (rowFrom (move located.offset)
          (.replicate (located.instruction.sizeAt (move located.offset) - 1) (.simple Opcode.nop)
            ++ [.simple Opcode.athrow]) ++ new)
  | kept {located : Located} {rest new : List Located} (use : rule.use? pool located = none)
      (live : located.offset ∉ dead) (tail : LaidOut rule pool newPool dead move rest new) :
      LaidOut rule pool newPool dead move (located :: rest)
        (⟨move located.offset, located.instruction.retarget move⟩ :: new)

/-- How the code of a body became that of a new body. -/
structure Relaid (rule : Rule) (method : MethodInfo) (body new : Body) (pool newPool : Pool)
    (old code : List Located) (unreachable : Unreachable) (move : Nat → Nat) : Prop where
  decode_old : Instruction.decode body.code = .ok old
  decode_new : Instruction.decode new.code = .ok code
  unreachable_eq : rule.unreachable method body pool = .ok unreachable
  laidOut : rule.LaidOut pool newPool unreachable.dead move old code
  /-- Everything that is moved as a target is an instruction. -/
  targets : ∀ located ∈ old, ∀ target ∈ located.instruction.targets,
    ∃ there ∈ old, there.offset = target
  move_length : move body.code.length = new.code.length

/-- The offsets that have a new place: those of the instructions, and the end. -/
def boundaries (old : List Located) (oldLength : Nat) : List Nat :=
  old.map Located.offset ++ [oldLength]

/-- The layout is known before anything is written, and comes true. -/
structure Foresees (rule : Rule) (body new : Body) (pool : Pool) (old : List Located)
    (unreachable : Unreachable) (move : Nat → Nat) : Prop where
  layout : ∃ marked pieces middle, Marked.ofCode pool rule old = .ok marked ∧
    (Piece.ofCode rule unreachable marked).run pool = (.ok pieces, middle) ∧
    (Layout.ofPieces pieces).length = new.code.length ∧
    ∀ offset moved,
      (Relocation.ofLayout (Layout.ofPieces pieces) body.code.length).move offset = .ok moved ↔
        offset ∈ boundaries old body.code.length ∧ moved = move offset
  short : new.code.length ≤ 65535
  increasing : ((boundaries old body.code.length).map move).Pairwise (· < ·)
  cast : ∀ offset ∈ boundaries old body.code.length,
    (UInt16.ofNat (move offset)).toNat = move offset

end Rule

namespace Plan
variable {rule : Rule} {method : MethodInfo} {body : Body} {pool : Pool}
  (plan : Plan rule method body pool) {placed : Placed} (hplaced : placed ∈ plan.layout.pieces)
include hplaced

/-- What becomes of an instruction: a site is replaced, what is dead besides is filled, and all
else is kept. -/
theorem fate_cases :
    (∃ site sequence, rule.use? pool placed.located = some site ∧
        placed.piece.fate = .replaced sequence) ∨
      rule.Fills pool plan.unreachable.dead placed.located ∧ placed.piece.fate = .filled ∨
      rule.use? pool placed.located = none ∧ placed.located.offset ∉ plan.unreachable.dead ∧
        placed.piece.fate = .kept := by
  obtain ⟨marked, hmarked, hof⟩ := plan.exists_marked hplaced
  obtain ⟨located, -, hlocated, hsite⟩ :=
    Forall₂.exists_of_mem_right plan.forall₂_marked hmarked
  have huse : rule.use? pool placed.located = marked.site := by
    rw [Placed.located, hof.located, hlocated]
    exact Marked.use?_of_siteOf hsite
  have hdead := plan.isDead_iff hplaced
  cases hfate : placed.piece.fate with
  | replaced sequence =>
    obtain ⟨site, hsome⟩ := Option.isSome_iff_exists.1 (hof.isReplaced.2 ⟨sequence, hfate⟩)
    exact .inl ⟨site, sequence, huse.trans hsome, rfl⟩
  | filled =>
    have hnone : marked.site = none := by
      rw [← Option.not_isSome_iff_eq_none, hof.isReplaced, hfate]
      rintro ⟨_, ⟨⟩⟩
    exact .inr (.inl ⟨⟨huse.trans hnone, hdead.1 (hof.valid.filled hfate)⟩, rfl⟩)
  | kept =>
    have hnone : marked.site = none := by
      rw [← Option.not_isSome_iff_eq_none, hof.isReplaced, hfate]
      rintro ⟨_, ⟨⟩⟩
    refine .inr (.inr ⟨huse.trans hnone, ?_, rfl⟩)
    rw [← hdead, hof.valid.kept hfate]
    exact Bool.false_ne_true

theorem fills_iff :
    rule.Fills pool plan.unreachable.dead placed.located ↔ placed.piece.fate = .filled := by
  rcases plan.fate_cases hplaced with ⟨_, _, huse, hfate⟩ | ⟨hfills, hfate⟩ | ⟨-, hlive, hfate⟩
  · rw [Rule.Fills, huse, hfate]
    simp
  · simp [hfills, hfate]
  · rw [hfate]
    exact ⟨fun h => absurd h.2 hlive, nofun⟩

theorem kept_iff : placed.piece.fate = .kept ↔
    rule.use? pool placed.located = none ∧ placed.located.offset ∉ plan.unreachable.dead := by
  rcases plan.fate_cases hplaced with ⟨_, _, huse, hfate⟩ | ⟨hfills, hfate⟩ | ⟨huse, hlive, hfate⟩
  · rw [huse, hfate]
    simp
  · rw [hfate]
    exact ⟨nofun, fun h => absurd hfills.2 h.2⟩
  · simp [huse, hlive, hfate]

end Plan

theorem Layout.filler_eq_replicate (size : Nat) :
    filler size false = .replicate size (.simple Opcode.nop) :=
  List.map_replicate

theorem Layout.filler_eq_append (size : Nat) :
    filler size true = .replicate (size - 1) (.simple Opcode.nop) ++ [.simple Opcode.athrow] := by
  simp [filler, fillerBytes]

namespace Revision
variable {rule : Rule} {method : MethodInfo} {body new : Body} {pool newPool : Pool}
  (r : Revision rule method body pool new newPool)
include r

theorem unreachable_ok : rule.unreachable method body pool = .ok r.unreachable := by
  refine Except.bind_eq_ok_iff.2 ⟨r.old, r.decode_old, ?_⟩
  refine Except.bind_eq_ok_iff.2 ⟨r.marked, r.marked_eq, ?_⟩
  refine Except.bind_eq_ok_iff.2 ⟨r.source, r.source_eq, ?_⟩
  rw [r.unreachable_eq]
  rfl

/-- A site is replaced by a sequence that throws for it. -/
theorem throws_of_use (hpool : pool.WellFormed) {placed : Placed}
    (hplaced : placed ∈ r.layout.pieces) {site : Site}
    (huse : rule.use? pool placed.located = some site) : ∃ exception message constructor,
      placed.piece.fate = .replaced (Piece.throwing exception message constructor) ∧
        rule.Throws newPool site exception message constructor := by
  have hpiece : placed.piece ∈ r.pieces := by
    rw [← r.map_piece]
    exact List.mem_map_of_mem hplaced
  obtain ⟨marked, hmarked, hof, hthrows⟩ :=
    Forall₂.exists_of_mem_right (r.forall₂_throws hpool) hpiece
  apply hthrows site
  rw [← r.use?_eq (.refl (P := fun _ => True) pool) hmarked, ← hof.located]
  exact huse

/-- The pieces of a layout are the new code for their instructions. -/
theorem laidOut_of_subset (hpool : pool.WellFormed) {pieces : List Placed}
    (h : pieces ⊆ r.layout.pieces) :
    rule.LaidOut pool newPool r.unreachable.dead r.layout.newOffset (pieces.map Placed.located)
      (Layout.instructionsOf r.layout.newOffset pieces) := by
  induction pieces with
  | nil => exact .nil
  | cons placed next ih =>
    obtain ⟨hplaced, hnext⟩ := List.cons_subset.1 h
    have htail := ih hnext
    have hstart := r.lays.newOffset_eq hplaced
    rw [List.map_cons, Layout.instructionsOf]
    rcases r.fate_cases hplaced with ⟨site, _, huse, -⟩ | ⟨hfills, hfate⟩ | ⟨huse, hlive, hfate⟩
    · obtain ⟨exception, message, constructor, hfate, hthrows⟩ := r.throws_of_use hpool hplaced huse
      rw [Layout.pieceInstructions_replaced hfate, ← hstart]
      exact .throwing huse hthrows htail
    · have hsize : placed.size = placed.located.instruction.sizeAt placed.start := by
        rw [Placed.size, Piece.sizeAt, hfate]
        rfl
      rw [Layout.pieceInstructions_filled hfate, hsize, ← hstart]
      -- the end of a run shows in the piece behind
      cases next with
      | nil =>
        rw [Layout.startsWithFiller, Bool.not_false, Layout.filler_eq_append]
        exact .lastFiller hfills (fun _ hnone => by cases hnone) htail
      | cons other rest =>
        have hmore := r.fills_iff (List.cons_subset.1 hnext).1
        rw [Layout.startsWithFiller, Placed.isFiller]
        by_cases hother : other.piece.fate = .filled
        · rw [decide_eq_true hother, Bool.not_true, Layout.filler_eq_replicate]
          exact .filler hfills (hmore.2 hother) htail
        · rw [decide_eq_false hother, Bool.not_false, Layout.filler_eq_append]
          refine .lastFiller hfills (fun located hlocated => ?_) htail
          cases hlocated
          exact mt hmore.1 hother
    · rw [Layout.pieceInstructions_kept hfate, ← hstart]
      exact .kept huse hlive htail

theorem relaid (hpool : pool.WellFormed) : rule.Relaid method body new pool newPool r.old
    r.layout.instructions r.unreachable r.layout.newOffset where
  decode_old := r.decode_old
  decode_new := r.decode_new
  unreachable_eq := r.unreachable_ok
  laidOut := by
    have hlaid := r.laidOut_of_subset hpool (List.Subset.refl _)
    rwa [r.lays.located] at hlaid
  targets := r.sound_old.targets
  move_length := by rw [r.lays.newOffset_length, r.length_new]

theorem mem_boundaries_iff {offset : Nat} :
    offset ∈ Rule.boundaries r.old body.code.length ↔
      r.layout.Boundary body.code.length offset := by
  rw [Rule.boundaries, List.mem_append, List.mem_singleton, ← r.lays.located, List.map_map,
    List.mem_map]
  rfl

theorem increasing :
    ((Rule.boundaries r.old body.code.length).map r.layout.newOffset).Pairwise (· < ·) := by
  have hold : (Rule.boundaries r.old body.code.length).Pairwise (· < ·) := by
    rw [Rule.boundaries, List.pairwise_append]
    refine ⟨?_, List.pairwise_singleton .., ?_⟩
    · refine List.pairwise_map.2 (r.sound_old.row.pairwise.imp fun {located other} hbefore => ?_)
      have hpos := located.size_pos
      omega
    · simp only [List.forall_mem_map, List.mem_singleton, forall_eq]
      exact fun located hlocated => r.sound_old.row.start_lt (fun x _ => x.size_pos) hlocated
  refine List.pairwise_map.2 ((List.Pairwise.and_mem.1 hold).imp ?_)
  rintro offset later ⟨hoffset, hlater, hlt⟩
  exact r.lays.newOffset_lt (r.mem_boundaries_iff.1 hoffset) (r.mem_boundaries_iff.1 hlater) hlt

/-- Exactly the offsets that have a new place can be moved. -/
theorem move_eq_ok_iff {offset moved : Nat} :
    (Relocation.ofLayout r.layout body.code.length).move offset = .ok moved ↔
      offset ∈ Rule.boundaries r.old body.code.length ∧ moved = r.layout.newOffset offset := by
  rw [r.mem_boundaries_iff]
  refine ⟨r.lays.move_eq_ok, ?_⟩
  rintro ⟨⟨placed, hplaced, rfl⟩ | rfl, rfl⟩
  · rw [r.lays.move_of_mem hplaced, r.lays.newOffset_eq hplaced]
  · rw [r.lays.move_length, r.lays.newOffset_length]

theorem foresees :
    rule.Foresees body new pool r.old r.unreachable r.layout.newOffset where
  layout := by
    refine ⟨r.marked, r.pieces, r.piecesPool, r.marked_eq, r.pieces_eq, ?_, fun offset moved => ?_⟩
    · rw [← r.layout_eq, r.length_new]
    · rw [← r.layout_eq]
      exact r.move_eq_ok_iff
  short := r.length_new ▸ r.length_le
  increasing := r.increasing
  cast := fun _ hoffset =>
    UInt16.toNat_ofNat_of_le (r.newOffset_le (r.mem_boundaries_iff.1 hoffset))

end Revision

/-- An enforcement on a method lays the code out anew: where it ends well and finds something,
the new code has a part for each old instruction, in order, and it is as long as foreseen. -/
theorem Rule.enforceMethod_laidOut {rule : Rule} {method : MethodInfo} {body : Body}
    {pool : Pool} {counts : SiteCounts} (hpool : pool.WellFormed)
    (h : (rule.enforceMethod method body pool).result = .ok counts) (hcounts : counts.total ≠ 0) :
    ∃ old code unreachable move,
      rule.Relaid method body (rule.enforceMethod method body pool).body pool
        (rule.enforceMethod method body pool).pool old code unreachable move ∧
      rule.Foresees body (rule.enforceMethod method body pool).body pool old unreachable move := by
  obtain ⟨r, -⟩ := Revision.of_enforceMethod h hcounts
  exact ⟨r.old, r.layout.instructions, r.unreachable, r.layout.newOffset, r.relaid hpool,
    r.foresees⟩

theorem wellFormed_catchPool : catchPool.WellFormed :=
  ⟨by decide +kernel, catchPool.slots.toList.filterMap id, by decide +kernel⟩

/-- A `new`, a branch over a call, a `nop` and another call to a `pop` and a `return`, and a
handler for all from the branch to the `pop`. -/
def heldBody : Body :=
  ⟨2, 0, [0xbb, 0, 9, 0x03, 0x99, 0, 10, 0xb8, 0, 6, 0x00, 0xb8, 0, 6, 0x57, 0xb1, 0xbf],
    [⟨4, 15, 16, 0⟩], [⟨7, [0, 2, 0x4e, 8, 0, 0, 0x41, 7, 0, 11]⟩]⟩

theorem Rule.result_heldBody :
    (awtRule.enforceMethod runMethod heldBody catchPool).result = .ok ⟨2, 0⟩ := by
  decide +kernel

theorem Rule.enforceMethod_laidOut_held :
    (awtRule.enforceMethod runMethod heldBody catchPool).result = .ok ⟨2, 0⟩ ∧
      (awtRule.enforceMethod runMethod heldBody catchPool).body.code =
        [0xbb, 0, 9, 0x03, 0x99, 0, 24, 0xbb, 0, 13, 0x59, 0x12, 15, 0xb7, 0, 19, 0xbf, 0xbf,
          0xbb, 0, 13, 0x59, 0x12, 15, 0xb7, 0, 19, 0xbf, 0x57, 0xb1, 0xbf] ∧
      ∃ old code unreachable move,
        awtRule.Relaid runMethod heldBody (awtRule.enforceMethod runMethod heldBody catchPool).body
          catchPool (awtRule.enforceMethod runMethod heldBody catchPool).pool old code unreachable
          move ∧
        awtRule.Foresees heldBody (awtRule.enforceMethod runMethod heldBody catchPool).body
          catchPool old unreachable move := by
  refine ⟨Rule.result_heldBody, by decide +kernel, ?_⟩
  exact Rule.enforceMethod_laidOut wellFormed_catchPool Rule.result_heldBody (by decide)

end Embargo
