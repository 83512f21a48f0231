import Embargo.Proofs.Code.FrameOrder
import Embargo.Proofs.Enforcement.NewCode

/-!
What the new stack map table says. It has the old frames that stay, with every offset in them
moved, a frame with a throwable at the start of every run of filler and an empty one at the start
of every throwing sequence in place of a dead site. No two of them are at one offset.
-/
namespace Embargo

/-- The type with the offset that it names moved. -/
def ValueType.retarget (move : Nat → Nat) : ValueType → ValueType
  | uninitialized offset => uninitialized (move offset)
  | type => type

/-- The frame with every offset in it moved. -/
def Frame.retarget (move : Nat → Nat) (frame : Frame) : Frame where
  offset := move frame.offset
  locals := frame.locals.map (ValueType.retarget move)
  stack := frame.stack.map (ValueType.retarget move)

namespace Draft
variable {layout : Layout} {old : List Located} {oldLength : Nat}
  (h : layout.Lays old oldLength)
include h

theorem moveType_eq_ok {type moved : ValueType}
    (hmove : moveType (Relocation.ofLayout layout oldLength) type = .ok moved) :
    moved = type.retarget layout.newOffset ∧
      ∀ n, type.newOffset? = some n → layout.Boundary oldLength n := by
  cases type with
  | uninitialized n =>
    obtain ⟨offset, hoffset, rfl⟩ := Except.map_eq_ok_iff.1 hmove
    obtain ⟨hboundary, rfl⟩ := h.move_eq_ok hoffset
    exact ⟨rfl, fun _ hn => Option.some.inj hn ▸ hboundary⟩
  | _ =>
    cases hmove
    exact ⟨rfl, nofun⟩

theorem mapM_moveType_eq_ok {types moved : List ValueType}
    (hmove : types.mapM (moveType (Relocation.ofLayout layout oldLength)) = .ok moved) :
    moved = types.map (ValueType.retarget layout.newOffset) ∧
      ∀ n ∈ types.filterMap ValueType.newOffset?, layout.Boundary oldLength n := by
  refine ⟨Except.eq_map_of_mapM (fun _ _ htype => (moveType_eq_ok h htype).1) hmove, ?_⟩
  intro n hn
  obtain ⟨type, htype, hoffset⟩ := List.mem_filterMap.1 hn
  obtain ⟨moved, -, hmoved⟩ :=
    Forall₂.exists_of_mem_left (Except.mapM_eq_ok_iff.1 hmove) htype
  exact (moveType_eq_ok h hmoved).2 n hoffset

/-- A frame that can be moved is at a boundary, and so is all that it mentions. -/
theorem moveFrame_eq_ok {frame moved : Frame}
    (hmove : moveFrame (Relocation.ofLayout layout oldLength) frame = .ok moved) :
    moved = frame.retarget layout.newOffset ∧ layout.Boundary oldLength frame.offset ∧
      ∀ n ∈ frame.newOffsets, layout.Boundary oldLength n := by
  obtain ⟨offset, hoffset, hrest⟩ := Except.bind_eq_ok_iff.1 hmove
  obtain ⟨locals, hlocals, hrest⟩ := Except.bind_eq_ok_iff.1 hrest
  obtain ⟨stack, hstack, hpure⟩ := Except.bind_eq_ok_iff.1 hrest
  cases hpure
  obtain ⟨hboundary, rfl⟩ := h.move_eq_ok hoffset
  obtain ⟨rfl, hlocalOffsets⟩ := mapM_moveType_eq_ok h hlocals
  obtain ⟨rfl, hstackOffsets⟩ := mapM_moveType_eq_ok h hstack
  refine ⟨rfl, hboundary, fun n hn => ?_⟩
  rw [Frame.newOffsets, List.filterMap_append, List.mem_append] at hn
  exact hn.elim (hlocalOffsets n) (hstackOffsets n)

theorem map_offset_moved {frames moved : List Frame}
    (hmoved : List.Forall₂
      (fun frame moved => moveFrame (Relocation.ofLayout layout oldLength) frame = .ok moved)
      frames moved) :
    moved.map Frame.offset = frames.map fun frame => layout.newOffset frame.offset :=
  Forall₂.map_eq (hmoved.imp fun _ _ hframe => by rw [(moveFrame_eq_ok h hframe).1]; rfl)

end Draft

namespace Draft
variable {frame : Frame} {frames : List Frame}

theorem pairwise_insertFrame (h : (frames.map Frame.offset).Pairwise (· < ·))
    (hnew : frame.offset ∉ frames.map Frame.offset) :
    ((insertFrame frame frames).map Frame.offset).Pairwise (· < ·) := by
  induction frames with
  | nil => exact List.pairwise_singleton ..
  | cons next rest ih =>
    obtain ⟨hnext, hrest⟩ := List.pairwise_cons.1 h
    rw [List.map_cons, List.mem_cons, not_or] at hnew
    unfold insertFrame
    split
    case isTrue hle =>
      have hlt : frame.offset < next.offset := Nat.lt_of_le_of_ne hle hnew.1
      refine List.pairwise_cons.2 ⟨List.forall_mem_cons.2 ⟨hlt, fun offset hoffset => ?_⟩, h⟩
      exact Nat.lt_trans hlt (hnext offset hoffset)
    case isFalse hle =>
      refine List.pairwise_cons.2 ⟨fun offset hoffset => ?_, ih hrest hnew.2⟩
      obtain ⟨other, hother, rfl⟩ := List.mem_map.1 hoffset
      rcases mem_insertFrame.1 hother with rfl | hother
      · exact Nat.not_le.1 hle
      · exact hnext _ (List.mem_map_of_mem hother)

/-- Frames at different offsets are put in order. -/
theorem pairwise_foldr_insertFrame (h : (frames.map Frame.offset).Nodup) :
    ((frames.foldr insertFrame []).map Frame.offset).Pairwise (· < ·) := by
  induction frames with
  | nil => exact .nil
  | cons frame frames ih =>
    obtain ⟨hframe, hrest⟩ := List.nodup_cons.1 h
    refine pairwise_insertFrame (ih hrest) fun hmem => hframe ?_
    obtain ⟨other, hother, heq⟩ := List.mem_map.1 hmem
    rw [← heq]
    exact List.mem_map_of_mem (mem_foldr_insertFrame.1 hother)

end Draft

theorem DeadBlock.offset_frame (block : DeadBlock) : block.frame.offset = block.span.start := by
  cases block <;> rfl

/-- The frames of new code. -/
inductive Rule.NewFrame (rule : Rule) (pool : Pool) (old : List Located) (frames : List Frame)
    (unreachable : Unreachable) (move : Nat → Nat) : Frame → Prop
  | kept {frame : Frame} (mem : frame ∈ frames) (kept : frame.offset ∉ unreachable.dropped) :
      NewFrame rule pool old frames unreachable move (frame.retarget move)
  /-- At the start of a run of filler. -/
  | filler {located : Located} (mem : located ∈ old)
      (fills : rule.Fills pool unreachable.dead located)
      (first : ∀ before, [before, located] <:+: old →
        ¬ rule.Fills pool unreachable.dead before) :
      NewFrame rule pool old frames unreachable move
        ⟨move located.offset, [], [.object "java/lang/Throwable"]⟩
  /-- At the start of the sequence of a dead site. -/
  | site {located : Located} (mem : located ∈ old)
      (use : (rule.use? pool located).isSome = true)
      (dead : located.offset ∈ unreachable.dead) :
      NewFrame rule pool old frames unreachable move ⟨move located.offset, [], []⟩

namespace Rule

/-- A frame that is kept is at an instruction, and what it mentions is still there. -/
structure KeepsFrame (body : Body) (old code : List Located) (move : Nat → Nat) (frame : Frame) :
    Prop where
  place : ∃ located ∈ old, located.offset = frame.offset
  mentions : ∀ n ∈ frame.newOffsets, n ∈ boundaries old body.code.length
  origins : ∀ n ∈ frame.newOffsets, ∀ operands,
    (⟨n, .plain Opcode.new operands⟩ : Located) ∈ old →
      (⟨move n, .plain Opcode.new operands⟩ : Located) ∈ code

/-- How the frames of a body became those of a new body. -/
structure Reframed (rule : Rule) (method : MethodInfo) (body new : Body) (pool newPool : Pool)
    (old code : List Located) (unreachable : Unreachable) (move : Nat → Nat) (source : Source) :
    Prop where
  source_eq : Source.of method body pool = .ok source
  kept : ∀ frame ∈ source.frames, frame.offset ∉ unreachable.dropped →
    KeepsFrame body old code move frame
  table : ∀ payload, Draft.Attributes.payload? newPool new.attributes = some payload →
    ∃ frames, FrameTable.decode newPool source.initial payload = .ok frames ∧
      (frames.map Frame.offset).Pairwise (· < ·) ∧
      ∀ frame, frame ∈ frames ↔ rule.NewFrame pool old source.frames unreachable move frame

end Rule

namespace Plan
variable {rule : Rule} {method : MethodInfo} {body : Body} {pool : Pool}
  (plan : Plan rule method body pool) {placed : Placed} (hplaced : placed ∈ plan.layout.pieces)
include hplaced

theorem infix_iff {other : Placed} (hother : other ∈ plan.layout.pieces) :
    [other.located, placed.located] <:+: plan.old ↔ other.stop = placed.start := by
  rw [plan.sound_old.row.infix_iff fun x _ => x.size_pos, Placed.stop, eq_comm (b := placed.start)]
  have htouch := plan.lays.touch_iff hother hplaced
  exact ⟨fun h => htouch.2 h.2.2,
    fun h => ⟨plan.lays.located_mem hother, plan.lays.located_mem hplaced, htouch.1 h⟩⟩

/-- Filler starts a run in the new code where it starts one in the old. -/
theorem first_iff :
    (∀ before, [before, placed.located] <:+: plan.old →
        ¬ rule.Fills pool plan.unreachable.dead before) ↔
      ∀ other ∈ plan.layout.pieces, other.stop = placed.start → other.piece.fate ≠ .filled := by
  constructor
  · intro h other hother hstop
    rw [ne_eq, ← plan.fills_iff hother]
    exact h _ ((plan.infix_iff hplaced hother).2 hstop)
  · intro h before hpair
    obtain ⟨other, hother, rfl⟩ :=
      plan.lays.exists_placed (hpair.subset (by simp) : before ∈ plan.old)
    rw [plan.fills_iff hother]
    exact h other hother ((plan.infix_iff hplaced hother).1 hpair)

omit hplaced

/-- A block gives a frame of the new code. -/
theorem newFrame_of_block {block : DeadBlock} (hblock : block ∈ plan.layout.deadBlocks) :
    rule.NewFrame pool plan.old plan.source.frames plan.unreachable plan.layout.newOffset
      block.frame := by
  obtain ⟨placed, hplaced, hstarts⟩ := plan.exists_startsWith hblock
  have hmem := plan.lays.located_mem hplaced
  have hmove := (plan.lays.newOffset_eq hplaced).trans hstarts.start_eq
  cases block with
  | filler span =>
    obtain ⟨-, hfilled, hfirst⟩ := hstarts
    have hstart : plan.layout.newOffset placed.located.offset = span.start := hmove
    rw [DeadBlock.frame, ← hstart]
    exact .filler hmem ((plan.fills_iff hplaced).2 hfilled) ((plan.first_iff hplaced).2 hfirst)
  | sequence span =>
    obtain ⟨-, hdead, hfilled⟩ := hstarts
    have huse : (rule.use? pool placed.located).isSome = true := by
      rcases plan.fate_cases hplaced with ⟨_, _, huse, -⟩ | ⟨-, hfate⟩ | ⟨-, hlive, -⟩
      · rw [huse]
        rfl
      · exact absurd hfate hfilled
      · exact absurd ((plan.isDead_iff hplaced).1 hdead) hlive
    have hstart : plan.layout.newOffset placed.located.offset = span.start := hmove
    rw [DeadBlock.frame, ← hstart]
    exact .site hmem huse ((plan.isDead_iff hplaced).1 hdead)

/-- The block at the start of a dead piece, unless that is filler behind filler. -/
theorem exists_block {placed : Placed} (hplaced : placed ∈ plan.layout.pieces)
    (hdead : placed.piece.isDead = true)
    (hfirst : placed.piece.fate = .filled →
      ∀ other ∈ plan.layout.pieces, other.stop = placed.start → other.piece.fate ≠ .filled) :
    ∃ block ∈ plan.layout.deadBlocks,
      DeadBlock.StartsWith plan.layout.pieces placed block := by
  obtain ⟨block, hblock, hstart⟩ :=
    DeadBlock.exists_start_eq plan.lays.row plan.lays.valid hplaced hdead hfirst
  obtain ⟨other, hother, hstarts⟩ := plan.exists_startsWith hblock
  obtain rfl : other = placed :=
    plan.lays.eq_of_start_eq hother hplaced (hstarts.start_eq.trans hstart)
  exact ⟨block, hblock, hstarts⟩

theorem exists_block_of_filler {located : Located} (hlocated : located ∈ plan.old)
    (hfills : rule.Fills pool plan.unreachable.dead located)
    (hfirst : ∀ before, [before, located] <:+: plan.old →
      ¬ rule.Fills pool plan.unreachable.dead before) :
    ∃ block ∈ plan.layout.deadBlocks, block.frame =
      ⟨plan.layout.newOffset located.offset, [], [.object "java/lang/Throwable"]⟩ := by
  obtain ⟨placed, hplaced, rfl⟩ := plan.lays.exists_placed hlocated
  obtain ⟨block, hblock, hstarts⟩ := plan.exists_block hplaced
    ((plan.isDead_iff hplaced).2 hfills.2) fun _ => (plan.first_iff hplaced).1 hfirst
  refine ⟨block, hblock, ?_⟩
  rw [plan.lays.newOffset_eq hplaced, hstarts.start_eq]
  cases block with
  | filler => rfl
  | sequence => exact absurd ((plan.fills_iff hplaced).1 hfills) hstarts.2.2

theorem exists_block_of_site {located : Located} (hlocated : located ∈ plan.old)
    (huse : (rule.use? pool located).isSome = true)
    (hdead : located.offset ∈ plan.unreachable.dead) :
    ∃ block ∈ plan.layout.deadBlocks,
      block.frame = ⟨plan.layout.newOffset located.offset, [], []⟩ := by
  obtain ⟨placed, hplaced, rfl⟩ := plan.lays.exists_placed hlocated
  have hfate : placed.piece.fate ≠ .filled := by
    rw [ne_eq, ← plan.fills_iff hplaced]
    intro hfills
    rw [hfills.1] at huse
    cases huse
  obtain ⟨block, hblock, hstarts⟩ := plan.exists_block hplaced
    ((plan.isDead_iff hplaced).2 hdead) fun hfilled => absurd hfilled hfate
  refine ⟨block, hblock, ?_⟩
  rw [plan.lays.newOffset_eq hplaced, hstarts.start_eq]
  cases block with
  | filler => exact absurd hstarts.2.1 hfate
  | sequence => rfl

/-- The new frames are exactly those of the new code. -/
theorem mem_newFrames_iff {frames : List Frame}
    (h : Draft.newFrames (Relocation.ofLayout plan.layout body.code.length) plan.unreachable
      plan.source.frames plan.layout.deadBlocks = .ok frames) {frame : Frame} :
    frame ∈ frames ↔ rule.NewFrame pool plan.old plan.source.frames plan.unreachable
      plan.layout.newOffset frame := by
  rw [Draft.mem_newFrames_iff h]
  constructor
  · rintro (⟨old, hold, hkept, hmove⟩ | ⟨block, hblock, rfl⟩)
    · rw [(Draft.moveFrame_eq_ok plan.lays hmove).1]
      exact .kept hold hkept
    · exact plan.newFrame_of_block hblock
  · rintro (⟨hold, hkept⟩ | ⟨hlocated, hfills, hfirst⟩ | ⟨hlocated, huse, hdead⟩)
    · obtain ⟨moved, -, hmove⟩ := Draft.exists_moveFrame h hold hkept
      refine .inl ⟨_, hold, hkept, ?_⟩
      rw [hmove, (Draft.moveFrame_eq_ok plan.lays hmove).1]
    · exact .inr (plan.exists_block_of_filler hlocated hfills hfirst)
    · exact .inr (plan.exists_block_of_site hlocated huse hdead)

theorem pairwise_frames : (plan.source.frames.map Frame.offset).Pairwise (· < ·) := by
  obtain ⟨-, -, -, hframes⟩ := Source.of_eq_ok_iff.1 plan.source_eq
  split at hframes
  case h_1 => exact FrameTable.pairwise_of_decode hframes
  case h_2 =>
    rw [hframes]
    exact .nil

/-- No instruction with a frame that is kept is dead. -/
theorem not_dead_of_kept {frame : Frame} (hframe : frame ∈ plan.source.frames)
    (hkept : frame.offset ∉ plan.unreachable.dropped) {located : Located}
    (hlocated : located ∈ plan.old) (hoffset : located.offset = frame.offset) :
    located.offset ∉ plan.unreachable.dead := by
  cases hmaps : method.stackMaps with
  | false =>
    rw [plan.dead_eq_nil hmaps]
    exact List.not_mem_nil
  | true =>
    have hentry := plan.mem_entryPoints_iff.2 (.inl ⟨frame, hframe, hoffset.symm⟩)
    rwa [plan.dead_entry_iff hmaps hlocated hentry, hoffset]

/-- A frame that is kept does not come to the start of a dead block. -/
theorem newOffset_ne_start {frame : Frame} (hframe : frame ∈ plan.source.frames)
    (hkept : frame.offset ∉ plan.unreachable.dropped)
    (hboundary : plan.layout.Boundary body.code.length frame.offset) {block : DeadBlock}
    (hblock : block ∈ plan.layout.deadBlocks) :
    plan.layout.newOffset frame.offset ≠ block.span.start := by
  intro heq
  obtain ⟨placed, hplaced, hstarts⟩ := plan.exists_startsWith hblock
  rw [← hstarts.start_eq] at heq
  rcases hboundary with ⟨other, hother, hoffset⟩ | hend
  · rw [← hoffset, plan.lays.newOffset_eq hother] at heq
    obtain rfl : other = placed := plan.lays.eq_of_start_eq hother hplaced heq
    refine plan.not_dead_of_kept hframe hkept (plan.lays.located_mem hother) hoffset ?_
    exact (plan.isDead_iff hother).1 (hstarts.isDead (plan.lays.valid other hother))
  · rw [hend, plan.lays.newOffset_length] at heq
    have hlt := plan.lays.row.start_lt plan.lays.size_pos hplaced
    omega

/-- No two new frames are at one offset, and they are in order. -/
theorem pairwise_newFrames {frames : List Frame}
    (h : Draft.newFrames (Relocation.ofLayout plan.layout body.code.length) plan.unreachable
      plan.source.frames plan.layout.deadBlocks = .ok frames) :
    (frames.map Frame.offset).Pairwise (· < ·) := by
  obtain ⟨moved, hmoved, rfl⟩ := Draft.newFrames_eq_ok h
  have hboundary : ∀ frame ∈ plan.source.frames.filter fun frame =>
      frame.offset ∉ plan.unreachable.dropped,
      plan.layout.Boundary body.code.length frame.offset := fun frame hframe => by
    obtain ⟨moved, -, hmove⟩ := Forall₂.exists_of_mem_left hmoved hframe
    exact (Draft.moveFrame_eq_ok plan.lays hmove).2.1
  apply Draft.pairwise_foldr_insertFrame
  rw [List.map_append, List.nodup_append, Draft.map_offset_moved plan.lays hmoved, List.map_map]
  refine ⟨?_, ?_, ?_⟩
  · have hkept := (List.pairwise_map.1 plan.pairwise_frames).filter fun frame =>
      decide (frame.offset ∉ plan.unreachable.dropped)
    refine List.pairwise_map.2 ((List.Pairwise.and_mem.1 hkept).imp ?_)
    rintro frame other ⟨hframe, hother, hlt⟩
    exact Nat.ne_of_lt (plan.lays.newOffset_lt (hboundary _ hframe) (hboundary _ hother) hlt)
  · have horder := (DeadBlock.ordered_ofPieces plan.lays.row plan.lays.valid).1
    refine List.pairwise_map.2 ((List.Pairwise.and_mem.1 horder).imp ?_)
    rintro block next ⟨hblock, -, hbefore⟩
    have hlt := DeadBlock.start_lt_stop plan.lays.valid block hblock
    rw [Function.comp_apply, Function.comp_apply, DeadBlock.offset_frame, DeadBlock.offset_frame]
    omega
  · intro offset hoffset start hstart heq
    obtain ⟨frame, hframe, rfl⟩ := List.mem_map.1 hoffset
    obtain ⟨block, hblock, rfl⟩ := List.mem_map.1 hstart
    obtain ⟨hmem, hkept⟩ := List.mem_filter.1 hframe
    rw [Function.comp_apply, DeadBlock.offset_frame] at heq
    exact plan.newOffset_ne_start hmem (of_decide_eq_true hkept) (hboundary frame hframe) hblock heq

end Plan

namespace Revision
variable {rule : Rule} {method : MethodInfo} {body new : Body} {pool newPool : Pool}
  (r : Revision rule method body pool new newPool)

theorem old_ne_nil (h : (Marked.counts r.marked).total ≠ 0) : r.old ≠ [] := by
  intro hnil
  have hmarked := r.map_located_marked
  rw [hnil, List.map_eq_nil_iff] at hmarked
  rw [hmarked] at h
  exact h rfl

theorem instructions_ne_nil (hold : r.old ≠ []) : r.layout.instructions ≠ [] := by
  obtain ⟨located, hlocated⟩ := List.exists_mem_of_ne_nil _ hold
  obtain ⟨placed, hplaced, -⟩ := r.lays.exists_placed hlocated
  obtain ⟨start, hstart, -⟩ := r.lays.exists_instruction hplaced
  exact List.ne_nil_of_mem hstart

variable {frame : Frame} (hframe : frame ∈ r.source.frames)
  (hkept : frame.offset ∉ r.unreachable.dropped)
include hframe hkept

/-- The limit of the stack is looked for from every new frame on, so each is at an
instruction. -/
theorem exists_place (hold : r.old ≠ []) : ∃ located ∈ r.old, located.offset = frame.offset := by
  obtain ⟨moved, hmoved, hmove⟩ := r.exists_moveFrame hframe hkept
  obtain ⟨rfl, hboundary, -⟩ := Draft.moveFrame_eq_ok r.lays hmove
  obtain ⟨hlimit, -⟩ := r.limits_new
  obtain ⟨located, hlocated, hoffset⟩ :=
    StackDepth.exists_entry_of_limit (r.instructions_ne_nil hold) hlimit _
      (List.mem_append_right _ (List.mem_map_of_mem (f := Draft.frameEntry) hmoved))
  exact r.lays.exists_of_newOffset_eq hboundary hlocated hoffset

theorem mem_boundaries_of_mention {n : Nat} (hn : n ∈ frame.newOffsets) :
    n ∈ Rule.boundaries r.old body.code.length := by
  obtain ⟨moved, -, hmove⟩ := r.exists_moveFrame hframe hkept
  exact r.mem_boundaries_iff.2 ((Draft.moveFrame_eq_ok r.lays hmove).2.2 n hn)

/-- Nothing that a kept frame mentions is dead. -/
theorem not_dead_of_mention {n : Nat} (hn : n ∈ frame.newOffsets) : n ∉ r.unreachable.dead := by
  cases hmaps : method.stackMaps with
  | false =>
    rw [r.dead_eq_nil hmaps]
    exact List.not_mem_nil
  | true =>
    intro hdead
    exact hkept (((r.settled hmaps).dropped _).2 ⟨frame, hframe, rfl, n, hn, hdead⟩)

theorem origin_mem {n : Nat} (hn : n ∈ frame.newOffsets) {operands : List UInt8}
    (hlocated : (⟨n, .plain Opcode.new operands⟩ : Located) ∈ r.old) :
    (⟨r.layout.newOffset n, .plain Opcode.new operands⟩ : Located) ∈ r.layout.instructions := by
  obtain ⟨placed, hplaced, heq⟩ := r.lays.exists_placed hlocated
  have hstart := r.lays.newOffset_eq hplaced
  have hfate : placed.piece.fate = .kept := by
    rw [r.kept_iff hplaced, heq]
    exact ⟨rfl, r.not_dead_of_mention hframe hkept hn⟩
  have hmem := Layout.mem_of_kept hplaced hfate
  rw [heq] at hstart hmem
  rw [hstart]
  exact hmem

omit hframe hkept

theorem reframed (hpool : pool.WellFormed) (hold : r.old ≠ []) :
    rule.Reframed method body new pool newPool r.old r.layout.instructions
      r.unreachable r.layout.newOffset r.source where
  source_eq := r.source_eq
  kept := fun _ hframe hkept => {
    place := r.exists_place hframe hkept hold
    mentions := fun _ hn => r.mem_boundaries_of_mention hframe hkept hn
    origins := fun _ hn _ hlocated => r.origin_mem hframe hkept hn hlocated }
  table := fun payload hpayload => by
    rw [(r.named_new hpool).2] at hpayload
    obtain ⟨frames, hframes, hdecode⟩ := r.decode_table hpool hpayload
    have hnew := r.newFrames_of_frames hframes
    exact ⟨frames, hdecode, r.pairwise_newFrames hnew, fun _ => r.mem_newFrames_iff hnew⟩

end Revision

end Embargo
