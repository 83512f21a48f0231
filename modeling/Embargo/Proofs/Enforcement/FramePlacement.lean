import Embargo.Proofs.Enforcement.ControlFlow
import Embargo.Proofs.Enforcement.NewFrames

/-!
The verifier wants a frame wherever control comes from elsewhere than the instruction
before. Code that has these frames still has them after an enforcement: live places keep
theirs, and dead code starts at frames of its own.
-/
namespace Embargo

/-- The frames that the verifier wants: at every target of a branch or switch, at every
handler, and behind every instruction that control does not run on from. -/
structure FramesPlaced (code : List Located) (handlers : List Handler) (frames : List Frame) :
    Prop where
  targets : ∀ located ∈ code, ∀ target ∈ located.instruction.targets,
    ∃ frame ∈ frames, frame.offset = target
  handlers : ∀ handler ∈ handlers, ∃ frame ∈ frames, frame.offset = handler.handlerPc.toNat
  behind : ∀ i j, [i, j] <:+: code → i.instruction.endsFlow = true →
    ∃ frame ∈ frames, frame.offset = j.offset

namespace Revision
open Unreachable (entryPoints)
variable {rule : Rule} {method : MethodInfo} {body new : Body} {pool newPool : Pool}
  (r : Revision rule method body pool new newPool)

/-- A dead piece starts at a frame, unless it is filler behind filler. -/
theorem exists_frame_of_dead {placed : Placed} (hplaced : placed ∈ r.layout.pieces)
    (hdead : placed.located.offset ∈ r.unreachable.dead)
    (hfirst : placed.piece.fate = .filled →
      ∀ other ∈ r.layout.pieces, other.stop = placed.start → other.piece.fate ≠ .filled) :
    ∃ frame ∈ r.newFrames, frame.offset = placed.start := by
  obtain ⟨block, hblock, hstart⟩ := DeadBlock.exists_start_eq r.lays.row r.lays.valid hplaced
    ((r.isDead_iff hplaced).2 hdead) hfirst
  obtain ⟨frame, hframe, hoffset⟩ := r.exists_blockFrame hblock
  exact ⟨frame, hframe, hoffset.trans hstart⟩

section Placed
variable (hplacement : FramesPlaced r.old body.handlers r.source.frames)
include hplacement

theorem exists_frame_of_entry {offset : Nat}
    (hentry : offset ∈ entryPoints r.marked r.source.frames body.handlers) :
    ∃ frame ∈ r.source.frames, frame.offset = offset := by
  rcases r.mem_entryPoints_iff.1 hentry with hframe | ⟨handler, hhandler, rfl⟩ |
    ⟨located, hlocated, htarget⟩
  · exact hframe
  · exact hplacement.handlers handler hhandler
  · exact hplacement.targets located hlocated offset htarget

/-- An entry point whose frame is not dropped has a frame at its new place. -/
theorem exists_frame_of_kept {offset : Nat}
    (hentry : offset ∈ entryPoints r.marked r.source.frames body.handlers)
    (hkept : offset ∉ r.unreachable.dropped) :
    ∃ frame ∈ r.newFrames, frame.offset = r.layout.newOffset offset := by
  obtain ⟨frame, hframe, rfl⟩ := r.exists_frame_of_entry hplacement hentry
  exact r.exists_moved hframe hkept

section Flow
variable (hmaps : method.stackMaps = true)
  (hflow : UninitializedFlow r.old body.handlers r.source.frames)
include hmaps hflow

theorem exists_frame_of_target {located : Located} (hlocated : located ∈ r.layout.instructions)
    {target : Nat} (htarget : target ∈ located.instruction.targets) :
    ∃ frame ∈ r.newFrames, frame.offset = target := by
  obtain ⟨placed, hplaced, ⟨front, next, -, hmem⟩, -⟩ := r.lays.exists_piece hlocated
  have hvalid := r.lays.valid placed hplaced
  rcases Layout.of_mem_pieceInstructions hvalid hmem with ⟨hfate, rfl⟩ | ⟨-, hfixed⟩
  · rw [Instruction.targets_retarget] at htarget
    obtain ⟨there, hthere, rfl⟩ := List.mem_map.1 htarget
    have hold := r.lays.located_mem hplaced
    have hlive : placed.located.offset ∉ r.unreachable.dead := by
      rw [← r.isDead_iff hplaced, hvalid.kept hfate]
      exact Bool.false_ne_true
    obtain ⟨place, hplace⟩ := List.getElem?_of_mem hthere
    have hedge : FlowGraph.Edge ⟨r.old, body.handlers, []⟩ (.jump place)
        placed.located.offset there :=
      ⟨placed.located, hold, hplace, rfl, rfl⟩
    refine r.exists_frame_of_kept hplacement ?_ (r.not_mem_dropped_of_edge hflow hmaps hedge hlive)
    exact r.mem_entryPoints_iff.2 (.inr (.inr ⟨placed.located, hold, hthere⟩))
  · rw [hfixed.targets_eq_nil] at htarget
    exact absurd htarget List.not_mem_nil

theorem exists_frame_of_handler {row : Handler} (hrow : row ∈ new.handlers) :
    ∃ frame ∈ r.newFrames, frame.offset = row.handlerPc.toNat := by
  -- the row is there for the first instruction that it watches
  obtain ⟨hlt, hle⟩ := r.lt_of_mem_handlers hrow
  obtain ⟨placed, hplaced, hstart, hstop⟩ :=
    r.lays.row.exists_mem (Nat.zero_le _) (Nat.lt_of_lt_of_le hlt hle)
  have hcovering := r.targets_covering hplaced hstart hstop
  have hmem : (row.handlerPc.toNat, row.catchType)
      ∈ targets (new.handlers.filter (·.Covers row.startPc.toNat)) := by
    refine List.mem_map.2 ⟨row, List.mem_filter.2 ⟨hrow, ?_⟩, rfl⟩
    exact decide_eq_true ⟨Nat.le_refl _, hlt⟩
  rw [hcovering] at hmem
  split at hmem
  case isTrue => exact absurd hmem List.not_mem_nil
  case isFalse hlive =>
    rw [r.isDead_iff hplaced] at hlive
    obtain ⟨handler, hhandler, heq⟩ := List.mem_map.1 hmem
    obtain ⟨hpc, -⟩ := Prod.mk.inj heq
    rw [← hpc]
    obtain ⟨place, hplace⟩ := List.getElem?_of_mem hhandler
    have hedge : FlowGraph.Edge ⟨r.old, body.handlers, []⟩ (.caught place handler.catchType)
        placed.located.offset handler.handlerPc.toNat :=
      ⟨placed.located, r.lays.located_mem hplaced, handler, hplace, rfl, rfl, rfl⟩
    refine r.exists_frame_of_kept hplacement ?_ (r.not_mem_dropped_of_edge hflow hmaps hedge hlive)
    exact r.mem_entryPoints_iff.2 (.inr (.inl ⟨handler, (List.mem_filter.1 hhandler).1, rfl⟩))

end Flow

/-- Behind a piece that ends flow, live code starts at an entry point. -/
theorem entry_behind (hmaps : method.stackMaps = true) {placed other : Placed}
    (hplaced : placed ∈ r.layout.pieces)
    (hpair : [placed.located, other.located] <:+: r.old)
    (hends : placed.piece.fate = .kept → placed.located.instruction.endsFlow = true)
    (hlive : other.located.offset ∉ r.unreachable.dead) :
    other.located.offset ∈ entryPoints r.marked r.source.frames body.handlers := by
  by_contra hentry
  have halive := mt (r.dead_next_iff hmaps hpair hentry).2 hlive
  rw [not_or, Bool.not_eq_true] at halive
  have hfate := r.fate_of_live hplaced halive.2 halive.1
  have hframe := hplacement.behind placed.located other.located hpair (hends hfate)
  exact hentry (r.mem_entryPoints_iff.2 (.inl hframe))

theorem exists_frame_behind (hmaps : method.stackMaps = true) {i j : Located}
    (hpair : [i, j] <:+: r.layout.instructions) (hends : i.instruction.endsFlow = true) :
    ∃ frame ∈ r.newFrames, frame.offset = j.offset := by
  obtain ⟨placed, hplaced, ⟨front, next, hpieces, hmem⟩, -⟩ :=
    r.lays.exists_piece (hpair.subset (by simp) : i ∈ r.layout.instructions)
  have hvalid := r.lays.valid placed hplaced
  obtain ⟨hstop, hfiller⟩ := Layout.stop_of_endsFlow hvalid hmem hends
  -- the instruction behind is the first one of the next piece
  have hj := r.lays.row_instructions.start_eq_of_infix hpair
  have hlt := r.lays.offset_lt_length (hpair.subset (by simp) : j ∈ r.layout.instructions)
  rw [hstop] at hj
  obtain ⟨other, hother, htouch⟩ := r.lays.exists_behind hplaced (hj ▸ hlt)
  rw [hj, ← htouch]
  by_cases hdead : other.located.offset ∈ r.unreachable.dead
  · apply r.exists_frame_of_dead hother hdead
    intro hfilled piece hpiece hpieceStop
    obtain rfl : piece = placed :=
      r.lays.row.eq_of_stop_eq r.lays.size_pos hpiece hplaced (hpieceStop.trans htouch)
    intro hfate
    have hrow := r.lays.row
    have hpos := r.lays.size_pos
    rw [hpieces] at hrow hpos hother
    obtain ⟨rest, rfl⟩ := hrow.back_eq_cons hpos hother htouch
    exact of_decide_eq_false (hfiller hfate) hfilled
  · have hold : [placed.located, other.located] <:+: r.old :=
      (r.sound_old.row.infix_iff fun x _ => x.size_pos).2 ⟨r.lays.located_mem hplaced,
        r.lays.located_mem hother, (r.lays.touch_iff hplaced hother).1 htouch⟩
    have hkept (hfate : placed.piece.fate = .kept) :
        placed.located.instruction.endsFlow = true := by
      rw [Layout.pieceInstructions_kept hfate, List.mem_singleton] at hmem
      rwa [hmem, Instruction.endsFlow_retarget] at hends
    have hentry := r.entry_behind hplacement hmaps hplaced hold hkept hdead
    rw [r.dead_entry_iff hmaps (r.lays.located_mem hother) hentry] at hdead
    rw [← r.lays.newOffset_eq hother]
    exact r.exists_frame_of_kept hplacement hentry hdead

/-- The frames of the new code are where the verifier wants them. -/
theorem framesPlaced (hmaps : method.stackMaps = true)
    (hflow : UninitializedFlow r.old body.handlers r.source.frames) :
    FramesPlaced r.layout.instructions new.handlers r.newFrames where
  targets := fun _ hlocated _ htarget =>
    r.exists_frame_of_target hplacement hmaps hflow hlocated htarget
  handlers := fun _ hrow => r.exists_frame_of_handler hplacement hmaps hflow hrow
  behind := fun _ _ hpair hends => r.exists_frame_behind hplacement hmaps hpair hends

end Placed

end Revision

/-- An enforcement on a method keeps the frames that the verifier wants. Uninitialized types
have to flow consistently. -/
theorem Rule.enforceMethod_framesPlaced {rule : Rule} {method : MethodInfo} {body : Body}
    {pool : Pool} {counts : SiteCounts} {code : List Located} {source : Source}
    (hpool : pool.WellFormed) (hmaps : method.stackMaps = true)
    (h : (rule.enforceMethod method body pool).result = .ok counts) (hcounts : counts.total ≠ 0)
    (hcode : Instruction.decode body.code = .ok code)
    (hsource : Source.of method body pool = .ok source)
    (hplacement : FramesPlaced code body.handlers source.frames)
    (hflow : UninitializedFlow code body.handlers source.frames) :
    ∃ newCode newSource,
      Instruction.decode (rule.enforceMethod method body pool).body.code = .ok newCode ∧
      Source.of method (rule.enforceMethod method body pool).body
        (rule.enforceMethod method body pool).pool = .ok newSource ∧
      FramesPlaced newCode (rule.enforceMethod method body pool).body.handlers
        newSource.frames := by
  obtain ⟨r, -⟩ := Revision.of_enforceMethod h hcounts
  obtain rfl : r.old = code := Except.ok.inj (r.decode_old.symm.trans hcode)
  obtain rfl : r.source = source := Except.ok.inj (r.source_eq.symm.trans hsource)
  obtain ⟨newSource, hnew, hframes⟩ := r.source_new hpool
  refine ⟨r.layout.instructions, newSource, r.decode_new, hnew, ?_⟩
  rw [hframes]
  exact r.framesPlaced hplacement hmaps hflow

/-- A pool with a method under an embargo at index 6 and the class `Throwable` at index 11. -/
def catchPool : Pool :=
  ((Pool.addClass DeadBlock.throwable).run awtPool).2

/-- A call, a `goto` over its handler, which throws again, and a `return`. -/
def catchBody : Body :=
  ⟨1, 0, [0xb8, 0, 6, 0xa7, 0, 4, 0xbf, 0xb1], [⟨0, 3, 6, 0⟩],
    [⟨7, [0, 2, 0x46, 7, 0, 11, 0]⟩]⟩

def catchCode : List Located :=
  [⟨0, .plain 0xb8 [0, 6]⟩, ⟨3, .branch 0xa7 7⟩, ⟨6, .plain 0xbf []⟩, ⟨7, .plain 0xb1 []⟩]

def catchFrames : List Frame := [⟨6, [], [.object DeadBlock.throwable]⟩, ⟨7, [], []⟩]

theorem framesPlaced_catch : FramesPlaced catchCode catchBody.handlers catchFrames := by
  have hrow : Located.Row 0 catchCode 8 := ⟨rfl, rfl, rfl, rfl, rfl⟩
  have hbehind : ∀ i ∈ catchCode, ∀ j ∈ catchCode, j.offset = i.offset + i.size →
      i.instruction.endsFlow = true → ∃ frame ∈ catchFrames, frame.offset = j.offset := by
    decide
  refine ⟨by decide, by decide, fun i j hpair => ?_⟩
  exact hbehind i (hpair.subset (by simp)) j (hpair.subset (by simp))
    (hrow.start_eq_of_infix hpair)

theorem Rule.enforceMethod_framesPlaced_catch :
    (awtRule.enforceMethod runMethod catchBody catchPool).result = .ok ⟨1, 0⟩ ∧
      FramesPlaced catchCode catchBody.handlers catchFrames ∧ ∃ newCode newSource,
      Instruction.decode (awtRule.enforceMethod runMethod catchBody catchPool).body.code
        = .ok newCode ∧
      Source.of runMethod (awtRule.enforceMethod runMethod catchBody catchPool).body
        (awtRule.enforceMethod runMethod catchBody catchPool).pool = .ok newSource ∧
      FramesPlaced newCode (awtRule.enforceMethod runMethod catchBody catchPool).body.handlers
        newSource.frames := by
  have hresult : (awtRule.enforceMethod runMethod catchBody catchPool).result = .ok ⟨1, 0⟩ := by
    decide +kernel
  have hpool : catchPool.WellFormed :=
    ⟨by decide +kernel, catchPool.slots.toList.filterMap id, by decide +kernel⟩
  have hsource : Source.of runMethod catchBody catchPool
      = .ok ⟨[("StackMapTable", ⟨7, [0, 2, 0x46, 7, 0, 11, 0]⟩)], [], true, catchFrames⟩ := by
    decide +kernel
  have hcode : Instruction.decode catchBody.code = .ok catchCode := by decide +kernel
  refine ⟨hresult, framesPlaced_catch, ?_⟩
  exact Rule.enforceMethod_framesPlaced hpool rfl hresult (by decide) hcode hsource
    framesPlaced_catch (.of_newOffsets_eq_nil (by decide))

end Embargo
