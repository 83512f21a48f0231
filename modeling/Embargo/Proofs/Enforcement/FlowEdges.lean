import Embargo.Proofs.Code.StackDepth
import Embargo.Proofs.Enforcement.Handlers
import Embargo.Proofs.Enforcement.Liveness

/-!
The edges of control flow before and after an enforcement, with a site taken as something
that does nothing but throw. From live code the new edges are the old ones, moved.
-/
namespace Embargo

namespace FlowGraph

/-- The graph of a body in which the sites of a rule only throw. -/
def before (pool : Pool) (rule : Rule) (code : List Located) (handlers : List Handler) :
    FlowGraph where
  code
  handlers
  throwing := (code.filter (Marked.isSite pool rule)).map fun located =>
    ⟨located.offset, located.offset + located.size⟩

/-- The graph of a layout, with each throwing sequence as one node. -/
def after (pool : Pool) (rule : Rule) (layout : Layout) (handlers : List Handler) : FlowGraph where
  code := layout.instructions
  handlers
  throwing := (layout.pieces.filter fun placed => Marked.isSite pool rule placed.located).map
    fun placed => ⟨placed.start, placed.start + placed.size⟩

end FlowGraph

namespace Revision
open Unreachable (entryPoints)
variable {rule : Rule} {method : MethodInfo} {body new : Body} {pool newPool : Pool}
  (r : Revision rule method body pool new newPool)

abbrev before : FlowGraph := FlowGraph.before pool rule r.old body.handlers

abbrev after : FlowGraph := FlowGraph.after pool rule r.layout new.handlers

theorem stretch?_before {located : Located} (hlocated : located ∈ r.old) :
    r.before.stretch? located.offset = if Marked.isSite pool rule located then
      some ⟨located.offset, located.offset + located.size⟩ else none :=
  Span.find?_spans r.sound_old.row hlocated (Nat.le_refl _)
    (Nat.lt_add_of_pos_right located.size_pos)

theorem node_before {located : Located} (hlocated : located ∈ r.old) :
    r.before.node located.offset = located.offset := by
  rw [FlowGraph.node, r.stretch?_before hlocated]
  by_cases hsite : Marked.isSite pool rule located
  · rw [if_pos hsite]
  · rw [if_neg hsite]

theorem stretch?_after {placed : Placed} (hplaced : placed ∈ r.layout.pieces) {p : Nat}
    (hstart : placed.start ≤ p) (hstop : p < placed.start + placed.size) :
    r.after.stretch? p = if Marked.isSite pool rule placed.located then
      some ⟨placed.start, placed.start + placed.size⟩ else none :=
  Span.find?_spans r.lays.row hplaced hstart hstop

/-- The offset of a live instruction. -/
def Live (offset : Nat) : Prop :=
  (∃ located ∈ r.old, located.offset = offset) ∧ offset ∉ r.unreachable.dead

theorem Live.exists_placed {offset : Nat} (h : r.Live offset) :
    ∃ placed ∈ r.layout.pieces, placed.located.offset = offset ∧
      placed.piece.isDead = false ∧ r.layout.newOffset offset = placed.start := by
  obtain ⟨⟨located, hlocated, rfl⟩, hlive⟩ := h
  obtain ⟨placed, hplaced, rfl⟩ := r.lays.exists_placed hlocated
  refine ⟨placed, hplaced, rfl, ?_, r.lays.newOffset_eq hplaced⟩
  rw [← Bool.not_eq_true, r.isDead_iff hplaced]
  exact hlive

/-- A handler of live code is an instruction, because the new code has its row. -/
theorem exists_handler {placed : Placed} (hplaced : placed ∈ r.layout.pieces)
    (hlive : placed.piece.isDead = false) {handler : Handler} (hhandler : handler ∈ body.handlers)
    (hcovers : handler.Covers placed.located.offset) :
    ∃ located ∈ r.old, located.offset = handler.handlerPc.toNat := by
  have hpos := r.lays.size_pos placed hplaced
  have htargets := r.targets_covering hplaced (Nat.le_refl _) (Nat.lt_add_of_pos_right hpos)
  have hmem : (r.layout.newOffset handler.handlerPc.toNat, handler.catchType)
      ∈ targets (new.handlers.filter (·.Covers placed.start)) := by
    rw [htargets, hlive, if_neg Bool.false_ne_true]
    refine List.mem_map.2 ⟨handler, List.mem_filter.2 ⟨hhandler, ?_⟩, rfl⟩
    exact decide_eq_true hcovers
  obtain ⟨row, hrow, htarget⟩ := List.mem_map.1 hmem
  obtain ⟨hlimit, -⟩ := r.limits_new
  obtain ⟨start, hstart, -⟩ := r.lays.exists_instruction hplaced
  obtain ⟨located, hlocated, hoffset⟩ := StackDepth.exists_handler_of_limit
    (List.ne_nil_of_mem hstart) hlimit row (List.mem_filter.1 hrow).1
  obtain ⟨rows, -, hmove⟩ :=
    Forall₂.exists_of_mem_left (Except.mapM_eq_ok_iff.1 r.handlers_eq) hhandler
  exact r.lays.exists_of_newOffset_eq (r.moveHandler_eq_ok hmove).2.2.1 hlocated
    (hoffset.trans (congrArg Prod.fst htarget))

theorem edge_plain {way : Way} {here there : Nat} (h : r.before.Edge way here there) :
    FlowGraph.Edge ⟨r.old, body.handlers, []⟩ way here there := by
  cases way with
  | next =>
    obtain ⟨i, j, hpair, hends, -, hi, hj⟩ := h
    exact ⟨i, j, hpair, hends, rfl, hi, hj⟩
  | jump place =>
    obtain ⟨i, hi, htarget, -, hhere⟩ := h
    exact ⟨i, hi, htarget, rfl, hhere⟩
  | caught place catchType =>
    obtain ⟨i, hi, handler, hrow, htype, hhere, hthere⟩ := h
    rw [r.node_before hi] at hhere
    exact ⟨i, hi, handler, hrow, htype, hhere, hthere⟩

/-- Every edge from a live instruction comes to an instruction. -/
theorem exists_of_edge {way : Way} {here there : Nat} (hlive : r.Live here)
    (h : r.before.Edge way here there) : ∃ located ∈ r.old, located.offset = there := by
  cases way with
  | next =>
    obtain ⟨i, j, hpair, -, -, -, rfl⟩ := h
    exact ⟨j, hpair.subset (by simp), rfl⟩
  | jump place =>
    obtain ⟨i, hi, htarget, -, -⟩ := h
    exact r.sound_old.targets i hi there (List.mem_of_getElem? htarget)
  | caught place catchType =>
    obtain ⟨i, hi, handler, hrow, -, hhere, rfl⟩ := h
    rw [r.node_before hi] at hhere
    obtain ⟨placed, hplaced, hoffset, hdead, -⟩ := hlive.exists_placed
    obtain ⟨hhandler, hcovers⟩ := List.mem_filter.1 (List.mem_of_getElem? hrow)
    refine r.exists_handler hplaced hdead hhandler ?_
    rw [hoffset, ← hhere]
    exact of_decide_eq_true hcovers

section Flow
variable (hflow : method.stackMaps = true →
  UninitializedFlow r.old body.handlers r.source.frames)
include hflow

/-- Live code only leads to live code. -/
theorem live_of_edge {way : Way} {here there : Nat} (hlive : r.Live here)
    (h : r.before.Edge way here there) : r.Live there := by
  obtain ⟨located, hlocated, hthere⟩ := r.exists_of_edge hlive h
  refine ⟨⟨located, hlocated, hthere⟩, ?_⟩
  cases hmaps : method.stackMaps with
  | false =>
    rw [r.dead_eq_nil hmaps]
    exact List.not_mem_nil
  | true =>
    rw [← hthere]
    by_cases hentry : located.offset ∈ entryPoints r.marked r.source.frames body.handlers
    · rw [r.dead_entry_iff hmaps hlocated hentry, hthere]
      exact r.not_mem_dropped_of_edge (hflow hmaps) hmaps (r.edge_plain h) hlive.2
    · cases way with
      | next =>
        obtain ⟨i, j, hpair, -, hstretch, hi, hj⟩ := h
        have hsame : located = j :=
          r.sound_old.row.start_eq hlocated (hpair.subset (by simp)) (hthere.trans hj.symm)
        subst hsame
        rw [r.dead_next_iff hmaps hpair hentry, hi]
        rintro (hdead | hsite)
        · exact hlive.2 hdead
        · rw [← hi, r.stretch?_before (hpair.subset (by simp)), if_pos hsite] at hstretch
          cases hstretch
      | jump place =>
        obtain ⟨i, hi, htarget, -, -⟩ := h
        refine absurd (r.mem_entryPoints_iff.2 (.inr (.inr ⟨i, hi, ?_⟩))) hentry
        rw [hthere]
        exact List.mem_of_getElem? htarget
      | caught place catchType =>
        obtain ⟨i, hi, handler, hrow, -, -, hpc⟩ := h
        refine absurd (r.mem_entryPoints_iff.2 (.inr (.inl ⟨handler, ?_, ?_⟩))) hentry
        · exact (List.mem_filter.1 (List.mem_of_getElem? hrow)).1
        · rw [hpc, hthere]

end Flow

/-- A live instruction outside all stretches is kept. -/
theorem Live.exists_kept {here : Nat} (h : r.Live here)
    (hstretch : r.before.stretch? here = none) : ∃ placed ∈ r.layout.pieces,
      placed.located.offset = here ∧ r.layout.newOffset here = placed.start ∧
      placed.piece.fate = .kept ∧ Marked.isSite pool rule placed.located = false := by
  obtain ⟨placed, hplaced, rfl, -, hstart⟩ := h.exists_placed
  rw [r.stretch?_before (r.lays.located_mem hplaced)] at hstretch
  have hsite : Marked.isSite pool rule placed.located = false := by
    rw [← Bool.not_eq_true]
    intro hsite
    rw [if_pos hsite] at hstretch
    cases hstretch
  exact ⟨placed, hplaced, rfl, hstart, r.fate_of_live hplaced hsite h.2, hsite⟩

theorem node_after {placed : Placed} (hplaced : placed ∈ r.layout.pieces) {p : Nat}
    (hstart : placed.start ≤ p) (hstop : p < placed.start + placed.size) :
    r.after.node p = if Marked.isSite pool rule placed.located then placed.start else p := by
  rw [FlowGraph.node, r.stretch?_after hplaced hstart hstop]
  by_cases hsite : Marked.isSite pool rule placed.located
  · rw [if_pos hsite, if_pos hsite]
  · rw [if_neg hsite, if_neg hsite]

/-- At a place in a live piece the rows hand exceptions to where they did before. -/
theorem targets_covering_after {placed : Placed} (hplaced : placed ∈ r.layout.pieces)
    (hlive : placed.piece.isDead = false) {p : Nat} (hstart : placed.start ≤ p)
    (hstop : p < placed.start + placed.size) :
    targets (r.after.covering p) = (r.before.covering placed.located.offset).map fun handler =>
      (r.layout.newOffset handler.handlerPc.toNat, handler.catchType) := by
  have htargets := r.targets_covering hplaced hstart hstop
  rwa [hlive, if_neg Bool.false_ne_true] at htargets

theorem edge_after_next {here there : Nat} (hlive : r.Live here)
    (h : r.before.Edge .next here there) :
    r.after.Edge .next (r.layout.newOffset here) (r.layout.newOffset there) := by
  obtain ⟨i, j, hpair, hends, hstretch, hi, rfl⟩ := h
  obtain ⟨placed, hplaced, hoffset, hstart, hfate, hsite⟩ := hlive.exists_kept r hstretch
  have hpos := r.lays.size_pos placed hplaced
  obtain rfl : placed.located = i := r.sound_old.row.start_eq (r.lays.located_mem hplaced)
    (hpair.subset (by simp)) (hoffset.trans hi.symm)
  obtain ⟨other, hother, rfl⟩ := r.lays.exists_placed (hpair.subset (by simp) : j ∈ r.old)
  have htouch := (r.lays.touch_iff hplaced hother).2 (r.sound_old.row.start_eq_of_infix hpair)
  obtain ⟨next, hnext, hnextOffset⟩ := r.lays.exists_instruction hother
  rw [hstart, r.lays.newOffset_eq hother]
  refine ⟨⟨placed.start, placed.located.instruction.retarget r.layout.newOffset⟩, next,
    ?_, ?_, ?_, rfl, hnextOffset⟩
  · refine (r.lays.row_instructions.infix_iff fun x _ => x.size_pos).2
      ⟨Layout.mem_of_kept hplaced hfate, hnext, ?_⟩
    rw [Layout.size_of_kept hfate, hnextOffset]
    exact htouch
  · rw [Instruction.endsFlow_retarget]
    exact hends
  · rw [r.stretch?_after hplaced (Nat.le_refl _) (Nat.lt_add_of_pos_right hpos), hsite]
    rfl

theorem edge_after_jump {place here there : Nat} (hlive : r.Live here)
    (h : r.before.Edge (.jump place) here there) :
    r.after.Edge (.jump place) (r.layout.newOffset here) (r.layout.newOffset there) := by
  obtain ⟨i, hi, htarget, hstretch, hhere⟩ := h
  obtain ⟨placed, hplaced, hoffset, hstart, hfate, hsite⟩ := hlive.exists_kept r hstretch
  have hpos := r.lays.size_pos placed hplaced
  obtain rfl : placed.located = i :=
    r.sound_old.row.start_eq (r.lays.located_mem hplaced) hi (hoffset.trans hhere.symm)
  rw [hstart]
  refine ⟨_, Layout.mem_of_kept hplaced hfate, ?_, ?_, rfl⟩
  · rw [Instruction.targets_retarget, List.getElem?_map, htarget]
    rfl
  · rw [r.stretch?_after hplaced (Nat.le_refl _) (Nat.lt_add_of_pos_right hpos), hsite]
    rfl

theorem edge_after_caught {place : Nat} {catchType : UInt16} {here there : Nat}
    (hlive : r.Live here) (h : r.before.Edge (.caught place catchType) here there) :
    r.after.Edge (.caught place catchType) (r.layout.newOffset here)
      (r.layout.newOffset there) := by
  obtain ⟨i, hi, handler, hrow, rfl, hhere, rfl⟩ := h
  rw [r.node_before hi] at hhere
  obtain ⟨placed, hplaced, hoffset, hdead, hstart⟩ := hlive.exists_placed
  have hpos := r.lays.size_pos placed hplaced
  obtain rfl : placed.located = i :=
    r.sound_old.row.start_eq (r.lays.located_mem hplaced) hi (hoffset.trans hhere.symm)
  obtain ⟨located, hlocated, hlocatedOffset⟩ := r.lays.exists_instruction hplaced
  have hstop := Nat.lt_add_of_pos_right hpos (n := placed.start)
  have htargets := r.targets_covering_after hplaced hdead (Nat.le_refl _) hstop
  have hget := congrArg (·[place]?) htargets
  simp only [targets, List.getElem?_map, hrow, Option.map_some, Option.map_eq_some_iff,
    Prod.mk.injEq] at hget
  obtain ⟨row, hnew, hpc, htype⟩ := hget
  refine ⟨located, hlocated, row, ?_, htype, ?_, hpc⟩
  · rw [hlocatedOffset]
    exact hnew
  · rw [hlocatedOffset, hstart, r.node_after hplaced (Nat.le_refl _) hstop]
    split <;> rfl

/-- An old edge from a live instruction is a new edge. -/
theorem edge_after {way : Way} {here there : Nat} (hlive : r.Live here)
    (h : r.before.Edge way here there) :
    r.after.Edge way (r.layout.newOffset here) (r.layout.newOffset there) := by
  cases way with
  | next => exact r.edge_after_next hlive h
  | jump => exact r.edge_after_jump hlive h
  | caught => exact r.edge_after_caught hlive h

/-- The new instruction at the start of a kept piece is that of the piece. -/
theorem eq_of_kept {placed : Placed} (hplaced : placed ∈ r.layout.pieces)
    (hfate : placed.piece.fate = .kept) {located : Located}
    (hlocated : located ∈ r.layout.instructions) (hoffset : located.offset = placed.start) :
    located = ⟨placed.start, placed.located.instruction.retarget r.layout.newOffset⟩ :=
  r.lays.row_instructions.start_eq hlocated (Layout.mem_of_kept hplaced hfate) hoffset

section Placed
variable {placed : Placed} (hplaced : placed ∈ r.layout.pieces)
  (hlive : r.Live placed.located.offset)
include hplaced hlive

/-- A live piece outside all new stretches is kept. -/
theorem kept_of_stretch?_after (hnone : r.after.stretch? placed.start = none) :
    placed.piece.fate = .kept ∧ r.before.stretch? placed.located.offset = none := by
  have hpos := r.lays.size_pos placed hplaced
  rw [r.stretch?_after hplaced (Nat.le_refl _) (Nat.lt_add_of_pos_right hpos)] at hnone
  rw [r.stretch?_before (r.lays.located_mem hplaced)]
  by_cases hsite : Marked.isSite pool rule placed.located
  · rw [if_pos hsite] at hnone
    cases hnone
  · exact ⟨r.fate_of_live hplaced (by simpa using hsite) hlive.2, if_neg hsite⟩

theorem edge_before_next {moved : Nat} (h : r.after.Edge .next placed.start moved) :
    ∃ there, moved = r.layout.newOffset there ∧
      r.before.Edge .next placed.located.offset there := by
  obtain ⟨i, j, hpair, hends, hnone, hi, rfl⟩ := h
  obtain ⟨hfate, hnone⟩ := r.kept_of_stretch?_after hplaced hlive hnone
  obtain rfl := r.eq_of_kept hplaced hfate (hpair.subset (by simp)) hi
  have hbehind := r.lays.row_instructions.start_eq_of_infix hpair
  rw [Layout.size_of_kept hfate] at hbehind
  have hlt := r.lays.offset_lt_length (hpair.subset (by simp) : j ∈ r.layout.instructions)
  obtain ⟨other, hother, htouch⟩ := r.lays.exists_behind hplaced (hbehind ▸ hlt)
  refine ⟨other.located.offset, ?_, placed.located, other.located, ?_, ?_, hnone, rfl, rfl⟩
  · rw [r.lays.newOffset_eq hother, hbehind, htouch]
  · exact (r.sound_old.row.infix_iff fun x _ => x.size_pos).2 ⟨r.lays.located_mem hplaced,
      r.lays.located_mem hother, (r.lays.touch_iff hplaced hother).1 htouch⟩
  · rwa [Instruction.endsFlow_retarget] at hends

theorem edge_before_jump {place moved : Nat} (h : r.after.Edge (.jump place) placed.start moved) :
    ∃ there, moved = r.layout.newOffset there ∧
      r.before.Edge (.jump place) placed.located.offset there := by
  obtain ⟨i, hi, htarget, hnone, hhere⟩ := h
  obtain ⟨hfate, hnone⟩ := r.kept_of_stretch?_after hplaced hlive hnone
  obtain rfl := r.eq_of_kept hplaced hfate hi hhere
  rw [Instruction.targets_retarget, List.getElem?_map, Option.map_eq_some_iff] at htarget
  obtain ⟨there, htarget, rfl⟩ := htarget
  exact ⟨there, rfl, placed.located, r.lays.located_mem hplaced, htarget, hnone, rfl⟩

theorem edge_before_caught {place : Nat} {catchType : UInt16} {moved : Nat}
    (h : r.after.Edge (.caught place catchType) placed.start moved) :
    ∃ there, moved = r.layout.newOffset there ∧
      r.before.Edge (.caught place catchType) placed.located.offset there := by
  obtain ⟨i, hi, row, hrow, rfl, hhere, rfl⟩ := h
  -- the instruction belongs to the piece, of which it need not be the first
  obtain ⟨other, hother, -, hfrom, hto⟩ := r.lays.exists_piece hi
  have hpos := r.lays.size_pos placed hplaced
  have hsize := i.size_pos
  rw [r.node_after hother hfrom (by omega)] at hhere
  obtain rfl : other = placed := by
    split at hhere
    · exact r.lays.eq_of_start_eq hother hplaced hhere
    · exact r.lays.row.eq_of_overlap hother hplaced ⟨hfrom, by omega⟩
        ⟨Nat.le_of_eq hhere.symm, by omega⟩
  have hmem := r.lays.located_mem hother
  have hdead : other.piece.isDead = false := by
    rw [← Bool.not_eq_true, r.isDead_iff hother]
    exact hlive.2
  have htargets := r.targets_covering_after hother hdead hfrom (by omega)
  have hget := congrArg (·[place]?) htargets
  simp only [targets, List.getElem?_map, hrow, Option.map_some] at hget
  obtain ⟨handler, hold, heq⟩ := Option.map_eq_some_iff.1 hget.symm
  obtain ⟨hpc, htype⟩ := Prod.mk.inj heq
  exact ⟨handler.handlerPc.toNat, hpc.symm, other.located, hmem, handler, hold, htype,
    r.node_before hmem, rfl⟩

end Placed

/-- A new edge from a live instruction comes from an old edge. -/
theorem edge_before {way : Way} {here moved : Nat} (hlive : r.Live here)
    (h : r.after.Edge way (r.layout.newOffset here) moved) :
    ∃ there, moved = r.layout.newOffset there ∧ r.before.Edge way here there := by
  obtain ⟨placed, hplaced, rfl, -, hstart⟩ := hlive.exists_placed
  rw [hstart] at h
  cases way with
  | next => exact r.edge_before_next hplaced hlive h
  | jump => exact r.edge_before_jump hplaced hlive h
  | caught => exact r.edge_before_caught hplaced hlive h

end Revision

end Embargo
