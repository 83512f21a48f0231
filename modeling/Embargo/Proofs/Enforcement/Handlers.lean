import Embargo.Proofs.Code.FlowGraph
import Embargo.Proofs.Enforcement.Revision
import Embargo.Proofs.Enforcement.Span

/-!
The exception table of a revision. A place in the new code of a live instruction is
covered by the rows that covered the instruction, in their order, and dead code is covered
by nothing.
-/
namespace Embargo

theorem UInt16.toNat_ofNat_of_le {n : Nat} (h : n ≤ 65535) : (UInt16.ofNat n).toNat = n :=
  UInt16.toNat_ofNat_of_lt' (Nat.lt_succ_of_le h)

/-- The row that a handler becomes for a part of its range. -/
def Handler.onto (handler : Handler) (handlerPc : Nat) (span : Span) : Handler :=
  { startPc := UInt16.ofNat span.start, endPc := UInt16.ofNat span.stop,
    handlerPc := UInt16.ofNat handlerPc, catchType := handler.catchType }

theorem Handler.covers_onto {handler : Handler} {handlerPc p : Nat} {span : Span}
    (hlt : span.start ≤ span.stop) (hstop : span.stop ≤ 65535) :
    (handler.onto handlerPc span).Covers p ↔ span.Contains p := by
  have hstart := UInt16.toNat_ofNat_of_le (Nat.le_trans hlt hstop)
  have hend := UInt16.toNat_ofNat_of_le hstop
  simp only [Handler.Covers, Handler.onto, hstart, hend, Span.Contains]

namespace Revision
variable {rule : Rule} {method : MethodInfo} {body new : Body} {pool newPool : Pool}
  (r : Revision rule method body pool new newPool)

/-- The holes of the new exception table. -/
def holes : List Span := r.layout.deadBlocks.map DeadBlock.span

theorem holes_lt : ∀ hole ∈ r.holes, hole.start < hole.stop := by
  intro hole hhole
  obtain ⟨block, hblock, rfl⟩ := List.mem_map.1 hhole
  exact DeadBlock.start_lt_stop r.lays.valid block hblock

/-- The holes are the places of dead pieces. -/
theorem exists_hole_iff {placed : Placed} (hplaced : placed ∈ r.layout.pieces) {p : Nat}
    (hstart : placed.start ≤ p) (hstop : p < placed.stop) :
    (∃ hole ∈ r.holes, hole.Contains p) ↔ placed.piece.isDead = true := by
  simp only [holes, List.mem_map, exists_exists_and_eq_and]
  refine (DeadBlock.exists_contains_iff r.lays.valid).trans ⟨?_, fun hdead => ?_⟩
  · rintro ⟨other, hother, hdead, hstart', hstop'⟩
    rwa [r.lays.row.eq_of_overlap hplaced hother ⟨hstart, hstop⟩ ⟨hstart', hstop'⟩]
  · exact ⟨placed, hplaced, hdead, hstart, hstop⟩

theorem newOffset_le_length {offset : Nat} (h : r.layout.Boundary body.code.length offset) :
    r.layout.newOffset offset ≤ r.layout.length := by
  rcases h with ⟨placed, hplaced, rfl⟩ | rfl
  · rw [r.lays.newOffset_eq hplaced]
    exact Nat.le_of_lt (r.lays.row.start_lt r.lays.size_pos hplaced)
  · rw [r.lays.newOffset_length]

theorem newOffset_le {offset : Nat} (h : r.layout.Boundary body.code.length offset) :
    r.layout.newOffset offset ≤ 65535 :=
  Nat.le_trans (r.newOffset_le_length h) r.length_le

/-- The new places of the range of a handler. -/
def newSpan (handler : Handler) : Span :=
  ⟨r.layout.newOffset handler.startPc.toNat, r.layout.newOffset handler.endPc.toNat⟩

/-- The rows of one handler lie over the new places of its range outside the holes. -/
theorem moveHandler_eq_ok {handler : Handler} {rows : List Handler}
    (h : Draft.moveHandler (Relocation.ofLayout r.layout body.code.length) r.holes handler
      = .ok rows) :
    r.layout.Boundary body.code.length handler.startPc.toNat ∧
      r.layout.Boundary body.code.length handler.endPc.toNat ∧
      r.layout.Boundary body.code.length handler.handlerPc.toNat ∧
      rows = (Span.subtract (r.newSpan handler) r.holes).map
        (handler.onto (r.layout.newOffset handler.handlerPc.toNat)) := by
  obtain ⟨start, hstart, h⟩ := Except.bind_eq_ok_iff.1 h
  obtain ⟨stop, hstop, h⟩ := Except.bind_eq_ok_iff.1 h
  obtain ⟨handlerPc, hhandlerPc, h⟩ := Except.bind_eq_ok_iff.1 h
  cases h
  obtain ⟨hfrom, rfl⟩ := r.lays.move_eq_ok hstart
  obtain ⟨hto, rfl⟩ := r.lays.move_eq_ok hstop
  obtain ⟨hpc, rfl⟩ := r.lays.move_eq_ok hhandlerPc
  exact ⟨hfrom, hto, hpc, rfl⟩

/-- The parts of the new range of a handler lie in the new code. -/
theorem bounds_of_mem_part {handler : Handler}
    (hto : r.layout.Boundary body.code.length handler.endPc.toNat) {part : Span}
    (hpart : part ∈ Span.subtract (r.newSpan handler) r.holes) :
    part.start < part.stop ∧ part.stop ≤ r.layout.length :=
  ⟨Span.lt_of_mem_subtract hpart,
    Nat.le_trans (Span.bounds_of_mem_subtract r.holes_lt hpart).2 (r.newOffset_le_length hto)⟩

/-- The ends of a row of the new table are those of a part of the new range of a handler. -/
theorem exists_part {row : Handler} (hrow : row ∈ new.handlers) :
    ∃ handler ∈ body.handlers, r.layout.Boundary body.code.length handler.startPc.toNat ∧
      r.layout.Boundary body.code.length handler.endPc.toNat ∧
      ∃ part ∈ Span.subtract (r.newSpan handler) r.holes,
        row.startPc.toNat = part.start ∧ row.endPc.toNat = part.stop := by
  rw [r.newHandlers_eq] at hrow
  obtain ⟨rows, hrows, hmem⟩ := List.mem_flatten.1 hrow
  obtain ⟨handler, hhandler, hmove⟩ :=
    Forall₂.exists_of_mem_right (Except.mapM_eq_ok_iff.1 r.handlers_eq) hrows
  obtain ⟨hfrom, hto, -, rfl⟩ := r.moveHandler_eq_ok hmove
  obtain ⟨part, hpart, rfl⟩ := List.mem_map.1 hmem
  obtain ⟨hlt, hle⟩ := r.bounds_of_mem_part hto hpart
  have hshort := Nat.le_trans hle r.length_le
  exact ⟨handler, hhandler, hfrom, hto, part, hpart,
    UInt16.toNat_ofNat_of_le (Nat.le_trans (Nat.le_of_lt hlt) hshort),
    UInt16.toNat_ofNat_of_le hshort⟩

/-- The new rows watch something, and only new code. -/
theorem lt_of_mem_handlers {row : Handler} (hrow : row ∈ new.handlers) :
    row.startPc.toNat < row.endPc.toNat ∧ row.endPc.toNat ≤ r.layout.length := by
  obtain ⟨handler, -, -, hto, part, hpart, hstart, hstop⟩ := r.exists_part hrow
  rw [hstart, hstop]
  exact r.bounds_of_mem_part hto hpart

/-- What rows hand an exception to: the handler and its catch type. -/
def targets (handlers : List Handler) : List (Nat × UInt16) :=
  handlers.map fun handler => (handler.handlerPc.toNat, handler.catchType)

section Piece
variable {placed : Placed} (hplaced : placed ∈ r.layout.pieces) {p : Nat}
  (hstart : placed.start ≤ p) (hstop : p < placed.stop)
include hplaced hstart hstop

/-- The rows of one handler that cover a place in a piece: one if it covered the old
instruction and the piece is live. -/
theorem targets_covering_moveHandler {handler : Handler} {rows : List Handler}
    (h : Draft.moveHandler (Relocation.ofLayout r.layout body.code.length) r.holes handler
      = .ok rows) :
    targets (rows.filter (·.Covers p))
      = if handler.Covers placed.located.offset ∧ placed.piece.isDead = false then
          [(r.layout.newOffset handler.handlerPc.toNat, handler.catchType)]
        else [] := by
  obtain ⟨hfrom, hto, hpc, rfl⟩ := r.moveHandler_eq_ok h
  have hspan : (r.newSpan handler).Contains p ↔ handler.Covers placed.located.offset := by
    have hbelow := r.lays.newOffset_le_iff hfrom hplaced hstart hstop
    have habove := r.lays.newOffset_le_iff hto hplaced hstart hstop
    unfold Span.Contains Handler.Covers newSpan
    dsimp only
    omega
  have hholes : (∀ hole ∈ r.holes, ¬ hole.Contains p) ↔ placed.piece.isDead = false := by
    rw [← Bool.not_eq_true, ← r.exists_hole_iff hplaced hstart hstop]
    simp
  have hcount : (Span.holding p (Span.subtract (r.newSpan handler) r.holes)).length = _ :=
    Span.length_holding_subtract r.holes_lt
  have hfilter : (Span.subtract (r.newSpan handler) r.holes).filter
      ((fun row : Handler => decide (row.Covers p)) ∘
        handler.onto (r.layout.newOffset handler.handlerPc.toNat))
      = Span.holding p (Span.subtract (r.newSpan handler) r.holes) := by
    apply List.filter_congr
    intro part hpart
    obtain ⟨hlt, hle⟩ := r.bounds_of_mem_part hto hpart
    exact decide_eq_decide.2
      (Handler.covers_onto (Nat.le_of_lt hlt) (Nat.le_trans hle r.length_le))
  have htarget := UInt16.toNat_ofNat_of_le (r.newOffset_le hpc)
  rw [List.filter_map, hfilter, targets, List.map_map]
  have hconst : (fun row : Handler => (row.handlerPc.toNat, row.catchType)) ∘
      handler.onto (r.layout.newOffset handler.handlerPc.toNat)
      = Function.const _ (r.layout.newOffset handler.handlerPc.toNat, handler.catchType) := by
    funext part
    simp only [Function.comp_apply, Handler.onto, htarget, Function.const_apply]
  rw [hconst, List.map_const, hcount]
  simp only [hspan, hholes]
  split <;> rfl

/-- The rows that cover a place in a live piece hand exceptions to where those of the old
instruction did; over dead pieces there are none. -/
theorem targets_covering :
    targets (new.handlers.filter (·.Covers p))
      = if placed.piece.isDead then [] else
          (body.handlers.filter (·.Covers placed.located.offset)).map fun handler =>
            (r.layout.newOffset handler.handlerPc.toNat, handler.catchType) := by
  have hall := Except.mapM_eq_ok_iff.1 r.handlers_eq
  rw [r.newHandlers_eq]
  generalize body.handlers = olds, r.handlers = news at hall
  induction hall with
  | nil => split <;> rfl
  | @cons handler rows olds news hrows _ ih =>
    have hhead := r.targets_covering_moveHandler hplaced hstart hstop hrows
    rw [List.flatten_cons, List.filter_append]
    rw [targets, List.map_append, ← targets, ← targets, hhead, ih]
    cases placed.piece.isDead with
    | true => simp
    | false =>
      by_cases hcovers : handler.Covers placed.located.offset
      · simp [hcovers]
      · simp [hcovers]

end Piece

end Revision

end Embargo
