import Embargo.Proofs.Enforcement.NewCode

/-!
What the new exception table watches. Every byte of live new code is covered by the rows that
covered the old instruction, in their order; nothing covers dead code; and every row goes from
one instruction to another or to the end.
-/
namespace Embargo

/-- The handlers and catch types of the rows that cover an offset, in order. -/
def Handler.watching (handlers : List Handler) (offset : Nat) : List (Nat × UInt16) :=
  (handlers.filter (·.Covers offset)).map fun row => (row.handlerPc.toNat, row.catchType)

/-- New rows for new code that watch what the old rows watched. The new code of an old
instruction lies between the new places of the instruction and of what comes behind it. -/
structure Rule.KeepsWatch (body new : Body) (old code : List Located) (dead : List Nat)
    (move : Nat → Nat) : Prop where
  live : ∀ located ∈ old, located.offset ∉ dead →
    ∀ p, move located.offset ≤ p → p < move (located.offset + located.size) →
      Handler.watching new.handlers p
        = (Handler.watching body.handlers located.offset).map (Prod.map move id)
  /-- A handler that watches live code starts at an instruction. -/
  handler : ∀ located ∈ old, located.offset ∉ dead → ∀ row ∈ body.handlers,
    row.Covers located.offset → ∃ there ∈ old, there.offset = row.handlerPc.toNat
  dead : ∀ located ∈ old, located.offset ∈ dead →
    ∀ p, move located.offset ≤ p → p < move (located.offset + located.size) →
      ∀ row ∈ new.handlers, ¬ row.Covers p
  rows : ∀ row ∈ new.handlers, row.startPc < row.endPc ∧
    (∃ located ∈ code, located.offset = row.startPc.toNat) ∧
    ((∃ located ∈ code, located.offset = row.endPc.toNat) ∨ row.endPc.toNat = new.code.length)

/-- The start of an instruction of the new code, or its end. -/
def Layout.NewBoundary (layout : Layout) (offset : Nat) : Prop :=
  (∃ located ∈ layout.instructions, located.offset = offset) ∨ offset = layout.length

namespace Layout.Lays
variable {layout : Layout} {old : List Located} {oldLength : Nat}
  (h : layout.Lays old oldLength)
include h

theorem newBoundary_start {placed : Placed} (hplaced : placed ∈ layout.pieces) :
    layout.NewBoundary placed.start :=
  .inl (h.exists_instruction hplaced)

theorem newBoundary_stop {placed : Placed} (hplaced : placed ∈ layout.pieces) :
    layout.NewBoundary placed.stop := by
  rcases Nat.lt_or_eq_of_le (h.row.mem_bounds hplaced).2 with hlt | heq
  · obtain ⟨other, hother, hstart⟩ := h.exists_behind hplaced hlt
    have hboundary := h.newBoundary_start hother
    rwa [hstart] at hboundary
  · exact .inr heq

theorem newBoundary_newOffset {offset : Nat} (hoffset : layout.Boundary oldLength offset) :
    layout.NewBoundary (layout.newOffset offset) := by
  rcases hoffset with ⟨placed, hplaced, rfl⟩ | rfl
  · rw [h.newOffset_eq hplaced]
    exact h.newBoundary_start hplaced
  · exact .inr h.newOffset_length

end Layout.Lays

namespace Revision
variable {rule : Rule} {method : MethodInfo} {body new : Body} {pool newPool : Pool}
  (r : Revision rule method body pool new newPool)
include r

/-- Holes begin and end between instructions. -/
theorem newBoundary_hole {hole : Span} (hhole : hole ∈ r.holes) :
    r.layout.NewBoundary hole.start ∧ r.layout.NewBoundary hole.stop := by
  obtain ⟨block, hblock, rfl⟩ := List.mem_map.1 hhole
  obtain ⟨first, hfirst, hstart⟩ := r.exists_startsWith hblock
  obtain ⟨last, hlast, hstop⟩ := DeadBlock.exists_stop_eq block hblock
  rw [← hstart.start_eq, ← hstop]
  exact ⟨r.lays.newBoundary_start hfirst, r.lays.newBoundary_stop hlast⟩

/-- A row goes from an instruction to another one or to the end. -/
theorem newBoundary_row {row : Handler} (hrow : row ∈ new.handlers) :
    (∃ located ∈ r.layout.instructions, located.offset = row.startPc.toNat) ∧
      r.layout.NewBoundary row.endPc.toNat := by
  obtain ⟨hlt, hle⟩ := r.lt_of_mem_handlers hrow
  obtain ⟨handler, -, hfrom, hto, part, hpart, hstart, hstop⟩ := r.exists_part hrow
  obtain ⟨hfirst, hlast⟩ := Span.ends_of_mem_subtract hpart
  have hstartBoundary : r.layout.NewBoundary part.start := by
    rcases hfirst with heq | ⟨hole, hhole, heq⟩
    · rw [heq]
      exact r.lays.newBoundary_newOffset hfrom
    · rw [← heq]
      exact (r.newBoundary_hole hhole).2
  have hstopBoundary : r.layout.NewBoundary part.stop := by
    rcases hlast with heq | ⟨hole, hhole, heq⟩
    · rw [heq]
      exact r.lays.newBoundary_newOffset hto
    · rw [← heq]
      exact (r.newBoundary_hole hhole).1
  rw [← hstart] at hstartBoundary
  rw [← hstop] at hstopBoundary
  exact ⟨hstartBoundary.resolve_right (Nat.ne_of_lt (Nat.lt_of_lt_of_le hlt hle)), hstopBoundary⟩

theorem newOffset_ends {located : Located} (hlocated : located ∈ r.old) :
    ∃ placed ∈ r.layout.pieces, placed.located = located ∧
      r.layout.newOffset located.offset = placed.start ∧
      r.layout.newOffset (located.offset + located.size) = placed.stop := by
  obtain ⟨placed, hplaced, rfl⟩ := r.lays.exists_placed hlocated
  exact ⟨placed, hplaced, rfl, r.lays.newOffset_eq hplaced, r.lays.newOffset_stop hplaced⟩

theorem keepsWatch :
    Rule.KeepsWatch body new r.old r.layout.instructions r.unreachable.dead r.layout.newOffset where
  live := fun located hlocated hlive p hstart hstop => by
    obtain ⟨placed, hplaced, rfl, hfrom, hto⟩ := r.newOffset_ends hlocated
    rw [hfrom] at hstart
    rw [hto] at hstop
    have hcovering := r.targets_covering hplaced hstart hstop
    rw [if_neg (mt (r.isDead_iff hplaced).1 hlive)] at hcovering
    rw [Handler.watching, Handler.watching, List.map_map]
    exact hcovering
  handler := fun located hlocated hlive row hrow hcovers => by
    obtain ⟨placed, hplaced, rfl⟩ := r.lays.exists_placed hlocated
    have hdead := mt (r.isDead_iff hplaced).1 hlive
    exact r.exists_handler hplaced (Bool.not_eq_true _ ▸ hdead) hrow hcovers
  dead := fun located hlocated hdead p hstart hstop row hrow hcovers => by
    obtain ⟨placed, hplaced, rfl, hfrom, hto⟩ := r.newOffset_ends hlocated
    rw [hfrom] at hstart
    rw [hto] at hstop
    have hcovering := r.targets_covering hplaced hstart hstop
    rw [if_pos ((r.isDead_iff hplaced).2 hdead), targets, List.map_eq_nil_iff] at hcovering
    have hmem : row ∈ new.handlers.filter (·.Covers p) :=
      List.mem_filter.2 ⟨hrow, decide_eq_true hcovers⟩
    rw [hcovering] at hmem
    exact List.not_mem_nil hmem
  rows := fun row hrow => by
    obtain ⟨hstart, hstop⟩ := r.newBoundary_row hrow
    refine ⟨UInt16.lt_iff_toNat_lt.2 (r.lt_of_mem_handlers hrow).1, hstart, ?_⟩
    rw [r.length_new]
    exact hstop

end Revision

/-- An enforcement on a method keeps exceptions in the hands of the same handlers, and lets none
watch dead code. -/
theorem Rule.enforceMethod_keepsWatch {rule : Rule} {method : MethodInfo} {body : Body}
    {pool : Pool} {counts : SiteCounts} (hpool : pool.WellFormed)
    (h : (rule.enforceMethod method body pool).result = .ok counts) (hcounts : counts.total ≠ 0) :
    ∃ old code unreachable move,
      rule.Relaid method body (rule.enforceMethod method body pool).body pool
        (rule.enforceMethod method body pool).pool old code unreachable move ∧
      Rule.KeepsWatch body (rule.enforceMethod method body pool).body old code unreachable.dead
        move := by
  obtain ⟨r, -⟩ := Revision.of_enforceMethod h hcounts
  exact ⟨r.old, r.layout.instructions, r.unreachable, r.layout.newOffset, r.relaid hpool,
    r.keepsWatch⟩

theorem Rule.enforceMethod_keepsWatch_held :
    (awtRule.enforceMethod runMethod heldBody catchPool).result = .ok ⟨2, 0⟩ ∧
      (awtRule.enforceMethod runMethod heldBody catchPool).body.handlers
        = [⟨4, 17, 30, 0⟩, ⟨28, 29, 30, 0⟩] ∧
      ∃ old code unreachable move,
        awtRule.Relaid runMethod heldBody (awtRule.enforceMethod runMethod heldBody catchPool).body
          catchPool (awtRule.enforceMethod runMethod heldBody catchPool).pool old code unreachable
          move ∧
        Rule.KeepsWatch heldBody (awtRule.enforceMethod runMethod heldBody catchPool).body old code
          unreachable.dead move := by
  refine ⟨Rule.result_heldBody, by decide +kernel, ?_⟩
  exact Rule.enforceMethod_keepsWatch wellFormed_catchPool Rule.result_heldBody (by decide)

end Embargo
