import Embargo.Proofs.Code.LocalSlots
import Embargo.Proofs.Enforcement.ControlFlow
import Embargo.Proofs.Enforcement.Member

/-!
What a failed enforcement leaves of a body. The stack limit is stored before the limit of the
variables is known, so that a body whose variables are too many keeps the one without the other.
-/
namespace Embargo

/-- An enforcement leaves the body alone unless it ends well and finds something, and the pool too
where it ends well and finds nothing. -/
structure MethodOutcome.Atomic (outcome : MethodOutcome) (body : Body) (pool : Pool) : Prop where
  body_eq : (∀ counts, outcome.result = .ok counts → counts.total = 0) → outcome.body = body
  pool_eq : ∀ counts, outcome.result = .ok counts → counts.total = 0 → outcome.pool = pool

/-- New code has a stack limit other than that of the old body, and too many variables. -/
def Draft.Overruns (draft : Draft) (method : MethodInfo) (body : Body) (pool : Pool) : Prop :=
  ∃ code maxStack, Instruction.decode draft.code = .ok code ∧
    StackDepth.limit pool code draft.handlers draft.entries = .ok maxStack ∧
    maxStack ≠ body.maxStack ∧ LocalSlots.Overflows code method.descriptor method.isStatic

/-- An enforcement on a body comes as far as new code, and that overruns. -/
def Rule.Overruns (rule : Rule) (method : MethodInfo) (body : Body) (pool : Pool) : Prop :=
  ∃ old marked draft new, Instruction.decode body.code = .ok old ∧
    Marked.ofCode pool rule old = .ok marked ∧ Marked.sites marked ≠ [] ∧
    (Draft.ofMarked rule method body marked).run pool = (.ok draft, new) ∧
    draft.Overruns method body new

variable {rule : Rule} {method : MethodInfo} {body : Body} {pool new : Pool}

theorem Piece.needed_of_mem_throwing {exception message constructor : UInt16} {i : Instruction}
    (h : i ∈ throwing exception message constructor) : LocalSlots.needed i = 0 := by
  simp only [throwing, List.mem_cons, List.not_mem_nil, or_false] at h
  rcases h with rfl | rfl | rfl | rfl | rfl
  · rfl
  · rfl
  · split <;> rfl
  · rfl
  · rfl

theorem Layout.needed_of_mem_filler {size : Nat} {isLast : Bool} {i : Instruction}
    (h : i ∈ filler size isLast) : LocalSlots.needed i = 0 := by
  obtain ⟨op, hop, rfl⟩ := List.mem_map.1 h
  rcases eq_of_mem_fillerBytes hop with rfl | rfl <;> rfl

theorem LocalSlots.needed_retarget (move : Nat → Nat) (i : Instruction) :
    needed (i.retarget move) = needed i := by
  cases i <;> rfl

/-- An instruction of new code that names a variable is one of the old code. -/
theorem Layout.Lays.exists_needed {layout : Layout} {old : List Located} {oldLength : Nat}
    (h : layout.Lays old oldLength) {located : Located} (hlocated : located ∈ layout.instructions)
    (hneeded : LocalSlots.needed located.instruction ≠ 0) : ∃ there ∈ old,
      LocalSlots.needed there.instruction = LocalSlots.needed located.instruction := by
  obtain ⟨placed, hplaced, ⟨front, next, -, hmem⟩, -⟩ := h.exists_piece hlocated
  cases hfate : placed.piece.fate with
  | kept =>
    rw [pieceInstructions_kept hfate, List.mem_singleton] at hmem
    refine ⟨placed.located, h.located_mem hplaced, ?_⟩
    rw [hmem, LocalSlots.needed_retarget]
  | replaced sequence =>
    obtain ⟨exception, message, constructor, rfl⟩ := (h.valid placed hplaced).replaced _ hfate
    rw [pieceInstructions_replaced hfate] at hmem
    exact absurd
      (Piece.needed_of_mem_throwing (Located.instruction_mem_of_mem_rowFrom hmem)) hneeded
  | filled =>
    rw [pieceInstructions_filled hfate] at hmem
    exact absurd (needed_of_mem_filler (Located.instruction_mem_of_mem_rowFrom hmem)) hneeded

/-- Where a draft is made, the descriptor was read for the frames. -/
theorem Plan.exists_argumentSlots (plan : Plan rule method body pool) :
    ∃ arguments, Descriptor.argumentSlots method.descriptor = .ok arguments := by
  obtain ⟨names, -, hinitial⟩ := Except.bind_eq_ok_iff.1 plan.source_eq
  obtain ⟨initial, hinitial, -⟩ := Except.bind_eq_ok_iff.1 hinitial
  obtain ⟨⟨parameters, result⟩, hparse, -⟩ := Except.bind_eq_ok_iff.1 hinitial
  obtain ⟨slots, hslots, -⟩ := Descriptor.argumentSlots_of_parseMethod hparse
  exact ⟨slots, hslots⟩

/-- A draft that overruns leaves its stack limit in the old body. -/
theorem Draft.Overruns.ofDraft_eq {draft : Draft} (h : draft.Overruns method body pool) :
    ∃ maxStack slots, maxStack ≠ body.maxStack ∧ 65535 < slots ∧
      MethodOutcome.ofDraft method body pool draft =
        ⟨.error (.tooMany "local variable slots" slots), { body with maxStack }, pool⟩ := by
  obtain ⟨code, maxStack, hcode, hlimit, hne, hmany⟩ := h
  have ⟨arguments, harguments, _⟩ := hmany
  obtain ⟨-, -, hfits⟩ | ⟨slots, hslots, -, herror⟩ :=
    LocalSlots.limit_of_argumentSlots code method.isStatic harguments
  · exact absurd hmany hfits
  · have hlimits : (do
        let code ← Instruction.decode draft.code
        return (code, ← StackDepth.limit pool code draft.handlers draft.entries)
          : Except Fault _) = .ok (code, maxStack) :=
      Except.bind_eq_ok_iff.2 ⟨code, hcode, Except.bind_eq_ok_iff.2 ⟨maxStack, hlimit, rfl⟩⟩
    refine ⟨maxStack, slots, hne, hslots, ?_⟩
    rw [MethodOutcome.ofDraft, hlimits]
    dsimp only
    rw [herror]

namespace MethodOutcome

theorem Atomic.error {fault : Fault} : Atomic ⟨.error fault, body, new⟩ body pool :=
  ⟨fun _ => rfl, fun _ h => nomatch h⟩

theorem Atomic.ok {counts : SiteCounts} {after : Body} (h : counts.total ≠ 0) :
    Atomic ⟨.ok counts, after, new⟩ body pool := by
  refine ⟨fun hzero => absurd (hzero counts rfl) h, fun _ hcounts hzero => ?_⟩
  cases hcounts
  exact absurd hzero h

theorem atomic_ofDraft {draft : Draft} (hcounts : draft.counts.total ≠ 0) {arguments : UInt16}
    (harguments : Descriptor.argumentSlots method.descriptor = .ok arguments)
    (h : ¬ draft.Overruns method body new) : (ofDraft method body new draft).Atomic body pool := by
  unfold ofDraft
  split
  case h_1 => exact .error
  case h_2 code maxStack hlimits =>
    obtain ⟨code', hcode, hrest⟩ := Except.bind_eq_ok_iff.1 hlimits
    obtain ⟨maxStack', hlimit, hpair⟩ := Except.bind_eq_ok_iff.1 hrest
    cases hpair
    dsimp only
    obtain ⟨used, hused, -⟩ | ⟨slots, -, hmany, herror⟩ :=
      LocalSlots.limit_of_argumentSlots code method.isStatic harguments
    · rw [hused]
      exact .ok hcounts
    · rw [herror]
      have hsame : maxStack = body.maxStack :=
        not_not.1 fun hne => h ⟨code, maxStack, hcode, hlimit, hne, hmany⟩
      rw [hsame]
      exact .error

end MethodOutcome

namespace Rule

/-- An enforcement on a body with sites ends as its draft does. -/
theorem enforceMethod_of_sites {old : List Located} {marked : List Marked}
    (hold : Instruction.decode body.code = .ok old)
    (hmarked : Marked.ofCode pool rule old = .ok marked) (hsites : Marked.sites marked ≠ []) :
    rule.enforceMethod method body pool =
      match (Draft.ofMarked rule method body marked).run pool with
      | (.error fault, pool) => ⟨.error fault, body, pool⟩
      | (.ok draft, pool) => MethodOutcome.ofDraft method body pool draft := by
  have hmarks : (do Marked.ofCode pool rule (← Instruction.decode body.code)) = .ok marked :=
    Except.bind_eq_ok_iff.2 ⟨old, hold, hmarked⟩
  rw [enforceMethod, hmarks]
  exact if_neg (mt List.isEmpty_iff.1 hsites)

theorem Overruns.outcome (h : rule.Overruns method body pool) :
    ∃ maxStack slots, maxStack ≠ body.maxStack ∧ 65535 < slots ∧
      (rule.enforceMethod method body pool).result
        = .error (.tooMany "local variable slots" slots) ∧
      (rule.enforceMethod method body pool).body = { body with maxStack } := by
  obtain ⟨old, marked, draft, new, hold, hmarked, hsites, hdraft, hoverruns⟩ := h
  obtain ⟨maxStack, slots, hne, hslots, heq⟩ := hoverruns.ofDraft_eq
  rw [enforceMethod_of_sites hold hmarked hsites, hdraft]
  dsimp only
  rw [heq]
  exact ⟨maxStack, slots, hne, hslots, rfl, rfl⟩

theorem atomic_of_not_overruns (h : ¬ rule.Overruns method body pool) :
    (rule.enforceMethod method body pool).Atomic body pool := by
  cases hmarks : (do Marked.ofCode pool rule (← Instruction.decode body.code)) with
  | error fault =>
    rw [enforceMethod, hmarks]
    exact .error
  | ok marked =>
    obtain ⟨old, hold, hmarked⟩ := Except.bind_eq_ok_iff.1 hmarks
    by_cases hsites : Marked.sites marked = []
    · rw [enforceMethod, hmarks]
      dsimp only
      rw [if_pos (List.isEmpty_iff.2 hsites)]
      exact ⟨fun _ => rfl, fun _ _ _ => rfl⟩
    · rw [enforceMethod_of_sites hold hmarked hsites]
      rcases hdraft : (Draft.ofMarked rule method body marked).run pool with ⟨fault | draft, new⟩
      · exact .error
      · obtain ⟨plan, _, _, _, _, _, -, rfl, drafts⟩ := Draft.ofMarked_eq_ok hold hmarked hdraft
        obtain ⟨arguments, harguments⟩ := plan.exists_argumentSlots
        refine MethodOutcome.atomic_ofDraft ?_ harguments fun hoverruns => h
          ⟨old, plan.marked, draft, new, hold, hmarked, hsites, hdraft, hoverruns⟩
        rw [drafts.counts_eq, total_counts]
        exact mt List.length_eq_zero_iff.1 hsites

/-- Where the new code has too many variables, so had the old code. -/
theorem Overruns.overflows (h : rule.Overruns method body pool) :
    ∃ old, Instruction.decode body.code = .ok old ∧
      LocalSlots.Overflows old method.descriptor method.isStatic := by
  obtain ⟨old, marked, draft, new, hold, hmarked, -, hdraft, code, -, hcode, -, -, arguments,
    harguments, hmany⟩ := h
  obtain ⟨plan, _, _, _, _, _, rfl, -, drafts⟩ := Draft.ofMarked_eq_ok hold hmarked hdraft
  have hnew := (plan.lays.decode_bytes plan.sound_old drafts.length_le drafts.code_eq).1
  obtain rfl := Except.ok.inj (hnew.symm.trans hcode)
  refine ⟨plan.old, hold, arguments, harguments, hmany.imp_right ?_⟩
  rintro ⟨located, hlocated, hneeded⟩
  obtain ⟨there, hthere, heq⟩ := plan.lays.exists_needed hlocated (by omega)
  exact ⟨there, hthere, heq ▸ hneeded⟩

/-- An enforcement that does not end well, or that finds nothing, leaves the body as it was,
unless the new code overruns. In that case the old code has too many variables too, and the body is
left with the stack limit of the new code and is otherwise as it was. -/
theorem enforceMethod_atomic (rule : Rule) (method : MethodInfo) (body : Body) (pool : Pool) :
    ((rule.enforceMethod method body pool).Atomic body pool ↔
      ¬ rule.Overruns method body pool) ∧
    (rule.Overruns method body pool →
      (∃ old, Instruction.decode body.code = .ok old ∧
        LocalSlots.Overflows old method.descriptor method.isStatic) ∧
      ∃ maxStack slots, maxStack ≠ body.maxStack ∧ 65535 < slots ∧
        (rule.enforceMethod method body pool).result
          = .error (.tooMany "local variable slots" slots) ∧
        (rule.enforceMethod method body pool).body = { body with maxStack }) := by
  refine ⟨⟨fun hatomic hoverruns => ?_, atomic_of_not_overruns⟩, fun hoverruns =>
    ⟨hoverruns.overflows, hoverruns.outcome⟩⟩
  obtain ⟨maxStack, slots, hne, -, hresult, hbody⟩ := hoverruns.outcome
  have hsame := hatomic.body_eq fun counts hok => nomatch hresult.symm.trans hok
  exact hne (congrArg Body.maxStack (hbody.symm.trans hsame))

/-- A load of the variable with the highest number, in front of a call: behind it the load would
be dead and give way to filler. -/
def highestBody : Body := ⟨1, 0, [0xc4, 0x15, 0xff, 0xff, 0x57, 0xb8, 0, 6, 0xb1], [], []⟩

theorem enforceMethod_atomic_highest :
    (awtRule.enforceMethod runMethod highestBody awtPool).result
        = .error (.tooMany "local variable slots" 65536) ∧
      (awtRule.enforceMethod runMethod highestBody awtPool).body
        = { highestBody with maxStack := 3 } ∧
      awtRule.Overruns runMethod highestBody awtPool := by
  have hresult : (awtRule.enforceMethod runMethod highestBody awtPool).result
      = .error (.tooMany "local variable slots" 65536) := by decide +kernel
  have hbody : (awtRule.enforceMethod runMethod highestBody awtPool).body
      = { highestBody with maxStack := 3 } := by decide +kernel
  refine ⟨hresult, hbody, not_not.1 fun hnot => ?_⟩
  have hatomic := (enforceMethod_atomic awtRule runMethod highestBody awtPool).1.2 hnot
  have hsame := hatomic.body_eq fun counts hok => nomatch hresult.symm.trans hok
  exact absurd (congrArg Body.maxStack (hbody.symm.trans hsame)) (by decide)

end Rule

end Embargo
