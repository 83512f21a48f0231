import Embargo.Proofs.Enforcement.FlowEdges

/-!
Control flow before and after an enforcement. With a site taken as something that does
nothing but throw, the runs of the new code are those of the old code with every
instruction at its new offset.
-/
namespace Embargo

namespace Revision
variable {rule : Rule} {method : MethodInfo} {body new : Body} {pool newPool : Pool}
  (r : Revision rule method body pool new newPool)

theorem newOffset_zero (hold : r.old ≠ []) : r.layout.newOffset 0 = 0 := by
  have hlocated := r.lays.located
  have hrow := r.lays.row
  cases hpieces : r.layout.pieces with
  | nil =>
    rw [hpieces] at hlocated
    exact absurd hlocated.symm hold
  | cons placed rest =>
    have hoffset := r.lays.oldPieces
    rw [hpieces] at hrow hoffset
    have hfirst : placed.located.offset = 0 := hoffset.1
    have hplaced : placed ∈ r.layout.pieces := by
      rw [hpieces]
      exact List.mem_cons_self
    rw [← hfirst, r.lays.newOffset_eq hplaced, hrow.1, hfirst]

section Flow
variable (hflow : method.stackMaps = true →
  UninitializedFlow r.old body.handlers r.source.frames)
include hflow

theorem live_zero {first : Located} {rest : List Located} (hold : r.old = first :: rest) :
    r.Live 0 := by
  have hfirst : first.offset = 0 := by
    have hrow := r.sound_old.row
    rw [hold] at hrow
    exact hrow.1
  have hlive := r.first_not_dead hflow hold
  rw [hfirst] at hlive
  exact ⟨⟨first, by rw [hold]; exact List.mem_cons_self, hfirst⟩, hlive⟩

/-- The runs before and after are the same. -/
theorem sameRuns (hold : r.old ≠ []) :
    FlowGraph.SameRuns r.before r.after r.layout.newOffset := by
  obtain ⟨first, rest, hcons⟩ := List.exists_cons_of_ne_nil hold
  refine FlowGraph.sameRuns_of_steps (r.live_zero hflow hcons) (r.newOffset_zero hold)
    (fun hlive h => r.live_of_edge hflow hlive h) (fun hlive h => r.edge_after hlive h)
    (fun hlive h => r.edge_before hlive h) fun hhere hthere heq => ?_
  obtain ⟨⟨located, hlocated, rfl⟩, -⟩ := hhere
  obtain ⟨⟨other, hother, rfl⟩, -⟩ := hthere
  rw [r.lays.newOffset_injective hlocated hother heq]

/-- What runs come to is kept, or it is a site and throws. -/
theorem visited (hold : r.old ≠ []) {steps : List (Way × Nat)} (hrun : r.before.IsRun 0 steps) :
    ∀ offset ∈ 0 :: steps.map Prod.snd, ∃ located ∈ r.old, located.offset = offset ∧
      if Marked.isSite pool rule located then ∃ exception message constructor,
        Located.rowFrom (r.layout.newOffset offset)
          (Piece.throwing exception message constructor) <:+: r.layout.instructions
      else ⟨r.layout.newOffset offset, located.instruction.retarget r.layout.newOffset⟩
        ∈ r.layout.instructions := by
  obtain ⟨first, rest, hcons⟩ := List.exists_cons_of_ne_nil hold
  intro offset hoffset
  have hlive : r.Live offset := FlowGraph.forall_mem_of_isRun
    (fun hlive h => r.live_of_edge hflow hlive h) (r.live_zero hflow hcons) hrun offset hoffset
  obtain ⟨placed, hplaced, rfl, hdead, hstart⟩ := hlive.exists_placed
  refine ⟨placed.located, r.lays.located_mem hplaced, rfl, ?_⟩
  rw [hstart]
  by_cases hsite : Marked.isSite pool rule placed.located
  · rw [if_pos hsite]
    obtain ⟨exception, message, constructor, hfate⟩ := r.fate_of_isSite hplaced hsite
    obtain ⟨next, hinfix⟩ := Layout.infix_instructions hplaced
    rw [Layout.pieceInstructions_replaced hfate] at hinfix
    exact ⟨exception, message, constructor, hinfix⟩
  · rw [if_neg hsite]
    exact Layout.mem_of_kept hplaced (r.fate_of_live hplaced (by simpa using hsite) hlive.2)

end Flow

end Revision

/-- A new body runs as an old body does in which sites only throw. The layout tells where
every old instruction went. -/
structure KeepsRuns (pool : Pool) (rule : Rule) (body new : Body) (old : List Located)
    (layout : Layout) : Prop where
  decode_old : Instruction.decode body.code = .ok old
  decode_new : Instruction.decode new.code = .ok layout.instructions
  lays : layout.Lays old body.code.length
  runs : FlowGraph.SameRuns (FlowGraph.before pool rule old body.handlers)
    (FlowGraph.after pool rule layout new.handlers) layout.newOffset
  /-- No run comes to filler: an instruction that is no site is there with its targets
  moved, and a site throws. -/
  visited : ∀ steps, (FlowGraph.before pool rule old body.handlers).IsRun 0 steps →
    ∀ offset ∈ 0 :: steps.map Prod.snd, ∃ located ∈ old, located.offset = offset ∧
      if Marked.isSite pool rule located then ∃ exception message constructor,
        Located.rowFrom (layout.newOffset offset)
          (Piece.throwing exception message constructor) <:+: layout.instructions
      else ⟨layout.newOffset offset, located.instruction.retarget layout.newOffset⟩
        ∈ layout.instructions

/-- An enforcement on a method keeps its runs, up to what its sites do. Where frames count,
uninitialized types have to flow consistently. -/
theorem Rule.enforceMethod_keepsRuns {rule : Rule} {method : MethodInfo} {body : Body}
    {pool : Pool} {counts : SiteCounts}
    (h : (rule.enforceMethod method body pool).result = .ok counts) (hcounts : counts.total ≠ 0)
    (hflow : method.stackMaps = true → ∀ code source, Instruction.decode body.code = .ok code →
      Source.of method body pool = .ok source →
      UninitializedFlow code body.handlers source.frames) :
    ∃ old layout, KeepsRuns pool rule body (rule.enforceMethod method body pool).body old layout := by
  obtain ⟨r, rfl⟩ := Revision.of_enforceMethod h hcounts
  have hflow (hmaps : method.stackMaps = true) :
      UninitializedFlow r.old body.handlers r.source.frames :=
    hflow hmaps r.old r.source r.decode_old r.source_eq
  have hold : r.old ≠ [] := by
    intro hnil
    have hmarked := r.map_located_marked
    rw [hnil, List.map_eq_nil_iff] at hmarked
    rw [hmarked] at hcounts
    exact hcounts rfl
  exact ⟨r.old, r.layout, r.decode_old, r.decode_new, r.lays, r.sameRuns hflow hold,
    fun _ hrun => r.visited hflow hold hrun⟩

/-- A pool with a method under an embargo at index 6. -/
def awtPool : Pool := ((do
  let _ ← Pool.addMember .method ⟨"java/awt/Toolkit", "beep", "()V"⟩
  let _ ← Pool.addUtf8 "StackMapTable"
  let _ ← Pool.addClass "a/B" : PoolStep Unit).run Pool.empty).2

def awtRule : Rule := ⟨"java/awt/", "java/lang/Error", "No. "⟩

def runMethod : MethodInfo := ⟨"a/B", "run", "()V", true, true⟩

/-- A branch over a call to a `return` with an empty frame. -/
def branchBody : Body :=
  ⟨1, 0, [0x03, 0x99, 0, 6, 0xb8, 0, 6, 0xb1], [], [⟨7, [0, 1, 7]⟩]⟩

theorem Rule.enforceMethod_keepsRuns_branch :
    (awtRule.enforceMethod runMethod branchBody awtPool).result = .ok ⟨1, 0⟩ ∧
      ∃ old layout, KeepsRuns awtPool awtRule branchBody
        (awtRule.enforceMethod runMethod branchBody awtPool).body old layout := by
  have hresult : (awtRule.enforceMethod runMethod branchBody awtPool).result = .ok ⟨1, 0⟩ := by
    decide +kernel
  refine ⟨hresult, Rule.enforceMethod_keepsRuns hresult (by decide) ?_⟩
  intro _ code source _ hsource
  have hframes : (Source.of runMethod branchBody awtPool).map Source.frames
      = .ok [⟨7, [], []⟩] := by
    decide +kernel
  rw [hsource] at hframes
  refine .of_newOffsets_eq_nil ?_
  rw [Except.ok.inj hframes]
  decide

/-- A branch over a call and a `new`, to a `return` with a frame that mentions the result of
the `new`. -/
def staleBody : Body :=
  ⟨1, 0, [0x03, 0x99, 0, 9, 0xb8, 0, 6, 0xbb, 0, 9, 0xb1], [], [⟨7, [0, 1, 0x4a, 8, 0, 7]⟩]⟩

def staleCode : List Located :=
  [⟨0, .plain 0x03 []⟩, ⟨1, .branch 0x99 10⟩, ⟨4, .plain 0xb8 [0, 6]⟩,
    ⟨7, .plain 0xbb [0, 9]⟩, ⟨10, .plain 0xb1 []⟩]

/-- Without the condition on uninitialized types a run can come to filler: the `return` is
reached by the branch, but its frame goes with the dead `new`. -/
theorem not_keepsRuns_staleBody :
    (awtRule.enforceMethod runMethod staleBody awtPool).result = .ok ⟨1, 0⟩ ∧
      ¬ ∃ old layout, KeepsRuns awtPool awtRule staleBody
        (awtRule.enforceMethod runMethod staleBody awtPool).body old layout := by
  refine ⟨by decide +kernel, fun ⟨old, layout, h⟩ => ?_⟩
  have hold : Instruction.decode staleBody.code = .ok staleCode := by decide +kernel
  obtain rfl : old = staleCode := Except.ok.inj (h.decode_old.symm.trans hold)
  have hrun : (FlowGraph.before awtPool awtRule staleCode staleBody.handlers).IsRun 0
      [(.next, 1), (.jump 0, 10)] := by
    refine ⟨⟨⟨0, .plain 0x03 []⟩, ⟨1, .branch 0x99 10⟩, ?_, rfl, ?_, rfl, rfl⟩,
      ⟨⟨1, .branch 0x99 10⟩, ?_, rfl, ?_, rfl⟩, trivial⟩ <;> decide +kernel
  obtain ⟨located, hlocated, hoffset, hkept⟩ := h.visited _ hrun 10 (by decide)
  have hreturn : ∀ located ∈ staleCode, located.offset = 10 →
      located = ⟨10, .plain 0xb1 []⟩ := by
    decide
  obtain rfl := hreturn located hlocated hoffset
  rw [if_neg (by decide +kernel)] at hkept
  have hnew : ((Instruction.decode
      (awtRule.enforceMethod runMethod staleBody awtPool).body.code).map
        fun code => code.any fun located => located.instruction.opcode = 0xb1) = .ok false := by
    decide +kernel
  rw [h.decode_new] at hnew
  have habsent := List.any_eq_false.1 (Except.ok.inj hnew) _ hkept
  exact habsent rfl

end Embargo
