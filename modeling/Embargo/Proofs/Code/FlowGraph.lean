import Embargo.ClassFile.Body
import Embargo.Code.Frame
import Embargo.Enforcement.Span
import Embargo.Proofs.Code.Decoding

/-!
The control flow of a method body as a graph over code offsets, and its runs. An edge
tells which way control goes, so that runs of two bodies can be compared step by step.
-/
namespace Embargo

/-- Whether a handler watches the instruction at an offset. -/
def Handler.Covers (handler : Handler) (offset : Nat) : Prop :=
  handler.startPc.toNat ≤ offset ∧ offset < handler.endPc.toNat

instance (handler : Handler) (offset : Nat) : Decidable (handler.Covers offset) :=
  inferInstanceAs (Decidable (_ ∧ _))

/-- How control leaves an instruction: to the one behind it, to the target at a place
among its targets, or to a handler at a place among those that cover it. -/
inductive Way where
  | next
  | jump (place : Nat)
  | caught (place : Nat) (catchType : UInt16)
  deriving DecidableEq, Repr

/-- Code, its handlers, and the stretches of it that do nothing but throw. Each of these
is one node of the graph; any other instruction is a node of its own. -/
structure FlowGraph where
  code : List Located
  handlers : List Handler
  throwing : List Span
  deriving DecidableEq, Repr

namespace FlowGraph

/-- The throwing stretch around an offset. -/
def stretch? (g : FlowGraph) (offset : Nat) : Option Span :=
  g.throwing.find? (·.Contains offset)

/-- The node of the instruction at an offset. -/
def node (g : FlowGraph) (offset : Nat) : Nat :=
  match g.stretch? offset with
  | some span => span.start
  | none => offset

/-- The handlers that cover an offset, in the order of the table. -/
def covering (g : FlowGraph) (offset : Nat) : List Handler :=
  g.handlers.filter (·.Covers offset)

/-- The edges. What only throws has no edges but those to handlers. -/
def Edge (g : FlowGraph) (way : Way) (here there : Nat) : Prop :=
  match way with
  | .next => ∃ i j, [i, j] <:+: g.code ∧ i.instruction.endsFlow = false ∧
      g.stretch? here = none ∧ i.offset = here ∧ j.offset = there
  | .jump place => ∃ i ∈ g.code, i.instruction.targets[place]? = some there ∧
      g.stretch? here = none ∧ i.offset = here
  | .caught place catchType => ∃ i ∈ g.code, ∃ handler,
      (g.covering i.offset)[place]? = some handler ∧ handler.catchType = catchType ∧
      g.node i.offset = here ∧ handler.handlerPc.toNat = there

/-- Steps from an offset on, each with its way and with the node that it comes to. -/
def IsRun (g : FlowGraph) : Nat → List (Way × Nat) → Prop
  | _, [] => True
  | here, (way, there) :: rest => g.Edge way here there ∧ g.IsRun there rest

/-- The runs of one graph from its start are those of another with every node moved, each
of exactly one run. -/
structure SameRuns (g g' : FlowGraph) (move : Nat → Nat) : Prop where
  forward : ∀ steps, g.IsRun 0 steps → g'.IsRun 0 (steps.map (Prod.map id move))
  backward : ∀ moved, g'.IsRun 0 moved →
    ∃! steps, g.IsRun 0 steps ∧ moved = steps.map (Prod.map id move)

section Steps
variable {g g' : FlowGraph} {move : Nat → Nat} {P : Nat → Prop}

theorem forall_mem_of_isRun
    (hstep : ∀ {way here there}, P here → g.Edge way here there → P there)
    {here : Nat} {steps : List (Way × Nat)} (hhere : P here) (h : g.IsRun here steps) :
    ∀ node ∈ here :: steps.map Prod.snd, P node := by
  induction steps generalizing here with
  | nil => exact List.forall_mem_cons.2 ⟨hhere, fun _ hnode => absurd hnode List.not_mem_nil⟩
  | cons step steps ih => exact List.forall_mem_cons.2 ⟨hhere, ih (hstep hhere h.1) h.2⟩

/-- Runs correspond if steps do, from nodes that runs come to. -/
theorem sameRuns_of_steps (hzero : P 0) (hmove : move 0 = 0)
    (hstep : ∀ {way here there}, P here → g.Edge way here there → P there)
    (hforward : ∀ {way here there}, P here → g.Edge way here there →
      g'.Edge way (move here) (move there))
    (hbackward : ∀ {way here moved}, P here → g'.Edge way (move here) moved →
      ∃ there, moved = move there ∧ g.Edge way here there)
    (hinjective : ∀ {here there}, P here → P there → move here = move there → here = there) :
    SameRuns g g' move := by
  have forward {here : Nat} {steps : List (Way × Nat)} (hhere : P here)
      (h : g.IsRun here steps) : g'.IsRun (move here) (steps.map (Prod.map id move)) := by
    induction steps generalizing here with
    | nil => trivial
    | cons step steps ih => exact ⟨hforward hhere h.1, ih (hstep hhere h.1) h.2⟩
  have backward {here : Nat} {moved : List (Way × Nat)} (hhere : P here)
      (h : g'.IsRun (move here) moved) :
      ∃ steps, g.IsRun here steps ∧ moved = steps.map (Prod.map id move) := by
    induction moved generalizing here with
    | nil => exact ⟨[], trivial, rfl⟩
    | cons step moved ih =>
      obtain ⟨way, node⟩ := step
      obtain ⟨there, rfl, hedge⟩ := hbackward hhere h.1
      obtain ⟨steps, hsteps, rfl⟩ := ih (hstep hhere hedge) h.2
      exact ⟨(way, there) :: steps, ⟨hedge, hsteps⟩, rfl⟩
  have unique {here : Nat} {steps others : List (Way × Nat)} (hhere : P here)
      (h : g.IsRun here steps) (hothers : g.IsRun here others)
      (heq : steps.map (Prod.map id move) = others.map (Prod.map id move)) : steps = others := by
    induction steps generalizing here others with
    | nil => exact (List.map_eq_nil_iff.1 heq.symm).symm
    | cons step steps ih =>
      cases others with
      | nil => cases heq
      | cons other others =>
        obtain ⟨way, there⟩ := step
        obtain ⟨way', there'⟩ := other
        simp only [List.map_cons, Prod.map, id_eq, List.cons.injEq, Prod.mk.injEq] at heq
        obtain ⟨⟨rfl, hmoved⟩, hrest⟩ := heq
        have hthere := hstep hhere h.1
        have hsame := hinjective hthere (hstep hhere hothers.1) hmoved
        subst hsame
        rw [ih hthere h.2 hothers.2 hrest]
  refine ⟨fun steps h => hmove ▸ forward hzero h, fun moved h => ?_⟩
  obtain ⟨steps, hsteps, hmoved⟩ := backward hzero (hmove.symm ▸ h)
  refine ⟨steps, ⟨hsteps, hmoved⟩, fun others ⟨hothers, hmoved'⟩ => ?_⟩
  exact unique hzero hothers hsteps (hmoved'.symm.trans hmoved)

end Steps

end FlowGraph

/-- The offsets where blocks of code start: those that control can come to from elsewhere
than the instruction before, and the first. -/
def blockStarts (code : List Located) (handlers : List Handler) (frames : List Frame) :
    List Nat :=
  0 :: (frames.map Frame.offset ++ handlers.map (·.handlerPc.toNat)
    ++ code.flatMap fun located => located.instruction.targets)

/-- The part of a block from its first instruction to the one at the offset `last`. -/
structure IsBlock (starts : List Nat) (code : List Located) (first : Located)
    (rest : List Located) (last : Nat) : Prop where
  isInfix : first :: rest <:+: code
  isStart : first.offset ∈ starts
  inner : ∀ located ∈ rest, located.offset ∉ starts
  ends : (rest.getLastD first).offset = last

/-- Uninitialized types flow consistently: where control comes to a frame that mentions
the result of the `new` at some offset, the block that it comes from starts at a frame
that mentions it too or has run over that instruction. -/
structure UninitializedFlow (code : List Located) (handlers : List Handler)
    (frames : List Frame) : Prop where
  start : ∀ frame ∈ frames, frame.offset = 0 → frame.newOffsets = []
  edge : ∀ way here there, FlowGraph.Edge ⟨code, handlers, []⟩ way here there →
    ∀ frame ∈ frames, frame.offset = there → ∀ origin ∈ frame.newOffsets,
      ∃ first rest, IsBlock (blockStarts code handlers frames) code first rest here ∧
        ((∃ other ∈ frames, other.offset = first.offset ∧ origin ∈ other.newOffsets) ∨
          ∃ located ∈ first :: rest, located.offset = origin)

/-- Where no frame mentions a `new`, there is nothing to flow. -/
theorem UninitializedFlow.of_newOffsets_eq_nil {code : List Located} {handlers : List Handler}
    {frames : List Frame} (h : ∀ frame ∈ frames, frame.newOffsets = []) :
    UninitializedFlow code handlers frames where
  start := fun frame hframe _ => h frame hframe
  edge := by
    intro _ _ _ _ frame hframe _ origin horigin
    rw [h frame hframe] at horigin
    exact absurd horigin List.not_mem_nil

end Embargo
