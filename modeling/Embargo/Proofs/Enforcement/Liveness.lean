import Embargo.Proofs.Code.FlowGraph
import Embargo.Proofs.Enforcement.Revision

/-!
Live and dead instructions of a plan. Where uninitialized types flow consistently, an
edge of control flow from a live instruction never comes to a dropped frame.
-/
namespace Embargo

/-- Whether an instruction is a site of a rule. -/
def Marked.isSite (pool : Pool) (rule : Rule) (located : Located) : Bool :=
  match siteOf pool rule located with
  | .ok (some _) => true
  | _ => false

namespace Plan
open Unreachable (entryPoints)
variable {rule : Rule} {method : MethodInfo} {body : Body} {pool : Pool}
  (plan : Plan rule method body pool)
include plan

theorem isSite_eq {marked : Marked} (hmarked : marked ∈ plan.marked) :
    Marked.isSite pool rule marked.located = marked.site.isSome := by
  obtain ⟨located, -, hlocated, hsite⟩ := Forall₂.exists_of_mem_right plan.forall₂_marked hmarked
  rw [hlocated, Marked.isSite, hsite]
  cases marked.site <;> rfl

theorem exists_marked_of_mem {located : Located} (hlocated : located ∈ plan.old) :
    ∃ marked ∈ plan.marked, marked.located = located := by
  rw [← plan.map_located_marked] at hlocated
  exact List.mem_map.1 hlocated

theorem exists_marked_pair {i j : Located} (h : [i, j] <:+: plan.old) :
    ∃ marked other, [marked, other] <:+: plan.marked ∧ marked.located = i ∧ other.located = j := by
  obtain ⟨front, back, heq⟩ := h
  rw [← plan.map_located_marked, eq_comm] at heq
  obtain ⟨firsts, backs, hmarked, hfirsts, -⟩ := List.map_eq_append_iff.1 heq
  obtain ⟨fronts, pair, rfl, -, hpair⟩ := List.map_eq_append_iff.1 hfirsts
  match pair, hpair with
  | [marked, other], hpair =>
    simp only [List.map_cons, List.map_nil, List.cons.injEq, and_true] at hpair
    exact ⟨marked, other, ⟨fronts, backs, hmarked.symm⟩, hpair⟩

theorem nodup_offsets : (plan.marked.map Marked.offset).Nodup := by
  have hnodup := plan.sound_old.row.nodup_start fun located _ => located.size_pos
  rw [← plan.map_located_marked, List.map_map] at hnodup
  exact hnodup

theorem mem_entryPoints_iff {offset : Nat} :
    offset ∈ entryPoints plan.marked plan.source.frames body.handlers ↔
      (∃ frame ∈ plan.source.frames, frame.offset = offset) ∨
      (∃ handler ∈ body.handlers, handler.handlerPc.toNat = offset) ∨
      ∃ located ∈ plan.old, offset ∈ located.instruction.targets := by
  rw [← plan.map_located_marked]
  simp [entryPoints]

theorem mem_blockStarts_iff {offset : Nat} :
    offset ∈ blockStarts plan.old body.handlers plan.source.frames ↔
      offset = 0 ∨ offset ∈ entryPoints plan.marked plan.source.frames body.handlers := by
  rw [mem_entryPoints_iff]
  simp [blockStarts]

theorem settled (hmaps : method.stackMaps = true) :
    Unreachable.Settled plan.marked plan.source.frames body.handlers plan.unreachable := by
  rw [plan.unreachable_eq, if_pos hmaps]
  exact Unreachable.settled_ofCode plan.nodup_offsets

/-- Behind a live instruction that is no site everything is live up to the next entry
point. -/
theorem dead_next_iff (hmaps : method.stackMaps = true) {i j : Located} (h : [i, j] <:+: plan.old)
    (hentry : j.offset ∉ entryPoints plan.marked plan.source.frames body.handlers) :
    j.offset ∈ plan.unreachable.dead ↔
      i.offset ∈ plan.unreachable.dead ∨ Marked.isSite pool rule i = true := by
  obtain ⟨marked, other, hpair, rfl, rfl⟩ := plan.exists_marked_pair h
  rw [plan.isSite_eq (hpair.subset (by simp))]
  exact (plan.settled hmaps).next marked other hpair hentry

theorem dead_entry_iff (hmaps : method.stackMaps = true) {located : Located}
    (hlocated : located ∈ plan.old)
    (hentry : located.offset ∈ entryPoints plan.marked plan.source.frames body.handlers) :
    located.offset ∈ plan.unreachable.dead ↔ located.offset ∈ plan.unreachable.dropped := by
  obtain ⟨marked, hmarked, rfl⟩ := plan.exists_marked_of_mem hlocated
  exact (plan.settled hmaps).entry marked hmarked hentry

/-- Death goes on to the end of a block. -/
theorem dead_of_block (hmaps : method.stackMaps = true) {first : Located} {rest : List Located}
    (hblock : first :: rest <:+: plan.old)
    (hinner : ∀ located ∈ rest,
      located.offset ∉ blockStarts plan.old body.handlers plan.source.frames)
    {located : Located} (hlocated : located ∈ first :: rest)
    (hdead : located.offset ∈ plan.unreachable.dead) :
    (rest.getLastD first).offset ∈ plan.unreachable.dead := by
  induction rest generalizing first located with
  | nil =>
    rw [List.mem_singleton.1 hlocated] at hdead
    exact hdead
  | cons second rest ih =>
    obtain ⟨hsecond, hinner⟩ := List.forall_mem_cons.1 hinner
    have hrest : second :: rest <:+: plan.old := (List.suffix_cons first _).isInfix.trans hblock
    rw [List.getLastD_cons]
    rcases List.mem_cons.1 hlocated with rfl | hlocated
    · refine ih hrest hinner List.mem_cons_self ?_
      have hpair : [located, second] <:+: plan.old :=
        (List.prefix_append [located, second] rest).isInfix.trans hblock
      refine (plan.dead_next_iff hmaps hpair fun hentry => hsecond ?_).2 (.inl hdead)
      exact plan.mem_blockStarts_iff.2 (.inr hentry)
    · exact ih hrest hinner hlocated hdead

section Flow
variable (hflow : UninitializedFlow plan.old body.handlers plan.source.frames)
include hflow

/-- Control never goes from live code to a frame that is dropped. -/
theorem not_mem_dropped_of_edge (hmaps : method.stackMaps = true) {way : Way} {here there : Nat}
    (hedge : FlowGraph.Edge ⟨plan.old, body.handlers, []⟩ way here there)
    (hlive : here ∉ plan.unreachable.dead) : there ∉ plan.unreachable.dropped := by
  intro hdropped
  obtain ⟨frame, hframe, hthere, origin, horigin, hdead⟩ :=
    ((plan.settled hmaps).dropped there).1 hdropped
  obtain ⟨first, rest, hblock, hreason⟩ := hflow.edge way here there hedge frame hframe hthere
    origin horigin
  rw [← hblock.ends] at hlive
  rcases hreason with ⟨other, hother, hoffset, hmention⟩ | ⟨located, hlocated, rfl⟩
  · -- the frame at the start of the block is dropped too, so the whole block is dead
    have hfirst : first.offset ∈ plan.unreachable.dead := by
      refine (plan.dead_entry_iff hmaps (hblock.isInfix.subset List.mem_cons_self) ?_).2 ?_
      · exact plan.mem_entryPoints_iff.2 (.inl ⟨other, hother, hoffset⟩)
      · exact ((plan.settled hmaps).dropped _).2 ⟨other, hother, hoffset, origin, hmention, hdead⟩
    exact hlive (plan.dead_of_block hmaps hblock.isInfix hblock.inner List.mem_cons_self hfirst)
  · exact hlive (plan.dead_of_block hmaps hblock.isInfix hblock.inner hlocated hdead)

end Flow

theorem dead_eq_nil (hmaps : method.stackMaps = false) : plan.unreachable.dead = [] := by
  rw [plan.unreachable_eq, hmaps]
  rfl

/-- The first instruction is live. -/
theorem first_not_dead (hflow : method.stackMaps = true →
      UninitializedFlow plan.old body.handlers plan.source.frames)
    {first : Located} {rest : List Located} (hold : plan.old = first :: rest) :
    first.offset ∉ plan.unreachable.dead := by
  cases hmaps : method.stackMaps with
  | false =>
    rw [plan.dead_eq_nil hmaps]
    exact List.not_mem_nil
  | true =>
    have hzero : first.offset = 0 := by
      have hrow := plan.sound_old.row
      rw [hold] at hrow
      exact hrow.1
    have hfirst : first ∈ plan.old := by
      rw [hold]
      exact List.mem_cons_self
    by_cases hentry : first.offset ∈ entryPoints plan.marked plan.source.frames body.handlers
    · rw [plan.dead_entry_iff hmaps hfirst hentry, (plan.settled hmaps).dropped]
      rintro ⟨frame, hframe, hoffset, origin, horigin, -⟩
      rw [(hflow hmaps).start frame hframe (hoffset.trans hzero)] at horigin
      exact absurd horigin List.not_mem_nil
    · have hmarked := plan.map_located_marked
      rw [hold] at hmarked
      obtain ⟨marked, rest, hcons, rfl, -⟩ := List.map_eq_cons_iff.1 hmarked
      exact (plan.settled hmaps).first marked rest hcons hentry

theorem isDead_iff {placed : Placed} (hplaced : placed ∈ plan.layout.pieces) :
    placed.piece.isDead = true ↔ placed.located.offset ∈ plan.unreachable.dead := by
  obtain ⟨marked, -, hof⟩ := plan.exists_marked hplaced
  rw [hof.isDead_iff, Placed.located, hof.located]
  rfl

/-- A site is replaced. -/
theorem fate_of_isSite {placed : Placed} (hplaced : placed ∈ plan.layout.pieces)
    (hsite : Marked.isSite pool rule placed.located = true) : ∃ exception message constructor,
      placed.piece.fate = .replaced (Piece.throwing exception message constructor) := by
  obtain ⟨marked, hmarked, hof⟩ := plan.exists_marked hplaced
  rw [Placed.located, hof.located, plan.isSite_eq hmarked, hof.isReplaced] at hsite
  obtain ⟨sequence, hfate⟩ := hsite
  obtain ⟨exception, message, constructor, rfl⟩ := hof.valid.replaced sequence hfate
  exact ⟨exception, message, constructor, hfate⟩

/-- What is neither a site nor dead is kept. -/
theorem fate_of_live {placed : Placed} (hplaced : placed ∈ plan.layout.pieces)
    (hsite : Marked.isSite pool rule placed.located = false)
    (hlive : placed.located.offset ∉ plan.unreachable.dead) : placed.piece.fate = .kept := by
  obtain ⟨marked, hmarked, hof⟩ := plan.exists_marked hplaced
  rw [Placed.located, hof.located, plan.isSite_eq hmarked] at hsite
  cases hfate : placed.piece.fate with
  | kept => rfl
  | replaced sequence =>
    rw [hof.isReplaced.2 ⟨sequence, hfate⟩] at hsite
    cases hsite
  | filled => exact absurd ((plan.isDead_iff hplaced).1 (hof.valid.filled hfate)) hlive

end Plan

end Embargo
