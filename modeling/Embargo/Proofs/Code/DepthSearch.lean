import Embargo.Proofs.Code.StackDepth
import Mathlib.Data.List.Perm.Subperm
import Mathlib.Order.Bounds.Basic

/-!
The search for the stack limit as a run of visits. It visits each instruction that control can
come to exactly once, and no other, and its result is the greatest depth that it meets.
-/
namespace Embargo

namespace StackDepth
variable {code : List Located} {starts : List Nat}

/-- The instruction at a position of the code is at an offset. -/
def IsAt (code : List Located) (position offset : Nat) : Prop :=
  ∃ located, code[position]? = some located ∧ located.offset = offset

/-- Control can come from one position straight to another. -/
inductive Leads (code : List Located) (position : Nat) : Nat → Prop
  | jump {located : Located} {target next : Nat} (hlocated : code[position]? = some located)
      (htarget : target ∈ located.instruction.targets) (hnext : IsAt code next target) :
      Leads code position next
  | fall {located : Located} (hlocated : code[position]? = some located)
      (hflow : located.instruction.endsFlow = false) (hnext : position + 1 < code.length) :
      Leads code position (position + 1)

/-- Control can come to a position from the first instruction or from one at the offsets. -/
inductive Reachable (code : List Located) (starts : List Nat) : Nat → Prop
  | entry : Reachable code starts 0
  | start {offset position : Nat} (hoffset : offset ∈ starts) (hat : IsAt code position offset) :
      Reachable code starts position
  | step {position next : Nat} (h : Reachable code starts position)
      (hleads : Leads code position next) : Reachable code starts next

theorem IsAt.lt {position offset : Nat} (h : IsAt code position offset) :
    position < code.length := by
  obtain ⟨located, hlocated, -⟩ := h
  exact (List.getElem?_eq_some_iff.1 hlocated).1

theorem IsAt.unique (hcode : (code.map Located.offset).Nodup) {position other offset : Nat}
    (h : IsAt code position offset) (hother : IsAt code other offset) : position = other := by
  obtain ⟨located, hlocated, rfl⟩ := h
  obtain ⟨second, hsecond, heq⟩ := hother
  have hposition : position < (code.map Located.offset).length := by
    rw [List.length_map]
    exact (List.getElem?_eq_some_iff.1 hlocated).1
  refine (List.getElem?_inj hposition hcode).1 ?_
  rw [List.getElem?_map, List.getElem?_map, hlocated, hsecond]
  exact congrArg some heq.symm

end StackDepth

/-- The search looks up the position of the instruction at an offset. -/
theorem OffsetIndex.find_eq_ok_iff {code : List Located}
    (hcode : (code.map Located.offset).Nodup) {offset position : Nat} :
    (ofCode code).find offset = .ok position ↔ StackDepth.IsAt code position offset := by
  have hfind : ∀ position offset, StackDepth.IsAt code position offset →
      (ofCode code).find offset = .ok position := by
    rintro position _ ⟨located, hlocated, rfl⟩
    have hmem : (located, position) ∈ code.zipIdx := List.mem_zipIdx_iff_getElem?.2 hlocated
    have hget : (ofCode code)[located.offset]? = some position := by
      refine Std.TreeMap.getElem?_ofList_of_mem (Nat.compare_eq_eq.2 rfl) ?_
        (List.mem_map_of_mem hmem)
      rw [← List.zipIdx_map_fst 0 code, List.map_map] at hcode
      exact List.pairwise_map.2 ((List.pairwise_map.1 hcode).imp (by simp))
    rw [find, hget]
  refine ⟨fun h => ?_, hfind position offset⟩
  obtain ⟨located, hlocated, rfl⟩ := OffsetIndex.find_eq_ok h
  obtain ⟨other, hother⟩ := List.getElem?_of_mem hlocated
  have hsame := hfind other located.offset ⟨located, hother, rfl⟩
  rw [h] at hsame
  cases hsame
  exact ⟨located, hother, rfl⟩

namespace StackDepth
variable {pool : Pool} {code : List Located} {starts : List Nat} {index : OffsetIndex}

namespace Search

/-- The depth found for a position so far. -/
def depth? (search : Search) (position : Nat) : Option UInt16 :=
  search.depths[position]?.join

/-- A search with depths for further positions. Of several depths for one position the first
counts, and none counts where there is one already. -/
structure Reaches (search : Search) (places : List (Nat × UInt16)) (next : Search) : Prop where
  size : next.depths.size = search.depths.size
  keeps : ∀ position depth, search.depth? position = some depth →
    next.depth? position = some depth
  source : ∀ position depth, next.depth? position = some depth →
    search.depth? position = some depth ∨ (position, depth) ∈ places
  known : ∀ place ∈ places, place.1 < search.depths.size → (next.depth? place.1).isSome = true
  pending : ∃ fresh, next.pending = fresh ++ search.pending ∧ fresh.Nodup ∧
    ∀ position, position ∈ fresh ↔
      (next.depth? position).isSome = true ∧ search.depth? position = none

variable {search middle next found : Search} {places others entries : List (Nat × UInt16)}

theorem lt_of_depth? {position : Nat} {depth : UInt16} (h : search.depth? position = some depth) :
    position < search.depths.size := by
  obtain ⟨hlt, -⟩ := Array.getElem?_eq_some_iff.1 (Option.join_eq_some_iff.1 h)
  exact hlt

theorem Reaches.refl (search : Search) : Reaches search [] search :=
  ⟨rfl, fun _ _ => id, fun _ _ => .inl, nofun, [], rfl, List.nodup_nil,
    by simp +contextual [Option.isSome_iff_ne_none]⟩

theorem Reaches.isSome (h : Reaches search places next) {position : Nat}
    (hposition : (search.depth? position).isSome = true) :
    (next.depth? position).isSome = true := by
  obtain ⟨depth, hdepth⟩ := Option.isSome_iff_exists.1 hposition
  rw [h.keeps position depth hdepth]
  rfl

theorem Reaches.append (h : Reaches search places middle) (hothers : Reaches middle others next) :
    Reaches search (places ++ others) next := by
  obtain ⟨fresh, hfresh, hnodup, hmem⟩ := h.pending
  obtain ⟨fresh', hfresh', hnodup', hmem'⟩ := hothers.pending
  have hlost : ∀ position, middle.depth? position = none → search.depth? position = none := by
    intro position hnone
    have hunknown := mt h.isSome (by rw [hnone]; exact Bool.false_ne_true)
    exact Option.not_isSome_iff_eq_none.1 hunknown
  constructor
  case size => exact hothers.size.trans h.size
  case keeps =>
    exact fun position depth hdepth => hothers.keeps position depth (h.keeps position depth hdepth)
  case source =>
    intro position depth hdepth
    rcases hothers.source position depth hdepth with hmiddle | hplace
    · exact (h.source position depth hmiddle).imp_right (List.mem_append_left _)
    · exact .inr (List.mem_append_right _ hplace)
  case known =>
    intro place hplace hlt
    rcases List.mem_append.1 hplace with hplace | hplace
    · exact hothers.isSome (h.known place hplace hlt)
    · exact hothers.known place hplace (h.size.symm ▸ hlt)
  case pending =>
    refine ⟨fresh' ++ fresh, by rw [hfresh', hfresh, List.append_assoc], ?_, fun position => ?_⟩
    · refine List.nodup_append.2 ⟨hnodup', hnodup, fun a ha b hb heq => ?_⟩
      have hnone := ((hmem' a).1 ha).2
      have hsome := ((hmem b).1 hb).1
      rw [← heq, hnone] at hsome
      cases hsome
    · rw [List.mem_append, hmem', hmem]
      constructor
      · rintro (⟨hsome, hnone⟩ | ⟨hsome, hnone⟩)
        · exact ⟨hsome, hlost position hnone⟩
        · exact ⟨hothers.isSome hsome, hnone⟩
      · rintro ⟨hsome, hnone⟩
        cases hmiddle : middle.depth? position with
        | none => exact .inl ⟨hsome, rfl⟩
        | some depth => exact .inr ⟨rfl, hnone⟩

/-- A free place takes the depth, and no other place does. -/
theorem depth?_of_free {position : Nat} (depth : UInt16)
    (hfree : search.depths[position]? = some none) (other : Nat) :
    depth? ⟨search.depths.setIfInBounds position (some depth), position :: search.pending⟩ other
      = if position = other then some depth else search.depth? other := by
  obtain ⟨hlt, -⟩ := Array.getElem?_eq_some_iff.1 hfree
  rw [depth?, depth?, Array.getElem?_setIfInBounds, if_pos hlt]
  split <;> rfl

theorem reaches_reach (search : Search) (position : Nat) (depth : UInt16) :
    Reaches search [(position, depth)] (search.reach position depth) := by
  unfold reach
  split
  case h_1 hfree =>
    have hnone : search.depth? position = none := by rw [depth?, hfree]; rfl
    have hdepth := depth?_of_free depth hfree
    refine ⟨by simp, fun other known hknown => ?_, fun other known hknown => ?_,
      fun place hplace _ => ?_, [position], rfl, List.pairwise_singleton _ _, fun other => ?_⟩
    · rw [hdepth, if_neg (by rintro rfl; simp [hnone] at hknown), hknown]
    · rw [hdepth] at hknown
      split at hknown
      case isTrue heq =>
        cases hknown
        exact .inr (by simp [heq])
      case isFalse => exact .inl hknown
    · rw [List.mem_singleton.1 hplace, hdepth, if_pos rfl]
      rfl
    · rw [hdepth, List.mem_singleton]
      constructor
      · rintro rfl
        rw [if_pos rfl]
        exact ⟨rfl, hnone⟩
      · rintro ⟨hsome, hfresh⟩
        by_contra hne
        rw [if_neg (Ne.symm hne), hfresh] at hsome
        cases hsome
  case h_2 hfree =>
    refine ⟨rfl, fun _ _ => id, fun _ _ => .inl, fun place hplace hlt => ?_, [], rfl,
      List.nodup_nil, fun other => ?_⟩
    · rw [List.mem_singleton.1 hplace] at hlt ⊢
      cases hget : search.depths[position] with
      | none => exact absurd (Array.getElem?_eq_some_iff.2 ⟨hlt, hget⟩) hfree
      | some known => simp [depth?, Array.getElem?_eq_some_iff.2 ⟨hlt, hget⟩]
    · simp +contextual [Option.isSome_iff_ne_none]

/-- Depths for offsets are depths for the positions that they are found at. -/
theorem reaches_of_reachAll (h : search.reachAll index entries = .ok found) :
    ∃ places, List.Forall₂ (fun entry place => index.find entry.1 = .ok place.1 ∧
        place.2 = entry.2) entries places ∧ Reaches search places found := by
  induction entries generalizing search with
  | nil =>
    cases h
    exact ⟨[], .nil, .refl _⟩
  | cons entry entries ih =>
    obtain ⟨position, hfind, hrest⟩ := Except.bind_eq_ok_iff.1 h
    obtain ⟨places, hplaces, hreaches⟩ := ih hrest
    exact ⟨(position, entry.2) :: places, .cons ⟨hfind, rfl⟩ hplaces,
      (reaches_reach search position entry.2).append hreaches⟩

theorem exists_reachAll (search : Search)
    (h : ∀ entry ∈ entries, ∃ position, index.find entry.1 = .ok position) :
    ∃ found, search.reachAll index entries = .ok found := by
  induction entries generalizing search with
  | nil => exact ⟨search, rfl⟩
  | cons entry entries ih =>
    obtain ⟨⟨position, hfind⟩, hrest⟩ := List.forall_mem_cons.1 h
    obtain ⟨found, hfound⟩ := ih (search.reach position entry.2) hrest
    exact ⟨found, Except.bind_eq_ok_iff.2 ⟨position, hfind, hfound⟩⟩

end Search

/-- One instruction, followed from the depth that it is reached with. -/
structure Visit where
  position : Nat
  before : UInt16
  effect : StackEffect

namespace Visit

def after (visit : Visit) : UInt16 := visit.before - visit.effect.pops + visit.effect.pushes

/-- The depth that the next instruction is reached with. -/
def next (visit : Visit) (op : Opcode) : UInt16 :=
  if op = Opcode.jsr ∨ op = Opcode.jsrW then visit.before else visit.after

/-- A place that control comes to behind the visited instruction, with the depth there. -/
inductive Hands (code : List Located) (visit : Visit) (located : Located) : Nat × UInt16 → Prop
  | jump {target next : Nat} (htarget : target ∈ located.instruction.targets)
      (hnext : IsAt code next target) : Hands code visit located (next, visit.after)
  | fall (hflow : located.instruction.endsFlow = false) :
      Hands code visit located (visit.position + 1, visit.next located.instruction.opcode)

/-- What a visit does: the instruction takes no more than there is, and all that is behind it has
a depth afterwards. -/
structure Follows (pool : Pool) (code : List Located) (search : Search) (visit : Visit)
    (located : Located) (found : Search) : Prop where
  effect : StackEffect.of pool located.instruction = .ok visit.effect
  pops : visit.effect.pops ≤ visit.before
  reaches : ∃ places, search.Reaches places found ∧
    (∀ place ∈ places, visit.Hands code located place) ∧
    (∀ target ∈ located.instruction.targets, ∃ place ∈ places, IsAt code place.1 target) ∧
    (located.instruction.endsFlow = false → ∃ place ∈ places, place.1 = visit.position + 1)

end Visit

variable {search next found : Search} {position : Nat} {before reached : UInt16}
  {located : Located}

theorem follows_of_follow (hcode : (code.map Located.offset).Nodup)
    (h : follow pool (OffsetIndex.ofCode code) search position before located
      = .ok (next, reached)) :
    ∃ effect, Visit.Follows pool code search ⟨position, before, effect⟩ located next ∧
      reached = max before (Visit.after ⟨position, before, effect⟩) := by
  unfold follow at h
  obtain ⟨effect, heffect, h⟩ := Except.bind_eq_ok_iff.1 h
  dsimp only at h
  split at h
  case isTrue => cases h
  case isFalse hpops =>
    obtain ⟨middle, hmiddle, h⟩ := Except.bind_eq_ok_iff.1 h
    cases h
    obtain ⟨places, hplaces, hreaches⟩ := Search.reaches_of_reachAll hmiddle
    have hfind : ∀ {target place}, (OffsetIndex.ofCode code).find target = .ok place →
        IsAt code place target := (OffsetIndex.find_eq_ok_iff hcode).1
    let visit : Visit := ⟨position, before, effect⟩
    have hjumps : ∀ place ∈ places, visit.Hands code located place := by
      intro place hplace
      obtain ⟨entry, hentry, hposition, hdepth⟩ := Forall₂.exists_of_mem_right hplaces hplace
      obtain ⟨target, htarget, rfl⟩ := List.mem_map.1 hentry
      have hjump : visit.Hands code located (place.1, visit.after) :=
        .jump htarget (hfind hposition)
      rwa [show (place.1, visit.after) = place from Prod.ext rfl hdepth.symm] at hjump
    have htargets : ∀ target ∈ located.instruction.targets,
        ∃ place ∈ places, IsAt code place.1 target := by
      intro target htarget
      obtain ⟨place, hplace, hposition, -⟩ :=
        Forall₂.exists_of_mem_left hplaces (List.mem_map_of_mem htarget)
      exact ⟨place, hplace, hfind hposition⟩
    refine ⟨effect, ⟨heffect, UInt16.not_lt.1 hpops, ?_⟩, rfl⟩
    split
    case isTrue hflow => exact ⟨places, hreaches, hjumps, htargets, by simp [hflow]⟩
    case isFalse hflow =>
      have hfall : visit.Hands code located (position + 1, visit.next located.instruction.opcode) :=
        .fall (Bool.eq_false_iff.2 hflow)
      refine ⟨places ++ [_], hreaches.append (Search.reaches_reach _ _ _), ?_, ?_, ?_⟩
      · exact List.forall_mem_append.2 ⟨hjumps, List.forall_mem_singleton.2 hfall⟩
      · intro target htarget
        obtain ⟨place, hplace, hat⟩ := htargets target htarget
        exact ⟨place, List.mem_append_left _ hplace, hat⟩
      · exact fun _ => ⟨_, List.mem_append_right _ List.mem_cons_self, rfl⟩

namespace Visit.Follows
variable {visit : Visit} (h : visit.Follows pool code search located next)
  (hsize : search.depths.size = code.length) (hlocated : code[visit.position]? = some located)
include h hsize hlocated

/-- Control goes on to whatever a visit gives a depth first. -/
theorem leads (hsome : (next.depth? position).isSome = true)
    (hnone : search.depth? position = none) : Leads code visit.position position := by
  obtain ⟨places, hreaches, hhands, -, -⟩ := h.reaches
  obtain ⟨depth, hdepth⟩ := Option.isSome_iff_exists.1 hsome
  have hlt := Search.lt_of_depth? hdepth
  rw [hreaches.size, hsize] at hlt
  rcases hreaches.source position depth hdepth with hold | hplace
  · exact absurd (hnone.symm.trans hold) nofun
  · cases hhands _ hplace with
    | jump htarget hnext => exact .jump hlocated htarget hnext
    | fall hflow => exact .fall hlocated hflow hlt

/-- All that control goes on to has a depth after a visit. -/
theorem known (hcode : (code.map Located.offset).Nodup)
    (hleads : Leads code visit.position position) : (next.depth? position).isSome = true := by
  obtain ⟨places, hreaches, -, htargets, hfall⟩ := h.reaches
  cases hleads with
  | jump hother htarget hnext =>
    cases hlocated.symm.trans hother
    obtain ⟨place, hplace, hat⟩ := htargets _ htarget
    rw [← hat.unique hcode hnext]
    exact hreaches.known place hplace (hsize.symm ▸ hat.lt)
  | fall hother hflow hnext =>
    cases hlocated.symm.trans hother
    obtain ⟨place, hplace, hposition⟩ := hfall hflow
    rw [← hposition] at hnext ⊢
    exact hreaches.known place hplace (hsize.symm ▸ hnext)

end Visit.Follows

/-- What holds of a search after some visits. -/
structure Searching (pool : Pool) (code : List Located) (starts : List Nat) (search : Search)
    (done : List Visit) : Prop where
  size : search.depths.size = code.length
  nodup : (search.pending ++ done.map Visit.position).Nodup
  known : ∀ position, (search.depth? position).isSome = true ↔
    position ∈ search.pending ++ done.map Visit.position
  visited : ∀ visit ∈ done, search.depth? visit.position = some visit.before ∧
    ∃ located, code[visit.position]? = some located ∧
      StackEffect.of pool located.instruction = .ok visit.effect ∧
      visit.effect.pops ≤ visit.before
  reachable : ∀ position, (search.depth? position).isSome = true → Reachable code starts position
  started : (search.depth? 0).isSome = true ∧ ∀ offset ∈ starts, ∀ position,
    IsAt code position offset → (search.depth? position).isSome = true
  closed : ∀ visit ∈ done, ∀ next, Leads code visit.position next →
    (search.depth? next).isSome = true

namespace Searching
variable {done : List Visit} (h : Searching pool code starts search done)
include h

theorem lt_of_mem {position : Nat}
    (hposition : position ∈ search.pending ++ done.map Visit.position) :
    position < code.length := by
  obtain ⟨depth, hdepth⟩ := Option.isSome_iff_exists.1 ((h.known position).2 hposition)
  exact h.size ▸ Search.lt_of_depth? hdepth

theorem length_le : search.pending.length + done.length ≤ code.length := by
  have hsubset : search.pending ++ done.map Visit.position ⊆ List.range code.length :=
    fun position hposition => List.mem_range.2 (h.lt_of_mem hposition)
  simpa using (h.nodup.subperm hsubset).length_le

theorem of_pending {position : Nat} {pending : List Nat}
    (hpending : search.pending = position :: pending) :
    ∃ before located, search.depth? position = some before ∧ code[position]? = some located := by
  have hmem : position ∈ search.pending ++ done.map Visit.position := by simp [hpending]
  obtain ⟨before, hbefore⟩ := Option.isSome_iff_exists.1 ((h.known position).2 hmem)
  exact ⟨before, _, hbefore, List.getElem?_eq_getElem (h.lt_of_mem hmem)⟩

/-- The law of one visit. -/
theorem step (hcode : (code.map Located.offset).Nodup) {visit : Visit} {pending : List Nat}
    (hpending : search.pending = visit.position :: pending)
    (hlocated : code[visit.position]? = some located)
    (hbefore : search.depth? visit.position = some visit.before)
    (hfollows : visit.Follows pool code { search with pending } located next) :
    Searching pool code starts next (visit :: done) := by
  obtain ⟨places, hreaches, -⟩ := hfollows.reaches
  obtain ⟨fresh, hfresh, hnodup, hmem⟩ := hreaches.pending
  have hkept : ∀ {position}, (search.depth? position).isSome = true →
      (next.depth? position).isSome = true := hreaches.isSome
  have hhere : (search.depth? visit.position).isSome = true := by rw [hbefore]; rfl
  have hmoved : (fresh ++ pending ++ (visit :: done).map Visit.position).Perm
      (fresh ++ (search.pending ++ done.map Visit.position)) := by
    rw [hpending, List.append_assoc]
    exact List.perm_middle.append_left fresh
  constructor
  case size => exact hreaches.size.trans h.size
  case nodup =>
    rw [hfresh, hmoved.nodup_iff]
    refine List.nodup_append.2 ⟨hnodup, h.nodup, fun a ha b hb heq => ?_⟩
    have hsome := (h.known a).2 (heq ▸ hb)
    rw [show search.depth? a = none from ((hmem a).1 ha).2] at hsome
    cases hsome
  case known =>
    intro position
    rw [hfresh, hmoved.mem_iff, List.mem_append, hmem, ← h.known]
    change _ ↔ _ ∧ search.depth? position = none ∨ _
    cases hold : search.depth? position with
    | none => simp
    | some depth => simp [hkept (Option.isSome_iff_exists.2 ⟨depth, hold⟩)]
  case visited =>
    refine List.forall_mem_cons.2 ⟨⟨hreaches.keeps _ _ hbefore, located, hlocated,
      hfollows.effect, hfollows.pops⟩, fun other hother => ?_⟩
    exact (h.visited other hother).imp_left (hreaches.keeps _ _)
  case reachable =>
    intro position hsome
    cases hold : search.depth? position with
    | none =>
      exact (h.reachable visit.position hhere).step (hfollows.leads h.size hlocated hsome hold)
    | some depth => exact h.reachable position (hold ▸ rfl)
  case started =>
    refine ⟨hkept h.started.1, fun offset hoffset position hat => ?_⟩
    exact hkept (h.started.2 offset hoffset position hat)
  case closed =>
    refine List.forall_mem_cons.2 ⟨fun position => hfollows.known h.size hlocated hcode, ?_⟩
    intro other hother position hposition
    exact hkept (h.closed other hother position hposition)

/-- Once nothing is pending, all that control can come to was visited. -/
theorem mem_done_iff (hpending : search.pending = []) {position : Nat} :
    position ∈ done.map Visit.position ↔ Reachable code starts position := by
  have hknown := h.known position
  rw [hpending, List.nil_append] at hknown
  rw [← hknown]
  refine ⟨h.reachable position, fun hreachable => ?_⟩
  clear hknown
  induction hreachable with
  | entry => exact h.started.1
  | start hoffset hat => exact h.started.2 _ hoffset _ hat
  | step _ hleads ih =>
    rw [h.known, hpending, List.nil_append] at ih
    obtain ⟨visit, hvisit, rfl⟩ := List.mem_map.1 ih
    exact h.closed visit hvisit _ hleads

end Searching

/-- Visits one after the other, each of what was pending last. -/
inductive Run (pool : Pool) (code : List Located) : Search → List Visit → Search → Prop
  | nil (search : Search) : Run pool code search [] search
  | cons {search next last : Search} {visit : Visit} {visits : List Visit} {pending : List Nat}
      {located : Located} (hpending : search.pending = visit.position :: pending)
      (hlocated : code[visit.position]? = some located)
      (hbefore : search.depth? visit.position = some visit.before)
      (heffect : StackEffect.of pool located.instruction = .ok visit.effect)
      (hfollow : follow pool (OffsetIndex.ofCode code) { search with pending } visit.position
        visit.before located = .ok (next, max visit.before visit.after))
      (hrest : Run pool code next visits last) : Run pool code search (visit :: visits) last

theorem toNat_max (a b : UInt16) : (max a b).toNat = max a.toNat b.toNat := by
  change (if a ≤ b then b else a).toNat = _
  split
  case isTrue h => exact (Nat.max_eq_right (UInt16.le_iff_toNat_le.1 h)).symm
  case isFalse h =>
    refine (Nat.max_eq_left ?_).symm
    exact Nat.le_of_not_le (mt UInt16.le_iff_toNat_le.2 h)

/-- A limit is the greatest depth in front of and behind visited instructions, if none is under
the depth met before. -/
def Tops (visits : List Visit) (depth limit : Nat) : Prop :=
  IsGreatest (insert depth
    {n | ∃ visit ∈ visits, visit.before.toNat = n ∨ visit.after.toNat = n}) limit

theorem Tops.cons {visits : List Visit} {visit : Visit} {depth limit : Nat}
    (h : Tops visits (max depth (max visit.before.toNat visit.after.toNat)) limit) :
    Tops (visit :: visits) depth limit := by
  obtain ⟨hmem, hbound⟩ := h
  have hmax := hbound (Set.mem_insert _ _)
  constructor
  · rcases hmem with htop | ⟨other, hother, hdepth⟩
    · have hcases : limit = depth ∨ limit = visit.before.toNat ∨ limit = visit.after.toNat := by
        omega
      rcases hcases with hlimit | hlimit
      · exact .inl hlimit
      · exact .inr ⟨visit, List.mem_cons_self, hlimit.imp Eq.symm Eq.symm⟩
    · exact .inr ⟨other, List.mem_cons_of_mem _ hother, hdepth⟩
  · rintro n (rfl | ⟨other, hother, hdepth⟩)
    · omega
    · rcases List.mem_cons.1 hother with rfl | hother
      · omega
      · exact hbound (.inr ⟨other, hother, hdepth⟩)

/-- The number of instructions is fuel enough, and the result is the greatest depth met. -/
theorem Searching.run (hcode : (code.map Located.offset).Nodup) {done : List Visit}
    (h : Searching pool code starts search done) (fuel : Nat) {depth limit : UInt16}
    (hfuel : code.length ≤ fuel + done.length)
    (hdeepest : deepest pool (OffsetIndex.ofCode code) code.toArray fuel search depth
      = .ok limit) :
    ∃ visits last, Run pool code search visits last ∧ last.pending = [] ∧
      Searching pool code starts last (visits.reverse ++ done) ∧
      Tops visits depth.toNat limit.toNat := by
  induction fuel generalizing search done depth with
  | zero =>
    have hlength := h.length_le
    have hpending : search.pending = [] := List.length_eq_zero_iff.1 (by omega)
    cases hdeepest
    exact ⟨[], search, .nil search, hpending, h, by simp [Tops]⟩
  | succ fuel ih =>
    rw [deepest] at hdeepest
    split at hdeepest
    case h_1 hpending =>
      cases hdeepest
      exact ⟨[], search, .nil search, hpending, h, by simp [Tops]⟩
    case h_2 position pending hpending =>
      obtain ⟨before, located, hbefore, hlocated⟩ := h.of_pending hpending
      rw [List.getElem?_toArray, hlocated] at hdeepest
      dsimp only at hdeepest
      rw [show search.depths[position]?.join = some before from hbefore, Option.getD_some]
        at hdeepest
      split at hdeepest
      case h_2 => cases hdeepest
      case h_1 next reached hfollow =>
        obtain ⟨effect, hfollows, rfl⟩ := follows_of_follow hcode hfollow
        have hnext := h.step hcode hpending hlocated hbefore hfollows
        obtain ⟨visits, last, hrun, hlast, hsearching, hlimit⟩ :=
          ih hnext (by rw [List.length_cons]; omega) hdeepest
        refine ⟨⟨position, before, effect⟩ :: visits, last,
          .cons hpending hlocated hbefore hfollows.effect hfollow hrun, hlast, ?_, ?_⟩
        · simpa using hsearching
        · rw [toNat_max, toNat_max] at hlimit
          exact hlimit.cons

end StackDepth

end Embargo
