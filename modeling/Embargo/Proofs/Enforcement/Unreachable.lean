import Embargo.Enforcement.Unreachable
import Mathlib.Data.List.Nodup
import Mathlib.Tactic.Common

/-!
Dead code. The rounds end in dead instructions and dropped frames that fit each other:
an entry point is dead exactly if its frame is dropped, anything else exactly if it comes
behind something dead or behind a site, and a frame is dropped exactly if it mentions the
result of a dead `new`.
-/
namespace Embargo.Unreachable
variable {isEntry isDropped : Nat → Bool} {dead : Bool} {code : List Marked}
  {frames : List Frame} {handlers : List Handler}

/-- Whether an instruction is dead, where `dead` tells what control in front of it is. -/
def here (isEntry isDropped : Nat → Bool) (dead : Bool) (marked : Marked) : Bool :=
  if isEntry marked.offset then isDropped marked.offset else dead

/-- The dead instructions of code, from the first to the last. -/
def deadFrom (isEntry isDropped : Nat → Bool) : Bool → List Marked → List Nat
  | _, [] => []
  | dead, marked :: rest =>
    (if here isEntry isDropped dead marked then [marked.offset] else [])
      ++ deadFrom isEntry isDropped (here isEntry isDropped dead marked || marked.site.isSome) rest

theorem deadOnto_eq (done : List Nat) :
    deadOnto isEntry isDropped dead done code
      = done.reverse ++ deadFrom isEntry isDropped dead code := by
  induction code generalizing dead done with
  | nil => simp [deadOnto, deadFrom]
  | cons marked rest ih =>
    rw [deadOnto, ih, deadFrom, here]
    split <;> split <;> simp

theorem mem_of_mem_deadFrom {offset : Nat} (h : offset ∈ deadFrom isEntry isDropped dead code) :
    offset ∈ code.map Marked.offset := by
  induction code generalizing dead with
  | nil => exact absurd h List.not_mem_nil
  | cons marked rest ih =>
    rw [deadFrom, List.mem_append] at h
    rcases h with h | h
    · split at h
      · rw [List.mem_singleton.1 h]
        exact List.mem_cons_self
      · exact absurd h List.not_mem_nil
    · exact List.mem_cons_of_mem _ (ih h)

/-- More dropped frames make more instructions dead. -/
theorem deadFrom_mono {isDropped' : Nat → Bool} {dead' : Bool}
    (hdropped : ∀ offset, isDropped offset = true → isDropped' offset = true)
    (hdead : dead = true → dead' = true) {offset : Nat}
    (h : offset ∈ deadFrom isEntry isDropped dead code) :
    offset ∈ deadFrom isEntry isDropped' dead' code := by
  induction code generalizing dead dead' with
  | nil => exact absurd h List.not_mem_nil
  | cons marked rest ih =>
    have hhere : here isEntry isDropped dead marked = true →
        here isEntry isDropped' dead' marked = true := by
      unfold here
      split
      · exact hdropped _
      · exact hdead
    rw [deadFrom, List.mem_append] at h ⊢
    rcases h with h | h
    · split at h
      case isTrue hmarked =>
        rw [if_pos (hhere hmarked)]
        exact .inl h
      case isFalse => exact absurd h List.not_mem_nil
    · refine .inr (ih ?_ h)
      rw [Bool.or_eq_true, Bool.or_eq_true]
      exact Or.imp_left hhere

section Cons
variable {marked other : Marked} {rest : List Marked}
  (hnodup : ((marked :: rest).map Marked.offset).Nodup)
include hnodup

theorem mem_deadFrom_head :
    marked.offset ∈ deadFrom isEntry isDropped dead (marked :: rest) ↔
      here isEntry isDropped dead marked = true := by
  rw [deadFrom, List.mem_append]
  constructor
  · rintro (h | h)
    · by_contra hlive
      rw [if_neg hlive] at h
      exact absurd h List.not_mem_nil
    · exact absurd (mem_of_mem_deadFrom h) (List.nodup_cons.1 hnodup).1
  · intro h
    rw [if_pos h]
    exact .inl List.mem_cons_self

theorem mem_deadFrom_tail (hother : other ∈ rest) :
    other.offset ∈ deadFrom isEntry isDropped dead (marked :: rest) ↔
      other.offset ∈ deadFrom isEntry isDropped
        (here isEntry isDropped dead marked || marked.site.isSome) rest := by
  rw [deadFrom, List.mem_append, or_iff_right]
  intro h
  split at h
  · have hsame := List.mem_singleton.1 h
    exact (List.nodup_cons.1 hnodup).1 (hsame ▸ List.mem_map_of_mem hother)
  · exact absurd h List.not_mem_nil

end Cons

theorem mem_deadFrom_entry (hnodup : (code.map Marked.offset).Nodup) {marked : Marked}
    (hmarked : marked ∈ code) (hentry : isEntry marked.offset = true) :
    marked.offset ∈ deadFrom isEntry isDropped dead code ↔ isDropped marked.offset = true := by
  induction code generalizing dead with
  | nil => exact absurd hmarked List.not_mem_nil
  | cons first rest ih =>
    rcases List.mem_cons.1 hmarked with rfl | hrest
    · rw [mem_deadFrom_head hnodup, here, if_pos hentry]
    · rw [mem_deadFrom_tail hnodup hrest, ih (List.nodup_cons.1 hnodup).2 hrest]

theorem mem_deadFrom_next (hnodup : (code.map Marked.offset).Nodup) {marked next : Marked}
    (hpair : [marked, next] <:+: code) (hentry : isEntry next.offset = false) :
    next.offset ∈ deadFrom isEntry isDropped dead code ↔
      marked.offset ∈ deadFrom isEntry isDropped dead code ∨ marked.site.isSome = true := by
  obtain ⟨front, back, rfl⟩ := hpair
  rw [List.append_assoc] at hnodup ⊢
  induction front generalizing dead with
  | nil =>
    simp only [List.nil_append, List.cons_append] at hnodup ⊢
    have hrest := (List.nodup_cons.1 hnodup).2
    rw [mem_deadFrom_head hnodup, mem_deadFrom_tail hnodup List.mem_cons_self,
      mem_deadFrom_head hrest]
    conv_lhs => rw [here, hentry]
    simp
  | cons first front ih =>
    simp only [List.cons_append] at hnodup ⊢
    have hrest := (List.nodup_cons.1 hnodup).2
    rw [mem_deadFrom_tail hnodup (by simp), mem_deadFrom_tail hnodup (by simp)]
    exact ih hrest

theorem deadGiven_eq (dropped : List Nat) :
    deadGiven isEntry code dropped = deadFrom isEntry dropped.contains false code := by
  have hcontains : (Std.TreeSet.ofList dropped).contains = dropped.contains :=
    funext fun _ => Std.TreeSet.contains_ofList
  rw [deadGiven, deadOnto_eq, List.reverse_nil, List.nil_append, hcontains]

theorem droppedGiven_eq (dead : List Nat) :
    droppedGiven frames dead
      = (frames.filter fun frame => frame.newOffsets.any dead.contains).map Frame.offset := by
  have hcontains : (Std.TreeSet.ofList dead).contains = dead.contains :=
    funext fun _ => Std.TreeSet.contains_ofList
  simp only [droppedGiven, hcontains]

theorem mem_droppedGiven {dead : List Nat} {offset : Nat} :
    offset ∈ droppedGiven frames dead ↔
      ∃ frame ∈ frames, frame.offset = offset ∧ ∃ n ∈ frame.newOffsets, n ∈ dead := by
  rw [droppedGiven_eq]
  simp only [List.mem_map, List.mem_filter, List.any_eq_true, List.contains_iff_mem]
  exact ⟨fun ⟨frame, ⟨hframe, hnew⟩, hoffset⟩ => ⟨frame, hframe, hoffset, hnew⟩,
    fun ⟨frame, hframe, hoffset, hnew⟩ => ⟨frame, ⟨hframe, hnew⟩, hoffset⟩⟩

/-- More dead instructions drop more frames. -/
theorem droppedGiven_mono {dead dead' : List Nat} (h : dead ⊆ dead') :
    (droppedGiven frames dead).Sublist (droppedGiven frames dead') := by
  rw [droppedGiven_eq, droppedGiven_eq]
  refine (List.monotone_filter_right frames fun frame hany => ?_).map Frame.offset
  simp only [List.any_eq_true, List.contains_iff_mem] at hany ⊢
  obtain ⟨n, hn, hdead⟩ := hany
  exact ⟨n, hn, h hdead⟩

theorem deadGiven_mono {dropped dropped' : List Nat} (h : dropped ⊆ dropped') :
    deadGiven isEntry code dropped ⊆ deadGiven isEntry code dropped' := by
  rw [deadGiven_eq, deadGiven_eq]
  refine fun offset => deadFrom_mono (fun offset hoffset => ?_) id
  rw [List.contains_iff_mem] at hoffset ⊢
  exact h hoffset

/-- The rounds end where neither rule gives anything more. -/
theorem settle_eq (fuel : Nat) (dropped : List Nat)
    (hgrow : dropped.Sublist (droppedGiven frames (deadGiven isEntry code dropped)))
    (hfuel : frames.length < fuel + dropped.length) :
    (settle isEntry code frames fuel dropped).dead
        = deadGiven isEntry code (settle isEntry code frames fuel dropped).dropped ∧
      (settle isEntry code frames fuel dropped).dropped
        = droppedGiven frames (settle isEntry code frames fuel dropped).dead := by
  have hlength : (droppedGiven frames (deadGiven isEntry code dropped)).length ≤ frames.length := by
    rw [droppedGiven_eq, List.length_map]
    exact List.length_filter_le _ _
  induction fuel generalizing dropped with
  | zero =>
    have hle := hgrow.length_le
    omega
  | succ fuel ih =>
    rw [settle]
    split
    case isTrue hsame => exact ⟨rfl, hgrow.eq_of_length hsame.symm⟩
    case isFalse hmore =>
      have hle := hgrow.length_le
      refine ih _ (droppedGiven_mono (deadGiven_mono hgrow.subset)) (by omega) ?_
      rw [droppedGiven_eq, List.length_map]
      exact List.length_filter_le _ _

/-- Dead instructions and dropped frames that fit each other. -/
structure Settled (code : List Marked) (frames : List Frame) (handlers : List Handler)
    (unreachable : Unreachable) : Prop where
  entry : ∀ marked ∈ code, marked.offset ∈ entryPoints code frames handlers →
    (marked.offset ∈ unreachable.dead ↔ marked.offset ∈ unreachable.dropped)
  first : ∀ marked rest, code = marked :: rest →
    marked.offset ∉ entryPoints code frames handlers → marked.offset ∉ unreachable.dead
  next : ∀ marked other, [marked, other] <:+: code →
    other.offset ∉ entryPoints code frames handlers →
    (other.offset ∈ unreachable.dead ↔
      marked.offset ∈ unreachable.dead ∨ marked.site.isSome = true)
  dropped : ∀ offset, offset ∈ unreachable.dropped ↔
    ∃ frame ∈ frames, frame.offset = offset ∧ ∃ n ∈ frame.newOffsets, n ∈ unreachable.dead

theorem settled_ofCode (hnodup : (code.map Marked.offset).Nodup) :
    Settled code frames handlers (ofCode code frames handlers) := by
  have hentry (offset : Nat) :
      (Std.TreeSet.ofList (entryPoints code frames handlers)).contains offset = true ↔
        offset ∈ entryPoints code frames handlers := by
    rw [Std.TreeSet.contains_ofList, List.contains_iff_mem]
  obtain ⟨hdead, hdropped⟩ :
      (ofCode code frames handlers).dead
          = deadGiven _ code (ofCode code frames handlers).dropped ∧
        (ofCode code frames handlers).dropped
          = droppedGiven frames (ofCode code frames handlers).dead :=
    settle_eq (frames.length + 1) [] (List.nil_sublist _) (by simp)
  rw [deadGiven_eq] at hdead
  refine ⟨fun marked hmarked hmem => ?_, fun marked rest hcode hmem => ?_,
    fun marked other hpair hmem => ?_, fun offset => ?_⟩
  · rw [hdead, mem_deadFrom_entry hnodup hmarked ((hentry _).2 hmem), List.contains_iff_mem]
  · subst hcode
    rw [hdead, mem_deadFrom_head hnodup, here, if_neg (mt (hentry _).1 hmem)]
    exact Bool.false_ne_true
  · rw [hdead, mem_deadFrom_next hnodup hpair]
    rwa [← Bool.not_eq_true, hentry]
  · rw [hdropped]
    exact mem_droppedGiven

end Embargo.Unreachable
