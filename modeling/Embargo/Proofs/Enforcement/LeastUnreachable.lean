import Embargo.Proofs.Enforcement.Unreachable
import Mathlib.Data.List.Perm.Subperm
import Mathlib.Order.Bounds.Basic
import Mathlib.Order.Set

/-!
Dead code as a least fixpoint. The dead instructions and dropped frames are the least pair that
is closed under three rules: what follows a site is dead, a frame that mentions a dead `new` is
dropped, and what follows from the offset of a dropped frame on is dead. Going over the frames
one by one, in any order, comes to the same pair, after at most one more pass than there are
frames.
-/
namespace Embargo.Unreachable
variable {code : List Marked} {frames : List Frame} {handlers : List Handler}

/-- `next` is behind `marked`, with no entry point from there up to it. -/
def Trails (entries : List Nat) (code : List Marked) (marked next : Marked) : Prop :=
  ∃ between, marked :: (between ++ [next]) <:+: code ∧
    ∀ other ∈ between ++ [next], other.offset ∉ entries

theorem Trails.mem_left {entries : List Nat} {marked next : Marked}
    (h : Trails entries code marked next) : marked ∈ code := by
  obtain ⟨between, hwithin, -⟩ := h
  exact hwithin.subset List.mem_cons_self

theorem Trails.mem_right {entries : List Nat} {marked next : Marked}
    (h : Trails entries code marked next) : next ∈ code := by
  obtain ⟨between, hwithin, -⟩ := h
  exact hwithin.subset (by simp)

/-- All is dead from the head of a row up to the first entry point. -/
def DeadUpTo (entries : List Nat) (dead : Set Nat) (row : List Marked) : Prop :=
  ∀ between next, between ++ [next] <+: row →
    (∀ other ∈ between ++ [next], other.offset ∉ entries) → next.offset ∈ dead

theorem DeadUpTo.of_cons {entries : List Nat} {dead : Set Nat} {marked : Marked}
    {row : List Marked} (h : DeadUpTo entries dead (marked :: row))
    (hfree : marked.offset ∉ entries) : marked.offset ∈ dead ∧ DeadUpTo entries dead row := by
  refine ⟨h [] marked (by simp) (by simpa using hfree), fun between next hbegins hbetween => ?_⟩
  refine h (marked :: between) next ((List.prefix_cons_inj marked).2 hbegins) ?_
  exact List.forall_mem_cons.2 ⟨hfree, hbetween⟩

theorem DeadUpTo.of_trails {entries : List Nat} {dead : Set Nat} {marked : Marked}
    {row : List Marked} (hrow : marked :: row <:+ code)
    (h : ∀ next, Trails entries code marked next → next.offset ∈ dead) :
    DeadUpTo entries dead row := by
  intro between next hbegins hfree
  refine h next ⟨between, ?_, hfree⟩
  exact ((List.prefix_cons_inj marked).2 hbegins).isInfix.trans hrow.isInfix

/-- Instructions and frames to which the rules add nothing, by their offsets. -/
structure Closed (code : List Marked) (frames : List Frame) (handlers : List Handler)
    (dead dropped : Set Nat) : Prop where
  behind_site : ∀ marked next, marked.site.isSome = true →
    Trails (entryPoints code frames handlers) code marked next → next.offset ∈ dead
  mention : ∀ frame ∈ frames, ∀ n ∈ frame.newOffsets, n ∈ code.map Marked.offset → n ∈ dead →
    frame.offset ∈ dropped
  at_frame : ∀ frame ∈ frames, frame.offset ∈ dropped → ∀ marked ∈ code,
    marked.offset = frame.offset → marked.offset ∈ dead
  behind_frame : ∀ frame ∈ frames, frame.offset ∈ dropped → ∀ marked next,
    marked.offset = frame.offset →
    Trails (entryPoints code frames handlers) code marked next → next.offset ∈ dead

/-- The two parts of an answer as sets. -/
def sets (unreachable : Unreachable) : Set Nat × Set Nat :=
  ({offset | offset ∈ unreachable.dead}, {offset | offset ∈ unreachable.dropped})

namespace Settled
variable {unreachable : Unreachable} (h : Settled code frames handlers unreachable)
include h

theorem dead_of_trails {marked next : Marked}
    (hmarked : marked.offset ∈ unreachable.dead ∨ marked.site.isSome = true)
    (htrails : Trails (entryPoints code frames handlers) code marked next) :
    next.offset ∈ unreachable.dead := by
  obtain ⟨between, hwithin, hentries⟩ := htrails
  induction between generalizing marked with
  | nil => exact (h.next marked next hwithin (hentries next (by simp))).2 hmarked
  | cons other between ih =>
    have hpair : [marked, other] <:+: code :=
      (List.prefix_append [marked, other] (between ++ [next])).isInfix.trans hwithin
    have hother := (h.next marked other hpair (hentries other (by simp))).2 hmarked
    refine ih (.inl hother) ?_ fun last hlast => hentries last (List.mem_cons_of_mem _ hlast)
    exact (List.suffix_cons marked _).isInfix.trans hwithin

theorem closed : Closed code frames handlers unreachable.sets.1 unreachable.sets.2 := by
  have hplace : ∀ frame ∈ frames, frame.offset ∈ unreachable.dropped → ∀ marked ∈ code,
      marked.offset = frame.offset → marked.offset ∈ unreachable.dead := by
    intro frame hframe hdropped marked hmarked hoffset
    have hentry : marked.offset ∈ entryPoints code frames handlers := by
      rw [hoffset]
      exact List.mem_append_left _ (List.mem_append_left _ (List.mem_map_of_mem hframe))
    rw [h.entry marked hmarked hentry, hoffset]
    exact hdropped
  refine ⟨fun marked next hsite => h.dead_of_trails (.inr hsite), ?_, hplace, ?_⟩
  · intro frame hframe n hn _ hdead
    exact (h.dropped frame.offset).2 ⟨frame, hframe, rfl, n, hn, hdead⟩
  · intro frame hframe hdropped marked next hoffset htrails
    have hdead := hplace frame hframe hdropped marked htrails.mem_left hoffset
    exact h.dead_of_trails (.inl hdead) htrails

end Settled

section Least
variable {dead dropped : Set Nat} (h : Closed code frames handlers dead dropped)

/-- Frames that a closed pair drops. -/
def DroppedIn (frames : List Frame) (dropped : Set Nat) (offsets : List Nat) : Prop :=
  ∀ offset ∈ offsets, offset ∈ dropped ∧ ∃ frame ∈ frames, frame.offset = offset

include h

/-- What is dead at the head of a row makes dead what trails it. -/
theorem Closed.of_here {offsets : List Nat} (hoffsets : DroppedIn frames dropped offsets)
    {isEntry : Nat → Bool}
    (hentry : ∀ offset, isEntry offset = true ↔ offset ∈ entryPoints code frames handlers)
    {marked : Marked} {rest : List Marked} (hrow : marked :: rest <:+ code) {flag : Bool}
    (hflag : flag = true → DeadUpTo (entryPoints code frames handlers) dead (marked :: rest))
    (hhere : here isEntry offsets.contains flag marked = true) :
    marked.offset ∈ dead ∧ DeadUpTo (entryPoints code frames handlers) dead rest := by
  unfold here at hhere
  split at hhere
  case isTrue =>
    rw [List.contains_iff_mem] at hhere
    obtain ⟨hmem, frame, hframe, hoffset⟩ := hoffsets _ hhere
    rw [← hoffset] at hmem
    have hmarked : marked ∈ code := hrow.subset List.mem_cons_self
    refine ⟨h.at_frame frame hframe hmem marked hmarked hoffset.symm, ?_⟩
    exact .of_trails hrow fun next => h.behind_frame frame hframe hmem marked next hoffset.symm
  case isFalse hfree => exact (hflag hhere).of_cons (mt (hentry _).2 hfree)

/-- The rest of the code, where control in front of it is dead only if that is settled up to
the next entry point. -/
theorem Closed.deadFrom_subset {offsets : List Nat} (hoffsets : DroppedIn frames dropped offsets)
    {isEntry : Nat → Bool}
    (hentry : ∀ offset, isEntry offset = true ↔ offset ∈ entryPoints code frames handlers)
    {rest : List Marked} (hrest : rest <:+ code) {flag : Bool}
    (hflag : flag = true → DeadUpTo (entryPoints code frames handlers) dead rest) :
    ∀ offset ∈ deadFrom isEntry offsets.contains flag rest, offset ∈ dead := by
  induction rest generalizing flag with
  | nil => exact fun _ hmem => absurd hmem List.not_mem_nil
  | cons marked rest ih =>
    have hhere := h.of_here hoffsets hentry hrest hflag
    intro offset hoffset
    rw [deadFrom, List.mem_append] at hoffset
    rcases hoffset with hoffset | hoffset
    · split at hoffset
      case isTrue hdead =>
        rw [List.mem_singleton.1 hoffset]
        exact (hhere hdead).1
      case isFalse => exact absurd hoffset List.not_mem_nil
    · refine ih ((List.suffix_cons marked rest).trans hrest) (fun hor => ?_) offset hoffset
      rcases Bool.or_eq_true_iff.1 hor with hdead | hsite
      · exact (hhere hdead).2
      · exact .of_trails hrest fun next => h.behind_site marked next hsite

theorem Closed.deadGiven_subset {isEntry : Nat → Bool}
    (hentry : ∀ offset, isEntry offset = true ↔ offset ∈ entryPoints code frames handlers)
    {offsets : List Nat} (hoffsets : DroppedIn frames dropped offsets) :
    ∀ offset ∈ deadGiven isEntry code offsets, offset ∈ dead := by
  rw [deadGiven_eq]
  exact h.deadFrom_subset hoffsets hentry (List.suffix_refl code) nofun

theorem Closed.droppedGiven_subset {offsets : List Nat}
    (hoffsets : ∀ offset ∈ offsets, offset ∈ dead ∧ offset ∈ code.map Marked.offset) :
    DroppedIn frames dropped (droppedGiven frames offsets) := by
  intro offset hoffset
  obtain ⟨frame, hframe, rfl, n, hn, hmem⟩ := mem_droppedGiven.1 hoffset
  obtain ⟨hdead, hplace⟩ := hoffsets n hmem
  exact ⟨h.mention frame hframe n hn hplace hdead, frame, hframe, rfl⟩

/-- Rounds that start in a closed pair stay in it. -/
theorem Closed.settle_subset {isEntry : Nat → Bool}
    (hentry : ∀ offset, isEntry offset = true ↔ offset ∈ entryPoints code frames handlers)
    (fuel : Nat) {offsets : List Nat} (hoffsets : DroppedIn frames dropped offsets) :
    (∀ offset ∈ (settle isEntry code frames fuel offsets).dead, offset ∈ dead) ∧
      ∀ offset ∈ (settle isEntry code frames fuel offsets).dropped, offset ∈ dropped := by
  induction fuel generalizing offsets with
  | zero => exact ⟨h.deadGiven_subset hentry hoffsets, fun offset hmem => (hoffsets offset hmem).1⟩
  | succ fuel ih =>
    have hdead := h.deadGiven_subset hentry hoffsets
    rw [settle]
    split
    case isTrue => exact ⟨hdead, fun offset hmem => (hoffsets offset hmem).1⟩
    case isFalse =>
      refine ih (h.droppedGiven_subset fun offset hmem => ⟨hdead offset hmem, ?_⟩)
      rw [deadGiven_eq] at hmem
      exact mem_of_mem_deadFrom hmem

end Least

theorem contains_entryPoints (offset : Nat) :
    (Std.TreeSet.ofList (entryPoints code frames handlers)).contains offset = true ↔
      offset ∈ entryPoints code frames handlers := by
  rw [Std.TreeSet.contains_ofList, List.contains_iff_mem]

/-- Only which frames there are matters. -/
theorem Closed.congr {frames' : List Frame} (hframes : ∀ frame, frame ∈ frames ↔ frame ∈ frames')
    {dead dropped : Set Nat} (h : Closed code frames handlers dead dropped) :
    Closed code frames' handlers dead dropped := by
  have hentry : ∀ offset, offset ∈ entryPoints code frames handlers ↔
      offset ∈ entryPoints code frames' handlers := by
    simp [entryPoints, hframes]
  have htrails : ∀ marked next, Trails (entryPoints code frames' handlers) code marked next →
      Trails (entryPoints code frames handlers) code marked next := by
    rintro marked next ⟨between, hwithin, hfree⟩
    exact ⟨between, hwithin, fun other hother hmem => hfree other hother ((hentry _).1 hmem)⟩
  refine ⟨fun marked next hsite hnext => h.behind_site marked next hsite (htrails _ _ hnext),
    fun frame hframe => h.mention frame ((hframes frame).2 hframe),
    fun frame hframe => h.at_frame frame ((hframes frame).2 hframe), ?_⟩
  intro frame hframe hdropped marked next hoffset hnext
  exact h.behind_frame frame ((hframes frame).2 hframe) hdropped marked next hoffset
    (htrails _ _ hnext)

theorem closed_congr {frames' : List Frame} (h : ∀ frame, frame ∈ frames ↔ frame ∈ frames') :
    {pair : Set Nat × Set Nat | Closed code frames handlers pair.1 pair.2}
      = {pair | Closed code frames' handlers pair.1 pair.2} :=
  Set.ext fun _ => ⟨Closed.congr h, Closed.congr fun frame => (h frame).symm⟩

theorem isLeast_ofCode (hcode : (code.map Marked.offset).Nodup) :
    IsLeast {pair : Set Nat × Set Nat | Closed code frames handlers pair.1 pair.2}
      (ofCode code frames handlers).sets := by
  refine ⟨(settled_ofCode hcode).closed, fun pair hpair => ?_⟩
  exact Closed.settle_subset hpair contains_entryPoints (frames.length + 1)
    fun _ hmem => absurd hmem List.not_mem_nil

/-- The rounds end before their number runs out. -/
theorem settle_add {isEntry : Nat → Bool} (fuel more : Nat) (dropped : List Nat)
    (hgrow : dropped.Sublist (droppedGiven frames (deadGiven isEntry code dropped)))
    (hfuel : frames.length < fuel + dropped.length) :
    settle isEntry code frames (fuel + more) dropped = settle isEntry code frames fuel dropped := by
  have hlength : (droppedGiven frames (deadGiven isEntry code dropped)).length ≤ frames.length := by
    rw [droppedGiven_eq, List.length_map]
    exact List.length_filter_le _ _
  induction fuel generalizing dropped with
  | zero =>
    have hle := hgrow.length_le
    omega
  | succ fuel ih =>
    rw [Nat.succ_add, settle, settle]
    split
    case isTrue => rfl
    case isFalse hmore =>
      have hle := hgrow.length_le
      refine ih _ (droppedGiven_mono (deadGiven_mono hgrow.subset)) (by omega) ?_
      rw [droppedGiven_eq, List.length_map]
      exact List.length_filter_le _ _

/-- The offsets from that of an instruction on, up to the next entry point. -/
def stretch (entries : List Nat) (code : List Marked) (offset : Nat) : List Nat :=
  match code.dropWhile (·.offset ≠ offset) with
  | [] => []
  | marked :: rest => marked.offset :: (rest.takeWhile (·.offset ∉ entries)).map Marked.offset

/-- Before any frame is looked at, all is dead that trails a site. -/
def behindSites (entries : List Nat) (code : List Marked) (sites : List Nat) : Unreachable where
  dead := sites.flatMap fun site => (stretch entries code site).tail
  dropped := []

/-- Whether a frame that stays so far mentions something dead. -/
def Fires (unreachable : Unreachable) (frame : Frame) : Prop :=
  frame.offset ∉ unreachable.dropped ∧ ∃ n ∈ frame.newOffsets, n ∈ unreachable.dead

instance (unreachable : Unreachable) (frame : Frame) : Decidable (unreachable.Fires frame) :=
  inferInstanceAs (Decidable (_ ∧ _))

/-- What one frame adds to the answer so far, for itself and for the frames behind it. -/
def visit (entries : List Nat) (code : List Marked) (unreachable : Unreachable) (frame : Frame) :
    Unreachable :=
  if unreachable.Fires frame then
    { dead := stretch entries code frame.offset ++ unreachable.dead
      dropped := frame.offset :: unreachable.dropped }
  else unreachable

/-- Passes over the frames until one drops none. -/
def passes (entries : List Nat) (code : List Marked) (frames : List Frame) :
    Nat → Unreachable → Option Unreachable
  | 0, _ => none
  | more + 1, unreachable =>
    let next := frames.foldl (visit entries code) unreachable
    if next.dropped.length = unreachable.dropped.length then some next
    else passes entries code frames more next

section Stretch
variable {entries : List Nat}

theorem mem_takeWhile_iff {free : Marked → Bool} {rest : List Marked} {next : Marked} :
    next ∈ rest.takeWhile free ↔
      ∃ between, between ++ [next] <+: rest ∧ ∀ other ∈ between ++ [next], free other = true := by
  induction rest with
  | nil => simp
  | cons marked rest ih =>
    rw [List.takeWhile_cons]
    constructor
    · intro hnext
      split at hnext
      case isFalse => exact absurd hnext List.not_mem_nil
      case isTrue hfree =>
        rcases List.mem_cons.1 hnext with rfl | hnext
        · exact ⟨[], by simp, by simpa using hfree⟩
        · obtain ⟨between, hbegins, hall⟩ := ih.1 hnext
          exact ⟨marked :: between, (List.prefix_cons_inj marked).2 hbegins,
            List.forall_mem_cons.2 ⟨hfree, hall⟩⟩
    · rintro ⟨between, hbegins, hall⟩
      cases between with
      | nil =>
        rw [List.nil_append, List.cons_prefix_cons] at hbegins
        simp [← hbegins.1, hall next (by simp)]
      | cons first between =>
        rw [List.cons_append, List.cons_prefix_cons] at hbegins
        obtain ⟨hfree, hrest⟩ := List.forall_mem_cons.1 hall
        rw [← hbegins.1, if_pos hfree]
        exact List.mem_cons_of_mem _ (ih.2 ⟨between, hbegins.2, hrest⟩)

theorem offset_of_dropWhile {offset : Nat} {found : Marked} {rest : List Marked}
    (h : code.dropWhile (·.offset ≠ offset) = found :: rest) : found.offset = offset := by
  induction code with
  | nil => cases h
  | cons first code ih =>
    rw [List.dropWhile_cons] at h
    split at h
    case isTrue => exact ih h
    case isFalse hfirst =>
      rw [(List.cons.inj h).1] at hfirst
      exact not_not.1 (mt decide_eq_true hfirst)

theorem exists_dropWhile {marked : Marked} (hmarked : marked ∈ code) :
    ∃ found rest, code.dropWhile (·.offset ≠ marked.offset) = found :: rest := by
  induction code with
  | nil => exact absurd hmarked List.not_mem_nil
  | cons first code ih =>
    rw [List.dropWhile_cons]
    split
    case isFalse => exact ⟨first, code, rfl⟩
    case isTrue hne =>
      refine ih (Or.resolve_left (List.mem_cons.1 hmarked) ?_)
      rintro rfl
      exact of_decide_eq_true hne rfl

/-- What starts with an instruction is where that instruction is. -/
theorem prefix_of_dropWhile (hcode : (code.map Marked.offset).Nodup) {marked found : Marked}
    {behind rest : List Marked} (hwithin : marked :: behind <:+: code)
    (hfound : code.dropWhile (·.offset ≠ marked.offset) = found :: rest) : behind <+: rest := by
  induction code with
  | nil => exact absurd hwithin (by simp)
  | cons first code ih =>
    obtain ⟨hfirst, hrest⟩ := List.nodup_cons.1 hcode
    rw [List.dropWhile_cons] at hfound
    rcases List.infix_cons_iff.1 hwithin with hbegins | hwithin
    · obtain ⟨rfl, hbehind⟩ := List.cons_prefix_cons.1 hbegins
      rw [if_neg (by simp)] at hfound
      rwa [(List.cons.inj hfound).2] at hbehind
    · have hne : first.offset ≠ marked.offset := by
        intro heq
        exact hfirst (heq ▸ List.mem_map_of_mem (hwithin.subset List.mem_cons_self))
      rw [if_pos (decide_eq_true hne)] at hfound
      exact ih hrest hwithin hfound

theorem mem_stretch_self (entries : List Nat) {marked : Marked} (hmarked : marked ∈ code) :
    marked.offset ∈ stretch entries code marked.offset := by
  obtain ⟨found, rest, hfound⟩ := exists_dropWhile hmarked
  rw [stretch, hfound, ← offset_of_dropWhile hfound]
  exact List.mem_cons_self

theorem mem_tail_of_trails (hcode : (code.map Marked.offset).Nodup) {marked next : Marked}
    (h : Trails entries code marked next) :
    next.offset ∈ (stretch entries code marked.offset).tail := by
  obtain ⟨found, rest, hfound⟩ := exists_dropWhile h.mem_left
  obtain ⟨between, hwithin, hfree⟩ := h
  rw [stretch, hfound]
  refine List.mem_map_of_mem (mem_takeWhile_iff.2 ⟨between, ?_, by simpa using hfree⟩)
  exact prefix_of_dropWhile hcode hwithin hfound

theorem exists_trails_of_mem_tail {offset place : Nat}
    (h : place ∈ (stretch entries code offset).tail) :
    ∃ marked next, Trails entries code marked next ∧ marked.offset = offset ∧
      next.offset = place := by
  unfold stretch at h
  split at h
  case h_1 => exact absurd h List.not_mem_nil
  case h_2 marked rest hfound =>
    have hsuffix : marked :: rest <:+ code := hfound ▸ List.dropWhile_suffix _
    obtain ⟨next, hnext, rfl⟩ := List.mem_map.1 h
    obtain ⟨between, hbegins, hfree⟩ := mem_takeWhile_iff.1 hnext
    refine ⟨marked, next, ⟨between, ?_, by simpa using hfree⟩, offset_of_dropWhile hfound, rfl⟩
    exact ((List.prefix_cons_inj marked).2 hbegins).isInfix.trans hsuffix.isInfix

theorem exists_of_mem_stretch {offset place : Nat} (h : place ∈ stretch entries code offset) :
    (∃ marked ∈ code, marked.offset = offset ∧ place = offset) ∨
      place ∈ (stretch entries code offset).tail := by
  unfold stretch at h ⊢
  split at h
  case h_1 => exact absurd h List.not_mem_nil
  case h_2 marked rest hfound =>
    have hsuffix : marked :: rest <:+ code := hfound ▸ List.dropWhile_suffix _
    have hoffset := offset_of_dropWhile hfound
    exact (List.mem_cons.1 h).imp
      (fun hplace => ⟨marked, hsuffix.subset List.mem_cons_self, hoffset, hplace.trans hoffset⟩) id

end Stretch

/-- What holds of the answer so far while frames are gone over. -/
structure Going (code : List Marked) (frames : List Frame) (handlers : List Handler)
    (unreachable : Unreachable) : Prop where
  needed : ∀ dead dropped, Closed code frames handlers dead dropped →
    (∀ offset ∈ unreachable.dead, offset ∈ dead) ∧
      ∀ offset ∈ unreachable.dropped, offset ∈ dropped
  dead : unreachable.dead ⊆ code.map Marked.offset
  nodup : unreachable.dropped.Nodup
  dropped : unreachable.dropped ⊆ frames.map Frame.offset
  behind_site : ∀ marked ∈ code, marked.site.isSome = true →
    (stretch (entryPoints code frames handlers) code marked.offset).tail ⊆ unreachable.dead
  from_frame : ∀ offset ∈ unreachable.dropped,
    stretch (entryPoints code frames handlers) code offset ⊆ unreachable.dead

theorem going_behindSites (hcode : (code.map Marked.offset).Nodup) {sites : List Nat}
    (hsites : ∀ offset, offset ∈ sites ↔
      ∃ marked ∈ code, marked.site.isSome = true ∧ marked.offset = offset) :
    Going code frames handlers
      (behindSites (entryPoints code frames handlers) code sites) := by
  have hdead : ∀ place ∈ (behindSites (entryPoints code frames handlers) code sites).dead,
      ∃ marked next, marked.site.isSome = true ∧
        Trails (entryPoints code frames handlers) code marked next ∧ next.offset = place := by
    intro place hplace
    obtain ⟨site, hsite, hplace⟩ := List.mem_flatMap.1 hplace
    obtain ⟨marked, hmarked, hsome, rfl⟩ := (hsites site).1 hsite
    obtain ⟨first, next, htrails, hoffset, hnext⟩ := exists_trails_of_mem_tail hplace
    have hsame : first = marked :=
      List.inj_on_of_nodup_map hcode htrails.mem_left hmarked hoffset
    exact ⟨marked, next, hsome, hsame ▸ htrails, hnext⟩
  refine ⟨fun dead dropped h => ⟨fun place hplace => ?_, nofun⟩, fun place hplace => ?_,
    List.nodup_nil, List.nil_subset _, fun marked hmarked hsome place hplace => ?_, nofun⟩
  · obtain ⟨marked, next, hsome, htrails, rfl⟩ := hdead place hplace
    exact h.behind_site marked next hsome htrails
  · obtain ⟨marked, next, -, htrails, rfl⟩ := hdead place hplace
    exact List.mem_map_of_mem htrails.mem_right
  · exact List.mem_flatMap.2 ⟨_, (hsites _).2 ⟨marked, hmarked, hsome, rfl⟩, hplace⟩

namespace Going
variable {unreachable : Unreachable} (h : Going code frames handlers unreachable)
include h

theorem visit {frame : Frame} (hframe : frame ∈ frames) :
    Going code frames handlers
      (unreachable.visit (entryPoints code frames handlers) code frame) := by
  unfold Unreachable.visit
  split
  case isFalse => exact h
  case isTrue hfires =>
    obtain ⟨hfresh, n, hn, hmention⟩ := hfires
    refine ⟨fun dead dropped hclosed => ?_, ?_, ?_, ?_, ?_, ?_⟩
    · obtain ⟨hdead, hdropped⟩ := h.needed dead dropped hclosed
      have hmem := hclosed.mention frame hframe n hn (h.dead hmention) (hdead n hmention)
      refine ⟨fun place hplace => ?_, List.forall_mem_cons.2 ⟨hmem, hdropped⟩⟩
      rcases List.mem_append.1 hplace with hplace | hplace
      · rcases exists_of_mem_stretch hplace with ⟨marked, hmarked, hoffset, hsame⟩ | hplace
        · rw [hsame, ← hoffset]
          exact hclosed.at_frame frame hframe hmem marked hmarked hoffset
        · obtain ⟨marked, next, htrails, hoffset, rfl⟩ := exists_trails_of_mem_tail hplace
          exact hclosed.behind_frame frame hframe hmem marked next hoffset htrails
      · exact hdead place hplace
    · refine List.append_subset.2 ⟨fun place hplace => ?_, h.dead⟩
      rcases exists_of_mem_stretch hplace with ⟨marked, hmarked, hoffset, hsame⟩ | hplace
      · rw [hsame, ← hoffset]
        exact List.mem_map_of_mem hmarked
      · obtain ⟨marked, next, htrails, -, rfl⟩ := exists_trails_of_mem_tail hplace
        exact List.mem_map_of_mem htrails.mem_right
    · exact List.nodup_cons.2 ⟨hfresh, h.nodup⟩
    · exact List.cons_subset.2 ⟨List.mem_map_of_mem hframe, h.dropped⟩
    · intro marked hmarked hsome
      exact List.Subset.trans (h.behind_site marked hmarked hsome) (List.subset_append_right _ _)
    · refine List.forall_mem_cons.2 ⟨List.subset_append_left _ _, fun offset hoffset => ?_⟩
      exact List.Subset.trans (h.from_frame offset hoffset) (List.subset_append_right _ _)

theorem foldl {part : List Frame} (hpart : part ⊆ frames) :
    Going code frames handlers
      (part.foldl (Unreachable.visit (entryPoints code frames handlers) code) unreachable) := by
  induction part generalizing unreachable with
  | nil => exact h
  | cons frame part ih =>
    obtain ⟨hframe, hpart⟩ := List.cons_subset.1 hpart
    exact ih (h.visit hframe) hpart

theorem length_le : unreachable.dropped.length ≤ frames.length := by
  have hle := (h.nodup.subperm h.dropped).length_le
  rwa [List.length_map] at hle

end Going

/-- A pass that drops no frame has nothing to add. -/
theorem foldl_visit (entries : List Nat) (code : List Marked) (frames : List Frame)
    (unreachable : Unreachable) :
    let next := frames.foldl (visit entries code) unreachable
    unreachable.dropped.length ≤ next.dropped.length ∧
      (next.dropped.length = unreachable.dropped.length →
        next = unreachable ∧ ∀ frame ∈ frames, ¬unreachable.Fires frame) := by
  induction frames generalizing unreachable with
  | nil => exact ⟨le_rfl, fun _ => ⟨rfl, nofun⟩⟩
  | cons frame frames ih =>
    obtain ⟨hle, hsame⟩ := ih (unreachable.visit entries code frame)
    simp only [List.foldl_cons]
    by_cases hfires : unreachable.Fires frame
    · have hgrows : (unreachable.visit entries code frame).dropped.length
          = unreachable.dropped.length + 1 := by
        simp [visit, hfires]
      refine ⟨by omega, fun hlength => absurd hlength (by omega)⟩
    · have hstays : unreachable.visit entries code frame = unreachable := if_neg hfires
      rw [hstays] at hle hsame ⊢
      refine ⟨hle, fun hlength => ⟨(hsame hlength).1, ?_⟩⟩
      exact List.forall_mem_cons.2 ⟨hfires, (hsame hlength).2⟩

/-- Each pass but the last drops a frame. -/
theorem Going.passes {unreachable : Unreachable} (h : Going code frames handlers unreachable)
    (more : Nat) (hmore : frames.length < more + unreachable.dropped.length) :
    ∃ last, passes (entryPoints code frames handlers) code frames more unreachable = some last ∧
      Going code frames handlers last ∧ ∀ frame ∈ frames, ¬last.Fires frame := by
  induction more generalizing unreachable with
  | zero =>
    have hle := h.length_le
    omega
  | succ more ih =>
    obtain ⟨hle, hsame⟩ := foldl_visit (entryPoints code frames handlers) code frames
      unreachable
    have hnext := h.foldl (List.Subset.refl frames)
    simp only [Unreachable.passes]
    split
    case isTrue hlength =>
      refine ⟨_, rfl, hnext, ?_⟩
      rw [(hsame hlength).1]
      exact (hsame hlength).2
    case isFalse hlength => exact ih hnext (by omega)

theorem Going.isLeast (hcode : (code.map Marked.offset).Nodup) {unreachable : Unreachable}
    (h : Going code frames handlers unreachable)
    (hnone : ∀ frame ∈ frames, ¬unreachable.Fires frame) :
    IsLeast {pair : Set Nat × Set Nat | Closed code frames handlers pair.1 pair.2}
      unreachable.sets := by
  refine ⟨⟨fun marked next hsome htrails => ?_, fun frame hframe n hn _ hdead => ?_,
    fun frame hframe hdropped marked hmarked hoffset => ?_,
    fun frame hframe hdropped marked next hoffset htrails => ?_⟩, fun pair hpair => ?_⟩
  · exact h.behind_site marked htrails.mem_left hsome (mem_tail_of_trails hcode htrails)
  · by_contra hfresh
    exact hnone frame hframe ⟨hfresh, n, hn, hdead⟩
  · have hself := mem_stretch_self (entryPoints code frames handlers) hmarked
    rw [hoffset] at hself ⊢
    exact h.from_frame frame.offset hdropped (hoffset ▸ hself)
  · have htail := mem_tail_of_trails hcode htrails
    rw [hoffset] at htail
    exact h.from_frame frame.offset hdropped (List.mem_of_mem_tail htail)
  · exact h.needed pair.1 pair.2 hpair

/-- The dead instructions and dropped frames are the least pair that is closed under the rules,
whatever the order of the frames. Going over the frames one after the other from the sites, each in
any order, comes to them within one more pass than there are frames, as the rounds do. -/
theorem ofCode_least (code : List Marked) (frames : List Frame) (handlers : List Handler)
    (hcode : (code.map Marked.offset).Nodup) :
    IsLeast {pair : Set Nat × Set Nat | Closed code frames handlers pair.1 pair.2}
        (ofCode code frames handlers).sets ∧
      (∀ frames', frames.Perm frames' →
        (ofCode code frames' handlers).sets = (ofCode code frames handlers).sets) ∧
      (∀ frames' sites, frames.Perm frames' →
        (∀ offset, offset ∈ sites ↔
          ∃ marked ∈ code, marked.site.isSome = true ∧ marked.offset = offset) →
        ∃ last, passes (entryPoints code frames' handlers) code frames' (frames.length + 1)
            (behindSites (entryPoints code frames' handlers) code sites) = some last ∧
          last.sets = (ofCode code frames handlers).sets) ∧
      ∀ rounds, frames.length < rounds →
        settle (Std.TreeSet.ofList (entryPoints code frames handlers)).contains code frames
          rounds [] = ofCode code frames handlers := by
  have hleast : IsLeast {pair : Set Nat × Set Nat | Closed code frames handlers pair.1 pair.2}
      (ofCode code frames handlers).sets := isLeast_ofCode hcode
  refine ⟨hleast, fun frames' hperm => ?_, fun frames' sites hperm hsites => ?_,
    fun rounds hrounds => ?_⟩
  · have hleast' := @isLeast_ofCode code frames' handlers hcode
    rw [← closed_congr fun frame => hperm.mem_iff] at hleast'
    exact hleast'.unique hleast
  · have hstart : Going code frames' handlers
        (behindSites (entryPoints code frames' handlers) code sites) :=
      going_behindSites hcode hsites
    obtain ⟨last, hlast, hgoing, hnone⟩ := hstart.passes (frames.length + 1) (by
      rw [hperm.length_eq]
      omega)
    have hleast' := hgoing.isLeast hcode hnone
    rw [← closed_congr fun frame => hperm.mem_iff] at hleast'
    exact ⟨last, hlast, hleast'.unique hleast⟩
  · obtain ⟨more, rfl⟩ := Nat.exists_eq_add_of_le hrounds
    exact settle_add (frames.length + 1) more [] (List.nil_sublist _) (by simp)

/-- A site, then `new` twice, a throw, and a handler. -/
def chainCode : List Marked :=
  [⟨⟨0, .indexed Opcode.invokeStatic 1⟩, some ⟨.call, ⟨"a/A", "b", "()V"⟩⟩⟩,
    ⟨⟨3, .indexed Opcode.new 2⟩, none⟩, ⟨⟨6, .indexed Opcode.new 2⟩, none⟩,
    ⟨⟨9, .simple Opcode.athrow⟩, none⟩, ⟨⟨10, .simple Opcode.athrow⟩, none⟩]

/-- Each frame mentions the `new` in front of it. -/
def chainFrames : List Frame := [⟨6, [], [.uninitialized 3]⟩, ⟨9, [], [.uninitialized 6]⟩]

theorem ofCode_least_chain :
    (chainCode.map Marked.offset).Nodup ∧
      ofCode chainCode chainFrames [⟨0, 9, 10, 0⟩] = ⟨[3, 6, 9], [6, 9]⟩ ∧
      IsLeast {pair : Set Nat × Set Nat |
        Closed chainCode chainFrames [⟨0, 9, 10, 0⟩] pair.1 pair.2} ({3, 6, 9}, {6, 9}) ∧
      passes [9, 6, 10] chainCode chainFrames.reverse 2 (behindSites [9, 6, 10] chainCode [0])
        = none ∧
      ∃ last, passes [9, 6, 10] chainCode chainFrames.reverse 3
          (behindSites [9, 6, 10] chainCode [0]) = some last ∧
        last.sets = ({3, 6, 9}, {6, 9}) := by
  have hcode : (chainCode.map Marked.offset).Nodup := by decide
  have hchain : ofCode chainCode chainFrames [⟨0, 9, 10, 0⟩] = ⟨[3, 6, 9], [6, 9]⟩ := by
    decide +kernel
  have hsets : (ofCode chainCode chainFrames [⟨0, 9, 10, 0⟩]).sets = ({3, 6, 9}, {6, 9}) := by
    rw [hchain]
    ext <;> simp [sets]
  obtain ⟨hleast, -, hpasses, -⟩ := ofCode_least chainCode chainFrames [⟨0, 9, 10, 0⟩] hcode
  obtain ⟨last, hlast, heq⟩ := hpasses chainFrames.reverse [0] (List.reverse_perm _).symm
    (by simpa [chainCode, Marked.offset] using fun _ => eq_comm)
  rw [hsets] at hleast heq
  exact ⟨hcode, hchain, hleast, by decide +kernel, last, hlast, heq⟩

end Embargo.Unreachable
