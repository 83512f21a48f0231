import Mathlib.Data.Set.Lattice
import Mathlib.Order.Bounds.Basic
import Mathlib.Order.Interval.Set.Defs
import Embargo.Proofs.Enforcement.Span

/-!
Subtracting holes from a span computes a difference of sets. A set of places is the union of at
most one list of spans in which none is empty and each begins beyond the end of the one before it,
and what is left of a span is that list for the places of the span outside the holes.
-/
namespace Embargo.Span
variable {span hole first : Span} {spans others rest holes : List Span} {p : Nat}

/-- The places in a span. -/
def places (span : Span) : Set Nat := Set.Ico span.start span.stop

/-- The places in some spans. -/
def region (spans : List Span) : Set Nat := ⋃ span ∈ spans, span.places

theorem mem_region_iff : p ∈ region spans ↔ ∃ span ∈ spans, span.Contains p := by
  simp only [region, Set.mem_iUnion, exists_prop]
  rfl

theorem region_nil : region [] = ∅ := by
  simp only [region, List.not_mem_nil, Set.iUnion_of_empty, Set.iUnion_empty]

theorem region_cons : region (first :: rest) = first.places ∪ region rest := by
  simp only [region, List.mem_cons, Set.iUnion_iUnion_eq_or_left]

theorem mem_region_iff_holding : p ∈ region spans ↔ 0 < (holding p spans).length := by
  rw [mem_region_iff, holding, List.length_filter_pos_iff]
  simp only [decide_eq_true_eq]

/-- Spans in increasing order, none of which is empty or touches the next. -/
structure Apart (spans : List Span) : Prop where
  nonempty : ∀ span ∈ spans, span.start < span.stop
  gaps : spans.Pairwise fun before after => before.stop < after.start

namespace Apart

theorem tail (h : Apart (first :: rest)) : Apart rest where
  nonempty := (List.forall_mem_cons.1 h.nonempty).2
  gaps := h.gaps.of_cons

/-- No two of the spans have a place in common. -/
theorem inter_eq_empty (h : Apart spans) :
    spans.Pairwise fun before after => before.places ∩ after.places = ∅ := by
  refine h.gaps.imp fun hgap => Set.eq_empty_of_forall_notMem fun p hp => ?_
  have hbefore := Nat.lt_of_le_of_lt hp.2.1 hp.1.2
  exact Nat.lt_irrefl _ (Nat.lt_trans hgap hbefore)

/-- What lies behind the first span begins beyond its end. -/
theorem stop_lt_of_mem_region (h : Apart (first :: rest)) (hp : p ∈ region rest) :
    first.stop < p := by
  obtain ⟨span, hspan, hcontains⟩ := mem_region_iff.1 hp
  exact Nat.lt_of_lt_of_le ((List.pairwise_cons.1 h.gaps).1 span hspan) hcontains.1

/-- The region gives the first span back: it starts at the least place of all. -/
theorem isLeast_start (h : Apart (first :: rest)) :
    IsLeast (region (first :: rest)) first.start := by
  have hfirst : first.start < first.stop := (List.forall_mem_cons.1 h.nonempty).1
  rw [region_cons]
  refine ⟨.inl ⟨Nat.le_refl _, hfirst⟩, ?_⟩
  rintro p (hp | hp)
  · exact hp.1
  · exact Nat.le_of_lt (Nat.lt_trans hfirst (h.stop_lt_of_mem_region hp))

theorem isLeast_stop (h : Apart (first :: rest)) :
    IsLeast {p | first.start ≤ p ∧ p ∉ region (first :: rest)} first.stop := by
  have hfirst : first.start < first.stop := (List.forall_mem_cons.1 h.nonempty).1
  rw [region_cons]
  refine ⟨⟨Nat.le_of_lt hfirst, ?_⟩, fun p hp => ?_⟩
  · rintro (hstop | hstop)
    · exact Nat.lt_irrefl _ hstop.2
    · exact Nat.lt_irrefl _ (h.stop_lt_of_mem_region hstop)
  · by_contra hbefore
    exact hp.2 (.inl ⟨hp.1, Nat.lt_of_not_le hbefore⟩)

theorem region_rest (h : Apart (first :: rest)) :
    region rest = region (first :: rest) ∩ Set.Ioi first.stop := by
  ext p
  rw [region_cons]
  constructor
  · exact fun hp => ⟨.inr hp, h.stop_lt_of_mem_region hp⟩
  · rintro ⟨hp | hp, hbeyond⟩
    · exact absurd (Nat.lt_trans hp.2 hbeyond) (Nat.lt_irrefl _)
    · exact hp

theorem eq_nil_of_region_eq_empty (h : Apart spans) (hregion : region spans = ∅) : spans = [] := by
  cases spans with
  | nil => rfl
  | cons first rest =>
    have hstart := h.isLeast_start.1
    rw [hregion] at hstart
    exact absurd hstart (Set.notMem_empty _)

/-- Spans that lie apart are determined by their places. -/
theorem eq_of_region_eq (h : Apart spans) (hothers : Apart others)
    (hregion : region spans = region others) : spans = others := by
  induction spans generalizing others with
  | nil => exact (hothers.eq_nil_of_region_eq_empty (hregion.symm.trans region_nil)).symm
  | cons first rest ih =>
    cases others with
    | nil => exact h.eq_nil_of_region_eq_empty (hregion.trans region_nil)
    | cons other others =>
      have hstart : first.start = other.start :=
        h.isLeast_start.unique (hregion ▸ hothers.isLeast_start)
      have hstop : first.stop = other.stop := by
        have hleast := hothers.isLeast_stop
        rw [← hregion, ← hstart] at hleast
        exact h.isLeast_stop.unique hleast
      have hrest : region rest = region others := by
        rw [h.region_rest, hothers.region_rest, hregion, hstop]
      cases first
      cases other
      cases hstart
      cases hstop
      rw [ih h.tail hothers.tail hrest]

end Apart

/-- One hole leaves at most two parts, on either side of it. -/
theorem pairwise_cut (hhole : hole.start < hole.stop) :
    (cut hole span).Pairwise fun before after => before.stop < after.start := by
  unfold cut
  split <;> split <;> simp [hhole]

theorem apart_subtract (hholes : ∀ hole ∈ holes, hole.start < hole.stop) :
    Apart (subtract span holes) := by
  refine ⟨fun part => lt_of_mem_subtract, ?_⟩
  induction holes generalizing span with
  | nil =>
    rw [subtract]
    split
    · exact .nil
    · exact List.pairwise_singleton ..
  | cons hole holes ih =>
    obtain ⟨hhole, hrest⟩ := List.forall_mem_cons.1 hholes
    rw [subtract]
    split
    case isTrue => exact ih hrest
    case isFalse =>
      refine List.pairwise_flatMap.2 ⟨fun side _ => ih hrest, ?_⟩
      refine (pairwise_cut hhole).imp fun hgap before hbefore after hafter => ?_
      have hstop := (bounds_of_mem_subtract hrest hbefore).2
      have hstart := (bounds_of_mem_subtract hrest hafter).1
      exact Nat.lt_of_le_of_lt hstop (Nat.lt_of_lt_of_le hgap hstart)

theorem region_subtract (hholes : ∀ hole ∈ holes, hole.start < hole.stop) :
    region (subtract span holes) = span.places \ region holes := by
  ext p
  have hleft : (span.Contains p ∧ ∀ hole ∈ holes, ¬ hole.Contains p) ↔
      p ∈ span.places \ region holes :=
    and_congr_right fun _ => by simp only [mem_region_iff, not_exists, not_and]
  rw [mem_region_iff_holding, length_holding_subtract hholes]
  split
  case isTrue hp => exact iff_of_true Nat.one_pos (hleft.1 hp)
  case isFalse hp => exact iff_of_false (Nat.lt_irrefl 0) (mt hleft.2 hp)

/-- What holes that are not empty leave of a span, in whatever order they come and however they
overlap, is a list of spans in increasing order, no two of which share a place and none of which is
empty. Together they hold exactly the places of the span outside the holes, with a gap between
any two, and no other list does. -/
theorem subtract_exact (span : Span) (holes : List Span)
    (hholes : ∀ hole ∈ holes, hole.start < hole.stop) :
    (∀ part ∈ subtract span holes, part.start < part.stop) ∧
      (subtract span holes).Pairwise (fun before after =>
        before.stop < after.start ∧ before.places ∩ after.places = ∅) ∧
      region (subtract span holes) = span.places \ region holes ∧
      (span.stop ≤ span.start → subtract span holes = []) ∧
      ∀ parts, Apart parts → region parts = span.places \ region holes →
        parts = subtract span holes := by
  have hapart : Apart (subtract span holes) := apart_subtract hholes
  have hregion : region (subtract span holes) = span.places \ region holes :=
    region_subtract hholes
  refine ⟨hapart.nonempty, hapart.gaps.and hapart.inter_eq_empty, hregion, fun hempty => ?_, ?_⟩
  · refine hapart.eq_nil_of_region_eq_empty ?_
    rw [hregion, places, Set.Ico_eq_empty (Nat.not_lt.2 hempty), Set.empty_sdiff]
  · exact fun parts hparts hsame => hparts.eq_of_region_eq hapart (hsame.trans hregion.symm)

/-- Holes out of order, that overlap, meet, lie over an end of a span or miss it. -/
def scatteredHoles : List Span := [⟨12, 15⟩, ⟨30, 40⟩, ⟨3, 6⟩, ⟨18, 25⟩, ⟨5, 8⟩, ⟨8, 9⟩]

theorem subtract_exact_scattered :
    (∀ hole ∈ scatteredHoles, hole.start < hole.stop) ∧
      subtract ⟨0, 20⟩ scatteredHoles = [⟨0, 3⟩, ⟨9, 12⟩, ⟨15, 18⟩] ∧
      region [⟨0, 3⟩, ⟨9, 12⟩, ⟨15, 18⟩] = places ⟨0, 20⟩ \ region scatteredHoles ∧
      subtract ⟨28, 10⟩ scatteredHoles = [] := by
  have hholes : ∀ hole ∈ scatteredHoles, hole.start < hole.stop := by decide
  have hsubtract : subtract ⟨0, 20⟩ scatteredHoles = [⟨0, 3⟩, ⟨9, 12⟩, ⟨15, 18⟩] := by decide
  refine ⟨hholes, hsubtract, ?_, ?_⟩
  · rw [← hsubtract]
    exact (subtract_exact _ _ hholes).2.2.1
  · exact (subtract_exact _ _ hholes).2.2.2.1 (by decide)

end Embargo.Span
