import Embargo.Enforcement.Span
import Embargo.Proofs.Contiguous

/-!
What is left of a span outside holes: parts that hold every place of the span which is
in no hole, exactly once.
-/
namespace Embargo.Span
variable {span hole part : Span} {holes : List Span} {p : Nat}

/-- The parts that hold a place. -/
def holding (p : Nat) (parts : List Span) : List Span := parts.filter (·.Contains p)

theorem holding_append (a b : List Span) : holding p (a ++ b) = holding p a ++ holding p b :=
  List.filter_append ..

/-- One part on either side of a hole holds a place, unless it is in the hole. -/
theorem length_holding_flatMap_cut {f : Span → List Span} {P : Prop} [Decidable P]
    (hhole : hole.start < hole.stop)
    (hmeet : ¬ (hole.stop ≤ span.start ∨ span.stop ≤ hole.start))
    (hf : ∀ part, (holding p (f part)).length = if part.Contains p ∧ P then 1 else 0) :
    (holding p ((cut hole span).flatMap f)).length
      = if span.Contains p ∧ ¬ hole.Contains p ∧ P then 1 else 0 := by
  have hnil : (holding p []).length = 0 := rfl
  unfold cut
  split <;> split <;>
    simp only [List.flatMap_cons, List.flatMap_nil, List.append_nil, List.nil_append,
      List.cons_append, holding_append, List.length_append, hnil, hf] <;>
    by_cases hP : P <;> simp only [Contains, hP, and_true, and_false, ↓reduceIte] <;> grind

theorem length_holding_subtract (hholes : ∀ hole ∈ holes, hole.start < hole.stop) :
    (holding p (subtract span holes)).length
      = if span.Contains p ∧ ∀ hole ∈ holes, ¬ hole.Contains p then 1 else 0 := by
  induction holes generalizing span with
  | nil =>
    unfold subtract isEmpty holding Contains
    grind
  | cons hole holes ih =>
    obtain ⟨hhole, hrest⟩ := List.forall_mem_cons.1 hholes
    simp only [subtract, List.forall_mem_cons]
    split
    case isTrue hapart =>
      have hskip : span.Contains p → ¬ hole.Contains p := by
        unfold Contains
        omega
      rw [ih hrest]
      congr 1
      exact propext ⟨fun h => ⟨h.1, hskip h.1, h.2⟩, fun h => ⟨h.1, h.2.2⟩⟩
    case isFalse hmeet => exact length_holding_flatMap_cut hhole hmeet fun _ => ih hrest

theorem lt_of_mem_subtract (h : part ∈ subtract span holes) : part.start < part.stop := by
  induction holes generalizing span with
  | nil =>
    unfold subtract isEmpty at h
    split at h
    · exact absurd h List.not_mem_nil
    · rw [List.mem_singleton.1 h]
      grind
  | cons hole holes ih =>
    rw [subtract] at h
    split at h
    · exact ih h
    · obtain ⟨side, _, hside⟩ := List.mem_flatMap.1 h
      exact ih hside

/-- A part holds only places of the span outside the holes. -/
theorem of_mem_subtract (hholes : ∀ hole ∈ holes, hole.start < hole.stop)
    (h : part ∈ subtract span holes) (hp : part.Contains p) :
    span.Contains p ∧ ∀ hole ∈ holes, ¬ hole.Contains p := by
  by_contra hout
  have hlength : (holding p (subtract span holes)).length = _ := length_holding_subtract hholes
  rw [if_neg hout] at hlength
  have hmem : part ∈ holding p (subtract span holes) :=
    List.mem_filter.2 ⟨h, by simpa using hp⟩
  rw [List.eq_nil_of_length_eq_zero hlength] at hmem
  exact absurd hmem List.not_mem_nil

/-- Parts lie inside the span. -/
theorem bounds_of_mem_subtract (hholes : ∀ hole ∈ holes, hole.start < hole.stop)
    (h : part ∈ subtract span holes) : span.start ≤ part.start ∧ part.stop ≤ span.stop := by
  have hlt := lt_of_mem_subtract h
  have hfirst : span.Contains part.start :=
    (of_mem_subtract hholes h ⟨Nat.le_refl _, hlt⟩).1
  have hlast : span.Contains (part.stop - 1) :=
    (of_mem_subtract hholes h ⟨by omega, by omega⟩).1
  unfold Contains at hfirst hlast
  omega

/-- A part begins and ends where the span does or at a hole. -/
theorem ends_of_mem_subtract (h : part ∈ subtract span holes) :
    (part.start = span.start ∨ ∃ hole ∈ holes, hole.stop = part.start) ∧
      (part.stop = span.stop ∨ ∃ hole ∈ holes, hole.start = part.stop) := by
  induction holes generalizing span with
  | nil =>
    rw [subtract] at h
    split at h
    · exact absurd h List.not_mem_nil
    · rw [List.mem_singleton.1 h]
      exact ⟨.inl rfl, .inl rfl⟩
  | cons hole holes ih =>
    simp only [List.mem_cons, exists_eq_or_imp]
    rw [subtract] at h
    split at h
    case isTrue =>
      obtain ⟨hstart, hstop⟩ := ih h
      exact ⟨hstart.imp_right .inr, hstop.imp_right .inr⟩
    case isFalse =>
      obtain ⟨side, hside, hpart⟩ := List.mem_flatMap.1 h
      obtain ⟨hstart, hstop⟩ := ih hpart
      have hends : (side.start = span.start ∨ hole.stop = side.start) ∧
          (side.stop = span.stop ∨ hole.start = side.stop) := by
        unfold cut at hside
        rcases List.mem_append.1 hside with hside | hside <;> split at hside <;>
          simp_all
      rcases hends with ⟨hfirst, hlast⟩
      refine ⟨?_, ?_⟩
      · rcases hstart with heq | hhole
        · exact hfirst.imp heq.trans fun hstop => .inl (hstop.trans heq.symm)
        · exact .inr (.inr hhole)
      · rcases hstop with heq | hhole
        · exact hlast.imp heq.trans fun hstart => .inl (hstart.trans heq.symm)
        · exact .inr (.inr hhole)

/-- Among the spans of some things in a row, the one around a place is that of the thing
at the place. -/
theorem find?_spans {α : Type} {start size : α → Nat} {xs : List α} {a b : Nat}
    (h : Contiguous start size a xs b) {P : α → Bool} {x : α} (hx : x ∈ xs)
    (hstart : start x ≤ p) (hstop : p < start x + size x) :
    ((xs.filter P).map fun y => (⟨start y, start y + size y⟩ : Span)).find? (·.Contains p)
      = if P x then some ⟨start x, start x + size x⟩ else none := by
  have hsame {y : α} (hy : y ∈ xs) (hp : (⟨start y, start y + size y⟩ : Span).Contains p) :
      y = x := h.eq_of_overlap hy hx hp ⟨hstart, hstop⟩
  split
  case isTrue hP =>
    cases hfind : ((xs.filter P).map fun y => (⟨start y, start y + size y⟩ : Span)).find?
        (·.Contains p) with
    | none =>
      have habsent := List.find?_eq_none.1 hfind _
        (List.mem_map_of_mem (List.mem_filter.2 ⟨hx, hP⟩))
      simp [Contains, hstart, hstop] at habsent
    | some span =>
      obtain ⟨y, hy, rfl⟩ := List.mem_map.1 (List.mem_of_find?_eq_some hfind)
      have hcontains := List.find?_some hfind
      rw [hsame (List.mem_filter.1 hy).1 (of_decide_eq_true hcontains)]
  case isFalse hP =>
    refine List.find?_eq_none.2 fun span hspan hcontains => hP ?_
    obtain ⟨y, hy, rfl⟩ := List.mem_map.1 hspan
    obtain ⟨hmem, hPy⟩ := List.mem_filter.1 hy
    rwa [← hsame hmem (of_decide_eq_true hcontains)]

end Embargo.Span
