import Mathlib.Tactic.Common

/-!
Things that lie one behind the other without gaps, as instructions do in code and pieces
in a layout.
-/
namespace Embargo
variable {α β : Type} {start size : α → Nat}

/-- From `a` to `b` without gaps: every element begins where the one before it ends. -/
def Contiguous (start size : α → Nat) : Nat → List α → Nat → Prop
  | a, [], b => a = b
  | a, x :: xs, b => start x = a ∧ Contiguous start size (a + size x) xs b

namespace Contiguous
variable {a b : Nat} {xs ys : List α} {x y : α}

theorem append_iff :
    Contiguous start size a (xs ++ ys) b ↔
      ∃ m, Contiguous start size a xs m ∧ Contiguous start size m ys b := by
  induction xs generalizing a with
  | nil => simp [Contiguous]
  | cons x xs ih => simp [Contiguous, ih, and_assoc]

theorem le (h : Contiguous start size a xs b) : a ≤ b := by
  induction xs generalizing a with
  | nil => exact Nat.le_of_eq h
  | cons x xs ih => exact Nat.le_trans (Nat.le_add_right _ _) (ih h.2)

/-- What is in front of an element ends where it starts, and what is behind it begins
where it ends. -/
theorem split (h : Contiguous start size a (xs ++ x :: ys) b) :
    Contiguous start size a xs (start x) ∧
      Contiguous start size (start x + size x) ys b := by
  obtain ⟨m, hxs, rfl, hys⟩ := append_iff.1 h
  exact ⟨hxs, hys⟩

theorem mem_bounds (h : Contiguous start size a xs b) (hx : x ∈ xs) :
    a ≤ start x ∧ start x + size x ≤ b := by
  obtain ⟨front, back, rfl⟩ := List.append_of_mem hx
  exact ⟨h.split.1.le, h.split.2.le⟩

theorem pairwise (h : Contiguous start size a xs b) :
    xs.Pairwise fun x y => start x + size x ≤ start y := by
  induction xs generalizing a with
  | nil => exact .nil
  | cons x xs ih =>
    refine List.pairwise_cons.2 ⟨fun y hy => ?_, ih h.2⟩
    rw [h.1]
    exact (h.2.mem_bounds hy).1

theorem start_eq_of_getElem?_zero (h : Contiguous start size a xs b) (hx : xs[0]? = some x) :
    start x = a := by
  cases xs with
  | nil => cases hx
  | cons =>
    cases hx
    exact h.1

/-- Neighbours touch. -/
theorem start_eq_of_infix (h : Contiguous start size a xs b) (hxy : [x, y] <:+: xs) :
    start y = start x + size x := by
  obtain ⟨front, back, rfl⟩ := hxy
  rw [List.append_assoc] at h
  obtain ⟨m, -, hm⟩ := append_iff.1 h
  rw [hm.1]
  exact hm.2.1

/-- Every place between the ends belongs to an element. -/
theorem exists_mem (h : Contiguous start size a xs b) {p : Nat} (hap : a ≤ p) (hpb : p < b) :
    ∃ x ∈ xs, start x ≤ p ∧ p < start x + size x := by
  induction xs generalizing a with
  | nil =>
    have hab : a = b := h
    omega
  | cons x xs ih =>
    by_cases hp : p < a + size x
    · exact ⟨x, List.mem_cons_self, by rw [h.1]; exact hap, by rw [h.1]; exact hp⟩
    · obtain ⟨y, hy, hp⟩ := ih h.2 (by omega)
      exact ⟨y, List.mem_cons_of_mem _ hy, hp⟩

/-- Only one element holds a place. -/
theorem eq_of_overlap (h : Contiguous start size a xs b) (hx : x ∈ xs) (hy : y ∈ xs) {p : Nat}
    (hpx : start x ≤ p ∧ p < start x + size x) (hpy : start y ≤ p ∧ p < start y + size y) :
    x = y := by
  induction xs generalizing a with
  | nil => exact absurd hx List.not_mem_nil
  | cons z xs ih =>
    have hz := h.1
    rcases List.mem_cons.1 hx with rfl | hx' <;> rcases List.mem_cons.1 hy with rfl | hy'
    · rfl
    · have hbehind := (h.2.mem_bounds hy').1
      omega
    · have hbehind := (h.2.mem_bounds hx').1
      omega
    · exact ih h.2 hx' hy'

theorem map_iff {f : β → α} {zs : List β} :
    Contiguous start size a (zs.map f) b ↔
      Contiguous (fun z => start (f z)) (fun z => size (f z)) a zs b := by
  induction zs generalizing a with
  | nil => rfl
  | cons z zs ih => simp only [List.map_cons, Contiguous, ih]

/-- Of two elements one ends before the other begins, or they are the same; the order is
the one of the list, whatever the places are. -/
theorem before_or_eq_or_after {start' size' : α → Nat} {a' b' : Nat}
    (h : Contiguous start size a xs b) (h' : Contiguous start' size' a' xs b')
    (hx : x ∈ xs) (hy : y ∈ xs) :
    start x + size x ≤ start y ∧ start' x + size' x ≤ start' y ∨ x = y ∨
      start y + size y ≤ start x ∧ start' y + size' y ≤ start' x := by
  induction xs generalizing a a' with
  | nil => exact absurd hx List.not_mem_nil
  | cons z xs ih =>
    have hz := h.1
    have hz' := h'.1
    rcases List.mem_cons.1 hx with rfl | hx' <;> rcases List.mem_cons.1 hy with rfl | hy'
    · exact .inr (.inl rfl)
    · have hbehind := (h.2.mem_bounds hy').1
      have hbehind' := (h'.2.mem_bounds hy').1
      exact .inl (by omega)
    · have hbehind := (h.2.mem_bounds hx').1
      have hbehind' := (h'.2.mem_bounds hx').1
      exact .inr (.inr (by omega))
    · exact ih h.2 h'.2 hx' hy'

/-- What touches an element is the first one behind it. -/
theorem back_eq_cons {front back : List α} (h : Contiguous start size a (front ++ x :: back) b)
    (hpos : ∀ z ∈ front ++ x :: back, 0 < size z) (hy : y ∈ front ++ x :: back)
    (hxy : start y = start x + size x) : ∃ rest, back = y :: rest := by
  have hy' := hpos y hy
  obtain ⟨hfront, hback⟩ := h.split
  cases back with
  | nil =>
    have hend : start x + size x = b := hback
    have hbound := (h.mem_bounds hy).2
    omega
  | cons z rest =>
    have hz := hback.1
    have hmem : z ∈ front ++ x :: z :: rest := by simp
    have hz' := hpos z hmem
    rw [h.eq_of_overlap hy hmem ⟨Nat.le_refl _, by omega⟩ ⟨by omega, by omega⟩]
    exact ⟨rest, rfl⟩

section Positive
variable (hpos : ∀ x ∈ xs, 0 < size x)
include hpos

theorem eq_of_start_eq (h : Contiguous start size a xs b) (hx : x ∈ xs) (hy : y ∈ xs)
    (hxy : start x = start y) : x = y := by
  have hx' := hpos x hx
  have hy' := hpos y hy
  exact h.eq_of_overlap hx hy (p := start x) ⟨Nat.le_refl _, by omega⟩ ⟨by omega, by omega⟩

theorem eq_of_stop_eq (h : Contiguous start size a xs b) (hx : x ∈ xs) (hy : y ∈ xs)
    (hxy : start x + size x = start y + size y) : x = y := by
  have hx' := hpos x hx
  have hy' := hpos y hy
  rcases h.before_or_eq_or_after h hx hy with hbefore | heq | hafter
  · omega
  · exact heq
  · omega

/-- Of two elements that touch, one follows the other. -/
theorem infix_of_start_eq (h : Contiguous start size a xs b) (hx : x ∈ xs) (hy : y ∈ xs)
    (hxy : start y = start x + size x) : [x, y] <:+: xs := by
  obtain ⟨front, back, rfl⟩ := List.append_of_mem hx
  obtain ⟨rest, rfl⟩ := h.back_eq_cons hpos hy hxy
  exact ⟨front, rest, by simp⟩

theorem infix_iff (h : Contiguous start size a xs b) :
    [x, y] <:+: xs ↔ x ∈ xs ∧ y ∈ xs ∧ start y = start x + size x :=
  ⟨fun hxy => ⟨hxy.subset (by simp), hxy.subset (by simp), h.start_eq_of_infix hxy⟩,
    fun ⟨hx, hy, hxy⟩ => h.infix_of_start_eq hpos hx hy hxy⟩

theorem nodup_start (h : Contiguous start size a xs b) : (xs.map start).Nodup := by
  refine List.pairwise_map.2 ?_
  refine (List.Pairwise.and_mem.1 h.pairwise).imp fun {x y} ⟨hx, _, hxy⟩ => ?_
  have hx' := hpos x hx
  omega

theorem start_lt (h : Contiguous start size a xs b) (hx : x ∈ xs) : start x < b := by
  have hx' := hpos x hx
  have hb := (h.mem_bounds hx).2
  omega

end Positive

end Contiguous

end Embargo
