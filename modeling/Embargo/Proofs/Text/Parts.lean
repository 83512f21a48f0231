import Embargo.Text.Parts
import Mathlib.Data.List.Basic

/-!
What the parts of a cut text are. A separator cuts what is in front of it from what is behind
it, and text without one belongs to a single part. Joining and cutting undo each other.
-/
namespace Embargo.Text.Parts
variable {separator c d : Char} {text tail part : List Char} {parts : List (List Char)}

theorem extend_append (h : parts ≠ []) (more : List (List Char)) :
    extend separator c (parts ++ more) = extend separator c parts ++ more := by
  obtain ⟨first, rest, rfl⟩ := List.exists_cons_of_ne_nil h
  by_cases hc : c = separator <;> simp [extend, hc]

theorem cut_append_cons (front rest : List Char) :
    cut separator (front ++ separator :: rest) = cut separator front ++ cut separator rest := by
  induction front with
  | nil => simp [cut_cons, extend]
  | cons c front ih => rw [List.cons_append, cut_cons, ih, extend_append (cut_ne_nil _ _), cut_cons]

theorem cut_of_notMem (h : separator ∉ text) : cut separator text = [text] := by
  induction text with
  | nil => rfl
  | cons c text ih =>
    obtain ⟨hc, htext⟩ := List.ne_and_not_mem_of_not_mem_cons h
    rw [cut_cons, ih htext, extend, if_neg (Ne.symm hc)]

/-- Text without a separator behind another text belongs to the last part of that. -/
theorem cut_append_of_notMem (h : separator ∉ tail) (text : List Char) :
    ∃ front last, cut separator text = front ++ [last] ∧
      cut separator (text ++ tail) = front ++ [last ++ tail] := by
  induction text with
  | nil => exact ⟨[], [], rfl, cut_of_notMem h⟩
  | cons c text ih =>
    obtain ⟨front, last, hcut, happend⟩ := ih
    rw [List.cons_append, cut_cons, cut_cons, hcut, happend]
    cases front with
    | nil =>
      by_cases hc : c = separator
      · exact ⟨[[]], last, by simp [extend, hc], by simp [extend, hc]⟩
      · exact ⟨[], c :: last, by simp [extend, hc], by simp [extend, hc]⟩
    | cons first front =>
      exact ⟨extend separator c (first :: front), last, extend_append (by simp) _,
        extend_append (by simp) _⟩

/-- A part holds characters of the text, and no separator. -/
theorem of_mem_cut (h : part ∈ cut separator text) (hd : d ∈ part) : d ∈ text ∧ d ≠ separator := by
  induction text generalizing part with
  | nil => simp_all
  | cons c text ih =>
    obtain ⟨first, rest, hcut⟩ := List.exists_cons_of_ne_nil (cut_ne_nil separator text)
    rw [cut_cons, hcut, extend] at h
    rw [hcut] at ih
    split at h
    case isTrue =>
      rcases List.mem_cons.1 h with rfl | h
      · exact absurd hd List.not_mem_nil
      · exact (ih h hd).imp_left (.tail _)
    case isFalse hc =>
      rcases List.mem_cons.1 h with rfl | h
      · rcases List.mem_cons.1 hd with rfl | hd
        · exact ⟨.head _, hc⟩
        · exact (ih (.head _) hd).imp_left (.tail _)
      · exact (ih (.tail _ h) hd).imp_left (.tail _)

theorem cut_join (h : parts ≠ []) (hparts : ∀ part ∈ parts, separator ∉ part) :
    cut separator (join separator parts) = parts := by
  induction parts with
  | nil => exact absurd rfl h
  | cons first rest ih =>
    obtain ⟨hfirst, hrest⟩ := List.forall_mem_cons.1 hparts
    cases rest with
    | nil => simpa [join] using cut_of_notMem hfirst
    | cons second rest =>
      have hjoin : join separator (first :: second :: rest) =
          first ++ separator :: join separator (second :: rest) := by
        simp [join]
      rw [hjoin, cut_append_cons, cut_of_notMem hfirst, ih (by simp) hrest]
      rfl

/-- A text in which another character takes the place of the separator has the same parts. -/
theorem cut_map {f : Char → Char} (h : ∀ c ∈ text, f c = d ↔ c = separator) :
    cut d (text.map f) = (cut separator text).map (List.map f) := by
  induction text with
  | nil => rfl
  | cons c text ih =>
    obtain ⟨hc, htext⟩ := List.forall_mem_cons.1 h
    obtain ⟨first, rest, hcut⟩ := List.exists_cons_of_ne_nil (cut_ne_nil separator text)
    rw [List.map_cons, cut_cons, cut_cons, ih htext, hcut]
    by_cases hsep : c = separator
    · have hd := hc.2 hsep
      subst hsep
      simp [extend, hd]
    · simp [extend, hsep, mt hc.1 hsep]

/-- A separator stands in front of any text at the end that holds none. -/
theorem exists_of_append_cons {front rest : List Char} (h : separator ∉ tail)
    (heq : front ++ separator :: rest = text ++ tail) :
    ∃ more, text = front ++ separator :: more ∧ rest = more ++ tail := by
  obtain ⟨more, rfl, hmore⟩ | ⟨more, rfl, rfl⟩ := List.append_eq_append_iff.1 heq
  · cases more with
    | nil =>
      rw [List.nil_append] at hmore
      exact absurd (hmore ▸ .head _) h
    | cons c more =>
      obtain ⟨rfl, rfl⟩ := List.cons.inj hmore
      exact ⟨more, rfl, rfl⟩
  · exact absurd (List.mem_append_right _ (.head _)) h

/-- The last part is what stands behind the last separator. -/
theorem exists_of_cut {front : List (List Char)} {last : List Char}
    (h : cut separator text = front ++ [last]) :
    separator ∉ last ∧ (text = last ∨ ∃ before, text = before ++ separator :: last) := by
  have hlast : last ∈ cut separator text := h ▸ List.mem_append_right _ (.head _)
  refine ⟨fun hmem => (of_mem_cut hlast hmem).2 rfl, ?_⟩
  rw [← join_cut separator text, h]
  clear h hlast
  induction front with
  | nil => exact .inl (by simp [join])
  | cons first front ih =>
    have hjoin : join separator (first :: (front ++ [last])) =
        first ++ separator :: join separator (front ++ [last]) := by
      obtain ⟨second, rest, hrest⟩ := List.exists_cons_of_ne_nil
        (List.append_ne_nil_of_right_ne_nil front (List.cons_ne_nil last []))
      rw [hrest]
      simp [join]
    rw [List.cons_append, hjoin]
    obtain hrest | ⟨before, hrest⟩ := ih
    · exact .inr ⟨first, by rw [hrest]⟩
    · exact .inr ⟨first ++ separator :: before, by rw [hrest]; simp⟩

/-- A text without empty parts has a separator neither in front nor at its end. -/
theorem ne_of_nil_notMem (h : [] ∉ cut separator text) :
    text.head? ≠ some separator ∧ text.getLast? ≠ some separator := by
  constructor
  · intro hhead
    obtain ⟨rest, rfl⟩ := List.head?_eq_some_iff.1 hhead
    exact h (cut_append_cons [] rest ▸ .head _)
  · intro hlast
    obtain ⟨front, rfl⟩ := List.getLast?_eq_some_iff.1 hlast
    exact h (cut_append_cons front [] ▸ List.mem_append_right _ (.head _))

end Embargo.Text.Parts
