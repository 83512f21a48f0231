/-!
Text cut at a separator. Cutting loses nothing but the separators: joining the
parts gives the text back.
-/
namespace Embargo.Text.Parts

/-- One more character in front of a text that is already cut. -/
def extend (separator c : Char) (parts : List (List Char)) : List (List Char) :=
  if c = separator then [] :: parts
  else
    match parts with
    | [] => [[c]]
    | part :: rest => (c :: part) :: rest

/-- The parts between separators, empty ones too. -/
def cut (separator : Char) (text : List Char) : List (List Char) :=
  text.foldr (extend separator) [[]]

/-- Parts with a separator between any two. -/
def join (separator : Char) (parts : List (List Char)) : List Char :=
  (parts.intersperse [separator]).flatten

@[simp] theorem cut_nil (separator : Char) : cut separator [] = [[]] := rfl

theorem cut_cons (separator c : Char) (text : List Char) :
    cut separator (c :: text) = extend separator c (cut separator text) := rfl

theorem extend_ne_nil (separator c : Char) (parts : List (List Char)) :
    extend separator c parts ≠ [] := by
  unfold extend
  split
  · simp
  · split <;> simp

theorem cut_ne_nil (separator : Char) (text : List Char) : cut separator text ≠ [] := by
  cases text with
  | nil => simp
  | cons c text => exact extend_ne_nil separator c _

theorem join_extend (separator c : Char) {parts : List (List Char)} (h : parts ≠ []) :
    join separator (extend separator c parts) = c :: join separator parts := by
  unfold extend
  split
  case isTrue hc =>
    cases parts with
    | nil => exact absurd rfl h
    | cons part rest => simp [join, hc]
  case isFalse =>
    cases parts with
    | nil => exact absurd rfl h
    | cons part rest => cases rest <;> simp [join]

/-- Nothing is lost but the separators. -/
theorem join_cut (separator : Char) (text : List Char) :
    join separator (cut separator text) = text := by
  induction text with
  | nil => rfl
  | cons c text ih => rw [cut_cons, join_extend separator c (cut_ne_nil separator text), ih]

end Embargo.Text.Parts
