import Mathlib.Data.List.Basic

/-!
Places in text that is kept as UTF-8. A place is a number of bytes. The byte at a place can be
looked at wherever it is, but text can be cut only where no character is cut in two.
-/
namespace Embargo.Text.Place
variable {text front part rest : List Char} {place : Nat}

def bytes (text : List Char) : List UInt8 := text.flatMap String.utf8EncodeChar

/-- Bytes below 128 stand for the character of their number, and for nothing else. -/
theorem exists_first_byte (c : Char) : ∃ b more, String.utf8EncodeChar c = b :: more ∧
    (c.toNat < 128 → b.toNat = c.toNat) ∧ (128 ≤ c.toNat → 128 ≤ b.toNat) := by
  have hval : c.val.toNat = c.toNat := rfl
  unfold String.utf8EncodeChar
  dsimp only
  rw [hval]
  split
  · exact ⟨_, _, rfl, fun h => by rw [UInt8.toNat_ofNat']; omega, fun h => by omega⟩
  all_goals
    split_ifs
    all_goals exact ⟨_, _, rfl, fun h => by omega, fun h => by rw [UInt8.toNat_ofNat']; omega⟩

/-- How far a text reaches. -/
def size (text : List Char) : Nat := (bytes text).length

@[simp] theorem size_nil : size [] = 0 := rfl

@[simp] theorem size_cons (c : Char) (text : List Char) :
    size (c :: text) = c.utf8Size + size text := by
  simp [size, bytes, String.length_utf8EncodeChar]

@[simp] theorem size_append (front rest : List Char) :
    size (front ++ rest) = size front + size rest := by
  simp [size, bytes]

theorem size_eq_zero_iff : size text = 0 ↔ text = [] := by
  cases text with
  | nil => simp
  | cons c text =>
    have hpos := c.utf8Size_pos
    rw [size_cons]
    exact ⟨fun h => by omega, nofun⟩

/-- The byte at a place, taken for the character of its number. -/
def mark? (text : List Char) (place : Nat) : Option Char :=
  (bytes text)[place]?.map fun b => Char.ofNat b.toNat

/-- The text in front of a place and the text behind it, unless the place is inside a character
or behind the end. -/
def cut? : List Char → Nat → Option (List Char × List Char)
  | text, 0 => some ([], text)
  | [], _ + 1 => none
  | c :: text, place + 1 =>
    if c.utf8Size ≤ place + 1 then
      (cut? text (place + 1 - c.utf8Size)).map fun (front, rest) => (c :: front, rest)
    else none

/-- The text from a place on. -/
def after? (text : List Char) (place : Nat) : Option (List Char) :=
  (cut? text place).map Prod.snd

/-- The text between two places. -/
def between? (text : List Char) (start stop : Nat) : Option (List Char) :=
  if start ≤ stop then do
    let (_, rest) ← cut? text start
    let (part, _) ← cut? rest (stop - start)
    return part
  else none

/-- The place of the first of a character. -/
def find? (c : Char) (text : List Char) : Option Nat :=
  if c ∈ text then some (size (text.takeWhile (· ≠ c))) else none

theorem cut?_eq_some_iff : cut? text place = some (front, rest) ↔
    text = front ++ rest ∧ size front = place := by
  fun_induction cut? text place generalizing front with
  | case1 text =>
    rw [Option.some.injEq, Prod.mk.injEq, size_eq_zero_iff]
    constructor
    · rintro ⟨rfl, rfl⟩
      exact ⟨rfl, rfl⟩
    · rintro ⟨rfl, rfl⟩
      exact ⟨rfl, rfl⟩
  | case2 place =>
    simp only [reduceCtorEq, false_iff, not_and]
    intro hnil hsize
    rw [(List.append_eq_nil_iff.1 hnil.symm).1, size_nil] at hsize
    omega
  | case3 c text place hle ih =>
    rw [Option.map_eq_some_iff]
    constructor
    · rintro ⟨⟨front, rest⟩, hcut, ⟨⟩⟩
      obtain ⟨rfl, hsize⟩ := ih.1 hcut
      exact ⟨rfl, by rw [size_cons]; omega⟩
    · rintro ⟨htext, hsize⟩
      cases front with
      | nil => simp at hsize
      | cons d front =>
        obtain ⟨rfl, rfl⟩ := List.cons.inj htext
        rw [size_cons] at hsize
        exact ⟨(front, rest), ih.2 ⟨rfl, by omega⟩, rfl⟩
  | case4 c text place hlt =>
    simp only [reduceCtorEq, false_iff, not_and]
    intro htext hsize
    cases front with
    | nil => simp at hsize
    | cons d front =>
      obtain ⟨rfl, -⟩ := List.cons.inj htext
      rw [size_cons] at hsize
      omega

/-- A text stands at a place of another one, up to the end of it. -/
def At (text : List Char) (place : Nat) (rest : List Char) : Prop :=
  ∃ front, text = front ++ rest ∧ size front = place

namespace At

theorem start (text : List Char) : At text 0 text := ⟨[], rfl, rfl⟩

theorem cut? (h : At text place rest) : ∃ front, Place.cut? text place = some (front, rest) := by
  obtain ⟨front, htext, hsize⟩ := h
  exact ⟨front, cut?_eq_some_iff.2 ⟨htext, hsize⟩⟩

theorem after? (h : At text place rest) : Place.after? text place = some rest := by
  obtain ⟨front, hcut⟩ := h.cut?
  rw [Place.after?, hcut]
  rfl

theorem advance (h : At text place (part ++ rest)) : At text (place + size part) rest := by
  obtain ⟨front, rfl, rfl⟩ := h
  exact ⟨front ++ part, by rw [List.append_assoc], size_append front part⟩

theorem advance_cons {c : Char} (h : At text place (c :: rest)) :
    At text (place + c.utf8Size) rest := by
  rw [← List.singleton_append] at h
  simpa using h.advance

theorem between? (h : At text place (part ++ rest)) :
    Place.between? text place (place + size part) = some part := by
  obtain ⟨front, hcut⟩ := h.cut?
  have hpart : Place.cut? (part ++ rest) (place + size part - place) = some (part, rest) :=
    cut?_eq_some_iff.2 ⟨rfl, (Nat.add_sub_cancel_left _ _).symm⟩
  rw [Place.between?, if_pos (Nat.le_add_right _ _), hcut]
  change Place.cut? _ _ >>= _ = _
  rw [hpart]
  rfl

theorem length_le (h : At text place rest) : rest.length ≤ text.length := by
  obtain ⟨front, rfl, -⟩ := h
  simp

theorem eq_size_iff (h : At text place rest) : place = size text ↔ rest = [] := by
  obtain ⟨front, rfl, rfl⟩ := h
  rw [size_append, Nat.left_eq_add, size_eq_zero_iff]

/-- Where the end is there is no byte. -/
theorem mark?_nil (h : At text place []) : mark? text place = none := by
  obtain ⟨front, rfl, rfl⟩ := h
  simp [mark?, size]

/-- The first byte of a character tells which one it is, if it is an ASCII character. -/
theorem mark?_cons {c : Char} (h : At text place (c :: rest)) :
    ∃ mark, mark? text place = some mark ∧ ∀ a : Char, a.toNat < 128 → (mark = a ↔ c = a) := by
  obtain ⟨front, rfl, rfl⟩ := h
  obtain ⟨b, more, hbytes, hlow, hhigh⟩ := exists_first_byte c
  have hbyte : (bytes (front ++ c :: rest))[size front]? = some b := by
    simp [bytes, size, hbytes]
  refine ⟨Char.ofNat b.toNat, by rw [mark?, hbyte]; rfl, fun a ha => ?_⟩
  by_cases hc : c.toNat < 128
  · rw [hlow hc, Char.ofNat_toNat]
  · have hvalid : b.toNat.isValidChar := .inl (Nat.lt_trans b.toNat_lt (by decide))
    have hmark : (Char.ofNat b.toNat).toNat = b.toNat := by
      rw [Char.ofNat, dif_pos hvalid]
      rfl
    have hle := hhigh (Nat.not_lt.1 hc)
    constructor
    · rintro rfl
      omega
    · rintro rfl
      exact absurd ha hc

theorem mark?_eq_iff {a c : Char} (h : At text place (c :: rest)) (ha : a.toNat < 128) :
    mark? text place = some a ↔ c = a := by
  obtain ⟨mark, hmark, hchar⟩ := h.mark?_cons
  rw [hmark, Option.some.injEq, hchar a ha]

end At

theorem find?_append {c : Char} (h : c ∉ front) (rest : List Char) :
    find? c (front ++ c :: rest) = some (size front) := by
  have hall : ∀ d ∈ front, (decide (d ≠ c)) = true :=
    fun d hd => decide_eq_true fun heq => h (heq ▸ hd)
  rw [find?, if_pos (by simp), List.takeWhile_append_of_pos hall,
    List.takeWhile_cons_of_neg (by simp), List.append_nil]

end Embargo.Text.Place
