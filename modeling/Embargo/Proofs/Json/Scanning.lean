import Embargo.Json.Quoted
import Embargo.Json.Token
import Mathlib.Data.List.Basic
import Mathlib.Tactic.Common

/-!
Text between quotes is read back as it was. A scan that starts between two tokens and ends between
two has all tokens of what it passed over, so texts may be put together from parts.
-/
namespace Embargo.Json

/-- A text that holds some tokens as a whole. -/
def Scans (text : List Char) (tokens : List Token) : Prop :=
  ∀ done, text.foldlM Scan.step ⟨.between, done⟩ = some ⟨.between, tokens.reverse ++ done⟩

namespace Scans
variable {text rest : List Char} {first second : List Token}

theorem nil : Scans [] [] := fun _ => rfl

theorem append (h : Scans text first) (hrest : Scans rest second) :
    Scans (text ++ rest) (first ++ second) := by
  intro done
  rw [List.foldlM_append, h, Option.bind_eq_bind, Option.bind_some, hrest]
  simp

theorem tokens_eq {text : String} (h : Scans text.toList first) : tokens text = some first := by
  rw [tokens, h]
  simp [Scan.close]

end Scans

theorem hexadecimal_digit {n : Nat} (h : n < 16) : hexadecimal (Text.Hex.digit n) = some n := by
  have hall : ∀ n : Fin 16, hexadecimal (Text.Hex.digit n) = some n.val := by decide
  exact hall ⟨n, h⟩

namespace Quoted
variable {points : List Nat} {done : List Token}

/-- Four digits behind `\u` stand for the number that they were made of. -/
theorem foldlM_digits {n : Nat} (h : n < 65536) :
    (Text.Hex.digits 4 n).foldlM Scan.step ⟨.unit points 4 0, done⟩ =
      some ⟨.string (n :: points), done⟩ := by
  have hvalue : 16 * (16 * (16 * (n / 16 / 16 / 16 % 16) + n / 16 / 16 % 16) + n / 16 % 16) +
      n % 16 = n := by omega
  simp [Text.Hex.digits, Scan.step, hexadecimal_digit (Nat.mod_lt _ (by decide : 0 < 16)), hvalue]

theorem foldlM_character (c : Char) :
    (character c).foldlM Scan.step ⟨.string points, done⟩ =
      some ⟨.string (c.toNat :: points), done⟩ := by
  unfold character
  split
  case h_8 hquote hslash _ _ _ _ _ =>
    split
    case isTrue hcontrol =>
      change (Text.Hex.digits 4 c.toNat).foldlM Scan.step ⟨.unit points 4 0, done⟩ = _
      exact foldlM_digits (by omega)
    case isFalse hplain => simp_all [Scan.step]
  all_goals rfl

theorem foldlM_characters (text : List Char) :
    (text.flatMap character).foldlM Scan.step ⟨.string points, done⟩ =
      some ⟨.string ((text.map Char.toNat).reverse ++ points), done⟩ := by
  induction text generalizing points with
  | nil => rfl
  | cons c text ih =>
    rw [List.flatMap_cons, List.foldlM_append, foldlM_character, Option.bind_eq_bind,
      Option.bind_some, ih]
    simp

end Quoted

/-- Characters are never surrogates. -/
theorem textOnto_toNat (done text : List Char) :
    textOnto done (text.map Char.toNat) = some (done.reverse ++ text) := by
  have hscalar : ∀ c : Char, c.toNat < 0xD800 ∨ 0xDFFF < c.toNat :=
    fun c => c.valid.imp_right And.left
  induction text generalizing done with
  | nil => simp [textOnto]
  | cons c text ih =>
    have hc := hscalar c
    cases text with
    | nil =>
      rw [List.map_singleton, textOnto, if_neg (by omega), Char.ofNat_toNat]
      simp
    | cons d text =>
      rw [List.map_cons, List.map_cons, textOnto, if_neg (by omega), if_neg (by omega),
        ← List.map_cons, ih, Char.ofNat_toNat]
      simp

theorem scans_encode (text : String) : Scans (Quoted.encode text).toList [.string (some text)] := by
  intro done
  have hopen : Scan.step ⟨.between, done⟩ '"' = some ⟨.string [], done⟩ := rfl
  rw [Quoted.encode, String.toList_ofList, List.cons_append, List.foldlM_cons, hopen,
    Option.bind_eq_bind, Option.bind_some, List.foldlM_append, Quoted.foldlM_characters]
  simp [Scan.step, stringToken, textOnto_toNat]

end Embargo.Json
