import Embargo.Code.Descriptor
import Embargo.Proofs.Attempt
import Mathlib.Data.List.Basic
import Mathlib.Data.List.Infix

/-!
Descriptors. The name of every type in a descriptor is a part of its text.
-/
namespace Embargo.Descriptor
variable {text rest : List Char} {type : FieldType}

/-- A type is named by a part of a text. -/
def NamedIn (text : List Char) (type : FieldType) : Prop :=
  ∀ name, type = .reference name → name.toList <:+: text

theorem NamedIn.of_infix {more : List Char} (h : NamedIn text type) (hmore : text <:+: more) :
    NamedIn more type :=
  fun name hname => (h name hname).trans hmore

/-- An element is its own text with the rest behind it. -/
theorem element_eq_some {written : List Char} (h : element text = some (type, written, rest)) :
    text = written ++ rest ∧ NamedIn written type := by
  unfold element at h
  split at h
  case h_9 inner =>
    dsimp only at h
    split at h
    case h_2 => cases h
    case h_1 last behind hdrop =>
      split at h
      case isTrue => cases h
      case isFalse =>
        cases h
        have hlast : last = ';' := by
          have hnot := List.head?_dropWhile_not (· ≠ ';') inner
          rw [hdrop] at hnot
          simpa using hnot
        have hinner := List.takeWhile_append_dropWhile (p := (· ≠ ';')) (l := inner)
        rw [hdrop, hlast] at hinner
        constructor
        · rw [List.cons_append, List.append_assoc, List.singleton_append, hinner]
        · rintro _ ⟨⟩
          rw [String.toList_ofList]
          exact ⟨['L'], [';'], by simp⟩
  case h_10 => cases h
  all_goals
    cases h
    exact ⟨rfl, nofun⟩

/-- A field type comes from the front of a text. -/
theorem field_eq_some (h : field text = some (type, rest)) : rest <:+ text ∧ NamedIn text type := by
  unfold field at h
  dsimp only at h
  split at h
  case h_2 => cases h
  case h_1 found written behind helement =>
    obtain ⟨htext, hnamed⟩ := element_eq_some helement
    have hwhole := List.takeWhile_append_dropWhile (p := (· = '[')) (l := text)
    rw [htext, ← List.append_assoc] at hwhole
    split at h
    case isTrue =>
      cases h
      refine ⟨⟨_, hwhole⟩, hnamed.of_infix ⟨text.takeWhile (· = '['), rest, hwhole⟩⟩
    case isFalse =>
      cases h
      refine ⟨⟨_, hwhole⟩, ?_⟩
      rintro _ ⟨⟩
      rw [String.toList_ofList]
      exact ⟨[], rest, hwhole⟩

theorem parametersOnto_eq_some {fuel : Nat} {done parameters : List FieldType}
    (h : parametersOnto fuel done text = some (parameters, rest)) :
    ∀ parameter ∈ parameters, parameter ∈ done ∨ NamedIn text parameter := by
  fun_induction parametersOnto fuel done text with
  | case1 fuel done behind =>
    cases h
    intro parameter hparameter
    exact .inl (List.mem_reverse.1 hparameter)
  | case2 => cases h
  | case3 done text fuel _ first behind hfield ih =>
    obtain ⟨hsuffix, hfirst⟩ := field_eq_some hfield
    intro parameter hparameter
    rcases ih h parameter hparameter with hdone | hnamed
    · rcases List.mem_cons.1 hdone with rfl | hdone
      · exact .inr hfirst
      · exact .inl hdone
    · exact .inr (hnamed.of_infix hsuffix.isInfix)
  | case4 => cases h

/-- Every parameter of a method is named by a part of its descriptor. -/
theorem namedIn_of_parseMethod {descriptor : String} {parameters : List FieldType}
    {result : Option FieldType} (h : parseMethod descriptor = .ok (parameters, result)) :
    ∀ parameter ∈ parameters, NamedIn descriptor.toList parameter := by
  intro parameter hparameter
  unfold parseMethod at h
  split at h
  case h_2 => cases h
  case h_1 inner htext =>
    have hnamed {found : List FieldType} {behind : List Char}
        (hfound : parametersOnto inner.length [] inner = some (found, behind))
        (hmem : parameter ∈ found) : NamedIn descriptor.toList parameter := by
      rw [htext]
      rcases parametersOnto_eq_some hfound parameter hmem with hnil | hinner
      · exact absurd hnil List.not_mem_nil
      · exact hinner.of_infix (List.suffix_cons _ _).isInfix
    split at h
    case h_1 hfound =>
      cases h
      exact hnamed hfound hparameter
    case h_2 hfound =>
      obtain ⟨type, -, hpair⟩ := Except.map_eq_ok_iff.1 h
      cases hpair
      exact hnamed hfound hparameter
    case h_3 => cases h

end Embargo.Descriptor
