import Embargo.Proofs.Code.Descriptor
import Mathlib.Data.List.TakeWhile

/-!
The grammar of descriptors, and that exactly what it derives is parsed: a field type is any
number of brackets before a letter or before a name between `L` and `;`, and a method type is
any number of field types in parentheses, with `V` or a field type behind them.
-/
namespace Embargo.Descriptor
variable {text written rest : List Char} {type : FieldType}

/-- What spells a type that is no array. -/
inductive ElementText : FieldType → List Char → Prop
  | int {c : Char} (h : c ∈ ['B', 'C', 'I', 'S', 'Z']) : ElementText .int [c]
  | float : ElementText .float ['F']
  | long : ElementText .long ['J']
  | double : ElementText .double ['D']
  | named {name : String} (hname : name ≠ "") (hend : ';' ∉ name.toList) :
    ElementText (.reference name) ('L' :: (name.toList ++ [';']))

/-- What spells a type. An array type is named by its whole text. -/
inductive TypeText : FieldType → List Char → Prop
  | element {type : FieldType} {text : List Char} (h : ElementText type text) : TypeText type text
  | array {type : FieldType} {text : List Char} (depth : Nat) (h : ElementText type text) :
    TypeText (.reference (String.ofList (List.replicate (depth + 1) '[' ++ text)))
      (List.replicate (depth + 1) '[' ++ text)

/-- What spells the result of a method. -/
inductive ResultText : Option FieldType → List Char → Prop
  | void : ResultText none ['V']
  | value {type : FieldType} {text : List Char} (h : TypeText type text) :
    ResultText (some type) text

/-- What spells a method's types. -/
def MethodText (parameters : List FieldType) (result : Option FieldType) (text : List Char) :
    Prop :=
  ∃ parts last, text = '(' :: (parts.flatten ++ ')' :: last) ∧
    List.Forall₂ TypeText parameters parts ∧ ResultText result last

theorem element_unnamed (h : ';' ∉ rest) : element ('L' :: rest) = none := by
  have hall : ∀ c ∈ rest, (decide (c ≠ ';')) = true :=
    fun c hc => decide_eq_true fun heq => h (heq ▸ hc)
  simp only [element, List.dropWhile_eq_nil_iff.2 hall]

/-- The first semicolon ends a name. -/
theorem element_named {name : List Char} (h : ';' ∉ name) (behind : List Char) :
    element ('L' :: (name ++ ';' :: behind)) =
      if name = [] then none
      else some (.reference (String.ofList name), 'L' :: (name ++ [';']), behind) := by
  have hall : ∀ c ∈ name, (decide (c ≠ ';')) = true :=
    fun c hc => decide_eq_true fun heq => h (heq ▸ hc)
  have htake : (name ++ ';' :: behind).takeWhile (· ≠ ';') = name := by
    rw [List.takeWhile_append_of_pos hall, List.takeWhile_cons_of_neg (by simp), List.append_nil]
  have hdrop : (name ++ ';' :: behind).dropWhile (· ≠ ';') = ';' :: behind := by
    rw [List.dropWhile_append_of_pos hall, List.dropWhile_cons_of_neg (by simp)]
  simp only [element, htake, hdrop, List.isEmpty_iff]

theorem ElementText.element_append (h : ElementText type written) (rest : List Char) :
    element (written ++ rest) = some (type, written, rest) := by
  cases h with
  | int hc =>
    simp only [List.mem_cons, List.not_mem_nil, or_false] at hc
    rcases hc with rfl | rfl | rfl | rfl | rfl <;> rfl
  | float => rfl
  | long => rfl
  | double => rfl
  | @named name hname hend =>
    rw [List.cons_append, List.append_assoc, List.singleton_append, element_named hend,
      if_neg fun hnil => hname (String.toList_eq_nil_iff.1 hnil), String.ofList_toList]

theorem elementText_of_element (h : element text = some (type, written, rest)) :
    ElementText type written := by
  unfold element at h
  split at h
  case h_9 inner =>
    dsimp only at h
    split at h
    case h_2 => cases h
    case h_1 =>
      split at h
      case isTrue => cases h
      case isFalse hne =>
        cases h
        have hnamed : ElementText (.reference (String.ofList (inner.takeWhile (· ≠ ';'))))
            ('L' :: ((String.ofList (inner.takeWhile (· ≠ ';'))).toList ++ [';'])) := by
          refine .named (fun hempty => hne ?_) fun hend => ?_
          · rw [String.ofList_eq_empty_iff.1 hempty]
            rfl
          · rw [String.toList_ofList] at hend
            simpa using List.mem_takeWhile_imp hend
        rwa [String.toList_ofList] at hnamed
  case h_6 => cases h; exact .float
  case h_7 => cases h; exact .long
  case h_8 => cases h; exact .double
  case h_10 => cases h
  all_goals
    cases h
    exact .int (by decide)

theorem element_eq_some_iff : element text = some (type, written, rest) ↔
    text = written ++ rest ∧ ElementText type written := by
  constructor
  · exact fun h => ⟨(element_eq_some h).1, elementText_of_element h⟩
  · rintro ⟨rfl, h⟩
    exact h.element_append rest

/-- No element starts with a bracket, and none is a closing parenthesis. -/
theorem ElementText.exists_cons (h : ElementText type text) :
    ∃ c more, text = c :: more ∧ c ≠ '[' ∧ c ≠ ')' := by
  cases h with
  | int hc =>
    simp only [List.mem_cons, List.not_mem_nil, or_false] at hc
    rcases hc with rfl | rfl | rfl | rfl | rfl <;> exact ⟨_, _, rfl, by decide, by decide⟩
  | float | long | double | named => exact ⟨_, _, rfl, by decide, by decide⟩

theorem ElementText.field_append (h : ElementText type text) (depth : Nat) (rest : List Char) :
    field (List.replicate depth '[' ++ (text ++ rest)) =
      some (if depth = 0 then type
        else .reference (String.ofList (List.replicate depth '[' ++ text)), rest) := by
  obtain ⟨c, more, htext, hbracket, -⟩ := h.exists_cons
  have hall : ∀ c ∈ List.replicate depth '[', (decide (c = '[')) = true := by
    intro c hc
    exact decide_eq_true (List.eq_of_mem_replicate hc)
  have htake : (text ++ rest).takeWhile (· = '[') = [] := by
    rw [htext, List.cons_append, List.takeWhile_cons_of_neg (by simpa using hbracket)]
  have hdrop : (text ++ rest).dropWhile (· = '[') = text ++ rest := by
    rw [htext, List.cons_append, List.dropWhile_cons_of_neg (by simpa using hbracket)]
  simp only [field, List.takeWhile_append_of_pos hall, List.dropWhile_append_of_pos hall, htake,
    hdrop, h.element_append, List.append_nil, List.isEmpty_replicate]
  split_ifs <;> simp_all

theorem field_eq_some_iff :
    field text = some (type, rest) ↔ ∃ written, text = written ++ rest ∧ TypeText type written := by
  constructor
  · intro h
    have hwhole := List.takeWhile_append_dropWhile (p := (· = '[')) (l := text)
    have hbrackets : text.takeWhile (· = '[') =
        List.replicate (text.takeWhile (· = '[')).length '[' :=
      List.eq_replicate_of_mem fun c hc => by simpa using List.mem_takeWhile_imp hc
    unfold field at h
    dsimp only at h
    split at h
    case h_2 => cases h
    case h_1 found written behind helement =>
      obtain ⟨htext, hfound⟩ := element_eq_some_iff.1 helement
      rw [htext, ← List.append_assoc] at hwhole
      split at h
      case isTrue hempty =>
        cases h
        rw [List.isEmpty_iff.1 hempty] at hwhole
        exact ⟨written, hwhole.symm, .element hfound⟩
      case isFalse hne =>
        cases h
        obtain ⟨depth, hdepth⟩ : ∃ depth, (text.takeWhile (· = '[')).length = depth + 1 :=
          Nat.exists_eq_add_one.2 (List.length_pos_of_ne_nil fun hnil => hne (by rw [hnil]; rfl))
        rw [hdepth] at hbrackets
        rw [hbrackets] at hwhole ⊢
        exact ⟨_, hwhole.symm, .array depth hfound⟩
  · rintro ⟨_, rfl, h⟩
    cases h with
    | element h => exact h.field_append 0 rest
    | array depth h =>
      rw [List.append_assoc]
      exact h.field_append (depth + 1) rest

theorem parseField_eq_ok_iff {text : String} :
    parseField text = .ok type ↔ TypeText type text.toList := by
  have hfield : field text.toList = some (type, []) ↔ TypeText type text.toList := by
    simp [field_eq_some_iff]
  rw [← hfield, parseField]
  split
  case h_1 found hfound => rw [hfound, Except.ok.injEq, Option.some.injEq, Prod.mk.injEq,
    and_iff_left rfl]
  case h_2 hnone =>
    constructor
    · nofun
    · exact fun h => absurd h (hnone type)

theorem TypeText.exists_cons (h : TypeText type text) : ∃ c more, text = c :: more ∧ c ≠ ')' := by
  cases h with
  | element h =>
    obtain ⟨c, more, htext, -, hc⟩ := h.exists_cons
    exact ⟨c, more, htext, hc⟩
  | array depth h => exact ⟨'[', _, rfl, by decide⟩

/-- Where the parameters go on, a type comes next. -/
theorem parametersOnto_succ {fuel : Nat} {done : List FieldType}
    (h : ∀ behind, text ≠ ')' :: behind) :
    parametersOnto (fuel + 1) done text =
      match field text with
      | some (type, rest) => parametersOnto fuel (type :: done) rest
      | none => none := by
  conv_lhs => unfold parametersOnto
  split
  case h_1 behind => exact absurd rfl (h behind)
  case h_2 hfuel _ => cases hfuel
  case h_3 hfuel _ =>
    cases hfuel
    rfl

theorem exists_types_of_parametersOnto {fuel : Nat} {done parameters : List FieldType}
    (h : parametersOnto fuel done text = some (parameters, rest)) :
    ∃ types parts, parameters = done.reverse ++ types ∧ text = parts.flatten ++ ')' :: rest ∧
      List.Forall₂ TypeText types parts := by
  fun_induction parametersOnto fuel done text with
  | case1 fuel done behind =>
    cases h
    exact ⟨[], [], (List.append_nil _).symm, rfl, .nil⟩
  | case2 => cases h
  | case3 done text fuel _ first behind hfield ih =>
    obtain ⟨written, rfl, hfirst⟩ := field_eq_some_iff.1 hfield
    obtain ⟨types, parts, rfl, rfl, hall⟩ := ih h
    exact ⟨first :: types, written :: parts, by simp, by simp, .cons hfirst hall⟩
  | case4 => cases h

theorem parametersOnto_flatten {types : List FieldType} {parts : List (List Char)}
    (h : List.Forall₂ TypeText types parts) {fuel : Nat} (done : List FieldType)
    (hfuel : (parts.flatten ++ ')' :: rest).length ≤ fuel) :
    parametersOnto fuel done (parts.flatten ++ ')' :: rest) =
      some (done.reverse ++ types, rest) := by
  induction h generalizing fuel done with
  | nil => cases fuel <;> simp [parametersOnto]
  | @cons type part types parts hpart _ ih =>
    have hfield : field (part ++ (parts.flatten ++ ')' :: rest)) =
        some (type, parts.flatten ++ ')' :: rest) := field_eq_some_iff.2 ⟨part, rfl, hpart⟩
    obtain ⟨c, more, rfl, hc⟩ := hpart.exists_cons
    have hopen : ∀ behind, c :: more ++ (parts.flatten ++ ')' :: rest) ≠ ')' :: behind :=
      fun behind heq => hc (List.cons.inj heq).1
    rw [List.flatten_cons, List.append_assoc] at hfuel ⊢
    cases fuel with
    | zero => simp at hfuel
    | succ fuel =>
      rw [parametersOnto_succ hopen, hfield]
      refine (ih (type :: done) ?_).trans (by simp)
      simp only [List.length_append, List.length_cons] at hfuel ⊢
      omega

/-- The rounds that a parse has are as many as it can need. -/
theorem parametersOnto_eq_some_iff {parameters : List FieldType} :
    parametersOnto text.length [] text = some (parameters, rest) ↔
      ∃ parts, text = parts.flatten ++ ')' :: rest ∧ List.Forall₂ TypeText parameters parts := by
  constructor
  · intro h
    obtain ⟨types, parts, rfl, htext, hall⟩ := exists_types_of_parametersOnto h
    exact ⟨parts, htext, hall⟩
  · rintro ⟨parts, rfl, hall⟩
    exact parametersOnto_flatten hall [] (Nat.le_refl _)

theorem parseMethod_of_parameters {text : String} {inner last : List Char}
    {parameters : List FieldType} (htext : text.toList = '(' :: inner)
    (h : parametersOnto inner.length [] inner = some (parameters, last)) :
    parseMethod text =
      if last = ['V'] then .ok (parameters, none)
      else (parseField (String.ofList last)).map fun type => (parameters, some type) := by
  simp only [parseMethod, htext, h]
  split
  case h_1 heq =>
    cases heq
    rw [if_pos rfl]
  case h_2 hvoid heq =>
    cases heq
    rw [if_neg fun hlast => hvoid (by rw [hlast])]
  case h_3 heq => cases heq

theorem parseMethod_of_unopened {text : String} (h : text.toList.head? ≠ some '(') :
    parseMethod text = .error (.badDescriptor text) := by
  unfold parseMethod
  split
  case h_1 htext => exact absurd (congrArg List.head? htext) h
  case h_2 => rfl

theorem parseMethod_of_unclosed {text : String} {inner : List Char}
    (htext : text.toList = '(' :: inner) (h : parametersOnto inner.length [] inner = none) :
    parseMethod text = .error (.badDescriptor text) := by
  simp only [parseMethod, htext, h]

theorem exists_parameters_of_parseMethod {text : String}
    {types : List FieldType × Option FieldType} (h : parseMethod text = .ok types) :
    ∃ inner parameters last, text.toList = '(' :: inner ∧
      parametersOnto inner.length [] inner = some (parameters, last) := by
  by_cases hopen : text.toList.head? = some '('
  · obtain ⟨inner, htext⟩ := List.head?_eq_some_iff.1 hopen
    cases hfound : parametersOnto inner.length [] inner with
    | none =>
      rw [parseMethod_of_unclosed htext hfound] at h
      cases h
    | some found => exact ⟨inner, found.1, found.2, htext, hfound⟩
  · rw [parseMethod_of_unopened hopen] at h
    cases h

theorem parseMethod_eq_ok_iff {text : String} {parameters : List FieldType}
    {result : Option FieldType} :
    parseMethod text = .ok (parameters, result) ↔ MethodText parameters result text.toList := by
  constructor
  · intro h
    obtain ⟨inner, found, last, htext, hfound⟩ := exists_parameters_of_parseMethod h
    obtain ⟨parts, hinner, hall⟩ := parametersOnto_eq_some_iff.1 hfound
    rw [hinner] at htext
    rw [parseMethod_of_parameters (hinner ▸ htext) hfound] at h
    split at h
    case isTrue hvoid =>
      cases h
      exact ⟨parts, last, htext, hall, hvoid ▸ .void⟩
    case isFalse =>
      obtain ⟨type, htype, hpair⟩ := Except.map_eq_ok_iff.1 h
      cases hpair
      rw [parseField_eq_ok_iff, String.toList_ofList] at htype
      exact ⟨parts, last, htext, hall, .value htype⟩
  · rintro ⟨parts, last, htext, hall, hlast⟩
    rw [parseMethod_of_parameters htext (parametersOnto_eq_some_iff.2 ⟨parts, rfl, hall⟩)]
    cases hlast with
    | void => rw [if_pos rfl]
    | @value type _ h =>
      have hvoid : last ≠ ['V'] := by
        rintro rfl
        have hfield : field ['V'] = some (type, []) := field_eq_some_iff.2 ⟨['V'], rfl, h⟩
        cases hfield
      rw [if_neg hvoid, parseField_eq_ok_iff.2 (by rwa [String.toList_ofList])]
      rfl

end Embargo.Descriptor
