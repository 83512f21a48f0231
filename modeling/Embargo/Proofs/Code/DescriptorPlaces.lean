import Embargo.Proofs.Code.DescriptorGrammar
import Embargo.Proofs.Text.Places

/-!
Descriptors parsed by places. Where a text is kept as bytes a parser goes from place to place,
looks at bytes and cuts the text, and each of these can go wrong: a cut may divide a character
or lie behind the end, and a loop may not end. None of this happens with descriptors, and what
comes out is what the grammar says.
-/
namespace Embargo.Descriptor
open Text

/-- Steps that may end in a fault of the text. They have no outcome where a text is cut inside a
character or behind its end, nor where a loop goes on for longer than it is given. -/
abbrev Steps (α : Type) := ExceptT Fault Option α

/-- The place behind the brackets that start at a place, found in less than `fuel` rounds. -/
def brackets (text : List Char) : Nat → Nat → Option Nat
  | 0, _ => none
  | fuel + 1, place =>
    if Place.mark? text place = some '[' then brackets text fuel (place + 1) else some place

/-- The class that is named at a place, and the place behind it. -/
def namedAt (text : String) (place : Nat) : Steps (FieldType × Nat) := do
  let rest ← Place.after? text.toList place
  match Place.find? ';' rest with
  | none => throw (.badDescriptor text)
  | some gap =>
    let stop := gap + place
    if stop = place + 1 then throw (.badDescriptor text)
    let name ← Place.between? text.toList (place + 1) stop
    return (.reference (String.ofList name), stop + 1)

/-- The type without brackets at a place, and the place behind it. -/
def elementAt (text : String) (place : Nat) : Steps (FieldType × Nat) :=
  match Place.mark? text.toList place with
  | some 'B' | some 'C' | some 'I' | some 'S' | some 'Z' => return (.int, place + 1)
  | some 'F' => return (.float, place + 1)
  | some 'J' => return (.long, place + 1)
  | some 'D' => return (.double, place + 1)
  | some 'L' => namedAt text place
  | _ => throw (.badDescriptor text)

/-- The type at a place, and the place behind it. -/
def fieldAt (fuel : Nat) (text : String) (start : Nat) : Steps (FieldType × Nat) := do
  let place ← brackets text.toList fuel start
  let (type, stop) ← elementAt text place
  if start < place then
    let written ← Place.between? text.toList start stop
    return (.reference (String.ofList written), stop)
  else
    return (type, stop)

def parseFieldAt (fuel : Nat) (text : String) : Steps FieldType := do
  let (type, stop) ← fieldAt fuel text 0
  if stop ≠ Place.size text.toList then throw (.badDescriptor text)
  return type

/-- The parameters from a place on, behind those of `done`, and the place of the parenthesis
that ends them. -/
def parametersAt (fuel : Nat) (text : String) :
    Nat → List FieldType → Nat → Steps (List FieldType × Nat)
  | 0, _, _ => (none : Option _)
  | rounds + 1, done, place =>
    match Place.mark? text.toList place with
    | some ')' => return (done.reverse, place)
    | some _ => do
      let (type, stop) ← fieldAt fuel text place
      parametersAt fuel text rounds (type :: done) stop
    | none => throw (.badDescriptor text)

def parseMethodAt (fuel : Nat) (text : String) : Steps (List FieldType × Option FieldType) := do
  if text.toList.head? ≠ some '(' then throw (.badDescriptor text)
  let (parameters, place) ← parametersAt fuel text fuel [] 1
  let result ← Place.after? text.toList (place + 1)
  if result = ['V'] then
    return (parameters, none)
  else
    return (parameters, some (← parseFieldAt fuel (String.ofList result)))

variable {text : String} {place : Nat} {rest behind : List Char} {type : FieldType}

theorem brackets_eq {text : List Char} {fuel : Nat} (h : Place.At text place rest)
    (hfuel : rest.length < fuel) :
    brackets text fuel place = some (place + Place.size (rest.takeWhile (· = '['))) := by
  induction fuel generalizing place rest with
  | zero => exact absurd hfuel (Nat.not_lt_zero _)
  | succ fuel ih =>
    rw [brackets]
    cases rest with
    | nil =>
      rw [h.mark?_nil, if_neg nofun]
      rfl
    | cons c rest =>
      have hmark := h.mark?_eq_iff (a := '[') (by decide)
      by_cases hc : c = '['
      · subst hc
        have hnext : Place.At text (place + 1) rest := h.advance_cons
        rw [if_pos (hmark.2 rfl), ih hnext (Nat.lt_of_succ_lt_succ hfuel),
          List.takeWhile_cons_of_pos (by simp), Place.size_cons, Nat.add_assoc]
        rfl
      · rw [if_neg (mt hmark.1 hc), List.takeWhile_cons_of_neg (by simpa using hc)]
        rfl

theorem namedAt_eq (h : Place.At text.toList place ('L' :: rest)) :
    (namedAt text place).run = some (match element ('L' :: rest) with
      | some (type, written, _) => .ok (type, place + Place.size written)
      | none => .error (.badDescriptor text)) := by
  by_cases hend : ';' ∈ rest
  · obtain ⟨name, behind, rfl, hname⟩ := List.eq_append_cons_of_mem hend
    have hnamed : Place.At text.toList (place + 1) (name ++ ';' :: behind) :=
      h.advance_cons
    have hfind : Place.find? ';' ('L' :: name ++ ';' :: behind) =
        some (Place.size ('L' :: name)) :=
      Place.find?_append (by simp [hname]) behind
    have hstop : Place.size ('L' :: name) + place = place + 1 + Place.size name := by
      rw [Place.size_cons]
      exact Nat.add_comm _ _ |>.trans (Nat.add_assoc _ _ _).symm
    have hempty : Place.size ('L' :: name) + place = place + 1 ↔ name = [] := by
      rw [hstop, Nat.add_eq_left, Place.size_eq_zero_iff]
    have hsize : place + Place.size ('L' :: (name ++ [';'])) =
        place + 1 + Place.size name + 1 := by
      simp only [Place.size_cons, Place.size_append, Place.size_nil]
      change place + (1 + (Place.size name + 1)) = _
      omega
    rw [element_named hname, namedAt, h.after?]
    change (match Place.find? ';' ('L' :: name ++ ';' :: behind) with
      | none => _ | some _ => _ : Steps _).run = _
    rw [hfind]
    change (if _ then _ else _ : Steps _).run = _
    by_cases hnil : name = []
    · rw [if_pos (hempty.2 hnil), if_pos hnil]
      rfl
    · rw [if_neg (mt hempty.1 hnil), if_neg hnil, hstop, hnamed.between?]
      dsimp only
      rw [hsize]
      rfl
  · have hfind : Place.find? ';' ('L' :: rest) = none := if_neg (by simp [hend])
    rw [element_unnamed hend, namedAt, h.after?]
    change (match Place.find? ';' ('L' :: rest) with | none => _ | some _ => _ : Steps _).run = _
    rw [hfind]
    rfl

theorem elementAt_eq (h : Place.At text.toList place rest) :
    (elementAt text place).run = some (match element rest with
      | some (type, written, _) => .ok (type, place + Place.size written)
      | none => .error (.badDescriptor text)) := by
  cases rest with
  | nil =>
    rw [elementAt, h.mark?_nil]
    rfl
  | cons c rest =>
    -- A byte of another character is none of the letters, and so is no element's first one.
    have hmark (a : Char) (ha : a.toNat < 128) := h.mark?_eq_iff ha
    generalize hfound : element (c :: rest) = found
    unfold element at hfound
    split at hfound
    case h_9 heq =>
      cases heq
      rw [elementAt, (hmark 'L' (by decide)).2 rfl, ← hfound]
      exact namedAt_eq h
    case h_10 =>
      subst hfound
      unfold elementAt
      split
      case h_10 => rfl
      all_goals
        rename_i heq
        have hc := (hmark _ (by decide)).1 heq
        simp_all
    all_goals
      rename_i heq
      cases heq
      subst hfound
      rw [elementAt, (hmark _ (by decide)).2 rfl]
      rfl

/-- A type is found at a place as it is found at the front of the text that stands there. -/
theorem run_fieldAt {fuel : Nat} (h : Place.At text.toList place rest)
    (hfuel : rest.length < fuel) :
    (fieldAt fuel text place).run = some (match field rest with
      | some (type, behind) => .ok (type, place + (Place.size rest - Place.size behind))
      | none => .error (.badDescriptor text)) := by
  have hbrackets := brackets_eq h hfuel
  have hrest := List.takeWhile_append_dropWhile (p := (· = '[')) (l := rest)
  rw [fieldAt, field, hbrackets]
  generalize rest.takeWhile (· = '[') = opened at *
  generalize rest.dropWhile (· = '[') = inner at *
  subst hrest
  change (elementAt text (place + Place.size opened) >>= fun _ => _).run = _
  rw [ExceptT.run_bind, elementAt_eq h.advance]
  cases helement : element inner with
  | none => rfl
  | some found =>
    obtain ⟨type, written, behind⟩ := found
    rw [(element_eq_some helement).1, ← List.append_assoc] at h
    have hstop : place + Place.size opened + Place.size written =
        place + Place.size (opened ++ written) := by
      rw [Place.size_append, Nat.add_assoc]
    have hsize : Place.size (opened ++ inner) - Place.size behind =
        Place.size (opened ++ written) := by
      rw [(element_eq_some helement).1, ← List.append_assoc, Place.size_append, Nat.add_sub_cancel]
    change (if place < place + Place.size opened then _ else _ : Steps _).run = _
    rw [hstop, h.between?]
    by_cases hopened : opened = []
    · subst hopened
      rw [if_neg (by simp)]
      simp only [List.isEmpty_nil, if_true, hsize]
      rfl
    · have hpos : Place.size opened ≠ 0 := mt Place.size_eq_zero_iff.1 hopened
      rw [if_pos (by omega)]
      simp only [List.isEmpty_iff, if_neg hopened, hsize]
      rfl

theorem fieldAt_of_some {fuel : Nat} (h : Place.At text.toList place rest)
    (hfuel : rest.length < fuel) (hfield : field rest = some (type, behind)) :
    ∃ stop, (fieldAt fuel text place).run = some (.ok (type, stop)) ∧
      Place.At text.toList stop behind := by
  refine ⟨_, by rw [run_fieldAt h hfuel, hfield], ?_⟩
  obtain ⟨written, rfl, -⟩ := field_eq_some_iff.1 hfield
  rw [Place.size_append, Nat.add_sub_cancel]
  exact h.advance

theorem fieldAt_of_none {fuel : Nat} (h : Place.At text.toList place rest)
    (hfuel : rest.length < fuel) (hfield : field rest = none) :
    (fieldAt fuel text place).run = some (.error (.badDescriptor text)) := by
  rw [run_fieldAt h hfuel, hfield]

theorem run_parseFieldAt {fuel : Nat} (hfuel : text.toList.length < fuel) :
    (parseFieldAt fuel text).run = some (parseField text) := by
  rw [parseFieldAt, parseField, ExceptT.run_bind]
  cases hfield : field text.toList with
  | none =>
    rw [fieldAt_of_none (.start _) hfuel hfield]
    rfl
  | some found =>
    obtain ⟨type, behind⟩ := found
    obtain ⟨stop, hrun, hstop⟩ := fieldAt_of_some (.start _) hfuel hfield
    rw [hrun]
    change (if stop ≠ Place.size text.toList then _ else _ : Steps _).run = _
    cases behind with
    | nil =>
      rw [if_neg (not_not_intro (hstop.eq_size_iff.2 rfl))]
      rfl
    | cons c behind =>
      rw [if_pos (mt hstop.eq_size_iff.1 (by simp))]
      rfl

/-- Where the parameters go on, the type that comes next is found at the place. -/
theorem parametersAt_succ {fuel rounds : Nat} {done : List FieldType} {c : Char}
    (h : Place.At text.toList place (c :: rest)) (hc : c ≠ ')') :
    parametersAt fuel text (rounds + 1) done place =
      fieldAt fuel text place >>= fun found =>
        parametersAt fuel text rounds (found.1 :: done) found.2 := by
  obtain ⟨mark, hmark, hchar⟩ := h.mark?_cons
  rw [parametersAt]
  split
  case h_1 hclosed => exact absurd ((h.mark?_eq_iff (by decide)).1 hclosed) hc
  case h_2 => rfl
  case h_3 hnone =>
    rw [hmark] at hnone
    cases hnone

/-- One round for each parameter and one for the parenthesis are enough. -/
theorem run_parametersAt {fuel steps rounds : Nat} {done : List FieldType}
    (h : Place.At text.toList place rest) (hfuel : rest.length < fuel)
    (hsteps : rest.length ≤ steps) (hrounds : rest.length < rounds) :
    match parametersOnto steps done rest with
    | some (parameters, behind) => ∃ stop,
      (parametersAt fuel text rounds done place).run = some (.ok (parameters, stop)) ∧
        Place.At text.toList (stop + 1) behind
    | none =>
      (parametersAt fuel text rounds done place).run = some (.error (.badDescriptor text)) := by
  induction rounds generalizing place rest steps done with
  | zero => exact absurd hrounds (Nat.not_lt_zero _)
  | succ rounds ih =>
    cases rest with
    | nil =>
      have hnone : parametersOnto steps done [] = none := by cases steps <;> rfl
      rw [hnone, parametersAt, h.mark?_nil]
      rfl
    | cons c rest =>
      by_cases hc : c = ')'
      · subst hc
        have hsome : parametersOnto steps done (')' :: rest) = some (done.reverse, rest) := by
          cases steps <;> rfl
        rw [hsome, parametersAt, (h.mark?_eq_iff (by decide)).2 rfl]
        exact ⟨place, rfl, h.advance_cons⟩
      · obtain ⟨steps, rfl⟩ : ∃ fewer, steps = fewer + 1 :=
          Nat.exists_eq_add_one.2 (Nat.lt_of_lt_of_le (Nat.succ_pos _) hsteps)
        rw [parametersOnto_succ (fun behind heq => hc (List.cons.inj heq).1),
          parametersAt_succ h hc, ExceptT.run_bind]
        cases hfield : field (c :: rest) with
        | none =>
          rw [fieldAt_of_none h hfuel hfield]
          rfl
        | some found =>
          obtain ⟨type, behind⟩ := found
          obtain ⟨stop, hrun, hstop⟩ := fieldAt_of_some h hfuel hfield
          obtain ⟨written, hwritten, htype⟩ := field_eq_some_iff.1 hfield
          have hshorter : behind.length < (c :: rest).length := by
            obtain ⟨d, more, rfl, -⟩ := htype.exists_cons
            rw [hwritten, List.length_append, List.length_cons]
            omega
          rw [hrun]
          exact ih hstop (by omega) (by omega) (by omega)

theorem run_parseMethodAt {fuel : Nat} (hfuel : text.toList.length < fuel) :
    (parseMethodAt fuel text).run = some (parseMethod text) := by
  by_cases hopen : text.toList.head? = some '('
  · obtain ⟨inner, htext⟩ := List.head?_eq_some_iff.1 hopen
    have hstart := Place.At.start text.toList
    rw [htext] at hstart
    have hinner : Place.At ('(' :: inner) 1 inner := hstart.advance_cons
    rw [← htext] at hinner
    have hlength : inner.length < fuel := Nat.lt_of_le_of_lt hinner.length_le hfuel
    have hparameters := @run_parametersAt text 1 inner fuel inner.length fuel [] hinner hlength
      (Nat.le_refl _) hlength
    rw [parseMethodAt, if_neg (not_not_intro hopen)]
    change (parametersAt fuel text fuel [] 1 >>= _).run = _
    rw [ExceptT.run_bind]
    cases hfound : parametersOnto inner.length [] inner with
    | none =>
      rw [hfound] at hparameters
      rw [hparameters, parseMethod_of_unclosed htext hfound]
      rfl
    | some found =>
      obtain ⟨parameters, last⟩ := found
      rw [hfound] at hparameters
      obtain ⟨stop, hrun, hlast⟩ := hparameters
      rw [hrun, parseMethod_of_parameters htext hfound]
      change (liftM (Place.after? text.toList (stop + 1)) >>= _ : Steps _).run = _
      rw [hlast.after?]
      change (if last = ['V'] then _ else _ : Steps _).run = _
      split
      case isTrue => rfl
      case isFalse =>
        have hresult : (parseFieldAt fuel (String.ofList last)).run =
            some (parseField (String.ofList last)) := by
          apply run_parseFieldAt
          rw [String.toList_ofList]
          exact Nat.lt_of_le_of_lt hlast.length_le hfuel
        rw [ExceptT.run_bind, hresult]
        cases parseField (String.ofList last) <;> rfl
  · rw [parseMethodAt, if_pos hopen, parseMethod_of_unopened hopen]
    rfl

/-- Exactly the descriptors of the grammar are parsed, into the types that they spell. A parser
that goes by places comes to the same end on every text, within as many rounds as there are
characters and one. -/
theorem parse_exact (text : String) :
    (∀ type, parseField text = .ok type ↔ TypeText type text.toList) ∧
      (∀ parameters result, parseMethod text = .ok (parameters, result) ↔
        MethodText parameters result text.toList) ∧
      ∀ fuel, text.length < fuel →
        (parseFieldAt fuel text).run = some (parseField text) ∧
          (parseMethodAt fuel text).run = some (parseMethod text) := by
  refine ⟨fun type => parseField_eq_ok_iff, fun parameters result => parseMethod_eq_ok_iff,
    fun fuel hfuel => ?_⟩
  rw [← String.length_toList] at hfuel
  exact ⟨run_parseFieldAt hfuel, run_parseMethodAt hfuel⟩

theorem parse_exact_accented :
    "([Lé;J)V".length < 9 ∧
      (parseMethodAt 9 "([Lé;J)V").run = some (.ok ([.reference "[Lé;", .long], none)) ∧
      (parseFieldAt 9 "[L;").run = some (.error (.badDescriptor "[L;")) := by
  have hlength : "([Lé;J)V".length < 9 := by decide
  obtain ⟨-, hmethod, hplaces⟩ := parse_exact "([Lé;J)V"
  have hparsed : parseMethod "([Lé;J)V" = .ok ([.reference "[Lé;", .long], none) := by
    refine (hmethod _ _).2 ⟨[['[', 'L', 'é', ';'], ['J']], ['V'], by decide, ?_, .void⟩
    exact .cons (.array 0 (@ElementText.named "é" (by decide) (by decide)))
      (.cons (.element .long) .nil)
  refine ⟨hlength, by rw [(hplaces 9 hlength).2, hparsed], ?_⟩
  rw [((parse_exact "[L;").2.2 9 (by decide)).1]
  decide +kernel

end Embargo.Descriptor
