import Embargo.Proofs.Json.Scanning
import Embargo.Proofs.Reflection

/-!
The document of a registry reads back as the entries of the registry.
-/
namespace Embargo.Reflection
open Json (Token Scans Assembly)
variable {entry : Entry} {entries : List Entry}

/-- The tokens of an entry in the document. -/
def Entry.tokens (entry : Entry) : List Token :=
  [.openObject, .string (some "name"), .colon, .string (some entry.name), .comma,
    .string (some "allDeclaredConstructors"), .colon, .bool entry.constructors, .comma,
    .string (some "allDeclaredMethods"), .colon, .bool entry.methods, .comma,
    .string (some "allDeclaredFields"), .colon, .bool entry.fields, .closeObject]

/-- The value of an entry in the document. -/
def Entry.toJson (entry : Entry) : Json.Value :=
  .object [(some "name", .string (some entry.name)),
    (some "allDeclaredConstructors", .bool entry.constructors),
    (some "allDeclaredMethods", .bool entry.methods),
    (some "allDeclaredFields", .bool entry.fields)]

/-- A truth value ends where something comes behind it that is no letter. -/
theorem scans_bool (value : Bool) {c : Char} {rest : List Char} {tokens : List Token}
    (hc : Json.isWordLetter c = false) (h : Scans (c :: rest) tokens) :
    Scans ((toString value).toList ++ c :: rest) (.bool value :: tokens) := by
  intro done
  have hword : ∃ letters, Json.wordToken letters.reverse = some (.bool value) ∧
      (toString value).toList.foldlM Json.Scan.step ⟨.between, done⟩ =
        some ⟨.word letters, done⟩ := by
    cases value
    · exact ⟨"false".toList.reverse, rfl, rfl⟩
    · exact ⟨"true".toList.reverse, rfl, rfl⟩
  obtain ⟨letters, htoken, hletters⟩ := hword
  have hclose : Json.Scan.step ⟨.word letters, done⟩ c =
      Json.Scan.step ⟨.between, .bool value :: done⟩ c := by
    simp [Json.Scan.step, hc, Json.Scan.close, htoken]
  have hrest := h (.bool value :: done)
  rw [List.foldlM_cons] at hrest
  rw [List.foldlM_append, hletters, Option.bind_eq_bind, Option.bind_some, List.foldlM_cons, hclose,
    hrest]
  simp

/-- A row with a key and a value, and what parts it from the next. -/
theorem scans_row (key : String) {value : List Char} {tokens : List Token}
    (h : Scans value tokens) :
    Scans ("    ".toList ++ (Json.Quoted.encode key).toList ++ ": ".toList ++ value)
      (.string (some key) :: .colon :: tokens) := by
  have hindent : Scans "    ".toList [] := fun _ => rfl
  have hcolon : Scans ": ".toList [.colon] := fun _ => rfl
  exact ((hindent.append (Json.scans_encode key)).append hcolon).append h

theorem scans_item (entry : Entry) : Scans entry.item.toList entry.tokens := by
  have hopen : Scans "  \x7b\n".toList [.openObject] := fun _ => rfl
  have hcomma : Scans [',', '\n'] [.comma] := fun _ => rfl
  have hline : Scans ['\n'] [] := fun _ => rfl
  have hclose : Scans "  \x7d".toList [.closeObject] := fun _ => rfl
  have hname := scans_row "name" ((Json.scans_encode entry.name).append hcomma)
  have hconstructors :=
    scans_row "allDeclaredConstructors" (scans_bool entry.constructors rfl hcomma)
  have hmethods := scans_row "allDeclaredMethods" (scans_bool entry.methods rfl hcomma)
  have hfields := scans_row "allDeclaredFields" (scans_bool entry.fields rfl hline)
  simpa [Entry.item, Entry.values, keys, String.toList_intercalate, Entry.tokens] using
    hopen.append (hname.append (hconstructors.append (hmethods.append (hfields.append hclose))))

theorem scans_intercalate {sep : List Char} {tokens : List Token} (hsep : Scans sep tokens)
    (entries : List Entry) :
    Scans (sep.intercalate (entries.map fun entry => entry.item.toList))
      (tokens.intercalate (entries.map Entry.tokens)) := by
  induction entries with
  | nil => exact .nil
  | cons entry rest ih =>
    cases rest with
    | nil => simpa using scans_item entry
    | cons next rest =>
      simpa using ((scans_item entry).append hsep).append ih

theorem tokens_document (h : entries ≠ []) :
    Json.tokens (Registry.document ⟨entries⟩) =
      some (.openArray :: ([.comma].intercalate (entries.map Entry.tokens) ++ [.closeArray])) := by
  have hopen : Scans ['[', '\n'] [.openArray] := fun _ => rfl
  have hcomma : Scans [',', '\n'] [.comma] := fun _ => rfl
  have hclose : Scans ['\n', ']'] [.closeArray] := fun _ => rfl
  refine Scans.tokens_eq ?_
  simpa [Registry.document, Registry.isEmpty, h, String.toList_intercalate, Function.comp_def] using
    (hopen.append (scans_intercalate hcomma entries)).append hclose

/-- The tokens of an entry put its value into an array, at its start as well as behind a comma. -/
theorem foldlM_tokens {expected : Json.Expected} (hexpected : expected ∈ [.value, .valueOrClose])
    (items : List Json.Value) (entry : Entry) :
    entry.tokens.foldlM Assembly.step (.within expected [.array items]) =
      some (.within .commaOrClose [.array (entry.toJson :: items)]) := by
  simp only [List.mem_cons, List.not_mem_nil, or_false] at hexpected
  rcases hexpected with rfl | rfl <;> rfl

theorem foldlM_entries {expected : Json.Expected} (hexpected : expected ∈ [.value, .valueOrClose])
    (items : List Json.Value) (h : entries ≠ []) :
    ([.comma].intercalate (entries.map Entry.tokens)).foldlM Assembly.step
        (.within expected [.array items]) =
      some (.within .commaOrClose [.array ((entries.map Entry.toJson).reverse ++ items)]) := by
  induction entries generalizing expected items with
  | nil => exact absurd rfl h
  | cons entry rest ih =>
    cases rest with
    | nil => simpa using foldlM_tokens hexpected items entry
    | cons next rest =>
      have hcomma : Assembly.step (.within .commaOrClose [.array (entry.toJson :: items)]) .comma =
          some (.within .value [.array (entry.toJson :: items)]) := rfl
      have hrest := ih List.mem_cons_self (entry.toJson :: items) (List.cons_ne_nil _ _)
      rw [List.map_cons, List.map_cons, List.intercalate_cons_cons, List.append_assoc,
        List.foldlM_append, foldlM_tokens hexpected, Option.bind_eq_bind, Option.bind_some,
        List.singleton_append, List.foldlM_cons, hcomma, Option.bind_eq_bind, Option.bind_some,
        ← List.map_cons, hrest]
      simp

theorem Entry.ofJson?_toJson (entry : Entry) : ofJson? entry.toJson = some entry := by
  simp [ofJson?, toJson, Json.Value.record, Json.Value.member, keys, Json.Value.string?,
    Json.Value.bool?]

theorem valueParse_document (h : entries ≠ []) :
    Json.Value.parse (Registry.document ⟨entries⟩) =
      some (.array (entries.map Entry.toJson)) := by
  have hopen : Assembly.step (.within .value []) .openArray =
      some (.within .valueOrClose [.array []]) := rfl
  have hclose : ∀ items, Assembly.step (.within .commaOrClose [.array items]) .closeArray =
      some (.complete (.array items.reverse)) := fun _ => rfl
  have hentries := foldlM_entries (List.mem_cons_of_mem _ List.mem_cons_self) [] h
  rw [Json.Value.parse, tokens_document h]
  simp only [Option.bind_eq_bind, Option.bind_some, List.foldlM_cons, hopen, List.foldlM_append,
    hentries, hclose]
  simp

/-- The document of a registry tells its entries and no others, in their order. -/
theorem parse_document (registry : Registry) :
    parse registry.document = some registry.entries := by
  obtain ⟨entries⟩ := registry
  by_cases h : entries = []
  · subst h
    rfl
  · have hitems : (entries.map Entry.toJson).mapM Entry.ofJson? = some entries := by
      rw [List.mapM_map, Function.comp_def]
      simp only [Entry.ofJson?_toJson]
      exact List.mapM_pure.trans (congrArg some (List.map_id entries))
    simp [parse, valueParse_document h, hitems]

end Embargo.Reflection
