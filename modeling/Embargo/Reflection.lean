import Embargo.Json.Quoted
import Embargo.Json.Value

/-!
The registry of classes that stay open to reflection, and its JSON document. The
registry is in order of class names and has no name twice.
-/
namespace Embargo.Reflection

/-- A class and which of its members stay open. -/
structure Entry where
  name : String
  constructors : Bool
  methods : Bool
  fields : Bool
  deriving DecidableEq, Repr

/-- A class with all of its members. -/
def Entry.whole (name : String) : Entry := ⟨name, true, true, true⟩

structure Registry where
  entries : List Entry
  deriving DecidableEq, Repr

/-- A new name put at its place among ordered entries. -/
def insertInto (name : String) : List Entry → List Entry
  | [] => [Entry.whole name]
  | entry :: rest =>
    if name < entry.name then Entry.whole name :: entry :: rest
    else if name = entry.name then entry :: rest
    else entry :: insertInto name rest

namespace Registry

def empty : Registry := ⟨[]⟩

def size (registry : Registry) : Nat := registry.entries.length

def isEmpty (registry : Registry) : Bool := registry.entries.isEmpty

def contains (registry : Registry) (name : String) : Bool :=
  registry.entries.any fun entry => entry.name = name

def register (registry : Registry) (name : String) : Registry :=
  ⟨insertInto name registry.entries⟩

end Registry

/-- The keys of an entry in the document, in order. -/
def keys : List String :=
  ["name", "allDeclaredConstructors", "allDeclaredMethods", "allDeclaredFields"]

def Entry.values (entry : Entry) : List String :=
  [Json.Quoted.encode entry.name, toString entry.constructors, toString entry.methods,
    toString entry.fields]

/-- An entry as an item of the document, two blanks further in on each level. -/
def Entry.item (entry : Entry) : String :=
  let rows := (keys.zip entry.values).map fun (key, value) =>
    "    " ++ Json.Quoted.encode key ++ ": " ++ value
  "  \x7b\n" ++ ",\n".intercalate rows ++ "\n  \x7d"

def Registry.document (registry : Registry) : String :=
  if registry.isEmpty then "[]"
  else "[\n" ++ ",\n".intercalate (registry.entries.map Entry.item) ++ "\n]"

def Entry.ofJson? (value : Json.Value) : Option Entry := do
  match ← value.record keys with
  | [some name, some constructors, some methods, some fields] =>
    return ⟨← name.string?, ← constructors.bool?, ← methods.bool?, ← fields.bool?⟩
  | _ => none

/-- The entries of a document. -/
def parse (text : String) : Option (List Entry) := do
  match ← Json.Value.parse text with
  | .array items => items.mapM Entry.ofJson?
  | _ => none

end Embargo.Reflection
