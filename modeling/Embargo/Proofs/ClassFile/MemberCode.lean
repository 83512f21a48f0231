import Embargo.ClassFile.Body
import Embargo.ClassFile.Member
import Embargo.Code.Decode
import Embargo.Proofs.ClassFile.PoolGrowth

/-!
The code of a method as its first code attribute has it.
-/
namespace Embargo

namespace Member

/-- The first code attribute of a method, with its place. -/
def findCode? (member : Member) (pool : Pool) : Option (Nat × Attribute) := do
  let place ← member.findAttribute pool "Code"
  let a ← member.attributes[place]?
  return (place, a)

/-- The code of the first code attribute of a method; there is none where it cannot be
read. -/
def code (member : Member) (pool : Pool) : List Located :=
  match member.findCode? pool with
  | none => []
  | some (_, a) => ((do Instruction.decode (← Body.parse a.payload).code).toOption).getD []

/-- The names of all attributes resolve. -/
def Named (member : Member) (pool : Pool) : Prop :=
  ∀ a ∈ member.attributes, ∃ name, pool.utf8 a.name = .ok name

/-- Attributes are found by their names alone. -/
theorem findAttribute_eq (member : Member) (pool : Pool) (name : String) :
    member.findAttribute pool name =
      (member.attributes.map Attribute.name).findIdx? fun index =>
        match pool.utf8 index with
        | .ok found => found == name
        | .error _ => false := by
  rw [List.findIdx?_map]
  rfl

theorem findCode?_of_growth {member : Member} {P : String → Prop} {pool later : Pool}
    (h : member.Named pool) (hgrowth : Pool.Growth P pool later) :
    member.findCode? later = member.findCode? pool := by
  have hfind : member.findAttribute later "Code" = member.findAttribute pool "Code" := by
    unfold Named at h
    unfold findAttribute
    generalize member.attributes = attributes at h
    induction attributes with
    | nil => rfl
    | cons a attributes ih =>
      obtain ⟨⟨name, hname⟩, hrest⟩ := List.forall_mem_cons.1 h
      simp only [List.findIdx?_cons, hname, hgrowth.utf8_eq hname, ih hrest]
  rw [findCode?, findCode?, hfind]

theorem code_of_growth {member : Member} {P : String → Prop} {pool later : Pool}
    (h : member.Named pool) (hgrowth : Pool.Growth P pool later) :
    member.code later = member.code pool := by
  rw [code, code, findCode?_of_growth h hgrowth]

theorem Named.of_growth {member : Member} {P : String → Prop} {pool later : Pool}
    (h : member.Named pool) (hgrowth : Pool.Growth P pool later) : member.Named later := by
  intro a ha
  obtain ⟨name, hname⟩ := h a ha
  exact ⟨name, hgrowth.utf8_eq hname⟩

theorem mem_of_findCode? {member : Member} {pool : Pool} {place : Nat} {a : Attribute}
    (h : member.findCode? pool = some (place, a)) : member.attributes[place]? = some a := by
  obtain ⟨found, -, h⟩ := Option.bind_eq_some_iff.1 h
  obtain ⟨b, hb, h⟩ := Option.bind_eq_some_iff.1 h
  cases h
  exact hb

/-- A new payload for the code attribute. -/
def setCode (member : Member) (place : Nat) (a : Attribute) (payload : List UInt8) : Member :=
  { member with attributes := member.attributes.set place { a with payload } }

theorem findCode?_setCode {member : Member} {pool : Pool} {place : Nat} {a : Attribute}
    (h : member.findCode? pool = some (place, a)) (payload : List UInt8) :
    (member.setCode place a payload).findCode? pool = some (place, { a with payload }) := by
  have hmem := mem_of_findCode? h
  obtain ⟨found, hfound, hrest⟩ := Option.bind_eq_some_iff.1 h
  obtain ⟨b, hb, hpair⟩ := Option.bind_eq_some_iff.1 hrest
  cases hpair
  obtain ⟨hlt, hself⟩ := List.getElem?_eq_some_iff.1 hmem
  have hnames : (member.setCode place a payload).attributes.map Attribute.name
      = member.attributes.map Attribute.name := by
    rw [setCode, List.map_set]
    change (member.attributes.map Attribute.name).set place a.name = _
    rw [← List.map_set, ← hself, List.set_getElem_self]
  have hfind : (member.setCode place a payload).findAttribute pool "Code" = some place := by
    rw [findAttribute_eq, hnames, ← findAttribute_eq]
    exact hfound
  have hget : (member.setCode place a payload).attributes[place]? = some { a with payload } := by
    rw [setCode, List.getElem?_set_self hlt]
  exact Option.bind_eq_some_iff.2 ⟨place, hfind, Option.bind_eq_some_iff.2 ⟨_, hget, rfl⟩⟩

/-- A method whose code can be read. -/
structure Readable (member : Member) (pool : Pool) where
  place : Nat
  a : Attribute
  name : String
  descriptor : String
  body : Body
  code : List Located
  find : member.findCode? pool = some (place, a)
  name_eq : pool.utf8 member.name = .ok name
  descriptor_eq : pool.utf8 member.descriptor = .ok descriptor
  body_eq : Body.parse a.payload = .ok body
  code_eq : Instruction.decode body.code = .ok code

namespace Readable
variable {member : Member} {pool : Pool} (read : member.Readable pool)

theorem member_code : member.code pool = read.code := by
  have hread : (do Instruction.decode (← Body.parse read.a.payload).code) = .ok read.code :=
    Except.bind_eq_ok_iff.2 ⟨read.body, read.body_eq, read.code_eq⟩
  rw [Member.code, read.find]
  dsimp only
  rw [hread]
  rfl

/-- The same in a pool that has grown. -/
def grow {P : String → Prop} {later : Pool} (hnamed : member.Named pool)
    (h : Pool.Growth P pool later) : member.Readable later where
  place := read.place
  a := read.a
  name := read.name
  descriptor := read.descriptor
  body := read.body
  code := read.code
  find := (findCode?_of_growth hnamed h).trans read.find
  name_eq := h.utf8_eq read.name_eq
  descriptor_eq := h.utf8_eq read.descriptor_eq
  body_eq := read.body_eq
  code_eq := read.code_eq

/-- The method with other code. -/
def withCode {payload : List UInt8} {body : Body} {code : List Located}
    (hbody : Body.parse payload = .ok body) (hcode : Instruction.decode body.code = .ok code) :
    (member.setCode read.place read.a payload).Readable pool where
  place := read.place
  a := { read.a with payload }
  name := read.name
  descriptor := read.descriptor
  body
  code
  find := findCode?_setCode read.find payload
  name_eq := read.name_eq
  descriptor_eq := read.descriptor_eq
  body_eq := hbody
  code_eq := hcode

end Readable

end Member

end Embargo
