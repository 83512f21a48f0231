import Embargo.ClassFile.Basic
import Embargo.Enforcement.Method

/-!
A rule enforced on a class, method by method.
-/
namespace Embargo

/-- What a rule made of a class. Methods before a failure keep their new bodies. -/
structure ClassOutcome where
  result : Except Fault SiteCounts
  classFile : ClassFile

namespace Rule

/-- Whether any member reference of a class is forbidden. -/
def concerns (rule : Rule) (c : ClassFile) : Bool :=
  c.pool.entries.any fun (index, _) =>
    match c.pool.member index with
    | .ok member => rule.forbids member.owner
    | .error _ => false

/-- What a rule made of a method as its class declares it. -/
structure MemberOutcome where
  result : Except Fault SiteCounts
  method : Member
  pool : Pool

/-- A rule enforced on the first code attribute of a method, at a known place among
its attributes. -/
def enforceCode (rule : Rule) (className : String) (stackMaps : Bool) (method : Member)
    (place : Nat) (a : Attribute) (name descriptor : String) (pool : Pool) : MemberOutcome :=
  let fail (fault : Fault) (pool : Pool) : MemberOutcome :=
    ⟨.error (.inMethod (name ++ descriptor) fault), method, pool⟩
  match Body.parse a.payload with
  | .error fault => fail fault pool
  | .ok body =>
    let info : MethodInfo :=
      { className, name, descriptor, isStatic := method.isStatic, stackMaps }
    let outcome := rule.enforceMethod info body pool
    match outcome.result with
    | .error fault => fail fault outcome.pool
    | .ok counts =>
      if counts.total = 0 then ⟨.ok counts, method, outcome.pool⟩
      else
        match outcome.body.toBytes with
        | .error fault => fail fault outcome.pool
        | .ok payload =>
          let attributes := method.attributes.set place { a with payload }
          ⟨.ok counts, { method with attributes }, outcome.pool⟩

/-- A rule enforced on a method; one without code stays as it is. -/
def enforceMember (rule : Rule) (className : String) (stackMaps : Bool) (method : Member)
    (pool : Pool) : MemberOutcome :=
  match method.findAttribute pool "Code" with
  | none => ⟨.ok SiteCounts.zero, method, pool⟩
  | some place =>
    match method.attributes[place]?, pool.utf8 method.name, pool.utf8 method.descriptor with
    | some a, .ok name, .ok descriptor =>
      rule.enforceCode className stackMaps method place a name descriptor pool
    | none, _, _ => ⟨.ok SiteCounts.zero, method, pool⟩
    | some _, .error fault, _ => ⟨.error fault, method, pool⟩
    | some _, .ok _, .error fault => ⟨.error fault, method, pool⟩

/-- What a rule made of the methods of a class. -/
structure MembersOutcome where
  result : Except Fault SiteCounts
  methods : List Member
  pool : Pool

/-- A rule enforced on methods in order up to the first failure. Those of `done`,
which is reversed, come in front. -/
def enforceOnto (rule : Rule) (className : String) (stackMaps : Bool) :
    SiteCounts → List Member → List Member → Pool → MembersOutcome
  | counts, done, [], pool => ⟨.ok counts, done.reverse, pool⟩
  | counts, done, method :: rest, pool =>
    let outcome := rule.enforceMember className stackMaps method pool
    match outcome.result with
    | .error fault => ⟨.error fault, done.reverse ++ outcome.method :: rest, outcome.pool⟩
    | .ok more =>
      enforceOnto rule className stackMaps (counts.add more) (outcome.method :: done) rest
        outcome.pool

/-- A rule enforced on all methods of a class. A class that refers to nothing
forbidden is not searched. -/
def enforce (rule : Rule) (c : ClassFile) : ClassOutcome :=
  if !rule.concerns c then ⟨.ok SiteCounts.zero, c⟩
  else
    match c.name with
    | .error fault => ⟨.error fault, c⟩
    | .ok className =>
      let outcome :=
        rule.enforceOnto className c.usesStackMaps SiteCounts.zero [] c.methods c.pool
      ⟨outcome.result, { c with methods := outcome.methods, pool := outcome.pool }⟩

end Rule

/-- A class file on which a rule was enforced. -/
structure EnforcedClass where
  /-- The internal name. -/
  className : String
  counts : SiteCounts
  /-- The new file, or nothing where the old one stands. -/
  bytes : Option (List UInt8)

/-- A rule enforced on the bytes of a class file. -/
def Rule.enforceBytes (rule : Rule) (data : List UInt8) : Except Fault EnforcedClass := do
  let c ← ClassFile.parse data
  let className ← c.name
  let outcome := rule.enforce c
  let counts ← outcome.result
  if counts.total = 0 then
    return { className, counts, bytes := none }
  else
    return { className, counts, bytes := some (← outcome.classFile.toBytes) }

end Embargo
