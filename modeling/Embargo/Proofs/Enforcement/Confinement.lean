import Embargo.Proofs.Enforcement.Completeness

/-!
What an enforcement leaves alone, whether it ends well or fails. The pool keeps all that was
in it, and in the methods nothing changes but the payloads of first code attributes, one
method after the other up to the failure.
-/
namespace Embargo

namespace Rule
variable {rule : Rule} {className : String} {stackMaps : Bool} {method : Member} {pool : Pool}

theorem method_enforceCode {place : Nat} {a : Attribute} {name descriptor : String}
    {fault : Fault}
    (h : (rule.enforceCode className stackMaps method place a name descriptor pool).result
      = .error fault) :
    (rule.enforceCode className stackMaps method place a name descriptor pool).method
      = method := by
  unfold enforceCode at h ⊢
  dsimp only at h ⊢
  split at h
  case h_1 => rfl
  case h_2 =>
    split at h
    case h_1 => rfl
    case h_2 counts _ =>
      split at h
      case isTrue => cases h
      case isFalse htotal =>
        rw [if_neg htotal]
        split at h
        case h_1 => rfl
        case h_2 => cases h

/-- A method at which an enforcement fails stays as it is. -/
theorem method_enforceMember {fault : Fault}
    (h : (rule.enforceMember className stackMaps method pool).result = .error fault) :
    (rule.enforceMember className stackMaps method pool).method = method := by
  unfold enforceMember at h ⊢
  split at h
  case h_1 => cases h
  case h_2 =>
    split at h
    case h_1 => exact method_enforceCode h
    all_goals rfl

/-- A method without uses stays as it is, and so does the pool. With uses the first code
attribute gets the whole of the new body. -/
theorem enforceMember_eq_ok {counts : SiteCounts}
    (h : (rule.enforceMember className stackMaps method pool).result = .ok counts) :
    rule.uses pool (method.code pool) = [] ∧
        rule.enforceMember className stackMaps method pool = ⟨.ok counts, method, pool⟩ ∨
      rule.uses pool (method.code pool) ≠ [] ∧ ∃ read : method.Readable pool,
        ∃ body newPool payload,
          rule.enforceMethod (read.info className stackMaps) read.body pool
            = ⟨.ok counts, body, newPool⟩ ∧
          body.toBytes = .ok payload ∧
          rule.enforceMember className stackMaps method pool
            = ⟨.ok counts, method.setCode read.place read.a payload, newPool⟩ := by
  obtain hfind | ⟨⟨read⟩⟩ := readable_of_eq_ok h
  · rw [enforceMember_of_absent hfind] at h ⊢
    cases h
    refine .inl ⟨?_, rfl⟩
    rw [Member.code, hfind]
    rfl
  · rw [enforceMember_of_readable read] at h ⊢
    obtain ⟨body, newPool, hrun, hend⟩ := enforceCode_eq_ok read h
    obtain ⟨old, marked, hold, hmarked, rfl, hsites⟩ :=
      Revision.enforceMethod_eq_ok (congrArg MethodOutcome.result hrun)
    obtain rfl : old = read.code := Except.ok.inj (hold.symm.trans read.code_eq)
    rw [read.member_code, ← Marked.sites_eq hmarked (.refl (P := fun _ => True) pool)]
    rw [ne_eq, total_counts, List.length_eq_zero_iff] at hend
    obtain ⟨hnil, heq⟩ | ⟨hsome, payload, hpayload, heq⟩ := hend
    · obtain ⟨-, hsame⟩ | ⟨hsome, -⟩ := hsites
      · obtain ⟨-, -, rfl⟩ := MethodOutcome.mk.inj (hrun.symm.trans hsame)
        exact .inl ⟨hnil, heq⟩
      · exact absurd hnil hsome
    · exact .inr ⟨hsome, read, body, newPool, payload, hrun, hpayload, heq⟩

/-- Methods of a class that were dealt with, each in the pool that the ones in front of it
left. One without uses is the same as before; one with uses has a new payload in its first
code attribute, which is all of the new body. -/
inductive Revises (rule : Rule) (c : ClassFile) :
    List Member → Pool → List Member → Pool → Prop
  | nil (pool : Pool) : Revises rule c [] pool [] pool
  | same {method : Member} {methods after : List Member} {pool new : Pool}
      (uses : rule.uses pool (method.code pool) = [])
      (tail : Revises rule c methods pool after new) :
      Revises rule c (method :: methods) pool (method :: after) new
  | revised {method : Member} {methods after : List Member} {pool middle new : Pool}
      {className : String} (read : method.Readable pool) {counts : SiteCounts} {body : Body}
      {payload : List UInt8} (uses : rule.uses pool (method.code pool) ≠ [])
      (name : c.name = .ok className)
      (enforced : rule.enforceMethod (read.info className c.usesStackMaps) read.body pool
        = ⟨.ok counts, body, middle⟩)
      (written : body.toBytes = .ok payload)
      (tail : Revises rule c methods middle after new) :
      Revises rule c (method :: methods) pool (method.setCode read.place read.a payload :: after)
        new

/-- Where an enforcement ends: the methods that it left over, with the pool in front of them
and the pool in the end. -/
inductive Ends (rule : Rule) (c : ClassFile) :
    Except Fault SiteCounts → List Member → Pool → Pool → Prop
  | finished (counts : SiteCounts) (pool : Pool) : Ends rule c (.ok counts) [] pool pool
  /-- The class itself cannot be named. -/
  | unnamed {fault : Fault} (name : c.name = .error fault) :
      Ends rule c (.error fault) c.methods c.pool c.pool
  /-- The first of the methods fails. It may have added to the pool. -/
  | failed {className : String} {method : Member} {rest : List Member} {pool : Pool}
      {fault : Fault} (name : c.name = .ok className)
      (fails : (rule.enforceMember className c.usesStackMaps method pool).result = .error fault) :
      Ends rule c (.error fault) (method :: rest) pool
        (rule.enforceMember className c.usesStackMaps method pool).pool

variable {c : ClassFile} {methods after rest : List Member} {new : Pool}

theorem Revises.of_eq_ok (hname : c.name = .ok className) {counts : SiteCounts}
    (h : (rule.enforceMember className c.usesStackMaps method pool).result = .ok counts)
    (htail : rule.Revises c methods
      (rule.enforceMember className c.usesStackMaps method pool).pool after new) :
    rule.Revises c (method :: methods) pool
      ((rule.enforceMember className c.usesStackMaps method pool).method :: after) new := by
  obtain ⟨huses, heq⟩ | ⟨huses, read, body, middle, payload, hrun, hpayload, heq⟩ :=
    enforceMember_eq_ok h
  · rw [heq] at htail ⊢
    exact .same huses htail
  · rw [heq] at htail ⊢
    exact .revised read huses hname hrun hpayload htail

theorem Revises.growth (h : rule.Revises c methods pool after new) :
    Pool.Growth (fun _ => True) pool new := by
  induction h with
  | nil pool => exact .refl pool
  | same _ _ ih => exact ih
  | @revised _ _ _ pool _ _ className read _ _ _ _ _ henforced _ _ ih =>
    have hgrowth := rule.growth_enforceMethod (read.info className c.usesStackMaps) read.body pool
    rw [henforced] at hgrowth
    exact hgrowth.trans ih

theorem Ends.growth {result : Except Fault SiteCounts} (h : rule.Ends c result rest pool new) :
    Pool.Growth (fun _ => True) pool new := by
  cases h with
  | finished => exact .refl _
  | unnamed => exact .refl _
  | failed => exact rule.growth_enforceMember ..

/-- Where nothing is used, nothing is revised. -/
theorem Revises.of_forall (h : ∀ method ∈ methods, rule.uses pool (method.code pool) = []) :
    rule.Revises c methods pool methods pool := by
  induction methods with
  | nil => exact .nil pool
  | cons method rest ih =>
    obtain ⟨hhead, htail⟩ := List.forall_mem_cons.1 h
    exact .same hhead (ih htail)

/-- Methods are revised in order, and what comes behind a failure stays. -/
theorem enforceOnto_ends (rule : Rule) (hname : c.name = .ok className) (counts : SiteCounts)
    (done methods : List Member) (pool : Pool) :
    ∃ front after rest middle, methods = front ++ rest ∧
      (rule.enforceOnto className c.usesStackMaps counts done methods pool).methods
        = done.reverse ++ (after ++ rest) ∧
      rule.Revises c front pool after middle ∧
      rule.Ends c (rule.enforceOnto className c.usesStackMaps counts done methods pool).result
        rest middle (rule.enforceOnto className c.usesStackMaps counts done methods pool).pool := by
  induction methods generalizing counts done pool with
  | nil =>
    exact ⟨[], [], [], pool, rfl, (List.append_nil _).symm, .nil pool, .finished counts pool⟩
  | cons method methods ih =>
    unfold enforceOnto
    dsimp only
    split
    case h_1 fault hresult =>
      refine ⟨[], [], method :: methods, pool, rfl, ?_, .nil pool, .failed hname hresult⟩
      rw [method_enforceMember hresult]
      rfl
    case h_2 more hresult =>
      obtain ⟨front, after, rest, middle, hfront, hmethods, hrevises, hends⟩ :=
        ih (counts.add more)
          ((rule.enforceMember className c.usesStackMaps method pool).method :: done)
          (rule.enforceMember className c.usesStackMaps method pool).pool
      refine ⟨method :: front, _ :: after, rest, middle, by rw [hfront]; rfl, ?_,
        .of_eq_ok hname hresult hrevises, hends⟩
      rw [hmethods]
      simp

/-- What an enforcement makes of a class at most. -/
structure Confined (rule : Rule) (old : ClassFile) (outcome : ClassOutcome) : Prop where
  /-- All but the pool and the methods is as before. -/
  others : outcome.classFile =
    { old with pool := outcome.classFile.pool, methods := outcome.classFile.methods }
  /-- Constants are only added. -/
  added : ∃ constants : List Constant,
    outcome.classFile.pool = constants.foldl Pool.push old.pool
  held : ∀ index constant, old.pool.get index = .ok constant →
    outcome.classFile.pool.get index = .ok constant
  /-- The methods in front are revised, and the ones that are left over stay. -/
  methods : ∃ front after rest middle, old.methods = front ++ rest ∧
    outcome.classFile.methods = after ++ rest ∧
    rule.Revises old front old.pool after middle ∧
    rule.Ends old outcome.result rest middle outcome.classFile.pool

theorem Confined.of_methods {old : ClassFile} {outcome : ClassOutcome} {front : List Member}
    {middle : Pool}
    (hothers : outcome.classFile =
      { old with pool := outcome.classFile.pool, methods := outcome.classFile.methods })
    (hfront : old.methods = front ++ rest) (hafter : outcome.classFile.methods = after ++ rest)
    (hrevises : rule.Revises old front old.pool after middle)
    (hends : rule.Ends old outcome.result rest middle outcome.classFile.pool) :
    rule.Confined old outcome := by
  have hgrowth := hrevises.growth.trans hends.growth
  exact ⟨hothers, hgrowth.added, fun _ _ => hgrowth.get_eq,
    front, after, rest, middle, hfront, hafter, hrevises, hends⟩

/-- An enforcement changes nothing in a class but the code of methods that use something
forbidden, and where it fails, the method at fault and all behind it are as before. -/
theorem enforce_confined (rule : Rule) (c : ClassFile) : rule.Confined c (rule.enforce c) := by
  cases hconcerns : rule.concerns c with
  | false =>
    rw [enforce_of_not_concerns hconcerns]
    have hrevises : rule.Revises c c.methods c.pool c.methods c.pool :=
      .of_forall fun _ _ => uses_eq_nil hconcerns _
    exact .of_methods rfl (List.append_nil _).symm (List.append_nil _).symm hrevises
      (.finished _ _)
  | true =>
    cases hname : c.name with
    | error fault =>
      have hfault : rule.enforce c = ⟨.error fault, c⟩ := by simp [enforce, hconcerns, hname]
      rw [hfault]
      exact .of_methods rfl rfl rfl (.nil _) (.unnamed hname)
    | ok className =>
      obtain ⟨front, after, rest, middle, hfront, hafter, hrevises, hends⟩ :=
        rule.enforceOnto_ends hname SiteCounts.zero [] c.methods c.pool
      simp only [enforce, hconcerns, hname]
      exact .of_methods rfl hfront hafter hrevises hends

/-- The method in front is revised although the one behind it has no body and fails. -/
example :
    let broken : Member := ⟨8, 10, 4, [⟨9, []⟩]⟩
    let outcome := beepRule.enforce { beepClass with methods := beepClass.methods ++ [broken] }
    outcome.result = .error (.inMethod "run()V" (.unexpectedEnd 0)) ∧
      outcome.classFile.methods = (beepRule.enforce beepClass).classFile.methods ++ [broken] ∧
      outcome.classFile.methods ≠ beepClass.methods ++ [broken] := by
  decide +kernel

end Rule

end Embargo
