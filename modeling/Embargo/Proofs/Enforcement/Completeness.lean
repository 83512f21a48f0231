import Embargo.Proofs.Enforcement.Member

/-!
A rule enforced on a whole class. Every use of something forbidden in any method is counted
and gives way to a sequence that throws, and a second enforcement finds nothing.
-/
namespace Embargo

namespace SiteCounts

theorem of_append (sites more : List Site) : of (sites ++ more) = (of sites).add (of more) := by
  simp [of, add, List.countP_append]

theorem add_assoc (a b c : SiteCounts) : (a.add b).add c = a.add (b.add c) := by
  simp [add, Nat.add_assoc]

@[simp] theorem add_zero (a : SiteCounts) : a.add zero = a := rfl

@[simp] theorem zero_add (a : SiteCounts) : zero.add a = a := by
  simp [add, zero]

end SiteCounts

namespace Rule
variable {rule : Rule} {className : String} {stackMaps : Bool} {pool : Pool}

/-- An enforcement on a method as a step on the pool. -/
def memberStep (rule : Rule) (className : String) (stackMaps : Bool) (method : Member) :
    PoolStep (SiteCounts × Member) := fun pool =>
  let outcome := rule.enforceMember className stackMaps method pool
  (outcome.result.map (·, outcome.method), outcome.pool)

theorem memberStep_eq_ok {method after : Member} {counts : SiteCounts} {new : Pool}
    (h : (rule.memberStep className stackMaps method).run pool = (.ok (counts, after), new)) :
    rule.enforceMember className stackMaps method pool = ⟨.ok counts, after, new⟩ := by
  change (Except.map _ _, _) = _ at h
  rcases houtcome : rule.enforceMember className stackMaps method pool with ⟨result, method, last⟩
  rw [houtcome] at h
  cases result with
  | error => cases h
  | ok => cases h; rfl

/-- Methods are taken one by one, each with the pool that the one before left. -/
theorem enforceOnto_eq_ok {counts total : SiteCounts} {done methods : List Member}
    (h : (rule.enforceOnto className stackMaps counts done methods pool).result = .ok total) :
    ∃ outcomes new,
      Attempt.RunEach (rule.memberStep className stackMaps) methods pool outcomes new ∧
      total = (outcomes.map Prod.fst).foldl SiteCounts.add counts ∧
      rule.enforceOnto className stackMaps counts done methods pool
        = ⟨.ok total, done.reverse ++ outcomes.map Prod.snd, new⟩ := by
  induction methods generalizing counts done pool with
  | nil =>
    cases h
    exact ⟨[], pool, .nil pool, rfl, by simp [enforceOnto]⟩
  | cons method rest ih =>
    unfold enforceOnto at h ⊢
    dsimp only at h ⊢
    split at h
    case h_1 => cases h
    case h_2 more hresult =>
      obtain ⟨outcomes, new, hrun, htotal, heq⟩ := ih h
      refine ⟨(more, (rule.enforceMember className stackMaps method pool).method) :: outcomes, new,
        .cons ?_ hrun, htotal, ?_⟩
      · change (Except.map _ _, _) = _
        rw [hresult]
        rfl
      · simpa using heq

/-- Where no method changes, nothing changes. -/
theorem enforceOnto_of_forall {methods : List Member}
    (h : ∀ method ∈ methods, rule.enforceMember className stackMaps method pool
      = ⟨.ok SiteCounts.zero, method, pool⟩) (counts : SiteCounts) (done : List Member) :
    rule.enforceOnto className stackMaps counts done methods pool
      = ⟨.ok counts, done.reverse ++ methods, pool⟩ := by
  induction methods generalizing done with
  | nil => simp [enforceOnto]
  | cons method rest ih =>
    obtain ⟨hhead, hrest⟩ := List.forall_mem_cons.1 h
    simp [enforceOnto, hhead, ih hrest]

theorem mem_entries {index : UInt16} {constant : Constant} (h : pool.get index = .ok constant) :
    (index, constant) ∈ pool.entries := by
  unfold Pool.get at h
  split at h
  case h_2 => cases h
  case h_1 found hslot =>
    cases h
    rw [← Array.getElem?_toList] at hslot
    refine List.mem_filterMap.2 ⟨(some constant, index.toNat), ?_, ?_⟩
    · exact List.mem_zipIdx_iff_getElem?.2 hslot
    · simp

/-- The search over the constants finds exactly what an index of the pool resolves to. -/
theorem concerns_iff {c : ClassFile} : rule.concerns c = true ↔
    ∃ index member, c.pool.member index = .ok member ∧ rule.forbids member.owner = true := by
  constructor
  · intro h
    obtain ⟨⟨index, _⟩, -, hfound⟩ := List.any_eq_true.1 h
    dsimp only at hfound
    split at hfound
    case h_1 member hmember => exact ⟨index, member, hmember, hfound⟩
    case h_2 => cases hfound
  · rintro ⟨index, member, hmember, hforbids⟩
    obtain ⟨constant, hconstant, -⟩ := Except.bind_eq_ok_iff.1 hmember
    refine List.any_eq_true.2 ⟨(index, constant), mem_entries hconstant, ?_⟩
    dsimp only
    rw [hmember]
    exact hforbids

theorem concerns_of_use? {c : ClassFile} {located : Located} {site : Site}
    (h : rule.use? c.pool located = some site) : rule.concerns c = true := by
  unfold use? at h
  split at h
  case h_2 => cases h
  case h_1 access index _ _ =>
    split at h
    case h_2 => cases h
    case h_1 member hmember =>
      split at h
      case isFalse => cases h
      case isTrue hforbids => exact concerns_iff.2 ⟨index, member, hmember, hforbids⟩

theorem uses_eq_nil {c : ClassFile} (h : rule.concerns c = false) (code : List Located) :
    rule.uses c.pool code = [] := by
  apply List.filterMap_eq_nil_iff.2
  intro located _
  cases huse : rule.use? c.pool located with
  | none => rfl
  | some site =>
    rw [concerns_of_use? huse] at h
    cases h

/-- A class after an enforcement that counted its sites. Code and its uses are those of the
first code attribute of each method, and members are looked up in the final pool. -/
structure Enforced (rule : Rule) (old new : ClassFile) (counts : SiteCounts) : Prop where
  counts_eq : counts = SiteCounts.of
    (old.methods.flatMap fun method => rule.uses new.pool (method.code old.pool))
  /-- A method with uses has them all replaced, and one without stays as it is. -/
  methods : List.Forall₂ (fun method after =>
    if rule.uses new.pool (method.code old.pool) = [] then after = method
    else rule.Rewrites new.pool (method.code old.pool) (after.code new.pool))
      old.methods new.methods
  /-- Unless its own exception is forbidden, the rule finds nothing more. -/
  again : rule.forbids rule.exception = false →
    rule.enforce new = ⟨.ok SiteCounts.zero, new⟩

theorem enforced_of_not_concerns {c : ClassFile} (h : rule.concerns c = false) :
    rule.Enforced c c SiteCounts.zero where
  counts_eq := by
    simp only [uses_eq_nil h]
    rw [List.flatMap_eq_nil_iff.2 fun _ _ => rfl]
    rfl
  methods := by
    rw [List.forall₂_same]
    intro method _
    rw [if_pos (uses_eq_nil h _)]
  again := fun _ => by
    rw [enforce, h]
    rfl

/-- The outcomes of all methods, read in the final pool. -/
theorem forall₂_enforcedMember {methods : List Member} {outcomes : List (SiteCounts × Member)}
    {new : Pool} (hpool : pool.WellFormed) (hnamed : ∀ method ∈ methods, method.Named pool)
    (hrun : Attempt.RunEach (rule.memberStep className stackMaps) methods pool outcomes new)
    (hfits : ∀ after ∈ outcomes.map Prod.snd, after.Fits) :
    Pool.Growth (fun _ => True) pool new ∧ List.Forall₂ (fun method outcome =>
      rule.EnforcedMember pool new method outcome.2 outcome.1) methods outcomes := by
  have hstep : ∀ method start (outcome : SiteCounts × Member) stop,
      (rule.memberStep className stackMaps method).run start = (.ok outcome, stop) →
      Pool.Growth (fun _ => True) start stop := by
    intro method start ⟨counts, after⟩ stop h
    have hmember := memberStep_eq_ok h
    have hgrowth := rule.growth_enforceMember className stackMaps method start
    rwa [hmember] at hgrowth
  obtain ⟨hgrowth, hall⟩ := hrun.forall₂ (R := Pool.Growth fun _ => True) .refl
    (fun _ _ _ => .trans) hstep
  refine ⟨hgrowth, List.forall₂_iff_get.2 ⟨hall.length_eq, fun i hi hi' => ?_⟩⟩
  obtain ⟨start, stop, hstart, hmember, hstop⟩ := (List.forall₂_iff_get.1 hall).2 i hi hi'
  have hmember := memberStep_eq_ok hmember
  have hmethod := hnamed _ (List.get_mem methods ⟨i, hi⟩)
  have hcode := Member.code_of_growth hmethod hstart
  have hlater : Pool.Growth (fun _ => True)
      (rule.enforceMember className stackMaps (methods.get ⟨i, hi⟩) start).pool new := by
    rw [hmember]
    exact hstop
  have henforced := enforcedMember_of_eq_ok (hstart.wellFormed hpool)
    (hmethod.of_growth hstart) (congrArg MemberOutcome.result hmember) hlater
    (by rw [hmember]; exact hfits _ (List.mem_map_of_mem (List.get_mem outcomes ⟨i, hi'⟩)))
  rw [hmember] at henforced
  exact henforced.of_code_eq hcode.symm

theorem enforce_of_not_concerns {c : ClassFile} (h : rule.concerns c = false) :
    rule.enforce c = ⟨.ok SiteCounts.zero, c⟩ := by
  rw [enforce, h]
  rfl

theorem enforce_of_forall {c : ClassFile} (hname : c.name = .ok className)
    (h : ∀ method ∈ c.methods, rule.enforceMember className c.usesStackMaps method c.pool
      = ⟨.ok SiteCounts.zero, method, c.pool⟩) : rule.enforce c = ⟨.ok SiteCounts.zero, c⟩ := by
  cases hconcerns : rule.concerns c with
  | false => exact enforce_of_not_concerns hconcerns
  | true =>
    have honto := enforceOnto_of_forall h SiteCounts.zero []
    unfold enforce
    rw [hconcerns, hname]
    simp only [honto]
    rfl

/-- An enforcement on a class that ends well has searched the class or left it alone. -/
theorem enforce_eq_ok {c : ClassFile} {counts : SiteCounts}
    (h : (rule.enforce c).result = .ok counts) : rule.concerns c = false ∨
      ∃ className outcomes new, c.name = .ok className ∧
        Attempt.RunEach (rule.memberStep className c.usesStackMaps) c.methods c.pool outcomes new ∧
        counts = (outcomes.map Prod.fst).foldl SiteCounts.add SiteCounts.zero ∧
        rule.enforce c
          = ⟨.ok counts, { c with methods := outcomes.map Prod.snd, pool := new }⟩ := by
  cases hconcerns : rule.concerns c with
  | false => exact .inl rfl
  | true =>
    right
    unfold enforce at h ⊢
    rw [hconcerns] at h ⊢
    dsimp only at h
    cases hname : c.name with
    | error fault =>
      rw [hname] at h
      cases h
    | ok className =>
      rw [hname] at h
      obtain ⟨outcomes, new, hrun, htotal, heq⟩ := enforceOnto_eq_ok h
      refine ⟨className, outcomes, new, rfl, hrun, htotal, ?_⟩
      simp only [heq]
      rfl

theorem foldl_add_of {methods : List Member} {outcomes : List (SiteCounts × Member)}
    {uses : Member → List Site}
    (h : List.Forall₂ (fun method outcome => outcome.1 = SiteCounts.of (uses method))
      methods outcomes) (start : SiteCounts) :
    (outcomes.map Prod.fst).foldl SiteCounts.add start
      = start.add (SiteCounts.of (methods.flatMap uses)) := by
  induction h generalizing start with
  | nil => rfl
  | cons head _ ih =>
    rw [List.map_cons, List.foldl_cons, ih, head, List.flatMap_cons, SiteCounts.of_append,
      SiteCounts.add_assoc]

/-- An enforcement on a class that ends well is complete, and doing it again changes
nothing. -/
theorem enforce_complete {c : ClassFile} {counts : SiteCounts} (hpool : c.pool.WellFormed)
    (hnamed : ∀ method ∈ c.methods, method.Named c.pool)
    (h : (rule.enforce c).result = .ok counts)
    (hfits : ∀ method ∈ (rule.enforce c).classFile.methods, method.Fits) :
    rule.Enforced c (rule.enforce c).classFile counts := by
  obtain hconcerns | ⟨className, outcomes, new, hname, hrun, rfl, heq⟩ := enforce_eq_ok h
  · rw [enforce_of_not_concerns hconcerns] at h ⊢
    cases h
    exact enforced_of_not_concerns hconcerns
  · rw [heq] at hfits ⊢
    obtain ⟨hgrowth, hall⟩ := forall₂_enforcedMember hpool hnamed hrun hfits
    refine ⟨?_, ?_, fun hnot => ?_⟩
    · exact (foldl_add_of (hall.imp fun _ _ h => h.counts_eq) _).trans (SiteCounts.zero_add _)
    · rw [List.forall₂_map_right_iff]
      apply hall.imp
      intro method outcome h
      split
      case isTrue hnil => exact h.unchanged hnil
      case isFalse hsome => exact h.rewrites hsome
    · refine enforce_of_forall (hgrowth.className_eq hname) fun after hafter => ?_
      obtain ⟨outcome, houtcome, rfl⟩ := List.mem_map.1 hafter
      obtain ⟨method, -, hmethod⟩ := Forall₂.exists_of_mem_right hall houtcome
      exact hmethod.again hnot _ _

end Rule

/-- An embargo on the package `java.awt`. -/
def beepRule : Rule := ⟨"java/awt/", "java/lang/Error", "No. "⟩

/-- A pool with a method at index 6, a class at 8 and the names `Code` and `run` behind. -/
def beepPool : Pool := ((do
  let _ ← Pool.addMember .method ⟨"java/awt/Toolkit", "beep", "()V"⟩
  let _ ← Pool.addClass "a/B"
  let _ ← Pool.addUtf8 "Code"
  let _ ← Pool.addUtf8 "run" : PoolStep Unit).run Pool.empty).2

/-- A class whose only method calls the method under the embargo and returns. -/
def beepClass : ClassFile where
  minorVersion := 0
  majorVersion := 52
  pool := beepPool
  flags := 0
  thisClass := 8
  superClass := 0
  interfaces := []
  fields := []
  methods := [⟨8, 10, 4, [⟨9, [0, 0, 0, 0, 0, 0, 0, 4, 0xb8, 0, 6, 0xb1, 0, 0, 0, 0]⟩]⟩]
  attributes := []

theorem wellFormed_beepPool : beepPool.WellFormed :=
  ⟨by decide +kernel, beepPool.slots.toList.filterMap id, by decide +kernel⟩

theorem Rule.enforce_complete_beep : (beepRule.enforce beepClass).result = .ok ⟨1, 0⟩ ∧
    beepRule.Enforced beepClass (beepRule.enforce beepClass).classFile ⟨1, 0⟩ := by
  have hresult : (beepRule.enforce beepClass).result = .ok ⟨1, 0⟩ := by decide +kernel
  have hnamed : ∀ method ∈ beepClass.methods, method.Named beepClass.pool := by
    intro method hmethod a ha
    obtain rfl := List.mem_singleton.1 hmethod
    obtain rfl := List.mem_singleton.1 ha
    exact ⟨"Code", by decide +kernel⟩
  have hfits : ∀ method ∈ (beepRule.enforce beepClass).classFile.methods, method.Fits := by
    unfold Member.Fits Attribute.Fits
    decide +kernel
  exact ⟨hresult, Rule.enforce_complete wellFormed_beepPool hnamed hresult hfits⟩

end Embargo
