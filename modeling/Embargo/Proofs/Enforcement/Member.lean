import Embargo.Enforcement.Class
import Embargo.Proofs.ClassFile.MemberCode
import Embargo.Proofs.ClassFile.ReadBack
import Embargo.Proofs.Enforcement.Replacement

/-!
A rule enforced on one method of a class. The method is read again in the pool that the
whole class ends with.
-/
namespace Embargo

/-- A method whose code can be read, as its class declares it. -/
def Member.Readable.info {member : Member} {pool : Pool} (read : member.Readable pool)
    (className : String) (stackMaps : Bool) : MethodInfo where
  className
  name := read.name
  descriptor := read.descriptor
  isStatic := member.isStatic
  stackMaps

namespace SiteCounts

/-- Sites counted by kind. -/
def of (sites : List Site) : SiteCounts where
  calls := sites.countP (·.access = .call)
  fields := sites.countP (·.access = .field)

theorem total_of (sites : List Site) : (of sites).total = sites.length := by
  have hkind : ∀ site : Site,
      decide (site.access = .field) = decide (¬ decide (site.access = .call) = true) := by
    intro site
    cases site.access <;> rfl
  simp only [of, total, hkind]
  exact (List.length_eq_countP_add_countP _).symm

end SiteCounts

namespace Rule
variable {rule : Rule} {className : String} {stackMaps : Bool} {method : Member} {pool : Pool}

/-- The outcomes of an enforcement on a method that ends well: there is no code, the code has
no site, or it is revised. -/
inductive EnforcesMember (rule : Rule) (className : String) (stackMaps : Bool) (method : Member)
    (pool : Pool) : MemberOutcome → Prop
  | absent (find : method.findCode? pool = none) :
      EnforcesMember rule className stackMaps method pool ⟨.ok SiteCounts.zero, method, pool⟩
  | clean (read : method.Readable pool)
      (sites : ∀ located ∈ read.code, Marked.siteOf pool rule located = .ok none) :
      EnforcesMember rule className stackMaps method pool ⟨.ok SiteCounts.zero, method, pool⟩
  | revised (read : method.Readable pool) {new : Body} {newPool : Pool} {payload : List UInt8}
      (r : Revision rule (read.info className stackMaps) read.body pool new newPool)
      (sites : Marked.sites r.marked ≠ []) (written : new.toBytes = .ok payload) :
      EnforcesMember rule className stackMaps method pool
        ⟨.ok (Marked.counts r.marked), method.setCode read.place read.a payload, newPool⟩

theorem total_counts (marked : List Marked) :
    (Marked.counts marked).total = (Marked.sites marked).length :=
  SiteCounts.total_of _

theorem siteOf_of_sites_eq_nil {code : List Located} {marked : List Marked}
    (h : Marked.ofCode pool rule code = .ok marked) (hsites : Marked.sites marked = []) :
    ∀ located ∈ code, Marked.siteOf pool rule located = .ok none := by
  intro located hlocated
  obtain ⟨found, hfound, -, hsite⟩ :=
    Forall₂.exists_of_mem_left (Marked.forall₂_of_ofCode h) hlocated
  rwa [List.filterMap_eq_nil_iff.1 hsites found hfound] at hsite

/-- Where an enforcement on code ends well, the code can be read. -/
theorem enforceCode_reads {place : Nat} {a : Attribute} {name descriptor : String}
    {counts : SiteCounts}
    (h : (rule.enforceCode className stackMaps method place a name descriptor pool).result
      = .ok counts) :
    ∃ body code, Body.parse a.payload = .ok body ∧ Instruction.decode body.code = .ok code := by
  unfold enforceCode at h
  dsimp only at h
  split at h
  case h_1 => cases h
  case h_2 body hbody =>
    split at h
    case h_1 => cases h
    case h_2 hresult =>
      obtain ⟨code, -, hcode, -⟩ := Revision.enforceMethod_eq_ok hresult
      exact ⟨body, code, hbody, hcode⟩

/-- An enforcement on code that ends well did so on the body, and a body with something new in
it was written. -/
theorem enforceCode_eq_ok (read : method.Readable pool) {counts : SiteCounts}
    (h : (rule.enforceCode className stackMaps method read.place read.a read.name read.descriptor
      pool).result = .ok counts) :
    ∃ body newPool,
      rule.enforceMethod (read.info className stackMaps) read.body pool
        = ⟨.ok counts, body, newPool⟩ ∧
      (counts.total = 0 ∧
          rule.enforceCode className stackMaps method read.place read.a read.name read.descriptor
            pool = ⟨.ok counts, method, newPool⟩ ∨
        counts.total ≠ 0 ∧ ∃ payload, body.toBytes = .ok payload ∧
          rule.enforceCode className stackMaps method read.place read.a read.name read.descriptor
            pool = ⟨.ok counts, method.setCode read.place read.a payload, newPool⟩) := by
  have hinfo : (⟨className, read.name, read.descriptor, method.isStatic, stackMaps⟩ : MethodInfo)
      = read.info className stackMaps := rfl
  unfold enforceCode at h ⊢
  rw [read.body_eq] at h ⊢
  dsimp only at h ⊢
  rw [hinfo] at h ⊢
  rcases houtcome : rule.enforceMethod (read.info className stackMaps) read.body pool
    with ⟨result, body, newPool⟩
  rw [houtcome] at h
  cases result with
  | error fault => cases h
  | ok found =>
    dsimp only at h ⊢
    split at h
    case isTrue htotal =>
      cases h
      exact ⟨body, newPool, rfl, .inl ⟨htotal, if_pos htotal⟩⟩
    case isFalse htotal =>
      split at h
      case h_1 => cases h
      case h_2 payload hpayload =>
        cases h
        refine ⟨body, newPool, rfl, .inr ⟨htotal, payload, hpayload, ?_⟩⟩
        rw [if_neg htotal]
        rfl

theorem enforcesCode_of_eq_ok (read : method.Readable pool) {counts : SiteCounts}
    (h : (rule.enforceCode className stackMaps method read.place read.a read.name read.descriptor
      pool).result = .ok counts) :
    rule.EnforcesMember className stackMaps method pool (rule.enforceCode className stackMaps
      method read.place read.a read.name read.descriptor pool) := by
  obtain ⟨body, newPool, hrun, hend⟩ := enforceCode_eq_ok read h
  obtain ⟨old, marked, hold, hmarked, hcounts, ⟨hnil, hsame⟩ | ⟨hsome, r, rfl⟩⟩ :=
    Revision.enforceMethod_eq_ok (congrArg MethodOutcome.result hrun)
  · cases hrun.symm.trans hsame
    obtain ⟨-, heq⟩ | ⟨htotal, -⟩ := hend
    · rw [heq]
      obtain rfl : old = read.code := Except.ok.inj (hold.symm.trans read.code_eq)
      exact .clean read (siteOf_of_sites_eq_nil hmarked hnil)
    · exact absurd rfl htotal
  · obtain rfl := congrArg MethodOutcome.body hrun
    obtain rfl := congrArg MethodOutcome.pool hrun
    obtain ⟨htotal, -⟩ | ⟨-, payload, hpayload, heq⟩ := hend
    · rw [hcounts, total_counts] at htotal
      exact absurd (List.length_eq_zero_iff.1 htotal) hsome
    · rw [heq, hcounts]
      exact .revised read r hsome hpayload

/-- An enforcement on a method that can be read is one on its code. -/
theorem enforceMember_of_readable (read : method.Readable pool) :
    rule.enforceMember className stackMaps method pool = rule.enforceCode className stackMaps
      method read.place read.a read.name read.descriptor pool := by
  have hget := Member.mem_of_findCode? read.find
  obtain ⟨place, hplace, hrest⟩ := Option.bind_eq_some_iff.1 read.find
  obtain ⟨a, ha, hpair⟩ := Option.bind_eq_some_iff.1 hrest
  obtain ⟨rfl, rfl⟩ := Prod.mk.inj (Option.some.inj hpair)
  simp only [enforceMember, hplace, hget, read.name_eq, read.descriptor_eq]

theorem enforceMember_of_absent (h : method.findCode? pool = none) :
    rule.enforceMember className stackMaps method pool = ⟨.ok SiteCounts.zero, method, pool⟩ := by
  unfold enforceMember
  cases hfind : method.findAttribute pool "Code" with
  | none => rfl
  | some place =>
    cases hget : method.attributes[place]? with
    | none => simp only [hget]
    | some a => simp [Member.findCode?, hfind, hget] at h

/-- A method whose enforcement ends well has no code, or its code can be read. -/
theorem readable_of_eq_ok {counts : SiteCounts}
    (h : (rule.enforceMember className stackMaps method pool).result = .ok counts) :
    method.findCode? pool = none ∨ Nonempty (method.Readable pool) := by
  unfold enforceMember at h
  split at h
  case h_1 hfind => exact .inl (by simp [Member.findCode?, hfind])
  case h_2 place hfind =>
    split at h
    case h_1 a name descriptor hget hname hdescriptor =>
      have hcode : method.findCode? pool = some (place, a) :=
        Option.bind_eq_some_iff.2 ⟨place, hfind, Option.bind_eq_some_iff.2 ⟨a, hget, rfl⟩⟩
      obtain ⟨body, code, hbody, hdecode⟩ := enforceCode_reads h
      exact .inr ⟨place, a, name, descriptor, body, code, hcode, hname, hdescriptor, hbody,
        hdecode⟩
    case h_2 hget => exact .inl (by simp [Member.findCode?, hfind, hget])
    case h_3 => cases h
    case h_4 => cases h

/-- There is no other way to end well. -/
theorem enforcesMember_of_eq_ok {counts : SiteCounts}
    (h : (rule.enforceMember className stackMaps method pool).result = .ok counts) :
    rule.EnforcesMember className stackMaps method pool
      (rule.enforceMember className stackMaps method pool) := by
  obtain hfind | ⟨⟨read⟩⟩ := readable_of_eq_ok h
  · rw [enforceMember_of_absent hfind]
    exact .absent hfind
  · rw [enforceMember_of_readable read] at h ⊢
    exact enforcesCode_of_eq_ok read h

theorem enforceMethod_of_clean {info : MethodInfo} {body : Body} {code : List Located}
    (hcode : Instruction.decode body.code = .ok code)
    (hclean : ∀ located ∈ code, Marked.siteOf pool rule located = .ok none) :
    rule.enforceMethod info body pool = ⟨.ok SiteCounts.zero, body, pool⟩ := by
  have hmarked : Marked.ofCode pool rule code = .ok (code.map (⟨·, none⟩)) := by
    apply Except.mapM_eq_ok_iff.2
    rw [List.forall₂_map_right_iff, List.forall₂_same]
    intro located hlocated
    exact Except.bind_eq_ok_iff.2 ⟨none, hclean located hlocated, rfl⟩
  have hmarks : (do Marked.ofCode pool rule (← Instruction.decode body.code))
      = .ok (code.map (⟨·, none⟩)) := Except.bind_eq_ok_iff.2 ⟨code, hcode, hmarked⟩
  have hsites : Marked.sites (code.map (⟨·, none⟩)) = [] := by
    simp [Marked.sites, List.filterMap_map]
  rw [enforceMethod, hmarks]
  dsimp only
  rw [hsites]
  rfl

/-- A method whose code makes no use of anything forbidden stays as it is. -/
theorem enforceMember_of_clean (read : method.Readable pool)
    (hclean : ∀ located ∈ read.code, Marked.siteOf pool rule located = .ok none) :
    rule.enforceMember className stackMaps method pool = ⟨.ok SiteCounts.zero, method, pool⟩ := by
  simp only [enforceMember_of_readable read, enforceCode, read.body_eq,
    enforceMethod_of_clean read.code_eq hclean]
  rfl

/-- A method after an enforcement, read in a pool that has grown since. -/
structure EnforcedMember (rule : Rule) (pool later : Pool) (old new : Member)
    (counts : SiteCounts) : Prop where
  counts_eq : counts = SiteCounts.of (rule.uses later (old.code pool))
  unchanged : rule.uses later (old.code pool) = [] → new = old
  rewrites : rule.uses later (old.code pool) ≠ [] →
    rule.Rewrites later (old.code pool) (new.code later)
  /-- The next enforcement changes nothing. -/
  again : rule.forbids rule.exception = false → ∀ className stackMaps,
    rule.enforceMember className stackMaps new later = ⟨.ok SiteCounts.zero, new, later⟩

theorem EnforcedMember.of_code_eq {start later : Pool} {old new : Member} {counts : SiteCounts}
    (h : rule.EnforcedMember start later old new counts) (hcode : old.code pool = old.code start) :
    rule.EnforcedMember pool later old new counts where
  counts_eq := hcode ▸ h.counts_eq
  unchanged := hcode ▸ h.unchanged
  rewrites := hcode ▸ h.rewrites
  again := h.again

/-- A method without uses stays as it is. -/
theorem enforcedMember_of_uses_eq_nil {later : Pool}
    (huses : rule.uses later (method.code pool) = [])
    (hagain : ∀ className stackMaps, rule.enforceMember className stackMaps method later
      = ⟨.ok SiteCounts.zero, method, later⟩) :
    rule.EnforcedMember pool later method method SiteCounts.zero where
  counts_eq := by
    rw [huses]
    rfl
  unchanged := fun _ => rfl
  rewrites := fun hsome => absurd huses hsome
  again := fun _ => hagain

section Revised
variable {P : String → Prop} {newPool later : Pool} {new : Body} (read : method.Readable pool)
  (r : Revision rule (read.info className stackMaps) read.body pool new newPool)

theorem old_eq_code : r.old = read.code :=
  Except.ok.inj (r.decode_old.symm.trans read.code_eq)

/-- A revised method has its uses replaced. -/
theorem enforcedMember_of_revision (hpool : pool.WellFormed) (hnamed : method.Named pool)
    (hlater : Pool.Growth P newPool later) (hsites : Marked.sites r.marked ≠ [])
    {payload : List UInt8} (hwritten : new.toBytes = .ok payload)
    (hlength : payload.length < 4294967296) :
    rule.EnforcedMember pool later method (method.setCode read.place read.a payload)
      (Marked.counts r.marked) := by
  have hgrowth : Pool.Growth (fun _ => True) pool later :=
    r.growth_true.trans (hlater.mono fun _ _ => trivial)
  have hcode : method.code pool = r.old := read.member_code.trans (old_eq_code read r).symm
  have huses := Marked.sites_eq r.marked_eq hgrowth
  have hresolve : ∀ located ∈ r.old, ∃ site, Marked.siteOf later rule located = .ok site := by
    intro located hlocated
    obtain ⟨marked, -, -, hsite⟩ := Forall₂.exists_of_mem_left r.forall₂_marked hlocated
    exact ⟨_, Marked.siteOf_of_growth hsite hgrowth⟩
  have hrewrites := r.rewrites hpool hlater
  have hbody := Body.parse_toBytes (Body.fits_of_toBytes hwritten hlength) hwritten
  let newRead := (read.grow hnamed hgrowth).withCode hbody r.decode_new
  have hnewCode : (method.setCode read.place read.a payload).code later
      = r.layout.instructions := newRead.member_code
  exact {
    counts_eq := by
      rw [hcode, ← huses]
      rfl
    unchanged := fun hnil => absurd (by rw [huses, ← hcode, hnil]) hsites
    rewrites := fun _ => by rwa [hcode, hnewCode]
    again := fun hnot _ _ => enforceMember_of_clean newRead (hrewrites.siteOf_eq hresolve hnot) }

end Revised

theorem growth_enforceCode (place : Nat) (a : Attribute) (name descriptor : String) :
    Pool.Growth (fun _ => True) pool
      (rule.enforceCode className stackMaps method place a name descriptor pool).pool := by
  unfold enforceCode
  split
  case h_1 => exact .refl pool
  case h_2 body _ =>
    have hbody := rule.growth_enforceMethod
      ⟨className, name, descriptor, method.isStatic, stackMaps⟩ body pool
    dsimp only
    split
    case h_1 => exact hbody
    case h_2 =>
      split
      case isTrue => exact hbody
      case isFalse => split <;> exact hbody

/-- An enforcement on a method only adds to the pool, also where it fails. -/
theorem growth_enforceMember (rule : Rule) (className : String) (stackMaps : Bool)
    (method : Member) (pool : Pool) :
    Pool.Growth (fun _ => True) pool (rule.enforceMember className stackMaps method pool).pool := by
  unfold enforceMember
  split
  case h_1 => exact .refl pool
  case h_2 =>
    split
    case h_1 => exact growth_enforceCode ..
    all_goals exact .refl pool

/-- An enforcement that ends well does to a method what it should, as the pool that comes
in the end shows. -/
theorem enforcedMember_of_eq_ok {P : String → Prop} {later : Pool} {counts : SiteCounts}
    (hpool : pool.WellFormed) (hnamed : method.Named pool)
    (h : (rule.enforceMember className stackMaps method pool).result = .ok counts)
    (hlater : Pool.Growth P (rule.enforceMember className stackMaps method pool).pool later)
    (hfits : (rule.enforceMember className stackMaps method pool).method.Fits) :
    rule.EnforcedMember pool later method
      (rule.enforceMember className stackMaps method pool).method counts := by
  have houtcome := enforcesMember_of_eq_ok h
  generalize rule.enforceMember className stackMaps method pool = outcome at *
  cases houtcome with
  | absent hfind =>
    cases h
    have hcode : method.code pool = [] := by
      rw [Member.code, hfind]
    apply enforcedMember_of_uses_eq_nil (by rw [hcode]; rfl)
    intro _ _
    exact enforceMember_of_absent ((Member.findCode?_of_growth hnamed hlater).trans hfind)
  | clean read hclean =>
    cases h
    have hlaterClean : ∀ located ∈ read.code, Marked.siteOf later rule located = .ok none :=
      fun located hlocated => Marked.siteOf_of_growth (hclean located hlocated) hlater
    refine enforcedMember_of_uses_eq_nil ?_ fun _ _ =>
      enforceMember_of_clean (read.grow hnamed hlater) hlaterClean
    rw [read.member_code]
    exact Marked.uses_eq_nil hlaterClean
  | @revised read new newPool payload r hsites hwritten =>
    cases h
    have hfind := Member.findCode?_setCode read.find payload
    have hlength : payload.length < 4294967296 :=
      hfits _ (List.mem_of_getElem? (Member.mem_of_findCode? hfind))
    exact enforcedMember_of_revision read r hpool hnamed hlater hsites hwritten hlength

end Rule

end Embargo
