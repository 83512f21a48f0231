import Embargo.Proofs.Enforcement.Completeness

/-!
The search over the constants of a class agrees with the search over its code. Where no constant is
of concern, the search over the code that is left out would have found nothing, and where some
instruction makes use of something forbidden, a constant is of concern.
-/
namespace Embargo

namespace Rule
variable {rule : Rule} {c : ClassFile}

/-- The search over the code of a body, in front of any change to it. -/
def search (rule : Rule) (body : Body) (pool : Pool) : Except Fault (List Marked) := do
  Marked.ofCode pool rule (← Instruction.decode body.code)

section NotConcerned
variable (h : rule.concerns c = false)
include h

/-- An enforcement on any body finds nothing, or the search itself fails. Either way body and pool
stay as they are. -/
theorem enforceMethod_of_not_concerns (info : MethodInfo) (body : Body) :
    rule.enforceMethod info body c.pool = ⟨.ok SiteCounts.zero, body, c.pool⟩ ∨
      ∃ fault, rule.search body c.pool = .error fault ∧
        rule.enforceMethod info body c.pool = ⟨.error fault, body, c.pool⟩ := by
  cases hsearch : rule.search body c.pool with
  | error fault =>
    refine .inr ⟨fault, rfl, ?_⟩
    have hmarked : (Instruction.decode body.code >>= Marked.ofCode c.pool rule) = .error fault :=
      hsearch
    rw [enforceMethod, hmarked]
  | ok marked =>
    obtain ⟨code, hcode, hmarked⟩ := Except.bind_eq_ok_iff.1 hsearch
    have hsites : Marked.sites marked = [] := by
      rw [Marked.sites_eq hmarked (.refl (P := fun _ => True) c.pool), uses_eq_nil h]
    exact .inl (enforceMethod_of_clean hcode (siteOf_of_sites_eq_nil hmarked hsites))

theorem enforceMember_of_not_concerns (className : String) (stackMaps : Bool) (method : Member) :
    ∃ result, rule.enforceMember className stackMaps method c.pool = ⟨result, method, c.pool⟩ ∧
      ∀ counts, result = .ok counts → counts = SiteCounts.zero := by
  unfold enforceMember
  split
  case h_1 => exact ⟨_, rfl, fun _ hok => (Except.ok.inj hok).symm⟩
  case h_2 place _ =>
    split
    case h_1 a name descriptor _ _ _ =>
      unfold enforceCode
      dsimp only
      split
      case h_1 => exact ⟨_, rfl, fun _ hok => by cases hok⟩
      case h_2 body _ =>
        obtain hclean | ⟨fault, -, hfault⟩ := enforceMethod_of_not_concerns h
          ⟨className, name, descriptor, method.isStatic, stackMaps⟩ body
        · rw [hclean]
          exact ⟨_, rfl, fun _ hok => (Except.ok.inj hok).symm⟩
        · rw [hfault]
          exact ⟨_, rfl, fun _ hok => by cases hok⟩
    case h_2 => exact ⟨_, rfl, fun _ hok => (Except.ok.inj hok).symm⟩
    case h_3 => exact ⟨_, rfl, fun _ hok => by cases hok⟩
    case h_4 => exact ⟨_, rfl, fun _ hok => by cases hok⟩

/-- All methods stay as they are, however far the search over them comes. -/
theorem enforceOnto_of_not_concerns (className : String) (stackMaps : Bool) (counts : SiteCounts)
    (done methods : List Member) :
    ∃ result, rule.enforceOnto className stackMaps counts done methods c.pool
        = ⟨result, done.reverse ++ methods, c.pool⟩ ∧
      ∀ total, result = .ok total → total = counts := by
  induction methods generalizing counts done with
  | nil => exact ⟨_, by simp [enforceOnto], fun _ hok => (Except.ok.inj hok).symm⟩
  | cons method rest ih =>
    obtain ⟨result, houtcome, hzero⟩ := enforceMember_of_not_concerns h className stackMaps method
    rw [enforceOnto, houtcome]
    dsimp only
    cases result with
    | error fault => exact ⟨_, rfl, fun _ hok => by cases hok⟩
    | ok more =>
      obtain ⟨last, hrest, htotal⟩ := ih (counts.add more) (method :: done)
      refine ⟨last, by simp [hrest], fun total hok => ?_⟩
      rw [htotal total hok, hzero more rfl, SiteCounts.add_zero]

end NotConcerned

/-- What is left out where no constant of a class is of concern changes nothing and counts nothing:
an enforcement on the first code of a method finds no site, or fails before it changes any, and so
does one on all methods. And where the code of any body accesses a member of a forbidden owner, a
constant is of concern. -/
theorem concerns_agrees (rule : Rule) (c : ClassFile) :
    (rule.concerns c = false →
      (∀ method ∈ c.methods, ∀ place a body, method.findCode? c.pool = some (place, a) →
        Body.parse a.payload = .ok body → ∀ info,
          rule.enforceMethod info body c.pool = ⟨.ok SiteCounts.zero, body, c.pool⟩ ∨
          ∃ fault, rule.search body c.pool = .error fault ∧
            rule.enforceMethod info body c.pool = ⟨.error fault, body, c.pool⟩) ∧
      ∀ className, ∃ result,
        rule.enforceOnto className c.usesStackMaps SiteCounts.zero [] c.methods c.pool
          = ⟨result, c.methods, c.pool⟩ ∧
        ∀ counts, result = .ok counts → counts = SiteCounts.zero) ∧
    ∀ (body : Body) (code : List Located), Instruction.decode body.code = .ok code →
      ∀ located ∈ code,
      located.instruction.opcode.isMethodInvoke = true ∨
        located.instruction.opcode.isFieldAccess = true →
      ∀ index member, located.instruction.poolIndex? = some index →
        c.pool.member index = .ok member → rule.forbids member.owner = true →
        rule.concerns c = true := by
  constructor
  · intro h
    refine ⟨fun _ _ _ _ body _ _ info => enforceMethod_of_not_concerns h info body, ?_⟩
    exact fun className => enforceOnto_of_not_concerns h className _ SiteCounts.zero [] c.methods
  · intro _ _ _ _ _ _ index member _ hmember hforbids
    exact concerns_iff.2 ⟨index, member, hmember, hforbids⟩

end Rule

/-- A pool with an interface method in its last slot, behind a wide constant. -/
def lastPool : Pool := ((do
  let _ ← Pool.addUtf8 "Code"
  let _ ← Pool.intern (.long 0)
  let _ ← Pool.addMember .interfaceMethod ⟨"java/awt/Shape", "reset", "()V"⟩ : PoolStep Unit).run
    Pool.empty).2

/-- A body that calls the interface method. -/
def lastBody : Body := ⟨1, 1, [0x2a, 0xb9, 0, 9, 1, 0, 0xb1], [], []⟩

def lastClass : ClassFile where
  minorVersion := 0
  majorVersion := 52
  pool := lastPool
  flags := 0
  thisClass := 5
  superClass := 0
  interfaces := []
  fields := []
  methods := [⟨0, 6, 7, [⟨1, [0, 1, 0, 1, 0, 0, 0, 7, 0x2a, 0xb9, 0, 9, 1, 0, 0xb1, 0, 0, 0, 0]⟩]⟩]
  attributes := []

def swingRule : Rule := { beepRule with scope := "javax/swing/" }

/-- A rule about other classes leaves the methods alone, and the one that forbids the owner is of
concern. -/
theorem Rule.concerns_agrees_last : swingRule.concerns lastClass = false ∧
    (∃ result, swingRule.enforceOnto "a/B" lastClass.usesStackMaps SiteCounts.zero []
      lastClass.methods lastPool = ⟨result, lastClass.methods, lastPool⟩) ∧
    lastPool.slots.size = 10 ∧ beepRule.concerns lastClass = true := by
  have hconcerns : swingRule.concerns lastClass = false := by decide +kernel
  obtain ⟨result, houtcome, -⟩ := ((Rule.concerns_agrees swingRule lastClass).1 hconcerns).2 "a/B"
  have hcode : Instruction.decode lastBody.code = .ok
      [⟨0, .plain 0x2a []⟩, ⟨1, .plain 0xb9 [0, 9, 1, 0]⟩, ⟨6, .plain 0xb1 []⟩] := by
    decide +kernel
  have hmember : lastPool.member 9 = .ok ⟨"java/awt/Shape", "reset", "()V"⟩ := by decide +kernel
  have hfound := (Rule.concerns_agrees beepRule lastClass).2 lastBody _ hcode
    ⟨1, .plain 0xb9 [0, 9, 1, 0]⟩ (by simp) (.inl (by decide +kernel)) 9 _ (by decide +kernel)
    hmember (by decide +kernel)
  exact ⟨hconcerns, ⟨result, houtcome⟩, by decide +kernel, hfound⟩

end Embargo
