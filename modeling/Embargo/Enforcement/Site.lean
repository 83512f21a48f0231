import Embargo.Code.Instruction
import Embargo.Rule

/-!
Sites: the instructions of a method that a rule forbids.
-/
namespace Embargo

structure Site where
  access : Access
  member : MemberRef
  deriving DecidableEq, Repr

/-- Sites by the kind of their access. -/
structure SiteCounts where
  calls : Nat
  fields : Nat
  deriving DecidableEq, Repr

namespace SiteCounts

def zero : SiteCounts := ⟨0, 0⟩

def total (counts : SiteCounts) : Nat := counts.calls + counts.fields

def add (a b : SiteCounts) : SiteCounts := ⟨a.calls + b.calls, a.fields + b.fields⟩

end SiteCounts

/-- An instruction together with its site, if it is one. -/
structure Marked where
  located : Located
  site : Option Site
  deriving DecidableEq, Repr

namespace Marked

def offset (marked : Marked) : Nat := marked.located.offset

/-- The site of one instruction. Every member access has to resolve, forbidden or
not. -/
def siteOf (pool : Pool) (rule : Rule) (located : Located) : Except Fault (Option Site) :=
  match Access.ofOpcode? located.instruction.opcode with
  | none => .ok none
  | some access =>
    match located.instruction.poolIndex? with
    | none => .error (.truncatedInstruction located.offset)
    | some index => do
      let member ← pool.member index
      return if rule.forbids member.owner then some { access, member } else none

def ofCode (pool : Pool) (rule : Rule) (code : List Located) : Except Fault (List Marked) :=
  code.mapM fun located => do
    return { located, site := ← siteOf pool rule located }

def sites (code : List Marked) : List Site := code.filterMap Marked.site

def counts (code : List Marked) : SiteCounts where
  calls := (sites code).countP (·.access = .call)
  fields := (sites code).countP (·.access = .field)

end Marked

end Embargo
