import Embargo.ClassFile.Pool
import Embargo.Code.Opcode
import Embargo.Text.Name

/-!
The rule of an embargo: which class names are under it, and what is thrown where
one of their members is used.
-/
namespace Embargo
open Text

/-- How an instruction uses a member. -/
inductive Access where
  | call
  | field
  deriving DecidableEq, Repr

namespace Access

def ofOpcode? (op : Opcode) : Option Access :=
  if op.isMethodInvoke then some call
  else if op.isFieldAccess then some field
  else none

def label : Access → String
  | call => "call"
  | field => "field access"

end Access

structure Rule where
  /-- What the internal names under the embargo start with. -/
  scope : String
  /-- The internal name of the exception class. -/
  exception : String
  /-- What every message starts with. -/
  preamble : String
  deriving DecidableEq, Repr

namespace Rule

def defaultScope : String := "java/awt/"
def defaultException : String := "java/lang/UnsupportedOperationException"
def defaultPreamble : String := "COMMAND IS UNSUPPORTED IN THIS BUILD. "

/-- A rule from class names in either spelling. -/
def of (scope exception preamble : String) : Rule :=
  ⟨Name.toInternal scope, Name.toInternal exception, preamble⟩

/-- Whether a class is under the embargo; an empty scope forbids nothing. -/
def forbids (rule : Rule) (owner : String) : Bool :=
  !rule.scope.isEmpty && Name.startsWith rule.scope owner

/-- What the exception tells about a forbidden access. -/
def message (rule : Rule) (access : Access) (member : MemberRef) : String :=
  rule.preamble ++ access.label ++ " encountered: " ++ Name.toDotted member.owner
    ++ "." ++ member.name

end Rule

end Embargo
