import Embargo.Classpath.Basic
import Embargo.Reflection

/-!
Registering the classes of a classpath for reflection. Nothing stops a pass: what
cannot be listed or loaded is noted and left out. A class is tried once.
-/
namespace Embargo.Classpath
open Reflection (Registry)

/-- What a pass had to leave out. -/
inductive Omission where
  /-- Part of a package. -/
  | package (name : String) (cause : RootFault)
  | classFile (name : String) (cause : LoadFault)
  deriving DecidableEq, Repr

namespace Omission

def name : Omission → String
  | package name _ => name
  | classFile name _ => name

def reason : Omission → String
  | package _ cause => cause.message
  | classFile _ cause => cause.message

end Omission

/-- How far a pass has come. -/
structure Pass where
  registry : Registry
  /-- The classes tried so far. -/
  tried : List String
  registered : Nat
  /-- What was left out, the last first. -/
  omitted : List Omission

def Pass.start (registry : Registry) : Pass := ⟨registry, [], 0, []⟩

variable {m : Type → Type} [Monad m]

/-- Tries a class, unless it has been tried. -/
def Pass.tryClass (roots : Classpath m) (pass : Pass) (name : String) : m Pass := do
  if name ∈ pass.tried then
    return pass
  let pass := { pass with tried := name :: pass.tried }
  match ← load name roots with
  | .ok _ =>
    return { pass with registry := pass.registry.register name, registered := pass.registered + 1 }
  | .error cause => return { pass with omitted := .classFile name cause :: pass.omitted }

/-- Tries all classes of a package. -/
def Pass.tryPackage (roots : Classpath m) (pass : Pass) (package : String) : m Pass := do
  (← roots.classNames package).foldlM (fun pass found =>
    match found with
    | .ok name => pass.tryClass roots name
    | .error cause => pure { pass with omitted := .package package cause :: pass.omitted }) pass

/-- A pass over packages and then over single classes. -/
def register (roots : Classpath m) (packages classes : List String) (registry : Registry) :
    m Pass := do
  let pass ← packages.foldlM (Pass.tryPackage roots) (Pass.start registry)
  let pass ← classes.foldlM (Pass.tryClass roots) pass
  return { pass with omitted := pass.omitted.reverse }

end Embargo.Classpath
