import Embargo.ClassFile.Body
import Embargo.Code.Frame
import Embargo.Enforcement.Site
import Std.Data.TreeSet

/-!
Code that nothing reaches once every site throws. What follows a site is dead up
to the next entry point. A frame that mentions the result of a dead `new` can be
reached only through that `new`, so it is dropped, and what it is a frame of is
dead up to the next entry point as well. The answer is the least one closed under
these rules.
-/
namespace Embargo

structure Unreachable where
  /-- The offsets of the dead instructions. -/
  dead : List Nat
  /-- The offsets of the dropped frames. -/
  dropped : List Nat
  deriving DecidableEq, Repr

namespace Unreachable

def nothing : Unreachable := ⟨[], []⟩

/-- Offsets that control can come to from elsewhere than the instruction before. -/
def entryPoints (code : List Marked) (frames : List Frame) (handlers : List Handler) :
    List Nat :=
  frames.map Frame.offset ++ handlers.map (·.handlerPc.toNat)
    ++ code.flatMap fun marked => marked.located.instruction.targets

/-- The dead instructions, put behind those of `done`, which is reversed, where
`dead` tells whether control cannot come from the instruction before. An entry
point is dead only if its frame is dropped. -/
def deadOnto (isEntry isDropped : Nat → Bool) : Bool → List Nat → List Marked → List Nat
  | _, done, [] => done.reverse
  | dead, done, marked :: rest =>
    let here := if isEntry marked.offset then isDropped marked.offset else dead
    deadOnto isEntry isDropped (here || marked.site.isSome)
      (if here then marked.offset :: done else done) rest

/-- The dead instructions, given the dropped frames. -/
def deadGiven (isEntry : Nat → Bool) (code : List Marked) (dropped : List Nat) : List Nat :=
  let droppedSet := Std.TreeSet.ofList dropped
  deadOnto isEntry droppedSet.contains false [] code

/-- The frames to drop, given the dead instructions. -/
def droppedGiven (frames : List Frame) (dead : List Nat) : List Nat :=
  let deadSet := Std.TreeSet.ofList dead
  (frames.filter fun frame => frame.newOffsets.any deadSet.contains).map Frame.offset

/-- Repeats the two rules until no further frame is dropped. Each round but the
last drops one more frame, so one round more than there are frames is enough. -/
def settle (isEntry : Nat → Bool) (code : List Marked) (frames : List Frame) :
    Nat → List Nat → Unreachable
  | 0, dropped => ⟨deadGiven isEntry code dropped, dropped⟩
  | fuel + 1, dropped =>
    let dead := deadGiven isEntry code dropped
    let more := droppedGiven frames dead
    if more.length = dropped.length then ⟨dead, dropped⟩
    else settle isEntry code frames fuel more

def ofCode (code : List Marked) (frames : List Frame) (handlers : List Handler) :
    Unreachable :=
  let entries := Std.TreeSet.ofList (entryPoints code frames handlers)
  settle entries.contains code frames (frames.length + 1) []

end Unreachable

end Embargo
