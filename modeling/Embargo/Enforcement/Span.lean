/-!
Half-open ranges of code offsets.
-/
namespace Embargo

structure Span where
  start : Nat
  stop : Nat
  deriving DecidableEq, Repr

namespace Span

/-- Whether an offset lies in the span. -/
def Contains (span : Span) (offset : Nat) : Prop := span.start ≤ offset ∧ offset < span.stop

instance (span : Span) (offset : Nat) : Decidable (span.Contains offset) :=
  inferInstanceAs (Decidable (_ ∧ _))

def isEmpty (span : Span) : Bool := span.stop ≤ span.start

/-- What is left of a span on either side of a hole. -/
def cut (hole span : Span) : List Span :=
  (if span.start < hole.start then [⟨span.start, hole.start⟩] else [])
    ++ (if hole.stop < span.stop then [⟨hole.stop, span.stop⟩] else [])

/-- The parts of a span outside all holes, in order. -/
def subtract (span : Span) : List Span → List Span
  | [] => if span.isEmpty then [] else [span]
  | hole :: holes =>
    if hole.stop ≤ span.start ∨ span.stop ≤ hole.start then subtract span holes
    else (cut hole span).flatMap fun part => subtract part holes

end Span

end Embargo
