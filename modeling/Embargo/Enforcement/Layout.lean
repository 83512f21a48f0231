import Embargo.ClassFile.PoolGrowth
import Embargo.Code.Instruction
import Embargo.Enforcement.Unreachable
import Std.Data.TreeMap

/-!
The new layout of a method. Every old instruction has one piece of the new code:
itself, the throwing sequence of its site, or filler of its own size where it is
dead. Sizes of switches depend on where they stand, so pieces are placed from the
first to the last.
-/
namespace Embargo

/-- What becomes of an instruction. -/
inductive Fate where
  | kept
  | replaced (sequence : List Instruction)
  | filled
  deriving DecidableEq, Repr

/-- An old instruction, its fate, and whether it is dead. -/
structure Piece where
  located : Located
  fate : Fate
  isDead : Bool
  deriving DecidableEq, Repr

/-- A piece and the new offset that it starts at. -/
structure Placed where
  piece : Piece
  start : Nat
  deriving DecidableEq, Repr

namespace Piece

/-- The instructions that throw an exception with a message: `new`, `dup`, the
message, the constructor call and `athrow`. The message is loaded in the short form
where its index allows that. -/
def throwing (exception message constructor : UInt16) : List Instruction :=
  let load :=
    if message < 256 then Instruction.plain Opcode.ldc [message.toUInt8]
    else Instruction.indexed Opcode.ldcW message
  [Instruction.indexed Opcode.new exception,
    Instruction.simple Opcode.dup,
    load,
    Instruction.indexed Opcode.invokeSpecial constructor,
    Instruction.simple Opcode.athrow]

/-- The throwing sequence of a site. -/
def throwingFor (rule : Rule) (site : Site) : PoolStep (List Instruction) := do
  let exception ← Pool.addClass rule.exception
  let message ← Pool.addString (rule.message site.access site.member)
  let constructor ← Pool.addMember .method
    { owner := rule.exception, name := "<init>", descriptor := "(Ljava/lang/String;)V" }
  return throwing exception message constructor

/-- The piece of one instruction. A site is replaced even where it is dead. -/
def ofMarked (rule : Rule) (isDead : Nat → Bool) (marked : Marked) : PoolStep Piece := do
  let located := marked.located
  let dead := isDead marked.offset
  match marked.site with
  | some site => return ⟨located, .replaced (← throwingFor rule site), dead⟩
  | none => return ⟨located, if dead then .filled else .kept, dead⟩

def ofCode (rule : Rule) (unreachable : Unreachable) (code : List Marked) :
    PoolStep (List Piece) :=
  let dead := Std.TreeSet.ofList unreachable.dead
  code.mapM (ofMarked rule dead.contains)

/-- The size of instructions that are of one size wherever they stand. -/
def sequenceSize : List Instruction → Nat
  | [] => 0
  | instruction :: rest => instruction.sizeAt 0 + sequenceSize rest

/-- The size of the piece at a new offset. -/
def sizeAt (offset : Nat) (piece : Piece) : Nat :=
  match piece.fate with
  | .replaced sequence => sequenceSize sequence
  | _ => piece.located.instruction.sizeAt offset

end Piece

namespace Placed

def stop (placed : Placed) : Nat := placed.start + placed.piece.sizeAt placed.start

def isFiller (placed : Placed) : Bool := placed.piece.fate = .filled

end Placed

/-- Placed pieces and the length of the code that they make. -/
structure Layout where
  pieces : List Placed
  length : Nat
  deriving DecidableEq, Repr

namespace Layout

/-- Pieces placed from `start` on, put behind those of `done`, which is reversed. -/
def placeOnto : Nat → List Placed → List Piece → Layout
  | start, done, [] => ⟨done.reverse, start⟩
  | start, done, piece :: rest =>
    placeOnto (start + piece.sizeAt start) (⟨piece, start⟩ :: done) rest

def ofPieces (pieces : List Piece) : Layout := placeOnto 0 [] pieces

end Layout

/-- Where old code offsets went. -/
abbrev Relocation := Std.TreeMap Nat Nat

namespace Relocation

/-- Instructions go where their pieces are, and the end of the old code goes to
the end of the new. -/
def ofLayout (layout : Layout) (oldLength : Nat) : Relocation :=
  Std.TreeMap.ofList ((oldLength, layout.length)
    :: layout.pieces.map fun placed => (placed.piece.located.offset, placed.start))

/-- The new place of an old offset, which has to be the start of an instruction or
the end of the code. -/
def move (relocation : Relocation) (offset : Nat) : Except Fault Nat :=
  match relocation[offset]? with
  | some moved => .ok moved
  | none => .error (.badCodeOffset offset)

end Relocation

end Embargo
