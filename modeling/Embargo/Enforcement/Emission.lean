import Embargo.Code.Encode
import Embargo.Enforcement.Layout
import Embargo.Enforcement.Span

/-!
The bytes of a layout and what its dead code needs to pass the verifier. Filler is
`nop` up to a last `athrow`, under a frame that holds nothing but a throwable. A
throwing sequence in place of a dead site starts with an empty frame.
-/
namespace Embargo

/-- A run of dead code in the new layout. -/
inductive DeadBlock where
  | filler (span : Span)
  | sequence (span : Span)
  deriving DecidableEq, Repr

namespace DeadBlock

def span : DeadBlock → Span
  | filler span | sequence span => span

def throwable : String := "java/lang/Throwable"

/-- The frame at the start of the block. -/
def frame : DeadBlock → Frame
  | filler span => { offset := span.start, locals := [], stack := [.object throwable] }
  | sequence span => { offset := span.start, locals := [], stack := [] }

/-- The start of the block and the depth of its frame. -/
def entry : DeadBlock → Nat × UInt16
  | filler span => (span.start, 1)
  | sequence span => (span.start, 0)

/-- The blocks of a piece and of all that come after it, whose blocks are `later`.
Filler right in front of filler makes one block with it. -/
def before (placed : Placed) (later : List DeadBlock) : List DeadBlock :=
  match placed.piece.fate with
  | .kept => later
  | .replaced _ =>
    if placed.piece.isDead then sequence ⟨placed.start, placed.stop⟩ :: later else later
  | .filled =>
    match later with
    | filler span :: rest =>
      if span.start = placed.stop then filler ⟨placed.start, span.stop⟩ :: rest
      else filler ⟨placed.start, placed.stop⟩ :: later
    | _ => filler ⟨placed.start, placed.stop⟩ :: later

end DeadBlock

namespace Layout

def deadBlocks (layout : Layout) : List DeadBlock := layout.pieces.foldr DeadBlock.before []

/-- Instructions one after another from `offset` on. -/
def encodeRow (offset : Nat) : List Instruction → Except Fault (List UInt8)
  | [] => .ok []
  | i :: rest => do
    let bytes ← i.encode offset
    let more ← encodeRow (offset + i.sizeAt offset) rest
    return bytes ++ more

/-- Filler of a given size; the last byte of a run of filler throws. -/
def fillerBytes (size : Nat) (isLast : Bool) : List UInt8 :=
  if isLast then List.replicate (size - 1) Opcode.nop ++ [Opcode.athrow]
  else List.replicate size Opcode.nop

def startsWithFiller : List Placed → Bool
  | placed :: _ => placed.isFiller
  | [] => false

/-- The bytes of a piece; `next` are the pieces behind it. -/
def pieceBytes (relocation : Relocation) (placed : Placed) (next : List Placed) :
    Except Fault (List UInt8) :=
  match placed.piece.fate with
  | .kept => do
    let moved ← placed.piece.located.instruction.mapTargets relocation.move
    moved.encode placed.start
  | .replaced sequence => encodeRow placed.start sequence
  | .filled =>
    .ok (fillerBytes (placed.piece.sizeAt placed.start) !(startsWithFiller next))

/-- The bytes of all pieces, put behind those of `done`, which is reversed. -/
def bytesOnto (relocation : Relocation) :
    List (List UInt8) → List Placed → Except Fault (List UInt8)
  | done, [] => .ok done.reverse.flatten
  | done, placed :: rest =>
    match pieceBytes relocation placed rest with
    | .ok bytes => bytesOnto relocation (bytes :: done) rest
    | .error fault => .error fault

def bytes (layout : Layout) (relocation : Relocation) : Except Fault (List UInt8) :=
  bytesOnto relocation [] layout.pieces

end Layout

end Embargo
