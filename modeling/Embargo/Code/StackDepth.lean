import Embargo.ClassFile.Body
import Embargo.ClassFile.Pool
import Embargo.Code.Descriptor
import Embargo.Code.Instruction
import Std.Data.TreeMap

/-!
The depth of the operand stack. Depths are followed from the entry of a method,
its handlers and any further entries, along branches and on to the next
instruction. The first depth that reaches an instruction is the one it keeps.
-/
namespace Embargo

/-- Slots that an instruction takes from the stack and then puts on it. -/
structure StackEffect where
  pops : UInt16
  pushes : UInt16
  deriving DecidableEq, Repr

namespace StackEffect

/-- Opcode ranges with the effects of every other opcode, from the first one on
and from the second one on. -/
def rows : List (Opcode × Opcode × StackEffect × StackEffect) := [
  (0x00, 0x00, ⟨0, 0⟩, ⟨0, 0⟩), (0x01, 0x08, ⟨0, 1⟩, ⟨0, 1⟩), (0x09, 0x0a, ⟨0, 2⟩, ⟨0, 2⟩),
  (0x0b, 0x0d, ⟨0, 1⟩, ⟨0, 1⟩), (0x0e, 0x0f, ⟨0, 2⟩, ⟨0, 2⟩), (0x10, 0x13, ⟨0, 1⟩, ⟨0, 1⟩),
  (0x14, 0x14, ⟨0, 2⟩, ⟨0, 2⟩), (0x15, 0x19, ⟨0, 1⟩, ⟨0, 2⟩), (0x1a, 0x1d, ⟨0, 1⟩, ⟨0, 1⟩),
  (0x1e, 0x21, ⟨0, 2⟩, ⟨0, 2⟩), (0x22, 0x25, ⟨0, 1⟩, ⟨0, 1⟩), (0x26, 0x29, ⟨0, 2⟩, ⟨0, 2⟩),
  (0x2a, 0x2d, ⟨0, 1⟩, ⟨0, 1⟩), (0x2e, 0x31, ⟨2, 1⟩, ⟨2, 2⟩), (0x32, 0x35, ⟨2, 1⟩, ⟨2, 1⟩),
  (0x36, 0x3a, ⟨1, 0⟩, ⟨2, 0⟩), (0x3b, 0x3e, ⟨1, 0⟩, ⟨1, 0⟩), (0x3f, 0x42, ⟨2, 0⟩, ⟨2, 0⟩),
  (0x43, 0x46, ⟨1, 0⟩, ⟨1, 0⟩), (0x47, 0x4a, ⟨2, 0⟩, ⟨2, 0⟩), (0x4b, 0x4e, ⟨1, 0⟩, ⟨1, 0⟩),
  (0x4f, 0x52, ⟨3, 0⟩, ⟨4, 0⟩), (0x53, 0x56, ⟨3, 0⟩, ⟨3, 0⟩), (0x57, 0x58, ⟨1, 0⟩, ⟨2, 0⟩),
  (0x59, 0x5a, ⟨1, 2⟩, ⟨2, 3⟩), (0x5b, 0x5c, ⟨3, 4⟩, ⟨2, 4⟩), (0x5d, 0x5e, ⟨3, 5⟩, ⟨4, 6⟩),
  (0x5f, 0x5f, ⟨2, 2⟩, ⟨2, 2⟩), (0x60, 0x73, ⟨2, 1⟩, ⟨4, 2⟩), (0x74, 0x77, ⟨1, 1⟩, ⟨2, 2⟩),
  (0x78, 0x7d, ⟨2, 1⟩, ⟨3, 2⟩), (0x7e, 0x83, ⟨2, 1⟩, ⟨4, 2⟩), (0x84, 0x84, ⟨0, 0⟩, ⟨0, 0⟩),
  (0x85, 0x86, ⟨1, 2⟩, ⟨1, 1⟩), (0x87, 0x88, ⟨1, 2⟩, ⟨2, 1⟩), (0x89, 0x8a, ⟨2, 1⟩, ⟨2, 2⟩),
  (0x8b, 0x8c, ⟨1, 1⟩, ⟨1, 2⟩), (0x8d, 0x8e, ⟨1, 2⟩, ⟨2, 1⟩), (0x8f, 0x90, ⟨2, 2⟩, ⟨2, 1⟩),
  (0x91, 0x93, ⟨1, 1⟩, ⟨1, 1⟩), (0x94, 0x94, ⟨4, 1⟩, ⟨4, 1⟩), (0x95, 0x96, ⟨2, 1⟩, ⟨2, 1⟩),
  (0x97, 0x98, ⟨4, 1⟩, ⟨4, 1⟩), (0x99, 0x9e, ⟨1, 0⟩, ⟨1, 0⟩), (0x9f, 0xa6, ⟨2, 0⟩, ⟨2, 0⟩),
  (0xa8, 0xa8, ⟨0, 1⟩, ⟨0, 1⟩), (0xaa, 0xab, ⟨1, 0⟩, ⟨1, 0⟩), (0xac, 0xaf, ⟨1, 0⟩, ⟨2, 0⟩),
  (0xb0, 0xb0, ⟨1, 0⟩, ⟨1, 0⟩), (0xbb, 0xbb, ⟨0, 1⟩, ⟨0, 1⟩), (0xbc, 0xbe, ⟨1, 1⟩, ⟨1, 1⟩),
  (0xbf, 0xbf, ⟨1, 0⟩, ⟨1, 0⟩), (0xc0, 0xc1, ⟨1, 1⟩, ⟨1, 1⟩), (0xc2, 0xc3, ⟨1, 0⟩, ⟨1, 0⟩),
  (0xc6, 0xc7, ⟨1, 0⟩, ⟨1, 0⟩), (0xc9, 0xc9, ⟨0, 1⟩, ⟨0, 1⟩)]

/-- The effect of an opcode whose operands do not matter. -/
def fixed (op : Opcode) : StackEffect :=
  match rows.find? fun row => op.within row.1 row.2.1 with
  | some (first, _, even, odd) => if (op - first) % 2 = 0 then even else odd
  | none => ⟨0, 0⟩

/-- The slots of the field that an instruction names. -/
def fieldSlots (pool : Pool) (index : UInt16) : Except Fault UInt16 := do
  let member ← pool.member index
  return (← Descriptor.parseField member.descriptor).slots

/-- The effect of a call by a descriptor, on top of `receivers` slots. -/
def call (receivers : UInt16) (descriptor : String) : Except Fault StackEffect := do
  let arguments ← Descriptor.argumentSlots descriptor
  let result ← Descriptor.resultSlots descriptor
  return ⟨arguments + receivers, result⟩

/-- A widened load or store has the effect of the plain one; `iinc` and `ret`
have none. -/
def widened (operands : List UInt8) : StackEffect :=
  match operands with
  | inner :: _ => if Opcode.namesLocal inner then fixed inner else ⟨0, 0⟩
  | [] => ⟨0, 0⟩

def operandsOf : Instruction → List UInt8
  | .plain _ operands => operands
  | _ => []

def of (pool : Pool) (i : Instruction) : Except Fault StackEffect := do
  let op := i.opcode
  let index := i.poolIndex?.getD 0
  if op = Opcode.getStatic then
    return ⟨0, ← fieldSlots pool index⟩
  else if op = Opcode.putStatic then
    return ⟨← fieldSlots pool index, 0⟩
  else if op = Opcode.getField then
    return ⟨1, ← fieldSlots pool index⟩
  else if op = Opcode.putField then
    return ⟨1 + (← fieldSlots pool index), 0⟩
  else if op = Opcode.invokeDynamic then
    call 0 (← pool.dynamicDescriptor index)
  else if op = Opcode.invokeStatic then
    call 0 (← pool.member index).descriptor
  else if op.isMethodInvoke then
    call 1 (← pool.member index).descriptor
  else if op = Opcode.multiNewArray then
    return ⟨((operandsOf i)[2]?.getD 1).toUInt16, 1⟩
  else if op = Opcode.wide then
    return widened (operandsOf i)
  else
    return fixed op

end StackEffect

/-- The positions of instructions by their offsets. -/
abbrev OffsetIndex := Std.TreeMap Nat Nat

namespace OffsetIndex

def ofCode (code : List Located) : OffsetIndex :=
  Std.TreeMap.ofList (code.zipIdx.map fun (located, position) => (located.offset, position))

/-- The position of the instruction at an offset. -/
def find (index : OffsetIndex) (offset : Nat) : Except Fault Nat :=
  match index[offset]? with
  | some position => .ok position
  | none => .error (.badCodeOffset offset)

end OffsetIndex

namespace StackDepth

/-- The depths found so far, by position, and the positions still to follow, the
latest first. -/
structure Search where
  depths : Array (Option UInt16)
  pending : List Nat

/-- A depth for an instruction that has none yet. -/
def Search.reach (search : Search) (position : Nat) (depth : UInt16) : Search :=
  match search.depths[position]? with
  | some none =>
    { depths := search.depths.setIfInBounds position (some depth)
      pending := position :: search.pending }
  | _ => search

/-- One depth for each of several offsets, in order. -/
def Search.reachAll (index : OffsetIndex) (search : Search) :
    List (Nat × UInt16) → Except Fault Search
  | [] => .ok search
  | (offset, depth) :: rest => do
    let position ← index.find offset
    (search.reach position depth).reachAll index rest

/-- The state after the instruction at `position` was followed with `before`
slots on the stack, and the deeper of its two depths. Returning from a subroutine
leaves the stack as it was before the `jsr`. -/
def follow (pool : Pool) (index : OffsetIndex) (search : Search) (position : Nat)
    (before : UInt16) (located : Located) : Except Fault (Search × UInt16) := do
  let i := located.instruction
  let effect ← StackEffect.of pool i
  if before < effect.pops then
    throw (.stackUnderflow located.offset)
  let after := before - effect.pops + effect.pushes
  let search ← search.reachAll index (i.targets.map fun target => (target, after))
  let next := if i.opcode = Opcode.jsr ∨ i.opcode = Opcode.jsrW then before else after
  let search := if i.endsFlow then search else search.reach (position + 1) next
  return (search, max before after)

/-- The greatest depth met until nothing is pending. An instruction is pending at
most once, so the number of instructions is fuel enough. -/
def deepest (pool : Pool) (index : OffsetIndex) (code : Array Located) :
    Nat → Search → UInt16 → Except Fault UInt16
  | 0, _, depth => .ok depth
  | fuel + 1, search, depth =>
    match search.pending with
    | [] => .ok depth
    | position :: pending =>
      match code[position]? with
      | none => deepest pool index code fuel { search with pending } depth
      | some located =>
        let before := (search.depths[position]?.join).getD 0
        match follow pool index { search with pending } position before located with
        | .ok (search, reached) => deepest pool index code fuel search (max depth reached)
        | .error fault => .error fault

/-- The deepest operand stack on any path from the method entry, from a handler,
which starts with one slot, or from a further entry. -/
def limit (pool : Pool) (code : List Located) (handlers : List Handler)
    (entries : List (Nat × UInt16)) : Except Fault UInt16 :=
  if code.isEmpty then .ok 0
  else do
    let index := OffsetIndex.ofCode code
    let start : Search := { depths := Array.replicate code.length none, pending := [] }
    let handlerEntries := handlers.map fun handler => (handler.handlerPc.toNat, 1)
    let search ← (start.reach 0 0).reachAll index (handlerEntries ++ entries)
    deepest pool index code.toArray code.length search 0

end StackDepth

end Embargo
