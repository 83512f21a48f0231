import Embargo.Code.Decode
import Embargo.Code.FrameTable
import Embargo.Code.LocalSlots
import Embargo.Code.StackDepth
import Embargo.Enforcement.DebugTable
import Embargo.Enforcement.Emission

/-!
A rule enforced on one method. Every forbidden instruction gives way to a sequence
that throws, the body is laid out anew, and whatever names code offsets follows.
-/
namespace Embargo

/-- The method that a body belongs to. -/
structure MethodInfo where
  className : String
  name : String
  descriptor : String
  isStatic : Bool
  /-- Whether the verifier checks stack map frames. -/
  stackMaps : Bool
  deriving DecidableEq, Repr

/-- What the attributes and the descriptor of a body say about its code. -/
structure Source where
  /-- The attributes with their names. -/
  named : List (String × Attribute)
  /-- The locals on entry. -/
  initial : List ValueType
  hasTable : Bool
  frames : List Frame
  deriving DecidableEq, Repr

namespace Source

def stackMapTable : String := "StackMapTable"

/-- The first stack map table counts; a body without one has no frames. -/
def of (method : MethodInfo) (body : Body) (pool : Pool) : Except Fault Source := do
  let names ← body.attributes.mapM fun a => pool.utf8 a.name
  let named := names.zip body.attributes
  let initial ←
    Frame.initialLocals method.className method.name method.descriptor method.isStatic
  let table := (named.find? fun (name, _) => name = stackMapTable).map Prod.snd
  let frames ←
    match table with
    | some a => FrameTable.decode pool initial a.payload
    | none => .ok []
  return { named, initial, hasTable := table.isSome, frames }

end Source

/-- The new code of a method, before its limits are known. -/
structure Draft where
  counts : SiteCounts
  code : List UInt8
  handlers : List Handler
  attributes : List Attribute
  /-- Entries for the stack limit besides the method and its handlers. -/
  entries : List (Nat × UInt16)
  /-- Variable slots that frames or debug tables name. -/
  declaredLocals : Nat

namespace Draft
open Source (stackMapTable)

/-- A handler over the new code, without the dead parts of its range. -/
def moveHandler (relocation : Relocation) (holes : List Span) (handler : Handler) :
    Except Fault (List Handler) := do
  let start ← relocation.move handler.startPc.toNat
  let stop ← relocation.move handler.endPc.toNat
  let handlerPc ← relocation.move handler.handlerPc.toNat
  return (Span.subtract ⟨start, stop⟩ holes).map fun span =>
    { startPc := UInt16.ofNat span.start, endPc := UInt16.ofNat span.stop,
      handlerPc := UInt16.ofNat handlerPc, catchType := handler.catchType }

def moveType (relocation : Relocation) : ValueType → Except Fault ValueType
  | .uninitialized offset => (relocation.move offset).map .uninitialized
  | type => .ok type

def moveFrame (relocation : Relocation) (frame : Frame) : Except Fault Frame := do
  let offset ← relocation.move frame.offset
  let locals ← frame.locals.mapM (moveType relocation)
  let stack ← frame.stack.mapM (moveType relocation)
  return { offset, locals, stack }

/-- A frame put in front of the first one that does not come before it. -/
def insertFrame (frame : Frame) : List Frame → List Frame
  | [] => [frame]
  | next :: rest =>
    if frame.offset ≤ next.offset then frame :: next :: rest
    else next :: insertFrame frame rest

/-- The old frames that stay, moved, among those of the dead blocks, in the order of
their offsets. -/
def newFrames (relocation : Relocation) (unreachable : Unreachable) (frames : List Frame)
    (blocks : List DeadBlock) : Except Fault (List Frame) := do
  let dropped := Std.TreeSet.ofList unreachable.dropped
  let kept := frames.filter fun frame => !dropped.contains frame.offset
  let moved ← kept.mapM (moveFrame relocation)
  return (moved ++ blocks.map DeadBlock.frame).foldr insertFrame []

/-- The new frames of a body. One that had no stack map table gets one only if there
is dead code in it. -/
def framesOf (source : Source) (relocation : Relocation) (unreachable : Unreachable)
    (blocks : List DeadBlock) : Except Fault (Option (List Frame)) :=
  if source.hasTable || !blocks.isEmpty then
    (newFrames relocation unreachable source.frames blocks).map some
  else .ok none

/-- A frame as an entry for the stack limit. -/
def frameEntry (frame : Frame) : Nat × UInt16 :=
  (frame.offset, UInt16.ofNat (min frame.stackSlots 65535))

/-- What a pass over the attributes of a body has so far: the new ones, reversed,
the stack map table unless it is in place, and the slots that were named. -/
structure Attributes where
  done : List Attribute
  table : Option (List UInt8)
  slots : Nat

/-- One more attribute. The new stack map table goes where the first old one was.
Type annotations are dropped, because their offsets are not followed. -/
def Attributes.step (pool : Pool) (relocation : Relocation) (state : Attributes)
    (name : String) (a : Attribute) : Except Fault Attributes :=
  if name = stackMapTable then
    match state.table with
    | some table =>
      .ok { state with done := { a with payload := table } :: state.done, table := none }
    | none => .ok state
  else if name = "LineNumberTable" then do
    let payload ← DebugTable.relocateLines relocation a.payload
    return { state with done := { a with payload } :: state.done }
  else if name = "LocalVariableTable" ∨ name = "LocalVariableTypeTable" then do
    let (payload, slots) ← DebugTable.relocateVariables pool relocation a.payload
    return { state with done := { a with payload } :: state.done, slots := max state.slots slots }
  else if name = "RuntimeVisibleTypeAnnotations" ∨ name = "RuntimeInvisibleTypeAnnotations" then
    .ok state
  else .ok { state with done := a :: state.done }

def Attributes.all (pool : Pool) (relocation : Relocation) (start : Attributes)
    (attributes : List (String × Attribute)) : Except Fault Attributes :=
  attributes.foldlM (fun state (name, a) => state.step pool relocation name a) start

/-- The attributes of the new body; a stack map table that has no place yet goes
behind all others. -/
def finishAttributes (state : Attributes) : PoolStep (List Attribute) := do
  match state.table with
  | none => return state.done.reverse
  | some payload =>
    let name ← Pool.addUtf8 stackMapTable
    return ({ name, payload } :: state.done).reverse

/-- The new code of a method that has sites. -/
def ofMarked (rule : Rule) (method : MethodInfo) (body : Body) (code : List Marked) :
    PoolStep Draft := do
  let source ← Attempt.ofExcept (Source.of method body (← get))
  let unreachable :=
    if method.stackMaps then Unreachable.ofCode code source.frames body.handlers
    else Unreachable.nothing
  let layout := Layout.ofPieces (← Piece.ofCode rule unreachable code)
  if 65535 < layout.length then
    throw (.codeTooLarge layout.length)
  let relocation := Relocation.ofLayout layout body.code.length
  let bytes ← Attempt.ofExcept (layout.bytes relocation)
  let blocks := layout.deadBlocks
  let handlers ← Attempt.ofExcept
    (body.handlers.mapM (moveHandler relocation (blocks.map DeadBlock.span)))
  let frames ← Attempt.ofExcept (framesOf source relocation unreachable blocks)
  let table ← frames.mapM (FrameTable.encode source.initial)
  let frameList := frames.getD []
  let start : Attributes :=
    { done := [], table, slots := (frameList.map Frame.localSlots).foldl max 0 }
  let state ← Attempt.ofExcept (start.all (← get) relocation source.named)
  let attributes ← finishAttributes state
  return {
    counts := Marked.counts code
    code := bytes
    handlers := handlers.flatten
    attributes
    entries := blocks.map DeadBlock.entry ++ frameList.map frameEntry
    declaredLocals := state.slots }

end Draft

/-- What a rule made of a method body. Pool additions stay even on failure. -/
structure MethodOutcome where
  result : Except Fault SiteCounts
  body : Body
  pool : Pool

namespace MethodOutcome

/-- The limits of a drafted body. The stack limit is stored as soon as it is known,
all the rest once the local limit is known too. -/
def ofDraft (method : MethodInfo) (body : Body) (pool : Pool) (draft : Draft) :
    MethodOutcome :=
  match (do
    let code ← Instruction.decode draft.code
    return (code, ← StackDepth.limit pool code draft.handlers draft.entries)) with
  | .error fault => ⟨.error fault, body, pool⟩
  | .ok (code, maxStack) =>
    let body := { body with maxStack }
    match LocalSlots.limit code method.descriptor method.isStatic with
    | .error fault => ⟨.error fault, body, pool⟩
    | .ok used =>
      let declared := UInt16.ofNat (min draft.declaredLocals 65535)
      ⟨.ok draft.counts,
        { maxStack, maxLocals := max used declared, code := draft.code,
          handlers := draft.handlers, attributes := draft.attributes },
        pool⟩

end MethodOutcome

/-- A rule enforced on a method body. Where nothing is forbidden the body stays as
it is. -/
def Rule.enforceMethod (rule : Rule) (method : MethodInfo) (body : Body) (pool : Pool) :
    MethodOutcome :=
  match (do Marked.ofCode pool rule (← Instruction.decode body.code)) with
  | .error fault => ⟨.error fault, body, pool⟩
  | .ok code =>
    if (Marked.sites code).isEmpty then ⟨.ok SiteCounts.zero, body, pool⟩
    else
      match (Draft.ofMarked rule method body code).run pool with
      | (.error fault, pool) => ⟨.error fault, body, pool⟩
      | (.ok draft, pool) => MethodOutcome.ofDraft method body pool draft

end Embargo
