import Embargo.Code.Decode
import Embargo.Code.Encode
import Embargo.Code.FrameTable
import Embargo.Code.LocalSlots
import Embargo.Code.StackDepth
import Embargo.Proofs.Raising
import Mathlib.Data.List.Chain

/-!
Frames out of order are found where a stack map table is written, and by nothing else that reads
or writes code. Where the frames are in order, writing them does not find them out of order.
-/
namespace Embargo

/-- The fault is not about the order of frames. -/
@[simp]
def Fault.Orderly : Fault → Prop
  | .badStackMap (.outOfOrder _) => False
  | _ => True

open Fault (Orderly)

theorem Bytes.raises_count (what : String) (n : Nat) : Raises (count what n) Orderly := by
  unfold count
  split <;> simp

namespace Reader
variable {α : Type} {cursor : Cursor}

theorem raises_u8 : RaisesFrom u8 cursor Orderly := by
  change Raises (u8 cursor).1 Orderly
  unfold u8
  split <;> simp

theorem raises_u16 : RaisesFrom u16 cursor Orderly := by
  change Raises (u16 cursor).1 Orderly
  unfold u16
  split <;> simp

theorem raises_finish : RaisesFrom finish cursor Orderly := by
  change Raises (finish cursor).1 Orderly
  unfold finish
  split <;> simp

theorem raises_manyOnto {item : Reader α} (h : ∀ cursor, RaisesFrom item cursor Orderly) (n : Nat)
    (done : List α) (cursor : Cursor) : Raises (manyOnto item n done cursor).1 Orderly := by
  induction n generalizing done cursor with
  | zero => exact .ok _
  | succ n ih =>
    unfold manyOnto
    split
    case h_1 value after _ => exact ih (value :: done) after
    case h_2 hrun => exact .error ((h cursor).of_run_eq_error hrun)

theorem raises_many {item : Reader α} (h : ∀ cursor, RaisesFrom item cursor Orderly) (n : Nat) :
    RaisesFrom (many n item) cursor Orderly := raises_manyOnto h n [] cursor

theorem raises_counted {item : Reader α} (h : ∀ cursor, RaisesFrom item cursor Orderly) :
    RaisesFrom (counted item) cursor Orderly :=
  raises_u16.bind fun count _ _ => raises_many h count.toNat

theorem raises_parse {reader : Reader α} (h : ∀ cursor, RaisesFrom reader cursor Orderly)
    (data : List UInt8) : Raises (parse reader data) Orderly :=
  (h _).bind fun _ _ _ => raises_finish.bind fun _ _ _ => .pure _

end Reader

namespace Pool
variable (pool : Pool) (index : UInt16)

theorem raises_get : Raises (pool.get index) Orderly := by
  unfold get
  split <;> simp

theorem raises_utf8 : Raises (pool.utf8 index) Orderly := by
  refine (pool.raises_get index).bind fun constant _ => ?_
  split
  · unfold Text.ModifiedUtf8.decode
    split <;> simp
  · exact .error trivial

theorem raises_className : Raises (pool.className index) Orderly := by
  refine (pool.raises_get index).bind fun constant _ => ?_
  split
  · exact pool.raises_utf8 _
  · exact .error trivial

theorem raises_nameAndType : Raises (pool.nameAndType index) Orderly := by
  refine (pool.raises_get index).bind fun constant _ => ?_
  split
  · exact (pool.raises_utf8 _).bind fun _ _ => (pool.raises_utf8 _).bind fun _ _ => .ok _
  · exact .error trivial

theorem raises_member : Raises (pool.member index) Orderly := by
  refine (pool.raises_get index).bind fun constant _ => ?_
  split
  · refine (pool.raises_nameAndType _).bind fun _ _ => ?_
    exact (pool.raises_className _).bind fun _ _ => .ok _
  · exact .error trivial

theorem raises_dynamicDescriptor : Raises (pool.dynamicDescriptor index) Orderly := by
  refine (pool.raises_get index).bind fun constant _ => ?_
  split
  · exact (pool.raises_nameAndType _).bind fun _ _ => .ok _
  · exact (pool.raises_nameAndType _).bind fun _ _ => .ok _
  · exact .error trivial

theorem raises_intern (constant : Constant) : RaisesFrom (intern constant) pool Orderly := by
  change Raises (intern constant pool).1 Orderly
  unfold intern
  split
  · exact .ok _
  · split <;> simp

theorem raises_addUtf8 (text : String) : RaisesFrom (addUtf8 text) pool Orderly :=
  raises_intern pool _

theorem raises_addClass (name : String) : RaisesFrom (addClass name) pool Orderly :=
  (raises_addUtf8 pool name).bind fun _ _ _ => raises_intern _ _

theorem raises_addString (text : String) : RaisesFrom (addString text) pool Orderly :=
  (raises_addUtf8 pool text).bind fun _ _ _ => raises_intern _ _

theorem raises_addNameAndType (name descriptor : String) :
    RaisesFrom (addNameAndType name descriptor) pool Orderly :=
  (raises_addUtf8 pool name).bind fun _ _ _ => (raises_addUtf8 _ descriptor).bind fun _ _ _ =>
    raises_intern _ _

theorem raises_addMember (kind : MemberKind) (member : MemberRef) :
    RaisesFrom (addMember kind member) pool Orderly :=
  (raises_addClass pool _).bind fun _ _ _ => (raises_addNameAndType _ _ _).bind fun _ _ _ =>
    raises_intern _ _

end Pool

namespace Descriptor
variable (text : String)

theorem raises_parseField : Raises (parseField text) Orderly := by
  unfold parseField
  split <;> simp

theorem raises_parseMethod : Raises (parseMethod text) Orderly := by
  unfold parseMethod
  split
  · split
    · exact .ok _
    · exact (raises_parseField _).map
    · exact .error trivial
  · exact .error trivial

theorem raises_argumentSlots : Raises (argumentSlots text) Orderly :=
  (raises_parseMethod text).map

theorem raises_resultSlots : Raises (resultSlots text) Orderly :=
  (raises_parseMethod text).map

end Descriptor

namespace Instruction
variable {offset : Nat} {cursor : Cursor}

theorem raises_part {α : Type} {reader : Reader α} :
    RaisesFrom (part offset reader) cursor Orderly := .reporting fun _ => trivial

theorem raises_absolute (distance : Int32) : Raises (absolute offset distance) Orderly := by
  unfold absolute
  dsimp only
  split <;> simp

theorem raises_readTarget : RaisesFrom (readTarget offset) cursor Orderly :=
  raises_part.bind fun distance _ _ => .ofExcept (raises_absolute distance)

theorem raises_readTableSwitch : RaisesFrom (readTableSwitch offset) cursor Orderly := by
  refine raises_part.bind fun _ _ _ => raises_readTarget.bind fun otherwise _ _ => ?_
  refine raises_part.bind fun low _ _ => raises_part.bind fun high _ _ => ?_
  dsimp only
  split
  · exact .throw_bind trivial _
  · refine RaisesFrom.bind (.ok _) fun fits _ _ => ?_
    split
    · exact (Reader.raises_many (fun _ => raises_readTarget) _).bind fun _ _ _ => .pure _
    · exact .throw_bind trivial _

theorem raises_readLookupSwitch : RaisesFrom (readLookupSwitch offset) cursor Orderly := by
  refine raises_part.bind fun _ _ _ => raises_readTarget.bind fun otherwise _ _ => ?_
  refine raises_part.bind fun count _ _ => ?_
  dsimp only
  have hpair (cursor : Cursor) : RaisesFrom (readPair offset) cursor Orderly :=
    raises_part.bind fun _ _ _ => raises_readTarget.bind fun _ _ _ => .pure _
  split
  · exact .throw_bind trivial _
  · refine RaisesFrom.bind (.ok _) fun fits _ _ => ?_
    split
    · exact (Reader.raises_many hpair _).bind fun _ _ _ => .pure _
    · exact .throw_bind trivial _

theorem raises_readOperands (op : Opcode) : RaisesFrom (readOperands offset op) cursor Orderly := by
  unfold readOperands
  split
  · exact raises_part.bind fun _ _ _ => .pure _
  · refine .ite ?narrow (.ite ?wide (.ite ?widened (.ite raises_readTableSwitch
      (.ite raises_readLookupSwitch (.throw trivial)))))
    case narrow =>
      exact raises_part.bind fun _ _ _ =>
        RaisesFrom.bind (.ofExcept (raises_absolute _)) fun _ _ _ => .pure _
    case wide => exact raises_readTarget.bind fun _ _ _ => .pure _
    case widened =>
      refine raises_part.bind fun inner _ _ => ?_
      split
      · exact raises_part.bind fun _ _ _ => .pure _
      · exact .throw trivial

theorem raises_read : RaisesFrom read cursor Orderly :=
  RaisesFrom.bind (.ok _) fun _ _ _ => Reader.raises_u8.bind fun op _ _ =>
    (raises_readOperands op).bind fun _ _ _ => .pure _

theorem raises_readAllOnto (fuel : Nat) (done : List Located) (cursor : Cursor) :
    Raises (readAllOnto fuel done cursor) Orderly := by
  induction fuel generalizing done cursor with
  | zero => exact .ok _
  | succ fuel ih =>
    unfold readAllOnto
    split
    · exact .ok _
    · split
      case h_1 located after _ => exact ih (located :: done) after
      case h_2 hrun => exact .error (raises_read.of_run_eq_error hrun)

theorem raises_decode (code : List UInt8) : Raises (decode code) Orderly := by
  refine (raises_readAllOnto _ _ _).bind fun instructions _ => ?_
  split
  · exact .error trivial
  · exact .ok _

theorem raises_encode (i : Instruction) : Raises (i.encode offset) Orderly := by
  unfold encode
  split
  · exact .ok _
  · split
    · exact .ok _
    · refine Raises.map ?_
      unfold narrowDelta
      dsimp only
      split <;> simp
  · exact .ok _
  · exact .ok _

theorem raises_mapTargets {move : Nat → Except Fault Nat} (h : ∀ n, Raises (move n) Orderly)
    (i : Instruction) : Raises (i.mapTargets move) Orderly := by
  cases i with
  | plain => exact .ok _
  | branch => exact (h _).bind fun _ _ => .ok _
  | tableSwitch =>
    exact (h _).bind fun _ _ => (Raises.mapM fun _ _ => h _).bind fun _ _ => .ok _
  | lookupSwitch =>
    exact (h _).bind fun _ _ =>
      (Raises.mapM fun _ _ => (h _).bind fun _ _ => .ok _).bind fun _ _ => .ok _

end Instruction

theorem LocalSlots.raises_limit (code : List Located) (descriptor : String) (isStatic : Bool) :
    Raises (limit code descriptor isStatic) Orderly := by
  refine (Descriptor.raises_argumentSlots descriptor).bind fun arguments _ => ?_
  dsimp only
  generalize code.foldl _ _ = slots
  split
  · exact .ok _
  · exact .error trivial

namespace StackEffect
variable (pool : Pool)

theorem raises_fieldSlots (index : UInt16) : Raises (fieldSlots pool index) Orderly :=
  (pool.raises_member index).bind fun _ _ => (Descriptor.raises_parseField _).bind fun _ _ => .ok _

theorem raises_call (receivers : UInt16) (descriptor : String) :
    Raises (call receivers descriptor) Orderly :=
  (Descriptor.raises_argumentSlots _).bind fun _ _ =>
    (Descriptor.raises_resultSlots _).bind fun _ _ => .ok _

theorem raises_of (i : Instruction) : Raises (of pool i) Orderly := by
  have hfield (index : UInt16) (effect : UInt16 → StackEffect) :
      Raises (do return effect (← fieldSlots pool index)) Orderly :=
    (raises_fieldSlots pool index).bind fun _ _ => .ok _
  have hinvoke (receivers index : UInt16) :
      Raises (do call receivers (← pool.member index).descriptor) Orderly :=
    (pool.raises_member index).bind fun _ _ => raises_call _ _
  unfold of
  exact .ite (hfield _ _) (.ite (hfield _ _) (.ite (hfield _ _) (.ite (hfield _ _)
    (.ite ((pool.raises_dynamicDescriptor _).bind fun _ _ => raises_call _ _)
      (.ite (hinvoke _ _) (.ite (hinvoke _ _) (.ite (.ok _) (.ite (.ok _) (.ok _)))))))))

end StackEffect

namespace StackDepth
variable (pool : Pool) (index : OffsetIndex)

theorem Search.raises_reachAll (search : Search) (reached : List (Nat × UInt16)) :
    Raises (search.reachAll index reached) Orderly := by
  induction reached generalizing search with
  | nil => exact .ok _
  | cons next rest ih =>
    have hfind : Raises (index.find next.1) Orderly := by
      unfold OffsetIndex.find
      split <;> simp
    exact hfind.bind fun _ _ => ih _

theorem raises_follow (search : Search) (position : Nat) (before : UInt16) (located : Located) :
    Raises (follow pool index search position before located) Orderly := by
  refine (StackEffect.raises_of pool _).bind fun effect _ => ?_
  dsimp only
  split
  · exact .error trivial
  · exact (search.raises_reachAll index _).bind fun _ _ => .ok _

theorem raises_deepest (code : Array Located) (fuel : Nat) (search : Search) (depth : UInt16) :
    Raises (deepest pool index code fuel search depth) Orderly := by
  induction fuel generalizing search depth with
  | zero => exact .ok _
  | succ fuel ih =>
    unfold deepest
    split
    · exact .ok _
    · split
      · exact ih _ _
      · dsimp only
        split
        · exact ih _ _
        case h_2 hfollow => exact .error (raises_follow _ _ _ _ _ _ _ hfollow)

theorem raises_limit (code : List Located) (handlers : List Handler)
    (entries : List (Nat × UInt16)) : Raises (limit pool code handlers entries) Orderly :=
  .ite (.ok _) ((Search.raises_reachAll _ _ _).bind fun _ _ => raises_deepest _ _ _ _ _ _)

end StackDepth

theorem ValueType.raises_read (pool : Pool) {cursor : Cursor} :
    RaisesFrom (read pool) cursor Orderly := by
  refine Reader.raises_u8.bind fun tag _ _ => ?_
  split
  case h_8 =>
    exact Reader.raises_u16.bind fun index _ _ =>
      RaisesFrom.bind (.ofExcept (pool.raises_className index)) fun _ _ _ => .pure _
  case h_9 => exact Reader.raises_u16.bind fun _ _ _ => .pure _
  case h_10 => exact .throw trivial
  all_goals exact .pure _

theorem ValueType.raises_write (type : ValueType) (pool : Pool) :
    RaisesFrom type.write pool Orderly := by
  unfold write
  split
  case h_8 => exact (Pool.raises_addClass _ _).bind fun _ _ _ => .pure _
  case h_9 => exact .ite (.pure _) (.throw trivial)
  all_goals exact .pure _

theorem ValueType.raises_writeList (types : List ValueType) (pool : Pool) :
    RaisesFrom (writeList types) pool Orderly :=
  (RaisesFrom.mapM fun type _ => type.raises_write).bind fun _ _ _ => .pure _

namespace FrameTable

theorem raises_readKind (pool : Pool) (index : Nat) (before : List ValueType) (kind : UInt8)
    {cursor : Cursor} : RaisesFrom (readKind pool index before kind) cursor Orderly := by
  have htype {cursor : Cursor} : RaisesFrom (ValueType.read pool) cursor Orderly :=
    ValueType.raises_read pool
  have hgap {cursor : Cursor} : RaisesFrom readGap cursor Orderly :=
    Reader.raises_u16.bind fun _ _ _ => .pure _
  unfold readKind
  refine .ite (.pure _) (.ite ?_ (.ite (.throw trivial) (.ite ?_ (.ite ?_ (.ite ?_ (.ite ?_ ?_))))))
  · exact htype.bind fun _ _ _ => .pure _
  · exact hgap.bind fun _ _ _ => htype.bind fun _ _ _ => .pure _
  · refine hgap.bind fun _ _ _ => ?_
    dsimp only
    split
    · exact .throw_bind trivial _
    · exact .pure _
  · exact hgap.bind fun _ _ _ => .pure _
  · exact hgap.bind fun _ _ _ => (Reader.raises_many (fun _ => htype) _).bind fun _ _ _ => .pure _
  · exact hgap.bind fun _ _ _ => (Reader.raises_counted fun _ => htype).bind fun _ _ _ =>
      (Reader.raises_counted fun _ => htype).bind fun _ _ _ => .pure _

theorem raises_readOnto (pool : Pool) (index : Nat) (previous : Option Nat)
    (before : List ValueType) (n : Nat) (done : List Frame) (cursor : Cursor) :
    Raises (readOnto pool index previous before n done cursor).1 Orderly := by
  induction n generalizing index previous before done cursor with
  | zero => exact .ok _
  | succ n ih =>
    have hentry : RaisesFrom (readEntry pool index before) cursor Orderly :=
      Reader.raises_u8.bind fun kind _ _ => raises_readKind pool index before kind
    unfold readOnto
    split
    · exact ih _ _ _ _ _
    case h_2 hrun => exact .error (hentry.of_run_eq_error hrun)

theorem raises_decode (pool : Pool) (initial : List ValueType) (data : List UInt8) :
    Raises (decode pool initial data) Orderly :=
  Reader.raises_parse (fun _ => Reader.raises_u16.bind fun count _ _ =>
    raises_readOnto pool 0 none initial count.toNat [] _) data

theorem raises_writeEntry (before : List ValueType) (gap : Nat) (frame : Frame) (pool : Pool) :
    RaisesFrom (writeEntry before gap frame) pool Orderly := by
  have hlist (types : List ValueType) (pool : Pool) :
      RaisesFrom (ValueType.writeList types) pool Orderly := ValueType.raises_writeList types pool
  have hcount (what : String) (n : Nat) (pool : Pool) :
      RaisesFrom (Attempt.ofExcept (Bytes.count what n)) pool Orderly := Bytes.raises_count what n
  have hfull : RaisesFrom (writeFull gap frame) pool Orderly :=
    (hcount _ _ _).bind fun _ _ _ => (hlist _ _).bind fun _ _ _ =>
      (hcount _ _ _).bind fun _ _ _ => (hlist _ _).bind fun _ _ _ => .pure _
  unfold writeEntry
  dsimp only
  split
  · exact .ite (.pure _) (.ite (.pure _) (.ite ((hlist _ _).bind fun _ _ _ => .pure _) hfull))
  · exact .ite ((ValueType.raises_write _ _).bind fun _ _ _ => .pure _) hfull
  · exact hfull

theorem raises_gapAfter {previous : Option Nat} {offset : Nat} (h : ∀ n ∈ previous, n < offset) :
    Raises (gapAfter previous offset) Orderly := by
  cases previous with
  | none => exact .ok _
  | some before =>
    have hlt : before < offset := h before rfl
    rw [gapAfter, if_pos hlt]
    exact .ok _

theorem raises_writeOnto {frames : List Frame} {previous : Option Nat}
    (h : (previous.toList ++ frames.map Frame.offset).IsChain (· < ·)) (before : List ValueType)
    (done : List (List UInt8)) (pool : Pool) :
    Raises (writeOnto previous before frames done pool).1 Orderly := by
  induction frames generalizing previous before done pool with
  | nil => exact .ok _
  | cons frame frames ih =>
    have hgap : Raises (gapAfter previous frame.offset) Orderly :=
      raises_gapAfter fun n hn => by
        cases hn
        exact (List.isChain_cons_cons.1 h).1
    have hrest : ((some frame.offset).toList ++ frames.map Frame.offset).IsChain (· < ·) :=
      List.IsChain.right_of_append h
    unfold writeOnto
    split
    case h_1 hfault => exact .error (hgap _ hfault)
    case h_2 =>
      split
      · exact .error trivial
      · split
        · exact ih hrest _ _ _
        case h_2 hrun => exact .error ((raises_writeEntry _ _ _ _).of_run_eq_error hrun)

/-- Frames in order are not found out of order. -/
theorem raises_encode {frames : List Frame} (h : (frames.map Frame.offset).Pairwise (· < ·))
    (initial : List ValueType) (pool : Pool) :
    RaisesFrom (encode initial frames) pool Orderly := by
  have hchain : (none.toList ++ frames.map Frame.offset).IsChain (· < ·) :=
    List.isChain_iff_pairwise.2 h
  refine RaisesFrom.bind (.ofExcept (Bytes.raises_count _ _)) fun _ _ _ => ?_
  exact RaisesFrom.bind (raises_writeOnto hchain _ _ _) fun _ _ _ => .pure _

end FrameTable

end Embargo
