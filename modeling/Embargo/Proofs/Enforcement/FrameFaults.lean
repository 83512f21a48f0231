import Embargo.Proofs.Code.FrameFaults
import Embargo.Proofs.Enforcement.FrameContents

/-!
An enforcement never finds its own frames out of order. What it writes is in order whatever else
comes of it, and nothing else finds frames out of order.
-/
namespace Embargo
open Fault (Orderly)

theorem Marked.raises_siteOf (pool : Pool) (rule : Rule) (located : Located) :
    Raises (siteOf pool rule located) Orderly := by
  unfold siteOf
  split
  · exact .ok _
  · split
    · exact .error trivial
    · exact (pool.raises_member _).bind fun _ _ => .ok _

theorem Marked.raises_ofCode (pool : Pool) (rule : Rule) (code : List Located) :
    Raises (ofCode pool rule code) Orderly :=
  .mapM fun located _ => (raises_siteOf pool rule located).bind fun _ _ => .ok _

theorem Source.raises_of (method : MethodInfo) (body : Body) (pool : Pool) :
    Raises (Source.of method body pool) Orderly := by
  refine Raises.bind (.mapM fun a _ => pool.raises_utf8 a.name) fun names _ => ?_
  refine Raises.bind ((Descriptor.raises_parseMethod _).bind fun _ _ => .ok _) fun initial _ => ?_
  dsimp only
  split
  · exact (FrameTable.raises_decode pool initial _).bind fun _ _ => .ok _
  · exact .ok _

namespace Piece

theorem raises_throwingFor (rule : Rule) (site : Site) (pool : Pool) :
    RaisesFrom (throwingFor rule site) pool Orderly :=
  (Pool.raises_addClass _ _).bind fun _ _ _ => (Pool.raises_addString _ _).bind fun _ _ _ =>
    (Pool.raises_addMember _ _ _).bind fun _ _ _ => .pure _

theorem raises_ofMarked (rule : Rule) (isDead : Nat → Bool) (marked : Marked) (pool : Pool) :
    RaisesFrom (ofMarked rule isDead marked) pool Orderly := by
  unfold ofMarked
  dsimp only
  split
  · exact (raises_throwingFor _ _ _).bind fun _ _ _ => .pure _
  · exact .pure _

theorem raises_ofCode (rule : Rule) (unreachable : Unreachable) (code : List Marked)
    (pool : Pool) : RaisesFrom (ofCode rule unreachable code) pool Orderly :=
  .mapM fun marked _ => raises_ofMarked rule _ marked

end Piece

theorem Relocation.raises_move (relocation : Relocation) (offset : Nat) :
    Raises (relocation.move offset) Orderly := by
  unfold move
  split <;> simp

namespace Layout
variable (relocation : Relocation)

theorem raises_encodeRow (offset : Nat) (sequence : List Instruction) :
    Raises (encodeRow offset sequence) Orderly := by
  induction sequence generalizing offset with
  | nil => exact .ok _
  | cons i rest ih =>
    exact i.raises_encode.bind fun _ _ => (ih _).bind fun _ _ => .ok _

theorem raises_pieceBytes (placed : Placed) (next : List Placed) :
    Raises (pieceBytes relocation placed next) Orderly := by
  unfold pieceBytes
  split
  · exact (Instruction.raises_mapTargets relocation.raises_move _).bind fun moved _ =>
      moved.raises_encode
  · exact raises_encodeRow _ _
  · exact .ok _

theorem raises_bytesOnto (done : List (List UInt8)) (pieces : List Placed) :
    Raises (bytesOnto relocation done pieces) Orderly := by
  induction pieces generalizing done with
  | nil => exact .ok _
  | cons placed rest ih =>
    unfold bytesOnto
    split
    · exact ih _
    case h_2 hfault => exact .error (raises_pieceBytes relocation placed rest _ hfault)

end Layout

namespace DebugTable

theorem raises_ofRows (what : String) (rows : List (List UInt8)) :
    Raises (ofRows what rows) Orderly :=
  (Bytes.raises_count what rows.length).bind fun _ _ => .ok _

theorem raises_relocateLines (relocation : Relocation) (table : List UInt8) :
    Raises (relocateLines relocation table) Orderly := by
  have hline (cursor : Cursor) : RaisesFrom (readLine relocation) cursor Orderly := by
    refine Reader.raises_u16.bind fun start _ _ => Reader.raises_u16.bind fun line _ _ => ?_
    split
    · exact .pure _
    · exact .pure _
  have hrows : RaisesFrom (Reader.counted (readLine relocation)) (Cursor.start table) Orderly :=
    Reader.raises_counted hline
  exact Raises.bind hrows fun _ _ => raises_ofRows _ _

theorem raises_relocateVariables (pool : Pool) (relocation : Relocation) (table : List UInt8) :
    Raises (relocateVariables pool relocation table) Orderly := by
  have hvariable (cursor : Cursor) : RaisesFrom (readVariable pool relocation) cursor Orderly := by
    refine Reader.raises_u16.bind fun start _ _ => Reader.raises_u16.bind fun length _ _ => ?_
    refine Reader.raises_u16.bind fun name _ _ => Reader.raises_u16.bind fun type _ _ => ?_
    refine Reader.raises_u16.bind fun slot _ _ => ?_
    split
    · exact RaisesFrom.bind (.ofExcept (pool.raises_utf8 type)) fun _ _ _ => .pure _
    · exact .pure _
  have hrows : RaisesFrom (Reader.counted (readVariable pool relocation)) (Cursor.start table)
      Orderly := Reader.raises_counted hvariable
  exact Raises.bind hrows fun _ _ => (raises_ofRows _ _).bind fun _ _ => .ok _

end DebugTable

namespace Draft
variable (relocation : Relocation)

theorem raises_moveHandler (holes : List Span) (handler : Handler) :
    Raises (moveHandler relocation holes handler) Orderly :=
  (relocation.raises_move _).bind fun _ _ => (relocation.raises_move _).bind fun _ _ =>
    (relocation.raises_move _).bind fun _ _ => .ok _

theorem raises_moveType (type : ValueType) : Raises (moveType relocation type) Orderly := by
  unfold moveType
  split
  · exact (relocation.raises_move _).map
  · exact .ok _

theorem raises_moveFrame (frame : Frame) : Raises (moveFrame relocation frame) Orderly :=
  (relocation.raises_move _).bind fun _ _ =>
    (Raises.mapM fun type _ => raises_moveType relocation type).bind fun _ _ =>
      (Raises.mapM fun type _ => raises_moveType relocation type).bind fun _ _ => .ok _

theorem raises_framesOf (source : Source) (unreachable : Unreachable) (blocks : List DeadBlock) :
    Raises (framesOf source relocation unreachable blocks) Orderly := by
  refine .ite (.map ?_) (.ok _)
  exact (Raises.mapM fun frame _ => raises_moveFrame relocation frame).bind fun _ _ => .ok _

theorem Attributes.raises_step (pool : Pool) (state : Attributes) (name : String)
    (a : Attribute) : Raises (state.step pool relocation name a) Orderly := by
  unfold step
  split
  · split
    · exact .ok _
    · exact .ok _
  · refine .ite ?_ (.ite ?_ (.ite (.ok _) (.ok _)))
    · exact (DebugTable.raises_relocateLines relocation _).bind fun _ _ => .ok _
    · exact (DebugTable.raises_relocateVariables pool relocation _).bind fun _ _ => .ok _

theorem raises_finishAttributes (state : Attributes) (pool : Pool) :
    RaisesFrom (finishAttributes state) pool Orderly := by
  unfold finishAttributes
  split
  · exact .pure _
  · exact (Pool.raises_addUtf8 _ _).bind fun _ _ _ => .pure _

/-- The new frames of a plan are in order. -/
theorem raises_table {rule : Rule} {method : MethodInfo} {body : Body} {pool : Pool}
    (plan : Plan rule method body pool) {frames : Option (List Frame)}
    (h : framesOf plan.source (Relocation.ofLayout plan.layout body.code.length) plan.unreachable
      plan.layout.deadBlocks = .ok frames) (middle : Pool) :
    RaisesFrom (frames.mapM (FrameTable.encode plan.source.initial)) middle Orderly := by
  cases frames with
  | none => exact .pure none
  | some frames =>
    have hordered := plan.pairwise_newFrames (newFrames_of_framesOf h)
    exact (FrameTable.raises_encode hordered _ _).bind fun _ _ _ => .pure _

theorem raises_ofMarked {rule : Rule} (method : MethodInfo) {body : Body} {pool : Pool}
    {old : List Located} {marked : List Marked} (hold : Instruction.decode body.code = .ok old)
    (hmarked : Marked.ofCode pool rule old = .ok marked) :
    RaisesFrom (ofMarked rule method body marked) pool Orderly := by
  unfold ofMarked
  refine RaisesFrom.bind .get fun _ _ hget => ?_
  cases hget
  refine RaisesFrom.bind (.ofExcept (Source.raises_of _ _ _)) fun source _ hstep => ?_
  obtain ⟨hsource, rfl⟩ := Attempt.run_ofExcept_eq_ok_iff.1 hstep
  refine (Piece.raises_ofCode _ _ _ _).bind fun pieces piecesPool hpieces => ?_
  dsimp only
  split
  · exact .throw_bind trivial _
  · refine RaisesFrom.bind (.ofExcept (Layout.raises_bytesOnto _ _ _)) fun bytes _ _ => ?_
    refine RaisesFrom.bind (.ofExcept (.mapM fun handler _ => raises_moveHandler _ _ handler))
      fun handlers _ _ => ?_
    refine RaisesFrom.bind (.ofExcept (raises_framesOf _ _ _ _)) fun frames _ hstep => ?_
    obtain ⟨hframes, rfl⟩ := Attempt.run_ofExcept_eq_ok_iff.1 hstep
    have htable := raises_table ⟨old, marked, source, _, pieces, piecesPool, _, hold, hmarked,
      hsource, rfl, hpieces, rfl⟩ hframes
    refine (htable _).bind fun table tablePool _ => RaisesFrom.bind .get fun _ _ _ => ?_
    refine RaisesFrom.bind (.ofExcept (.foldlM (fun state a _ => ?_) _)) fun attributes _ _ => ?_
    · exact Attributes.raises_step _ _ _ _ _
    · exact (raises_finishAttributes _ _).bind fun _ _ _ => .pure _

end Draft

theorem MethodOutcome.raises_ofDraft (method : MethodInfo) (body : Body) (pool : Pool)
    (draft : Draft) : Raises (ofDraft method body pool draft).result Orderly := by
  have hlimits : Raises (do
      let code ← Instruction.decode draft.code
      return (code, ← StackDepth.limit pool code draft.handlers draft.entries)) Orderly :=
    (Instruction.raises_decode _).bind fun _ _ =>
      (StackDepth.raises_limit _ _ _ _).bind fun _ _ => .ok _
  unfold ofDraft
  split
  case h_1 hfault => exact .error (hlimits _ hfault)
  case h_2 code maxStack _ =>
    have hlocals := LocalSlots.raises_limit code method.descriptor method.isStatic
    dsimp only
    split
    case h_1 hfault => exact .error (hlocals _ hfault)
    case h_2 => exact .ok _

theorem Rule.raises_enforceMethod (rule : Rule) (method : MethodInfo) (body : Body)
    (pool : Pool) : Raises (rule.enforceMethod method body pool).result Orderly := by
  have hmarks : Raises (do Marked.ofCode pool rule (← Instruction.decode body.code)) Orderly :=
    (Instruction.raises_decode _).bind fun _ _ => Marked.raises_ofCode _ _ _
  unfold enforceMethod
  split
  case h_1 hfault => exact .error (hmarks _ hfault)
  case h_2 marked hok =>
    obtain ⟨old, hold, hmarked⟩ := Except.bind_eq_ok_iff.1 hok
    have hdraft := Draft.raises_ofMarked method hold hmarked
    split
    · exact .ok _
    · split
      case h_1 hrun => exact .error (hdraft.of_run_eq_error hrun)
      case h_2 => exact MethodOutcome.raises_ofDraft _ _ _ _

/-- An enforcement on a method that ends well and finds something leaves a stack map table, if
any, that has the frames of the new code and no others, in order. No enforcement at all fails
because of the order of frames. -/
theorem Rule.enforceMethod_reframed (rule : Rule) (method : MethodInfo) (body : Body)
    (pool : Pool) :
    (pool.WellFormed → ∀ counts, (rule.enforceMethod method body pool).result = .ok counts →
      counts.total ≠ 0 → ∃ old code unreachable move source,
        rule.Relaid method body (rule.enforceMethod method body pool).body pool
          (rule.enforceMethod method body pool).pool old code unreachable move ∧
        rule.Reframed method body (rule.enforceMethod method body pool).body pool
          (rule.enforceMethod method body pool).pool old code unreachable move source) ∧
    ∀ n, (rule.enforceMethod method body pool).result ≠ .error (.badStackMap (.outOfOrder n)) := by
  refine ⟨fun hpool counts h hcounts => ?_, fun n h => rule.raises_enforceMethod _ _ _ _ h⟩
  obtain ⟨r, rfl⟩ := Revision.of_enforceMethod h hcounts
  exact ⟨r.old, r.layout.instructions, r.unreachable, r.layout.newOffset, r.source, r.relaid hpool,
    r.reframed hpool (r.old_ne_nil hcounts)⟩

theorem Rule.enforceMethod_reframed_held :
    (awtRule.enforceMethod runMethod heldBody catchPool).result = .ok ⟨2, 0⟩ ∧
      Draft.Attributes.payload? (awtRule.enforceMethod runMethod heldBody catchPool).pool
          (awtRule.enforceMethod runMethod heldBody catchPool).body.attributes =
        some [0, 4, 81, 7, 0, 11, 0, 73, 8, 0, 0, 65, 7, 0, 11] ∧
      ∃ old code unreachable move source,
        awtRule.Relaid runMethod heldBody (awtRule.enforceMethod runMethod heldBody catchPool).body
          catchPool (awtRule.enforceMethod runMethod heldBody catchPool).pool old code unreachable
          move ∧
        awtRule.Reframed runMethod heldBody
          (awtRule.enforceMethod runMethod heldBody catchPool).body catchPool
          (awtRule.enforceMethod runMethod heldBody catchPool).pool old code unreachable move
          source := by
  refine ⟨Rule.result_heldBody, by decide +kernel, ?_⟩
  exact (Rule.enforceMethod_reframed awtRule runMethod heldBody catchPool).1 wellFormed_catchPool _
    Rule.result_heldBody (by decide)

end Embargo
