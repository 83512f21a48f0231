import Embargo.Proofs.Code.LocalSlots
import Embargo.Proofs.Enforcement.DebugTables
import Embargo.Proofs.Enforcement.FrameContents

/-!
The limits of a new body. They are enough for all that the body declares: its arguments, the
variables of its instructions, its frames and its debug tables.
-/
namespace Embargo
open StackDepth (IsAt)

theorem DeadBlock.entry_eq (block : DeadBlock) : block.entry = Draft.frameEntry block.frame := by
  cases block <;> rfl

/-- The limits of a body cover all that it declares, where that fits in 16 bits. -/
structure Body.Covers (body : Body) (method : MethodInfo) (pool : Pool) (code : List Located)
    (frames : List Frame) (arguments : Nat) : Prop where
  decode_eq : Instruction.decode body.code = .ok code
  frames_eq : (Source.of method body pool).map Source.frames = .ok frames
  arguments_eq : Descriptor.argumentCount method.descriptor = .ok arguments
  arguments : arguments + (if method.isStatic then 0 else 1) ≤ body.maxLocals.toNat ↔
    arguments < 65536
  instructions : ∀ located ∈ code, ∀ slot width, located.instruction.Names slot width →
    slot + width ≤ body.maxLocals.toNat
  locals : ∀ frame ∈ frames, frame.localSlots ≤ 65535 → frame.localSlots ≤ body.maxLocals.toNat
  tables : ∀ name ∈ Draft.Attributes.variableTables,
    ∀ table ∈ Attribute.payloads pool name body.attributes, ∃ known,
      DebugTable.rows DebugTable.Variable.read table = .ok known ∧
      ∀ row ∈ known, ∃ type, pool.utf8 row.type = .ok type ∧
        (row.slot.toNat + DebugTable.variableWidth type ≤ 65535 →
          row.slot.toNat + DebugTable.variableWidth type ≤ body.maxLocals.toNat)
  /-- Control comes to the first instruction with nothing, and to a handler with one value. -/
  stack : ∀ frame ∈ frames, frame.offset ≠ 0 →
    (∀ handler ∈ body.handlers, handler.handlerPc.toNat ≠ frame.offset) →
    frame.stackSlots ≤ 65535 → frame.stackSlots ≤ body.maxStack.toNat

namespace Revision
variable {rule : Rule} {method : MethodInfo} {body new : Body} {pool newPool : Pool}
  (r : Revision rule method body pool new newPool)

/-- The limit of the variables is not below that of the instructions, nor below what was
declared. -/
theorem le_maxLocals {used : UInt16} {n : Nat}
    (hused : LocalSlots.limit r.layout.instructions method.descriptor method.isStatic = .ok used)
    (h : n ≤ used.toNat ∨ n ≤ r.attributes.slots ∧ n ≤ 65535) : n ≤ new.maxLocals.toNat := by
  obtain ⟨-, used', hused', hlocals⟩ := r.limits_new
  cases hused.symm.trans hused'
  have hdeclared : (UInt16.ofNat (min r.attributes.slots 65535)).toNat
      = min r.attributes.slots 65535 := UInt16.toNat_ofNat_of_le (Nat.min_le_right _ _)
  rw [hlocals, StackDepth.toNat_max, hdeclared]
  omega

theorem localSlots_le {frame : Frame} (hframe : frame ∈ r.newFrames) :
    frame.localSlots ≤ r.attributes.slots := by
  refine Nat.le_trans ?_ (Draft.Attributes.slots_le r.attributes_eq)
  exact Nat.le_foldl_max (.inr (List.mem_map_of_mem hframe))

/-- Every variable of a new debug table was counted. -/
theorem exists_rows (hpool : pool.WellFormed) {name : String}
    (hname : name ∈ Draft.Attributes.variableTables) {table : List UInt8}
    (htable : table ∈ Attribute.payloads newPool name new.attributes) : ∃ known,
      DebugTable.rows DebugTable.Variable.read table = .ok known ∧
      ∀ row ∈ known, ∃ type, newPool.utf8 row.type = .ok type ∧
        row.slot.toNat + DebugTable.variableWidth type ≤ r.attributes.slots := by
  obtain ⟨hother, hkept⟩ := Draft.Attributes.other_of_mem_variableTables name hname
  obtain ⟨old, -, slots, hslots, hfollows⟩ := Forall₂.exists_of_mem_right
    (r.forall₂_payloads hpool hother hkept) htable
  obtain ⟨known, -, hnew, hneeded⟩ := DebugTable.relocateVariables_eq_ok
    (Draft.Attributes.relocateVariables_of_follows hname hfollows)
  refine ⟨_, hnew, fun row hrow => ?_⟩
  obtain ⟨type, htype, hle⟩ := hneeded row hrow
  exact ⟨type, (r.growth_attributes r.adds_true).utf8_eq htype, Nat.le_trans hle hslots⟩

/-- No two new frames are at one offset. -/
theorem frame_eq {frame other : Frame} (hframe : frame ∈ r.newFrames) (hother : other ∈ r.newFrames)
    (heq : frame.offset = other.offset) : frame = other := by
  unfold newFrames at hframe hother
  cases hframes : r.frames with
  | none =>
    rw [hframes] at hframe
    exact absurd hframe List.not_mem_nil
  | some frames =>
    rw [hframes] at hframe hother
    have hpairwise := r.pairwise_newFrames (r.newFrames_of_frames hframes)
    have hnodup : (frames.map Frame.offset).Nodup := hpairwise.imp Nat.ne_of_lt
    exact List.inj_on_of_nodup_map hnodup hframe hother heq

/-- The search for the stack limit is entered at the new frames and at handlers. -/
theorem exists_frameEntry {entry : Nat × UInt16}
    (h : entry ∈ r.layout.deadBlocks.map DeadBlock.entry
      ++ (r.frames.getD []).map Draft.frameEntry) :
    ∃ frame ∈ r.newFrames, Draft.frameEntry frame = entry := by
  rcases List.mem_append.1 h with hblock | hframe
  · obtain ⟨block, hmem, rfl⟩ := List.mem_map.1 hblock
    have hnew := r.newFrames_ok (.inr (List.ne_nil_of_mem hmem))
    exact ⟨block.frame, (Draft.mem_newFrames_iff hnew).2 (.inr ⟨block, hmem, rfl⟩),
      block.entry_eq.symm⟩
  · exact List.mem_map.1 hframe

theorem stackSlots_le (hold : r.old ≠ []) {frame : Frame} (hframe : frame ∈ r.newFrames)
    (hfirst : frame.offset ≠ 0)
    (hhandlers : ∀ handler ∈ new.handlers, handler.handlerPc.toNat ≠ frame.offset)
    (hfits : frame.stackSlots ≤ 65535) : frame.stackSlots ≤ new.maxStack.toNat := by
  obtain ⟨hlimit, -⟩ := r.limits_new
  have hrow := r.lays.row_instructions
  have hcode := hrow.nodup_start fun located _ => located.size_pos
  have hdepth : (Draft.frameEntry frame).2.toNat = frame.stackSlots := by
    rw [Draft.frameEntry, Nat.min_eq_left hfits]
    exact UInt16.toNat_ofNat_of_le hfits
  rw [← hdepth]
  refine StackDepth.le_limit_of_entry hcode (r.instructions_ne_nil hold) hlimit
    (List.mem_append_right _ (List.mem_append_right _ (List.mem_map_of_mem hframe))) ?_ ?_
  · rintro ⟨located, hlocated, hoffset⟩
    exact hfirst (hoffset.symm.trans (hrow.start_eq_of_getElem?_zero hlocated))
  · intro other hother heq
    rcases List.mem_append.1 hother with hhandler | hentry
    · obtain ⟨handler, hmem, rfl⟩ := List.mem_map.1 hhandler
      exact absurd heq (hhandlers handler hmem)
    · obtain ⟨second, hsecond, rfl⟩ := r.exists_frameEntry hentry
      rw [r.frame_eq hsecond hframe heq]

/-- The limits of a new body are enough for it. -/
theorem covers (hpool : pool.WellFormed) (hold : r.old ≠ []) : ∃ arguments,
    new.Covers method newPool r.layout.instructions r.newFrames arguments := by
  obtain ⟨-, used, hused, -⟩ := r.limits_new
  obtain ⟨arguments, hcount, harguments, hnames⟩ := LocalSlots.covers_of_limit hused
  obtain ⟨source, hsource, hframes⟩ := r.source_new hpool
  refine ⟨arguments, {
    decode_eq := r.decode_new
    frames_eq := Except.map_eq_ok_iff.2 ⟨source, hsource, hframes⟩
    arguments_eq := hcount
    arguments := ⟨fun hle => ?_, fun hfits => r.le_maxLocals hused (.inl (harguments hfits))⟩
    instructions := fun located hlocated slot width hname =>
      r.le_maxLocals hused (.inl (hnames located hlocated slot width hname))
    locals := fun frame hframe hfits =>
      r.le_maxLocals hused (.inr ⟨r.localSlots_le hframe, hfits⟩)
    tables := fun name hname table htable => ?_
    stack := fun frame hframe => r.stackSlots_le hold hframe }⟩
  · exact Nat.lt_of_le_of_lt (Nat.le_trans (Nat.le_add_right _ _) hle) new.maxLocals.toNat_lt
  · obtain ⟨known, hknown, hneeded⟩ := r.exists_rows hpool hname htable
    refine ⟨known, hknown, fun row hrow => ?_⟩
    obtain ⟨type, htype, hle⟩ := hneeded row hrow
    exact ⟨type, htype, fun hfits => r.le_maxLocals hused (.inr ⟨hle, hfits⟩)⟩

end Revision

/-- An enforcement on a method that ends well and finds something sets limits that are enough for
all that the new body declares and that fits in 16 bits. They are enough for the arguments if and
only if these take less than 65536 slots. -/
theorem Rule.enforceMethod_covers {rule : Rule} {method : MethodInfo} {body : Body}
    {pool : Pool} {counts : SiteCounts} (hpool : pool.WellFormed)
    (h : (rule.enforceMethod method body pool).result = .ok counts) (hcounts : counts.total ≠ 0) :
    ∃ code frames arguments, (rule.enforceMethod method body pool).body.Covers method
      (rule.enforceMethod method body pool).pool code frames arguments := by
  obtain ⟨r, rfl⟩ := Revision.of_enforceMethod h hcounts
  exact ⟨_, _, r.covers hpool (r.old_ne_nil hcounts)⟩

/-- A widened load of a `long`, a `pop2`, a call and a `return`, and a `long` variable in slots that
no instruction names. -/
def wideBody : Body :=
  ⟨2, 7, [0xc4, 0x16, 0, 5, 0x58, 0xb8, 0, 6, 0xb1], [],
    [⟨8, [0, 1, 0, 0, 0, 9, 0, 8, 0, 9, 0, 8]⟩]⟩

theorem Rule.enforceMethod_covers_wide :
    (awtRule.enforceMethod runMethod wideBody debugPool).result = .ok ⟨1, 0⟩ ∧
      (awtRule.enforceMethod runMethod wideBody debugPool).body.maxLocals = 10 ∧
      ∃ code frames arguments,
        (awtRule.enforceMethod runMethod wideBody debugPool).body.Covers runMethod
          (awtRule.enforceMethod runMethod wideBody debugPool).pool code frames arguments := by
  have hresult : (awtRule.enforceMethod runMethod wideBody debugPool).result = .ok ⟨1, 0⟩ := by
    decide +kernel
  refine ⟨hresult, by decide +kernel, ?_⟩
  exact Rule.enforceMethod_covers wellFormed_debugPool hresult (by decide)

end Embargo
