import Embargo.Proofs.Code.ClassSpelling
import Embargo.Proofs.Enforcement.FrameContents

/-!
The classes that the frames of new code name. A frame that is kept is read as text and written
anew, so a class comes out named by the bytes that its text is encoded to. These are the bytes that
named it before only if they are an encoding of text to begin with.
-/
namespace Embargo
open Text

theorem ValueType.retarget_rename (move : Nat → Nat) (names : String → String)
    (type : ValueType) : (type.rename names).retarget move = (type.retarget move).rename names := by
  cases type <;> rfl

theorem Frame.retarget_rename (move : Nat → Nat) (names : String → String) (frame : Frame) :
    (frame.rename names).retarget move = (frame.retarget move).rename names := by
  simp only [rename, retarget, List.map_map]
  congr 1 <;> exact List.map_congr_left fun type _ => type.retarget_rename move names

/-- A frame is as it was exactly if all that it names is. -/
theorem Frame.retarget_rename_eq_iff {move : Nat → Nat} {names : String → String}
    {frame : Frame} : (frame.rename names).retarget move = frame.retarget move ↔
      ∀ name, ValueType.object name ∈ frame.locals ++ frame.stack → names name = name := by
  have htypes (types : List ValueType) :
      (types.map (ValueType.rename names)).map (ValueType.retarget move)
          = types.map (ValueType.retarget move) ↔
        ∀ name, ValueType.object name ∈ types → names name = name := by
    rw [List.map_map, List.map_inj_left]
    constructor
    · intro h name hname
      exact ValueType.object.inj (h _ hname)
    · intro h type htype
      cases type with
      | object name => exact congrArg ValueType.object (h name htype)
      | _ => rfl
  rw [retarget, retarget, Frame.mk.injEq]
  simp only [rename, true_and, htypes, List.mem_append, or_imp, forall_and]

namespace Revision
variable {rule : Rule} {method : MethodInfo} {body new : Body} {pool newPool : Pool}
  (r : Revision rule method body pool new newPool)
include r

/-- The old frames are those of the old table. -/
theorem decode_oldTable {payload : List UInt8}
    (h : Draft.Attributes.payload? pool body.attributes = some payload) :
    FrameTable.decode pool r.source.initial payload = .ok r.source.frames ∧
      r.source.hasTable = true := by
  obtain ⟨⟨names, hnames, hnamed⟩, -, htable, hframes⟩ := Source.of_eq_ok_iff.1 r.source_eq
  rw [hnamed, Source.table?_zip hnames] at htable hframes
  obtain ⟨a, ha, rfl⟩ := Option.map_eq_some_iff.1 h
  rw [ha] at htable hframes
  exact ⟨hframes, htable⟩

/-- Where there was a table, there is one. -/
theorem exists_table (h : r.source.hasTable = true) : ∃ payload, r.table = some payload := by
  have hframes := r.frames_eq
  rw [Draft.framesOf, h, Bool.true_or, if_pos rfl] at hframes
  obtain ⟨frames, -, hsome⟩ := Except.map_eq_ok_iff.1 hframes
  obtain ⟨payload, htable, -⟩ := r.table_of_frames hsome.symm
  exact ⟨payload, htable⟩

theorem respelled (hpool : pool.WellFormed) {payload : List UInt8}
    (h : Draft.Attributes.payload? pool body.attributes = some payload) :
    ∃ newPayload raws newRaws,
      Draft.Attributes.payload? newPool new.attributes = some newPayload ∧
      FrameTable.decodeSpelled pool r.source.initial payload = .ok raws ∧
      FrameTable.decodeSpelled newPool r.source.initial newPayload = .ok newRaws ∧
      raws.map (Frame.rename rewritten) = r.source.frames.map (Frame.rename written) ∧
      ∀ raw ∈ raws, raw.offset ∉ r.unreachable.dropped →
        (raw.rename rewritten).retarget r.layout.newOffset ∈ newRaws := by
  obtain ⟨hold, hhas⟩ := r.decode_oldTable h
  obtain ⟨newPayload, htable⟩ := r.exists_table hhas
  obtain ⟨frames, hframes, hencode⟩ := r.encode_table htable
  obtain ⟨raws, hraws, hspells⟩ := FrameTable.decodeSpelled_of_decode hold
  refine ⟨newPayload, raws, frames.map (Frame.rename written), (r.named_new hpool).2.trans htable,
    hraws, FrameTable.decodeSpelled_encode ((r.growth_pieces r.adds_true).wellFormed hpool)
      hencode (r.growth_attributes r.adds_true), hspells, fun raw hraw hkept => ?_⟩
  have hmem : raw.rename rewritten ∈ r.source.frames.map (Frame.rename written) :=
    hspells ▸ List.mem_map_of_mem hraw
  obtain ⟨frame, hframe, hsame⟩ := List.mem_map.1 hmem
  have hoffset : (frame.rename written).offset = (raw.rename rewritten).offset := by rw [hsame]
  have hnew : frame.retarget r.layout.newOffset ∈ frames := by
    rw [r.mem_newFrames_iff (r.newFrames_of_frames hframes)]
    refine .kept hframe ?_
    rwa [show frame.offset = raw.offset from hoffset]
  rw [← hsame, Frame.retarget_rename]
  exact List.mem_map_of_mem hnew

end Revision

/-- Where an enforcement on a method ends well and finds something, a frame that is kept names its
classes by the bytes that their names are encoded to. So it names all of them by the same bytes as
before exactly if these are an encoding of text already. -/
theorem Rule.enforceMethod_respelled (rule : Rule) (method : MethodInfo) (body : Body)
    (pool : Pool) (hpool : pool.WellFormed) (counts : SiteCounts)
    (h : (rule.enforceMethod method body pool).result = .ok counts) (hcounts : counts.total ≠ 0) :
    ∃ old code unreachable move source,
      rule.Relaid method body (rule.enforceMethod method body pool).body pool
        (rule.enforceMethod method body pool).pool old code unreachable move ∧
      Source.of method body pool = .ok source ∧
      ∀ payload, Draft.Attributes.payload? pool body.attributes = some payload →
        ∃ newPayload raws newRaws,
          Draft.Attributes.payload? (rule.enforceMethod method body pool).pool
            (rule.enforceMethod method body pool).body.attributes = some newPayload ∧
          FrameTable.decodeSpelled pool source.initial payload = .ok raws ∧
          FrameTable.decodeSpelled (rule.enforceMethod method body pool).pool source.initial
            newPayload = .ok newRaws ∧
          ∀ raw ∈ raws, raw.offset ∉ unreachable.dropped →
            (raw.rename rewritten).retarget move ∈ newRaws ∧
            (raw.retarget move ∈ newRaws ↔ ∀ bytes text,
              ValueType.object (spelling bytes) ∈ raw.locals ++ raw.stack →
              ModifiedUtf8.decode bytes = .ok text → ModifiedUtf8.encode text = bytes) := by
  obtain ⟨r, rfl⟩ := Revision.of_enforceMethod h hcounts
  refine ⟨r.old, r.layout.instructions, r.unreachable, r.layout.newOffset, r.source,
    r.relaid hpool, r.source_eq, fun payload hpayload => ?_⟩
  obtain ⟨newPayload, raws, newRaws, hnewPayload, hraws, hnewRaws, hspells, hmem⟩ :=
    r.respelled hpool hpayload
  refine ⟨newPayload, raws, newRaws, hnewPayload, hraws, hnewRaws, fun raw hraw hkept => ?_⟩
  have hnew := hmem raw hraw hkept
  have htexts := FrameTable.exists_text_of_decodeSpelled hraws hspells raw hraw
  refine ⟨hnew, fun hsame bytes text hobject hdecode => ?_, fun hcanonical => ?_⟩
  · -- two frames of one table are not at one offset
    have hnodup := (FrameTable.pairwise_of_decode hnewRaws).imp Nat.ne_of_lt
    have heq := List.inj_on_of_nodup_map hnodup hnew hsame rfl
    exact (rewritten_eq_iff hdecode).1 (Frame.retarget_rename_eq_iff.1 heq _ hobject)
  · rw [← Frame.retarget_rename_eq_iff.2 fun name hobject => ?_]
    · exact hnew
    · obtain ⟨bytes, text, rfl, hdecode⟩ := htexts name hobject
      exact (rewritten_eq_iff hdecode).2 (hcanonical bytes text hobject hdecode)

/-- A pool with a method under an embargo at index 6, and at index 9 a class whose three bytes are
those of a surrogate on its own. -/
def lonePool : Pool := ((do
  let _ ← Pool.addMember .method ⟨"java/awt/Toolkit", "beep", "()V"⟩
  let _ ← Pool.addUtf8 "StackMapTable"
  let name ← Pool.intern (.utf8 [0xED, 0xA0, 0x80])
  let _ ← Pool.intern (.classRef name)
  let _ ← Pool.addClass "a/B" : PoolStep Unit).run Pool.empty).2

/-- A call and a `return` with a frame that has a local variable of the class. -/
def loneBody : Body :=
  ⟨0, 1, [0xb8, 0, 6, 0xb1], [], [⟨7, [0, 1, 0xfc, 0, 3, 7, 0, 9]⟩]⟩

def loneFrame (offset : Nat) (bytes : List UInt8) : Frame :=
  ⟨offset, [.object (spelling bytes)], []⟩

theorem wellFormed_lonePool : lonePool.WellFormed :=
  ⟨by decide +kernel, lonePool.slots.toList.filterMap id, by decide +kernel⟩

theorem Rule.dropped_loneBody :
    (awtRule.unreachable runMethod loneBody lonePool).map Unreachable.dropped = .ok [] := by
  decide +kernel

/-- The bytes are not those that the text is encoded to. The frame that moves from 3 to 10 names
another class there. -/
theorem Rule.enforceMethod_respelled_lone :
    (awtRule.enforceMethod runMethod loneBody lonePool).result = .ok ⟨1, 0⟩ ∧
      Draft.Attributes.payload? (awtRule.enforceMethod runMethod loneBody lonePool).pool
        (awtRule.enforceMethod runMethod loneBody lonePool).body.attributes
          = some [0, 1, 0xfc, 0, 10, 7, 0, 21] ∧
      FrameTable.decodeSpelled lonePool [] [0, 1, 0xfc, 0, 3, 7, 0, 9]
        = .ok [loneFrame 3 [0xED, 0xA0, 0x80]] ∧
      FrameTable.decodeSpelled (awtRule.enforceMethod runMethod loneBody lonePool).pool []
        [0, 1, 0xfc, 0, 10, 7, 0, 21] = .ok [loneFrame 10 [0xEF, 0xBF, 0xBD]] ∧
      ∃ move : Nat → Nat, move 3 = 10 ∧
        ((loneFrame 3 [0xED, 0xA0, 0x80]).rename rewritten).retarget move
          = loneFrame 10 [0xEF, 0xBF, 0xBD] ∧
        (loneFrame 3 [0xED, 0xA0, 0x80]).retarget move ∉ [loneFrame 10 [0xEF, 0xBF, 0xBD]] := by
  have hresult : (awtRule.enforceMethod runMethod loneBody lonePool).result = .ok ⟨1, 0⟩ := by
    decide +kernel
  have hpayload : Draft.Attributes.payload?
      (awtRule.enforceMethod runMethod loneBody lonePool).pool
      (awtRule.enforceMethod runMethod loneBody lonePool).body.attributes
        = some [0, 1, 0xfc, 0, 10, 7, 0, 21] := by
    decide +kernel
  have hold : FrameTable.decodeSpelled lonePool [] [0, 1, 0xfc, 0, 3, 7, 0, 9]
      = .ok [loneFrame 3 [0xED, 0xA0, 0x80]] := by
    decide +kernel
  have hnew : FrameTable.decodeSpelled (awtRule.enforceMethod runMethod loneBody lonePool).pool []
      [0, 1, 0xfc, 0, 10, 7, 0, 21] = .ok [loneFrame 10 [0xEF, 0xBF, 0xBD]] := by
    decide +kernel
  have hinitial : (Source.of runMethod loneBody lonePool).map Source.initial = .ok [] := by
    decide +kernel
  obtain ⟨old, code, unreachable, move, source, hrelaid, hsource, hframes⟩ :=
    awtRule.enforceMethod_respelled runMethod loneBody lonePool wellFormed_lonePool ⟨1, 0⟩ hresult
      (by decide)
  have hkept : 3 ∉ unreachable.dropped := by
    have hdropped := Rule.dropped_loneBody
    rw [hrelaid.unreachable_eq] at hdropped
    rw [Except.ok.inj hdropped]
    exact List.not_mem_nil
  obtain ⟨newPayload, raws, newRaws, hnewPayload, hraws, hnewRaws, hsame⟩ :=
    hframes [0, 1, 0xfc, 0, 3, 7, 0, 9] (by decide +kernel)
  rw [hsource] at hinitial
  rw [Except.ok.inj hinitial] at hraws hnewRaws
  obtain rfl := Option.some.inj (hpayload.symm.trans hnewPayload)
  obtain rfl := Except.ok.inj (hold.symm.trans hraws)
  obtain rfl := Except.ok.inj (hnew.symm.trans hnewRaws)
  obtain ⟨hrenamed, hiff⟩ := hsame _ (List.mem_singleton_self _) hkept
  have hmoved := List.mem_singleton.1 hrenamed
  refine ⟨hresult, hpayload, hold, hnew, move, congrArg Frame.offset hmoved, hmoved, fun hmem => ?_⟩
  have hcanonical := hiff.1 hmem [0xED, 0xA0, 0x80] "\uFFFD" (List.mem_singleton_self _)
    (by decide +kernel)
  exact absurd hcanonical (by decide +kernel)

end Embargo
