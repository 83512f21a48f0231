import Embargo.Proofs.Enforcement.Attributes

/-!
The frames of a new body. They are the old frames that stay, moved, and those of the dead
blocks, and the new stack map table reads back as them.
-/
namespace Embargo

namespace Source
variable {P : String → Prop} {pool later : Pool}

/-- Whether an attribute is a stack map table. -/
def isTable (pool : Pool) (a : Attribute) : Bool :=
  match pool.utf8 a.name with
  | .ok name => name = stackMapTable
  | .error _ => false

theorem isTable_of_ok {a : Attribute} {name : String} (h : pool.utf8 a.name = .ok name) :
    isTable pool a = decide (name = stackMapTable) := by
  rw [isTable, h]

theorem table?_zip {attributes : List Attribute} {names : List String}
    (h : attributes.mapM (fun a => pool.utf8 a.name) = .ok names) :
    table? (names.zip attributes) = attributes.find? (isTable pool) := by
  have hall := Except.mapM_eq_ok_iff.1 h
  clear h
  unfold table?
  induction hall with
  | nil => rfl
  | @cons a name attributes names head _ ih =>
    rw [List.zip_cons_cons, List.find?_cons, List.find?_cons, isTable_of_ok head]
    dsimp only
    cases decide (name = stackMapTable) with
    | true => rfl
    | false => exact ih

end Source

namespace Draft.Attributes
open Source (isTable)
variable {pool : Pool} {relocation : Relocation}

/-- The payload of the first stack map table. -/
def payload? (pool : Pool) (attributes : List Attribute) : Option (List UInt8) :=
  (attributes.find? (isTable pool)).map Attribute.payload

theorem payload?_append {attributes : List Attribute} {a : Attribute} :
    payload? pool (attributes ++ [a]) =
      (payload? pool attributes).or (if isTable pool a then some a.payload else none) := by
  unfold payload?
  rw [List.find?_append, Option.map_or]
  cases hfind : isTable pool a <;> simp [hfind]

/-- A pass over attributes that has a table to place: their names resolve, and the table is
either still to be placed or the first one. -/
structure Places (pool : Pool) (table : Option (List UInt8)) (state : Attributes) : Prop where
  named : ∀ a ∈ state.done, ∃ name, pool.utf8 a.name = .ok name
  apart : state.table = none ∨ payload? pool state.done.reverse = none
  table_eq : (payload? pool state.done.reverse).or state.table = table

variable {table : Option (List UInt8)} {state next : Attributes}

/-- An attribute that is no stack map table is put behind the others. -/
theorem Places.cons_other (h : Places pool table state) {name : String} {a : Attribute}
    (ha : pool.utf8 a.name = .ok name) (hname : name ≠ Source.stackMapTable)
    (payload : List UInt8) (slots : Nat) :
    Places pool table ⟨{ a with payload } :: state.done, state.table, slots⟩ := by
  have hother : isTable pool { a with payload } = false := by
    have hsame : isTable pool { a with payload } = isTable pool a := rfl
    rw [hsame, Source.isTable_of_ok ha]
    exact decide_eq_false hname
  have hpayload : payload? pool ({ a with payload } :: state.done).reverse
      = payload? pool state.done.reverse := by
    rw [List.reverse_cons, payload?_append, hother, if_neg Bool.false_ne_true, Option.or_none]
  refine ⟨List.forall_mem_cons.2 ⟨⟨name, ha⟩, h.named⟩, ?_, ?_⟩
  · rw [hpayload]
    exact h.apart
  · rw [hpayload]
    exact h.table_eq

/-- The new table where an old one was. -/
theorem Places.cons_table (h : Places pool table state) {a : Attribute} {payload : List UInt8}
    (ha : pool.utf8 a.name = .ok Source.stackMapTable) (hpending : state.table = some payload)
    (slots : Nat) : Places pool table ⟨{ a with payload } :: state.done, none, slots⟩ := by
  have hnone : payload? pool state.done.reverse = none :=
    h.apart.resolve_left fun heq => nomatch hpending.symm.trans heq
  have htable : isTable pool { a with payload } = true := by
    have hsame : isTable pool { a with payload } = isTable pool a := rfl
    rw [hsame, Source.isTable_of_ok ha]
    exact decide_eq_true rfl
  refine ⟨List.forall_mem_cons.2 ⟨⟨_, ha⟩, h.named⟩, .inl rfl, ?_⟩
  rw [List.reverse_cons, payload?_append, hnone, htable, if_pos rfl, Option.none_or,
    Option.or_none, ← h.table_eq, hnone, hpending, Option.none_or]

theorem Places.step (h : Places pool table state) {name : String} {a : Attribute}
    (ha : pool.utf8 a.name = .ok name)
    (hstep : state.step pool relocation name a = .ok next) : Places pool table next := by
  cases goes_of_step hstep with
  | placed hpending => exact h.cons_table ha hpending _
  | further | annotations => exact h
  | followed hother => exact h.cons_other ha hother _ _

theorem places_all {named : List (String × Attribute)}
    (hnamed : ∀ pair ∈ named, pool.utf8 pair.2.name = .ok pair.1) {slots : Nat}
    (h : Attributes.all pool relocation ⟨[], table, slots⟩ named = .ok next) :
    Places pool table next := by
  refine Except.foldlM_invariant (fun state hstate pair hpair last hlast => ?_) ?_ h
  · exact hstate.step (hnamed pair hpair) hlast
  · exact ⟨fun _ ha => absurd ha List.not_mem_nil, .inr rfl, Option.none_or⟩

theorem payload?_of_growth {P : String → Prop} {later : Pool} {attributes : List Attribute}
    (hnamed : ∀ a ∈ attributes, ∃ name, pool.utf8 a.name = .ok name)
    (h : Pool.Growth P pool later) : payload? later attributes = payload? pool attributes := by
  have hsame : ∀ a ∈ attributes, isTable later a = isTable pool a := by
    intro a ha
    obtain ⟨name, hname⟩ := hnamed a ha
    rw [Source.isTable_of_ok hname, Source.isTable_of_ok (h.utf8_eq hname)]
  unfold payload?
  induction attributes with
  | nil => rfl
  | cons a attributes ih =>
    obtain ⟨hhead, hrest⟩ := List.forall_mem_cons.1 hsame
    rw [List.find?_cons, List.find?_cons, hhead]
    cases isTable pool a with
    | true => rfl
    | false => exact ih (List.forall_mem_cons.1 hnamed).2 hrest

/-- The finished attributes have the table, and their names resolve. -/
theorem finishAttributes_eq_ok {newPool : Pool} {attributes : List Attribute}
    (hpool : pool.WellFormed) (h : Places pool table state)
    (hrun : (finishAttributes state).run pool = (.ok attributes, newPool)) :
    (∀ a ∈ attributes, ∃ name, newPool.utf8 a.name = .ok name) ∧
      payload? newPool attributes = table := by
  have htable := h.table_eq
  have hapart := h.apart
  rcases finish_cases hrun with ⟨hnone, rfl, rfl⟩ | ⟨payload, index, hpending, hindex, rfl⟩
  · rw [hnone, Option.or_none] at htable
    exact ⟨fun a ha => h.named a (List.mem_reverse.1 ha), htable⟩
  · rw [hpending] at htable hapart
    have hgrowth : Pool.Growth (fun _ => True) pool newPool :=
      (Pool.grows_addUtf8 trivial).growth hindex
    have hutf8 := Pool.utf8_addUtf8 hpool hindex
    have hnamed : ∀ a ∈ state.done.reverse, ∃ name, pool.utf8 a.name = .ok name :=
      fun a ha => h.named a (List.mem_reverse.1 ha)
    refine ⟨fun a ha => ?_, ?_⟩
    · rw [List.mem_append, List.mem_singleton] at ha
      rcases ha with ha | rfl
      · obtain ⟨text, htext⟩ := hnamed a ha
        exact ⟨text, hgrowth.utf8_eq htext⟩
      · exact ⟨_, hutf8⟩
    · have hnone := hapart.resolve_left (Option.some_ne_none payload)
      have hlast : isTable newPool ⟨index, payload⟩ = true := by
        rw [Source.isTable_of_ok hutf8]
        exact decide_eq_true rfl
      rw [payload?_append, payload?_of_growth hnamed hgrowth, hlast, if_pos rfl, hnone, ← htable,
        hnone]

end Draft.Attributes

namespace Draft
variable {relocation : Relocation} {unreachable : Unreachable} {frames new : List Frame}
  {blocks : List DeadBlock}

theorem newFrames_of_framesOf {source : Source}
    (h : framesOf source relocation unreachable blocks = .ok (some new)) :
    newFrames relocation unreachable source.frames blocks = .ok new := by
  unfold framesOf at h
  split at h
  case isTrue =>
    obtain ⟨frames, hnew, hsome⟩ := Except.map_eq_ok_iff.1 h
    rwa [← Option.some.inj hsome]
  case isFalse => cases h

/-- The new frames are the moved ones of live code and those of the dead blocks. -/
theorem newFrames_eq_ok (h : newFrames relocation unreachable frames blocks = .ok new) :
    ∃ moved, List.Forall₂ (fun frame moved => moveFrame relocation frame = .ok moved)
        (frames.filter fun frame => frame.offset ∉ unreachable.dropped) moved ∧
      new = (moved ++ blocks.map DeadBlock.frame).foldr insertFrame [] := by
  obtain ⟨moved, hmoved, hpure⟩ := Except.bind_eq_ok_iff.1 h
  cases hpure
  refine ⟨moved, ?_, rfl⟩
  convert Except.mapM_eq_ok_iff.1 hmoved using 2
  funext frame
  rw [Std.TreeSet.contains_ofList]
  simp

theorem mem_newFrames_iff (h : newFrames relocation unreachable frames blocks = .ok new)
    {frame : Frame} :
    frame ∈ new ↔ (∃ old ∈ frames, old.offset ∉ unreachable.dropped ∧
      moveFrame relocation old = .ok frame) ∨ ∃ block ∈ blocks, block.frame = frame := by
  obtain ⟨moved, hmoved, rfl⟩ := newFrames_eq_ok h
  rw [mem_foldr_insertFrame, List.mem_append, List.mem_map]
  refine or_congr_left ⟨fun hframe => ?_, ?_⟩
  · obtain ⟨old, hold, hmove⟩ := Forall₂.exists_of_mem_right hmoved hframe
    obtain ⟨hmem, hkept⟩ := List.mem_filter.1 hold
    exact ⟨old, hmem, of_decide_eq_true hkept, hmove⟩
  · rintro ⟨old, hold, hkept, hmove⟩
    obtain ⟨last, hlast, hlastMove⟩ := Forall₂.exists_of_mem_left hmoved
      (List.mem_filter.2 ⟨hold, decide_eq_true hkept⟩)
    rwa [← Except.ok.inj (hlastMove.symm.trans hmove)]

/-- Every frame that is not dropped can be moved. -/
theorem exists_moveFrame (h : newFrames relocation unreachable frames blocks = .ok new)
    {frame : Frame} (hframe : frame ∈ frames) (hkept : frame.offset ∉ unreachable.dropped) :
    ∃ moved ∈ new, moveFrame relocation frame = .ok moved := by
  obtain ⟨moved, hmoved, rfl⟩ := newFrames_eq_ok h
  obtain ⟨last, hlast, hmove⟩ := Forall₂.exists_of_mem_left hmoved
    (List.mem_filter.2 ⟨hframe, decide_eq_true hkept⟩)
  exact ⟨last, mem_foldr_insertFrame.2 (List.mem_append_left _ hlast), hmove⟩

theorem offset_of_moveFrame {frame moved : Frame}
    (h : moveFrame relocation frame = .ok moved) :
    relocation.move frame.offset = .ok moved.offset := by
  obtain ⟨offset, hoffset, hrest⟩ := Except.bind_eq_ok_iff.1 h
  obtain ⟨locals, -, hrest⟩ := Except.bind_eq_ok_iff.1 hrest
  obtain ⟨stack, -, hpure⟩ := Except.bind_eq_ok_iff.1 hrest
  cases hpure
  exact hoffset

end Draft

namespace Revision
variable {rule : Rule} {method : MethodInfo} {body new : Body} {pool newPool : Pool}
  (r : Revision rule method body pool new newPool)

/-- The frames of the new body, none where it has no table. -/
def newFrames : List Frame := r.frames.getD []

theorem newFrames_of_frames {frames : List Frame} (h : r.frames = some frames) :
    Draft.newFrames (Relocation.ofLayout r.layout body.code.length) r.unreachable r.source.frames
      r.layout.deadBlocks = .ok frames :=
  Draft.newFrames_of_framesOf (h ▸ r.frames_eq)

/-- Where there were frames or there is dead code, there are new frames. -/
theorem newFrames_ok (h : r.source.frames ≠ [] ∨ r.layout.deadBlocks ≠ []) :
    Draft.newFrames (Relocation.ofLayout r.layout body.code.length) r.unreachable r.source.frames
      r.layout.deadBlocks = .ok r.newFrames := by
  have hframes := r.frames_eq
  unfold Draft.framesOf at hframes
  split at hframes
  case isTrue =>
    obtain ⟨new, hnew, hsome⟩ := Except.map_eq_ok_iff.1 hframes
    rwa [newFrames, ← hsome]
  case isFalse hnone =>
    exfalso
    rw [Bool.or_eq_true, Bool.not_eq_true', List.isEmpty_eq_false_iff, not_or] at hnone
    refine hnone.2 (h.resolve_left fun hsome => hsome ?_)
    -- without a table there is no frame
    obtain ⟨-, -, htable, hsource⟩ := Source.of_eq_ok_iff.1 r.source_eq
    split at hsource
    case h_1 a ha =>
      rw [htable, ha] at hnone
      exact absurd rfl hnone.1
    case h_2 => exact hsource

theorem exists_moveFrame {frame : Frame} (hframe : frame ∈ r.source.frames)
    (hkept : frame.offset ∉ r.unreachable.dropped) : ∃ moved ∈ r.newFrames,
      Draft.moveFrame (Relocation.ofLayout r.layout body.code.length) frame = .ok moved :=
  Draft.exists_moveFrame (r.newFrames_ok (.inl (List.ne_nil_of_mem hframe))) hframe hkept

/-- A frame that is not dropped moves along with its instruction. -/
theorem exists_moved {frame : Frame} (hframe : frame ∈ r.source.frames)
    (hkept : frame.offset ∉ r.unreachable.dropped) :
    ∃ moved ∈ r.newFrames, moved.offset = r.layout.newOffset frame.offset := by
  obtain ⟨moved, hmoved, hmove⟩ := r.exists_moveFrame hframe hkept
  exact ⟨moved, hmoved, (r.lays.move_eq_ok (Draft.offset_of_moveFrame hmove)).2⟩

/-- Every dead block starts at a frame. -/
theorem exists_blockFrame {block : DeadBlock} (hblock : block ∈ r.layout.deadBlocks) :
    ∃ frame ∈ r.newFrames, frame.offset = block.span.start := by
  have hnew := r.newFrames_ok (.inr (List.ne_nil_of_mem hblock))
  refine ⟨block.frame, (Draft.mem_newFrames_iff hnew).2 (.inr ⟨block, hblock, rfl⟩), ?_⟩
  cases block <;> rfl

/-- The names of the new attributes resolve, and the new stack map table is among them. -/
theorem named_new (hpool : pool.WellFormed) :
    (∀ a ∈ new.attributes, ∃ name, newPool.utf8 a.name = .ok name) ∧
      Draft.Attributes.payload? newPool new.attributes = r.table :=
  Draft.Attributes.finishAttributes_eq_ok (r.growth_tablePool.wellFormed hpool)
    (Draft.Attributes.places_all r.utf8_named r.attributes_eq) r.newAttributes_eq

/-- The payloads of any name but those of the table and of type annotations follow one by one. -/
theorem forall₂_payloads (hpool : pool.WellFormed) {name : String}
    (hother : name ≠ Source.stackMapTable) (hkept : name ∉ Draft.Attributes.typeAnnotations) :
    List.Forall₂ (Draft.Attributes.Following r.tablePool
        (Relocation.ofLayout r.layout body.code.length) name r.attributes)
      (Attribute.payloads pool name body.attributes)
      (Attribute.payloads newPool name new.attributes) := by
  obtain ⟨more, hdone, hfollow⟩ :=
    Draft.Attributes.forall₂_payloads r.utf8_named hother hkept r.attributes_eq
  have hplaces := Draft.Attributes.places_all r.utf8_named r.attributes_eq
  have hpayloads := Draft.Attributes.payloads_of_finish (r.growth_tablePool.wellFormed hpool)
    (fun a ha => hplaces.named a (List.mem_reverse.1 ha)) hother r.newAttributes_eq
  rw [List.reverse_nil, List.nil_append] at hdone
  rwa [r.map_snd_named, Attribute.payloads_of_growth (fun _ => r.exists_name) r.growth_tablePool,
    ← hdone, ← hpayloads] at hfollow

/-- Where there are new frames, the new table is written for them. -/
theorem table_of_frames {frames : List Frame} (h : r.frames = some frames) :
    ∃ payload, r.table = some payload ∧
      (FrameTable.encode r.source.initial frames).run r.piecesPool
        = (.ok payload, r.tablePool) := by
  have htable_eq := r.table_eq
  rw [h] at htable_eq
  obtain ⟨payload, middle, hrun, hpure⟩ := Attempt.run_bind_eq_ok_iff.1 htable_eq
  obtain ⟨hsome, rfl⟩ := Attempt.run_pure_eq_ok_iff.1 hpure
  exact ⟨payload, hsome.symm, hrun⟩

/-- The new table is written for the new frames. -/
theorem encode_table {payload : List UInt8} (h : r.table = some payload) :
    ∃ frames, r.frames = some frames ∧
      (FrameTable.encode r.source.initial frames).run r.piecesPool
        = (.ok payload, r.tablePool) := by
  cases hframes : r.frames with
  | none =>
    have htable_eq := r.table_eq
    rw [hframes] at htable_eq
    have hnone : none = r.table := Except.ok.inj (congrArg Prod.fst htable_eq)
    rw [← hnone] at h
    cases h
  | some frames =>
    obtain ⟨written, hsome, hrun⟩ := r.table_of_frames hframes
    obtain rfl : written = payload := Option.some.inj (hsome.symm.trans h)
    exact ⟨frames, rfl, hrun⟩

/-- The new table reads back as the new frames. -/
theorem decode_table (hpool : pool.WellFormed) {payload : List UInt8}
    (h : r.table = some payload) : ∃ frames, r.frames = some frames ∧
      FrameTable.decode newPool r.source.initial payload = .ok frames := by
  obtain ⟨frames, hframes, hrun⟩ := r.encode_table h
  exact ⟨frames, hframes, FrameTable.decode_encode ((r.growth_pieces r.adds_true).wellFormed hpool)
    hrun (r.growth_attributes r.adds_true)⟩

theorem frames_of_table (h : r.table = none) : r.frames = none := by
  cases hframes : r.frames with
  | none => rfl
  | some frames =>
    obtain ⟨payload, hsome, -⟩ := r.table_of_frames hframes
    rw [h] at hsome
    cases hsome

/-- The new body reads back with the new frames. -/
theorem source_new (hpool : pool.WellFormed) : ∃ source,
    Source.of method new newPool = .ok source ∧ source.frames = r.newFrames := by
  obtain ⟨hnamed, hpayload⟩ := r.named_new hpool
  obtain ⟨-, hinitial, -, -⟩ := Source.of_eq_ok_iff.1 r.source_eq
  obtain ⟨names, hnames⟩ := Except.exists_mapM_eq_ok hnamed
  refine ⟨⟨names.zip new.attributes, r.source.initial,
    (Source.table? (names.zip new.attributes)).isSome, r.newFrames⟩,
    Source.of_eq_ok_iff.2 ⟨⟨names, hnames, rfl⟩, hinitial, rfl, ?_⟩, rfl⟩
  rw [Source.table?_zip hnames]
  unfold Draft.Attributes.payload? at hpayload
  cases hfind : new.attributes.find? (Source.isTable newPool) with
  | none =>
    rw [hfind] at hpayload
    exact congrArg (Option.getD · []) (r.frames_of_table hpayload.symm)
  | some a =>
    rw [hfind] at hpayload
    obtain ⟨frames, hframes, hdecode⟩ := r.decode_table hpool hpayload.symm
    show FrameTable.decode newPool r.source.initial a.payload = .ok (r.frames.getD [])
    rwa [hframes]

end Revision

end Embargo
