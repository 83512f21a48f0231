import Embargo.Proofs.Code.FrameTable
import Embargo.Proofs.Enforcement.Revision

/-!
What a revision adds to the pool. The sequence of a site finds its exception, its
message and its constructor there, now and in every pool that grows from it.
-/
namespace Embargo

/-- The constructor that takes the message. -/
def Rule.constructor (rule : Rule) : MemberRef where
  owner := rule.exception
  name := "<init>"
  descriptor := "(Ljava/lang/String;)V"

/-- The indices of a throwing sequence name what the rule says about the site: the
exception class, a string constant and a method. -/
structure Rule.Throws (rule : Rule) (pool : Pool) (site : Site)
    (exception message constructor : UInt16) : Prop where
  className : pool.className exception = .ok rule.exception
  string : ∃ text, pool.get message = .ok (.string text) ∧
    pool.utf8 text = .ok (rule.message site.access site.member)
  member : pool.member constructor = .ok rule.constructor
  isMethod : ∃ owner nameAndType, pool.get constructor = .ok (.member .method owner nameAndType)

theorem Rule.Throws.of_growth {rule : Rule} {P : String → Prop} {pool later : Pool} {site : Site}
    {exception message constructor : UInt16}
    (h : rule.Throws pool site exception message constructor) (hgrowth : Pool.Growth P pool later) :
    rule.Throws later site exception message constructor := by
  obtain ⟨text, hstring, htext⟩ := h.string
  obtain ⟨owner, nameAndType, hmethod⟩ := h.isMethod
  exact {
    className := hgrowth.className_eq h.className
    string := ⟨text, hgrowth.get_eq hstring, hgrowth.utf8_eq htext⟩
    member := hgrowth.member_eq h.member
    isMethod := ⟨owner, nameAndType, hgrowth.get_eq hmethod⟩ }

namespace Piece
variable {rule : Rule} {P : String → Prop}

/-- The texts behind every throwing sequence have a property. -/
structure Words (rule : Rule) (P : String → Prop) : Prop where
  exception : P rule.exception
  name : P rule.constructor.name
  descriptor : P rule.constructor.descriptor

theorem grows_throwingFor {site : Site} (h : Words rule P)
    (hmessage : P (rule.message site.access site.member)) :
    Pool.Grows P (throwingFor rule site) := by
  unfold throwingFor
  apply Pool.Grows.bind (Pool.grows_addClass h.exception)
  intro exception
  apply Pool.Grows.bind (Pool.grows_addString hmessage)
  intro message
  apply Pool.Grows.bind (Pool.grows_addMember h.exception h.name h.descriptor)
  intro constructor
  exact .pure _

theorem grows_ofMarked {isDead : Nat → Bool} {marked : Marked} (h : Words rule P)
    (hmessage : ∀ site, marked.site = some site → P (rule.message site.access site.member)) :
    Pool.Grows P (ofMarked rule isDead marked) := by
  unfold ofMarked
  dsimp only
  split
  case h_1 site hsite => exact (grows_throwingFor h (hmessage site hsite)).bind fun _ => .pure _
  case h_2 => exact .pure _

/-- The sequence of a site throws what the rule says. -/
theorem throwingFor_eq_ok {site : Site} {sequence : List Instruction} {pool new : Pool}
    (hpool : pool.WellFormed) (h : (throwingFor rule site).run pool = (.ok sequence, new)) :
    ∃ exception message constructor, sequence = throwing exception message constructor ∧
      rule.Throws new site exception message constructor := by
  unfold throwingFor at h
  obtain ⟨exception, one, hexception, h⟩ := Attempt.run_bind_eq_ok_iff.1 h
  obtain ⟨message, two, hmessage, h⟩ := Attempt.run_bind_eq_ok_iff.1 h
  obtain ⟨constructor, three, hconstructor, h⟩ := Attempt.run_bind_eq_ok_iff.1 h
  cases h
  have hone : Pool.Growth (fun _ => True) pool one :=
    (Pool.grows_addClass trivial).growth hexception
  have htwo : Pool.Growth (fun _ => True) one two :=
    (Pool.grows_addString trivial).growth hmessage
  have hthree : Pool.Growth (fun _ => True) two new :=
    (Pool.grows_addMember trivial trivial trivial).growth hconstructor
  have hwell := hone.wellFormed hpool
  have hname := Pool.className_addClass hpool hexception
  obtain ⟨text, hstring, htext⟩ := Pool.string_addString hwell hmessage
  have hmember := Pool.member_addMember (htwo.wellFormed hwell) hconstructor
  exact ⟨exception, message, constructor, rfl, {
    className := (htwo.trans hthree).className_eq hname
    string := ⟨text, hthree.get_eq hstring, hthree.utf8_eq htext⟩
    member := hmember
    isMethod := Pool.get_addMember (htwo.wellFormed hwell) hconstructor }⟩

theorem holds_throwingFor {site : Site} {sequence : List Instruction} {pool new : Pool}
    (hpool : pool.WellFormed) (h : (throwingFor rule site).run pool = (.ok sequence, new)) :
    new.Holds rule.exception ∧ new.Holds (rule.message site.access site.member) := by
  unfold throwingFor at h
  obtain ⟨exception, one, hexception, h⟩ := Attempt.run_bind_eq_ok_iff.1 h
  obtain ⟨message, two, hmessage, h⟩ := Attempt.run_bind_eq_ok_iff.1 h
  obtain ⟨constructor, three, hconstructor, h⟩ := Attempt.run_bind_eq_ok_iff.1 h
  cases h
  have hone : Pool.Growth (fun _ => True) pool one :=
    (Pool.grows_addClass trivial).growth hexception
  have htwo : Pool.Growth (fun _ => True) one two :=
    (Pool.grows_addString trivial).growth hmessage
  have hthree : Pool.Growth (fun _ => True) two new :=
    (Pool.grows_addMember trivial trivial trivial).growth hconstructor
  have hfirst := Pool.holds_addClass hpool hexception
  have hsecond := Pool.holds_addString (hone.wellFormed hpool) hmessage
  exact ⟨(htwo.trans hthree).holds hfirst, hthree.holds hsecond⟩

theorem ofMarked_eq_ok {isDead : Nat → Bool} {marked : Marked} {site : Site} {piece : Piece}
    {pool new : Pool} (hsite : marked.site = some site)
    (h : (ofMarked rule isDead marked).run pool = (.ok piece, new)) :
    ∃ sequence, (throwingFor rule site).run pool = (.ok sequence, new) ∧
      piece.fate = .replaced sequence := by
  unfold ofMarked at h
  rw [hsite] at h
  obtain ⟨sequence, middle, hsequence, hpure⟩ := Attempt.run_bind_eq_ok_iff.1 h
  cases hpure
  exact ⟨sequence, hsequence, rfl⟩

end Piece

namespace Draft
variable {P : String → Prop} {relocation : Relocation}

theorem names_of_moveType {types moved : List ValueType} (h : ValueType.Names P types)
    (hmove : types.mapM (moveType relocation) = .ok moved) : ValueType.Names P moved := by
  intro name hname
  obtain ⟨type, htype, hmoved⟩ :=
    Forall₂.exists_of_mem_right (Except.mapM_eq_ok_iff.1 hmove) hname
  cases type with
  | uninitialized offset =>
    obtain ⟨_, -, hoffset⟩ := Except.map_eq_ok_iff.1 hmoved
    cases hoffset
  | object =>
    cases hmoved
    exact h name htype
  | _ => cases hmoved

theorem names_of_moveFrame {frame moved : Frame} (h : frame.Names P)
    (hmove : moveFrame relocation frame = .ok moved) : moved.Names P := by
  obtain ⟨offset, -, hrest⟩ := Except.bind_eq_ok_iff.1 hmove
  obtain ⟨locals, hlocals, hrest⟩ := Except.bind_eq_ok_iff.1 hrest
  obtain ⟨stack, hstack, hpure⟩ := Except.bind_eq_ok_iff.1 hrest
  cases hpure
  exact ⟨names_of_moveType h.1 hlocals, names_of_moveType h.2 hstack⟩

theorem mem_insertFrame {frame other : Frame} {frames : List Frame} :
    other ∈ insertFrame frame frames ↔ other = frame ∨ other ∈ frames := by
  induction frames with
  | nil => simp [insertFrame]
  | cons next rest ih =>
    unfold insertFrame
    split
    · simp
    · simp only [List.mem_cons, ih]
      tauto

theorem mem_foldr_insertFrame {other : Frame} {frames : List Frame} :
    other ∈ frames.foldr insertFrame [] ↔ other ∈ frames := by
  induction frames with
  | nil => simp
  | cons frame frames ih => simp [mem_insertFrame, ih]

theorem names_frame {block : DeadBlock} (h : P DeadBlock.throwable) : block.frame.Names P := by
  cases block <;> simp [DeadBlock.frame, Frame.Names, ValueType.Names, h]

theorem names_of_newFrames {unreachable : Unreachable} {frames newFrames : List Frame}
    {blocks : List DeadBlock} (h : ∀ frame ∈ frames, frame.Names P)
    (hthrowable : P DeadBlock.throwable)
    (hnew : Draft.newFrames relocation unreachable frames blocks = .ok newFrames) :
    ∀ frame ∈ newFrames, frame.Names P := by
  obtain ⟨moved, hmoved, hpure⟩ := Except.bind_eq_ok_iff.1 hnew
  cases hpure
  intro frame hframe
  rw [mem_foldr_insertFrame, List.mem_append] at hframe
  rcases hframe with hframe | hframe
  · obtain ⟨old, hold, hmove⟩ :=
      Forall₂.exists_of_mem_right (Except.mapM_eq_ok_iff.1 hmoved) hframe
    exact names_of_moveFrame (h old (List.mem_filter.1 hold).1) hmove
  · obtain ⟨block, -, rfl⟩ := List.mem_map.1 hframe
    exact names_frame hthrowable

theorem grows_finishAttributes (h : P Source.stackMapTable) (state : Attributes) :
    Pool.Grows P (finishAttributes state) := by
  unfold finishAttributes
  split
  case h_1 => exact .pure _
  case h_2 => exact (Pool.grows_addUtf8 h).bind fun _ => .pure _

/-- A draft only adds to the pool, also where it fails. -/
theorem grows_ofMarked (rule : Rule) (method : MethodInfo) (body : Body) (code : List Marked) :
    Pool.Grows (fun _ => True) (ofMarked rule method body code) := by
  unfold ofMarked
  apply Pool.Grows.bind .get
  intro current
  apply Pool.Grows.bind (.ofExcept _)
  intro source
  apply Pool.Grows.bind (.mapM code fun _ _ =>
    Piece.grows_ofMarked ⟨trivial, trivial, trivial⟩ fun _ _ => trivial)
  intro pieces
  dsimp only
  split
  case isTrue => exact .throw_bind _ _
  case isFalse =>
    apply Pool.Grows.bind (.ofExcept _)
    intro bytes
    apply Pool.Grows.bind (.ofExcept _)
    intro handlers
    apply Pool.Grows.bind (.ofExcept _)
    intro frames
    have htable : Pool.Grows (fun _ => True) (frames.mapM (FrameTable.encode source.initial)) := by
      cases frames with
      | none => exact .pure _
      | some frames =>
        exact (FrameTable.grows_encode fun _ _ => ⟨fun _ _ => trivial, fun _ _ => trivial⟩).bind
          fun _ => .pure _
    apply htable.bind
    intro table
    apply Pool.Grows.bind .get
    intro current
    apply Pool.Grows.bind (.ofExcept _)
    intro state
    exact (grows_finishAttributes trivial state).bind fun _ => .pure _

end Draft

theorem MethodOutcome.pool_ofDraft (method : MethodInfo) (body : Body) (pool : Pool)
    (draft : Draft) : (ofDraft method body pool draft).pool = pool := by
  unfold ofDraft
  split
  case h_1 => rfl
  case h_2 =>
    dsimp only
    split <;> rfl

/-- An enforcement on a method body only adds to the pool, also where it fails. -/
theorem Rule.growth_enforceMethod (rule : Rule) (method : MethodInfo) (body : Body) (pool : Pool) :
    Pool.Growth (fun _ => True) pool (rule.enforceMethod method body pool).pool := by
  unfold Rule.enforceMethod
  split
  case h_1 => exact .refl pool
  case h_2 marked _ =>
    split
    case isTrue => exact .refl pool
    case isFalse =>
      have hdraft := Draft.grows_ofMarked rule method body marked pool
      generalize (Draft.ofMarked rule method body marked).run pool = outcome at hdraft
      rcases outcome with ⟨fault | draft, middle⟩
      · exact hdraft
      · rwa [MethodOutcome.pool_ofDraft]

namespace Revision
variable {rule : Rule} {method : MethodInfo} {body new : Body} {pool newPool : Pool}
  {P : String → Prop} (r : Revision rule method body pool new newPool)

/-- Every text that a revision may add has a property. -/
structure Adds (P : String → Prop) : Prop where
  words : Piece.Words rule P
  messages : ∀ marked ∈ r.marked, ∀ site, marked.site = some site →
    P (rule.message site.access site.member)
  frames : ∀ frame ∈ r.source.frames, frame.Names P
  throwable : P DeadBlock.throwable
  stackMapTable : P Source.stackMapTable

theorem Adds.of_forall (h : ∀ text, P text) : r.Adds P where
  words := ⟨h _, h _, h _⟩
  messages := fun _ _ _ _ => h _
  frames := fun _ _ => ⟨fun _ _ => h _, fun _ _ => h _⟩
  throwable := h _
  stackMapTable := h _

theorem adds_true : r.Adds fun _ => True := .of_forall r fun _ => trivial

section Adds
variable (h : r.Adds P)
include h

theorem growth_pieces : Pool.Growth P pool r.piecesPool := by
  refine (Pool.Grows.mapM r.marked fun marked hmarked => ?_).growth r.pieces_eq
  exact Piece.grows_ofMarked h.words (h.messages marked hmarked)

theorem growth_table : Pool.Growth P r.piecesPool r.tablePool := by
  have htable := r.table_eq
  have hframes := r.frames_eq
  generalize r.frames = frames at htable hframes
  generalize r.table = table, r.tablePool = last at htable ⊢
  cases frames with
  | none =>
    cases htable
    exact .refl _
  | some frames =>
    obtain ⟨table, middle, hrun, hpure⟩ := Attempt.run_bind_eq_ok_iff.1 htable
    cases hpure
    unfold Draft.framesOf at hframes
    split at hframes
    case isTrue =>
      obtain ⟨newFrames, hnew, hsome⟩ := Except.map_eq_ok_iff.1 hframes
      cases hsome
      exact (FrameTable.grows_encode
        (Draft.names_of_newFrames h.frames h.throwable hnew)).growth hrun
    case isFalse => cases hframes

theorem growth_attributes : Pool.Growth P r.tablePool newPool :=
  (Draft.grows_finishAttributes h.stackMapTable r.attributes).growth r.newAttributes_eq

/-- The pool only grows, and only by texts with the property. -/
theorem growth : Pool.Growth P pool newPool :=
  (r.growth_pieces h).trans ((r.growth_table h).trans (r.growth_attributes h))

end Adds

/-- Each piece is made on the way from the old pool to the new one. -/
theorem forall₂_run : List.Forall₂ (fun marked piece => ∃ start stop,
    Pool.Growth (fun _ => True) pool start ∧
      (Piece.ofMarked rule (Std.TreeSet.ofList r.unreachable.dead).contains marked).run start
        = (.ok piece, stop) ∧ Pool.Growth (fun _ => True) stop newPool) r.marked r.pieces := by
  have hall := (Attempt.run_mapM_eq_ok_iff.1 r.pieces_eq).forall₂
    (R := Pool.Growth fun _ => True) .refl (fun _ _ _ => .trans)
    fun marked start piece stop hrun =>
      (Piece.grows_ofMarked ⟨trivial, trivial, trivial⟩ fun _ _ => trivial).growth hrun
  have hlast := (r.growth_table r.adds_true).trans (r.growth_attributes r.adds_true)
  refine hall.2.imp ?_
  rintro marked piece ⟨start, stop, hstart, hrun, hstop⟩
  exact ⟨start, stop, hstart, hrun, hstop.trans hlast⟩

/-- Every site is replaced by a sequence that throws what the rule says. -/
theorem forall₂_throws (hpool : pool.WellFormed) :
    List.Forall₂ (fun marked piece => Piece.Of r.unreachable.dead marked piece ∧
      ∀ site, marked.site = some site → ∃ exception message constructor,
        piece.fate = .replaced (Piece.throwing exception message constructor) ∧
          rule.Throws newPool site exception message constructor) r.marked r.pieces := by
  refine r.forall₂_run.imp ?_
  rintro marked piece ⟨start, stop, hstart, hrun, hstop⟩
  refine ⟨Piece.of_ofMarked hrun, fun site hsite => ?_⟩
  obtain ⟨sequence, hsequence, hfate⟩ := Piece.ofMarked_eq_ok hsite hrun
  obtain ⟨exception, message, constructor, rfl, hthrows⟩ :=
    Piece.throwingFor_eq_ok (hstart.wellFormed hpool) hsequence
  exact ⟨exception, message, constructor, hfate, hthrows.of_growth hstop⟩

/-- The new pool has the texts of every site. -/
theorem holds (hpool : pool.WellFormed) {marked : Marked} (hmarked : marked ∈ r.marked)
    {site : Site} (hsite : marked.site = some site) :
    newPool.Holds rule.exception ∧ newPool.Holds (rule.message site.access site.member) := by
  obtain ⟨piece, -, start, stop, hstart, hrun, hstop⟩ :=
    Forall₂.exists_of_mem_left r.forall₂_run hmarked
  obtain ⟨sequence, hsequence, -⟩ := Piece.ofMarked_eq_ok hsite hrun
  obtain ⟨hexception, hmessage⟩ := Piece.holds_throwingFor (hstart.wellFormed hpool) hsequence
  exact ⟨hstop.holds hexception, hstop.holds hmessage⟩

end Revision

end Embargo
