import Embargo.Enforcement.Method
import Embargo.Proofs.ClassFile.PoolGrowth
import Embargo.Proofs.Enforcement.DeadBlocks
import Embargo.Proofs.Enforcement.Emission
import Embargo.Proofs.Enforcement.Unreachable

/-!
What an enforcement on a method body goes through where it finds a site and ends well.
-/
namespace Embargo

theorem Marked.forall₂_of_ofCode {rule : Rule} {pool : Pool} {code : List Located}
    {marked : List Marked} (h : ofCode pool rule code = .ok marked) :
    List.Forall₂ (fun located marked => marked.located = located ∧
      siteOf pool rule located = .ok marked.site) code marked := by
  apply (Except.mapM_eq_ok_iff.1 h).imp
  intro located marked h
  obtain ⟨site, hsite, h⟩ := Except.bind_eq_ok_iff.1 h
  cases h
  exact ⟨rfl, hsite⟩

/-- What is settled about a body with sites before anything of the new body is made. -/
structure Plan (rule : Rule) (method : MethodInfo) (body : Body) (pool : Pool) where
  old : List Located
  marked : List Marked
  source : Source
  unreachable : Unreachable
  pieces : List Piece
  piecesPool : Pool
  layout : Layout
  decode_old : Instruction.decode body.code = .ok old
  marked_eq : Marked.ofCode pool rule old = .ok marked
  source_eq : Source.of method body pool = .ok source
  unreachable_eq : unreachable =
    if method.stackMaps then Unreachable.ofCode marked source.frames body.handlers
    else Unreachable.nothing
  pieces_eq : (Piece.ofCode rule unreachable marked).run pool = (.ok pieces, piecesPool)
  layout_eq : layout = Layout.ofPieces pieces

namespace Plan
variable {rule : Rule} {method : MethodInfo} {body : Body} {pool : Pool}
  (plan : Plan rule method body pool)
include plan

theorem sound_old : Located.Sound plan.old body.code.length :=
  Instruction.decode_eq_ok plan.decode_old

theorem forall₂_marked : List.Forall₂ (fun located marked => marked.located = located ∧
    Marked.siteOf pool rule located = .ok marked.site) plan.old plan.marked :=
  Marked.forall₂_of_ofCode plan.marked_eq

theorem map_located_marked : plan.marked.map Marked.located = plan.old := by
  simpa using Forall₂.map_eq (plan.forall₂_marked.imp fun _ _ h => h.1)

theorem forall₂_pieces : List.Forall₂ (Piece.Of plan.unreachable.dead) plan.marked plan.pieces := by
  have hall := (Attempt.run_mapM_eq_ok_iff.1 plan.pieces_eq).forall₂ (R := fun _ _ => True)
    (fun _ => trivial) (fun _ _ _ _ _ => trivial) (fun _ _ _ _ _ => trivial)
  exact hall.2.imp fun marked piece ⟨_, _, _, hrun, _⟩ => Piece.of_ofMarked hrun

theorem map_piece : plan.layout.pieces.map Placed.piece = plan.pieces := by
  rw [plan.layout_eq]
  exact (Layout.ofPieces_pieces plan.pieces).1

theorem map_located_pieces : plan.pieces.map Piece.located = plan.old := by
  rw [← plan.map_located_marked]
  exact Forall₂.map_eq (plan.forall₂_pieces.imp fun _ _ h => h.located)

/-- Every piece is what becomes of a marked instruction. -/
theorem exists_marked {placed : Placed} (hplaced : placed ∈ plan.layout.pieces) :
    ∃ marked ∈ plan.marked, Piece.Of plan.unreachable.dead marked placed.piece := by
  have hpiece : placed.piece ∈ plan.pieces := by
    rw [← plan.map_piece]
    exact List.mem_map_of_mem hplaced
  obtain ⟨marked, hmarked, hof⟩ := Forall₂.exists_of_mem_right plan.forall₂_pieces hpiece
  exact ⟨marked, hmarked, hof⟩

theorem lays : plan.layout.Lays plan.old body.code.length := by
  refine ⟨?_, plan.sound_old.row, ?_, fun placed hplaced => ?_⟩
  · rw [← plan.map_located_pieces, ← plan.map_piece, List.map_map]
    rfl
  · rw [plan.layout_eq]
    exact (Layout.ofPieces_pieces plan.pieces).2
  · obtain ⟨marked, -, hof⟩ := plan.exists_marked hplaced
    exact hof.valid

/-- Every block of dead code starts with a piece. -/
theorem exists_startsWith {block : DeadBlock} (hblock : block ∈ plan.layout.deadBlocks) :
    ∃ placed ∈ plan.layout.pieces, DeadBlock.StartsWith plan.layout.pieces placed block :=
  DeadBlock.exists_startsWith plan.lays.row plan.lays.valid block hblock

end Plan

/-- What a draft is made of, with the pool behind it. -/
structure Plan.Drafts {rule : Rule} {method : MethodInfo} {body : Body} {pool : Pool}
    (plan : Plan rule method body pool) (draft : Draft) (new : Pool) (frames : Option (List Frame))
    (table : Option (List UInt8)) (tablePool : Pool) (handlers : List (List Handler))
    (attributes : Draft.Attributes) : Prop where
  length_le : plan.layout.length ≤ 65535
  code_eq : plan.layout.bytes (Relocation.ofLayout plan.layout body.code.length) = .ok draft.code
  moves_eq : body.handlers.mapM (Draft.moveHandler
      (Relocation.ofLayout plan.layout body.code.length) (plan.layout.deadBlocks.map DeadBlock.span))
    = .ok handlers
  handlers_eq : draft.handlers = handlers.flatten
  frames_eq : Draft.framesOf plan.source (Relocation.ofLayout plan.layout body.code.length)
    plan.unreachable plan.layout.deadBlocks = .ok frames
  table_eq : (frames.mapM (FrameTable.encode plan.source.initial)).run plan.piecesPool
    = (.ok table, tablePool)
  all_eq : Draft.Attributes.all tablePool (Relocation.ofLayout plan.layout body.code.length)
      ⟨[], table, ((frames.getD []).map Frame.localSlots).foldl max 0⟩ plan.source.named
    = .ok attributes
  attributes_eq : (Draft.finishAttributes attributes).run tablePool = (.ok draft.attributes, new)
  counts_eq : draft.counts = Marked.counts plan.marked
  entries_eq : draft.entries = plan.layout.deadBlocks.map DeadBlock.entry
    ++ (frames.getD []).map Draft.frameEntry
  declaredLocals_eq : draft.declaredLocals = attributes.slots

theorem Draft.ofMarked_eq_ok {rule : Rule} {method : MethodInfo} {body : Body} {pool new : Pool}
    {old : List Located} {marked : List Marked} {draft : Draft}
    (hold : Instruction.decode body.code = .ok old)
    (hmarked : Marked.ofCode pool rule old = .ok marked)
    (h : (ofMarked rule method body marked).run pool = (.ok draft, new)) :
    ∃ (plan : Plan rule method body pool) (frames : _) (table : _) (tablePool : _) (handlers : _)
      (attributes : _), plan.old = old ∧ plan.marked = marked ∧
      plan.Drafts draft new frames table tablePool handlers attributes := by
  unfold ofMarked at h
  obtain ⟨_, _, hget, h⟩ := Attempt.run_bind_eq_ok_iff.1 h
  cases hget
  obtain ⟨source, _, hstep, h⟩ := Attempt.run_bind_eq_ok_iff.1 h
  obtain ⟨hsource, rfl⟩ := Attempt.run_ofExcept_eq_ok_iff.1 hstep
  obtain ⟨pieces, piecesPool, hpieces, h⟩ := Attempt.run_bind_eq_ok_iff.1 h
  dsimp only at h
  split at h
  case isTrue => cases h
  case isFalse hlength =>
    obtain ⟨bytes, _, hstep, h⟩ := Attempt.run_bind_eq_ok_iff.1 h
    obtain ⟨hbytes, rfl⟩ := Attempt.run_ofExcept_eq_ok_iff.1 hstep
    obtain ⟨handlers, _, hstep, h⟩ := Attempt.run_bind_eq_ok_iff.1 h
    obtain ⟨hhandlers, rfl⟩ := Attempt.run_ofExcept_eq_ok_iff.1 hstep
    obtain ⟨frames, _, hstep, h⟩ := Attempt.run_bind_eq_ok_iff.1 h
    obtain ⟨hframes, rfl⟩ := Attempt.run_ofExcept_eq_ok_iff.1 hstep
    obtain ⟨table, tablePool, htable, h⟩ := Attempt.run_bind_eq_ok_iff.1 h
    obtain ⟨_, _, hget, h⟩ := Attempt.run_bind_eq_ok_iff.1 h
    cases hget
    obtain ⟨attributes, _, hstep, h⟩ := Attempt.run_bind_eq_ok_iff.1 h
    obtain ⟨hattributes, rfl⟩ := Attempt.run_ofExcept_eq_ok_iff.1 hstep
    obtain ⟨newAttributes, _, hnew, h⟩ := Attempt.run_bind_eq_ok_iff.1 h
    cases h
    exact ⟨⟨old, marked, source, _, pieces, piecesPool, _, hold, hmarked, hsource, rfl, hpieces,
      rfl⟩, frames, table, tablePool, handlers, attributes, rfl, rfl, {
        length_le := Nat.not_lt.1 hlength
        code_eq := hbytes
        moves_eq := hhandlers
        handlers_eq := rfl
        frames_eq := hframes
        table_eq := htable
        all_eq := hattributes
        attributes_eq := hnew
        counts_eq := rfl
        entries_eq := rfl
        declaredLocals_eq := rfl }⟩

/-- The limits of a body are those of its own code, with these entries for the stack and these
slots declared besides. -/
def Body.Limits (body : Body) (pool : Pool) (method : MethodInfo) (entries : List (Nat × UInt16))
    (declared : Nat) : Prop :=
  ∃ code used, Instruction.decode body.code = .ok code ∧
    StackDepth.limit pool code body.handlers entries = .ok body.maxStack ∧
    LocalSlots.limit code method.descriptor method.isStatic = .ok used ∧
    body.maxLocals = max used (UInt16.ofNat (min declared 65535))

/-- All that is made on the way from a body with sites to the new body. -/
structure Revision (rule : Rule) (method : MethodInfo) (body : Body) (pool : Pool) (new : Body)
    (newPool : Pool) extends Plan rule method body pool where
  handlers : List (List Handler)
  /-- The new frames, where there is a stack map table. -/
  frames : Option (List Frame)
  table : Option (List UInt8)
  tablePool : Pool
  attributes : Draft.Attributes
  length_le : layout.length ≤ 65535
  bytes_eq : layout.bytes (Relocation.ofLayout layout body.code.length) = .ok new.code
  handlers_eq : body.handlers.mapM (Draft.moveHandler
      (Relocation.ofLayout layout body.code.length) (layout.deadBlocks.map DeadBlock.span))
    = .ok handlers
  newHandlers_eq : new.handlers = handlers.flatten
  frames_eq : Draft.framesOf source (Relocation.ofLayout layout body.code.length) unreachable
    layout.deadBlocks = .ok frames
  table_eq : (frames.mapM (FrameTable.encode source.initial)).run piecesPool
    = (.ok table, tablePool)
  attributes_eq : Draft.Attributes.all tablePool (Relocation.ofLayout layout body.code.length)
      ⟨[], table, ((frames.getD []).map Frame.localSlots).foldl max 0⟩ source.named
    = .ok attributes
  newAttributes_eq : (Draft.finishAttributes attributes).run tablePool
    = (.ok new.attributes, newPool)
  limits : new.Limits newPool method
    (layout.deadBlocks.map DeadBlock.entry ++ (frames.getD []).map Draft.frameEntry)
    attributes.slots

namespace Revision
variable {rule : Rule} {method : MethodInfo} {body new : Body} {pool newPool : Pool}

/-- A draft that is made has gone through everything but its limits. -/
theorem of_ofMarked {old : List Located} {marked : List Marked} {draft : Draft}
    (hold : Instruction.decode body.code = .ok old)
    (hmarked : Marked.ofCode pool rule old = .ok marked)
    (h : (Draft.ofMarked rule method body marked).run pool = (.ok draft, newPool))
    (hcode : new.code = draft.code) (hhandlers : new.handlers = draft.handlers)
    (hattributes : new.attributes = draft.attributes)
    (hlimits : new.Limits newPool method draft.entries draft.declaredLocals) :
    ∃ r : Revision rule method body pool new newPool,
      r.marked = marked ∧ draft.counts = Marked.counts marked := by
  obtain ⟨plan, frames, table, tablePool, handlers, attributes, -, rfl, drafts⟩ :=
    Draft.ofMarked_eq_ok hold hmarked h
  rw [drafts.entries_eq, drafts.declaredLocals_eq] at hlimits
  exact ⟨{
    plan with
    handlers, frames, table, tablePool, attributes
    length_le := drafts.length_le
    bytes_eq := hcode ▸ drafts.code_eq
    handlers_eq := drafts.moves_eq
    newHandlers_eq := hhandlers.trans drafts.handlers_eq
    frames_eq := drafts.frames_eq
    table_eq := drafts.table_eq
    attributes_eq := drafts.all_eq
    newAttributes_eq := hattributes ▸ drafts.attributes_eq
    limits := hlimits }, rfl, drafts.counts_eq⟩

/-- The limits of a draft are found in its own code, and they leave its code, its handlers
and its attributes alone. -/
theorem ofDraft_eq_ok {draft : Draft} {counts : SiteCounts}
    (h : (MethodOutcome.ofDraft method body pool draft).result = .ok counts) :
    counts = draft.counts ∧
      (MethodOutcome.ofDraft method body pool draft).pool = pool ∧
      (MethodOutcome.ofDraft method body pool draft).body.code = draft.code ∧
      (MethodOutcome.ofDraft method body pool draft).body.handlers = draft.handlers ∧
      (MethodOutcome.ofDraft method body pool draft).body.attributes = draft.attributes ∧
      (MethodOutcome.ofDraft method body pool draft).body.Limits pool method draft.entries
        draft.declaredLocals := by
  unfold MethodOutcome.ofDraft at h ⊢
  cases hlimits : (do
    let code ← Instruction.decode draft.code
    return (code, ← StackDepth.limit pool code draft.handlers draft.entries)
      : Except Fault _) with
  | error =>
    rw [hlimits] at h
    cases h
  | ok limits =>
    obtain ⟨code, hcode, hlimits'⟩ := Except.bind_eq_ok_iff.1 hlimits
    obtain ⟨maxStack, hlimit, hpair⟩ := Except.bind_eq_ok_iff.1 hlimits'
    cases hpair
    rw [hlimits] at h
    dsimp only at h ⊢
    cases hused : LocalSlots.limit code method.descriptor method.isStatic with
    | error =>
      rw [hused] at h
      cases h
    | ok used =>
      rw [hused] at h
      cases h
      exact ⟨rfl, rfl, rfl, rfl, rfl, code, used, hcode, hlimit, hused, rfl⟩

/-- An enforcement that ends well has marked the code. Without sites nothing changes, and
with sites it is a revision. -/
theorem enforceMethod_eq_ok {counts : SiteCounts}
    (h : (rule.enforceMethod method body pool).result = .ok counts) :
    ∃ old marked, Instruction.decode body.code = .ok old ∧
      Marked.ofCode pool rule old = .ok marked ∧ counts = Marked.counts marked ∧
      (Marked.sites marked = [] ∧
          rule.enforceMethod method body pool = ⟨.ok SiteCounts.zero, body, pool⟩ ∨
        Marked.sites marked ≠ [] ∧
          ∃ r : Revision rule method body pool (rule.enforceMethod method body pool).body
            (rule.enforceMethod method body pool).pool, r.marked = marked) := by
  cases hmarks : (do Marked.ofCode pool rule (← Instruction.decode body.code)) with
  | error fault =>
    rw [Rule.enforceMethod, hmarks] at h
    cases h
  | ok marked =>
    obtain ⟨old, hold, hmarked⟩ := Except.bind_eq_ok_iff.1 hmarks
    refine ⟨old, marked, hold, hmarked, ?_⟩
    by_cases hsites : (Marked.sites marked).isEmpty
    · have hsame : rule.enforceMethod method body pool = ⟨.ok SiteCounts.zero, body, pool⟩ := by
        rw [Rule.enforceMethod, hmarks]
        exact if_pos hsites
      rw [hsame] at h
      cases h
      have hnil := List.isEmpty_iff.1 hsites
      refine ⟨?_, .inl ⟨hnil, hsame⟩⟩
      rw [Marked.counts, hnil]
      rfl
    · rcases hdraft : (Draft.ofMarked rule method body marked).run pool with ⟨fault | draft, middle⟩
      · rw [Rule.enforceMethod, hmarks] at h
        dsimp only at h
        rw [if_neg hsites, hdraft] at h
        cases h
      · have hdrafted : rule.enforceMethod method body pool
            = MethodOutcome.ofDraft method body middle draft := by
          rw [Rule.enforceMethod, hmarks]
          dsimp only
          rw [if_neg hsites, hdraft]
        rw [hdrafted] at h ⊢
        obtain ⟨rfl, hpool, hcode, hhandlers, hattributes, hlimits⟩ := ofDraft_eq_ok h
        rw [hpool]
        obtain ⟨r, hr, hcounts⟩ :=
          of_ofMarked hold hmarked hdraft hcode hhandlers hattributes hlimits
        exact ⟨hcounts, .inr ⟨fun hnil => hsites (List.isEmpty_iff.2 hnil), r, hr⟩⟩

/-- An enforcement that ends well and finds something is a revision. -/
theorem of_enforceMethod {counts : SiteCounts}
    (h : (rule.enforceMethod method body pool).result = .ok counts) (hcounts : counts.total ≠ 0) :
    ∃ r : Revision rule method body pool (rule.enforceMethod method body pool).body
        (rule.enforceMethod method body pool).pool,
      counts = Marked.counts r.marked := by
  obtain ⟨_, marked, -, -, rfl, ⟨-, hsame⟩ | ⟨-, r, rfl⟩⟩ := enforceMethod_eq_ok h
  · rw [hsame] at h
    rw [← Except.ok.inj h] at hcounts
    exact absurd rfl hcounts
  · exact ⟨r, rfl⟩

/-- The new code is that of the layout. -/
theorem decode_new (r : Revision rule method body pool new newPool) :
    Instruction.decode new.code = .ok r.layout.instructions :=
  (r.lays.decode_bytes r.sound_old r.length_le r.bytes_eq).1

/-- The limits are those of the layout. -/
theorem limits_new (r : Revision rule method body pool new newPool) :
    StackDepth.limit newPool r.layout.instructions new.handlers
      (r.layout.deadBlocks.map DeadBlock.entry ++ (r.frames.getD []).map Draft.frameEntry)
        = .ok new.maxStack ∧
    ∃ used, LocalSlots.limit r.layout.instructions method.descriptor method.isStatic = .ok used ∧
      new.maxLocals = max used (UInt16.ofNat (min r.attributes.slots 65535)) := by
  obtain ⟨code, used, hdecode, hlimit, hused, hlocals⟩ := r.limits
  obtain rfl := Except.ok.inj (r.decode_new.symm.trans hdecode)
  exact ⟨hlimit, used, hused, hlocals⟩

theorem length_new (r : Revision rule method body pool new newPool) :
    new.code.length = r.layout.length :=
  (r.lays.decode_bytes r.sound_old r.length_le r.bytes_eq).2

end Revision

end Embargo
