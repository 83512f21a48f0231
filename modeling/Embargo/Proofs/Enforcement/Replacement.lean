import Embargo.Proofs.Enforcement.Additions

/-!
What the new code of a method consists of. Every use of something forbidden gives way to
a sequence that throws, whether control can come to it or not, and everything else stays
as it is or becomes filler.
-/
namespace Embargo

namespace Rule

/-- The use of a forbidden member that an instruction makes, by what its pool index
resolves to. -/
def use? (rule : Rule) (pool : Pool) (located : Located) : Option Site :=
  match Access.ofOpcode? located.instruction.opcode, located.instruction.poolIndex? with
  | some access, some index =>
    match pool.member index with
    | .ok member => if rule.forbids member.owner then some { access, member } else none
    | .error _ => none
  | _, _ => none

/-- The uses of forbidden members in code, in order. -/
def uses (rule : Rule) (pool : Pool) (code : List Located) : List Site :=
  code.filterMap (rule.use? pool)

/-- What takes the place of an instruction. -/
inductive Replaces (rule : Rule) (pool : Pool) (move : Nat → Nat) (located : Located) :
    List Instruction → Prop
  | throwing {site : Site} {exception message constructor : UInt16}
      (use : rule.use? pool located = some site)
      (throws : rule.Throws pool site exception message constructor) :
      Replaces rule pool move located (Piece.throwing exception message constructor)
  | kept (use : rule.use? pool located = none) :
      Replaces rule pool move located [located.instruction.retarget move]
  | filler (size : Nat) (isLast : Bool) (use : rule.use? pool located = none) :
      Replaces rule pool move located (Layout.filler size isLast)

/-- New code is made of one part for each old instruction. -/
def Rewrites (rule : Rule) (pool : Pool) (old new : List Located) : Prop :=
  ∃ move parts, new.map Located.instruction = parts.flatten ∧
    List.Forall₂ (rule.Replaces pool move) old parts

end Rule

namespace Marked
variable {rule : Rule} {P : String → Prop} {pool later : Pool} {located : Located}
  {site : Option Site}

/-- An instruction is no member access, or its member resolves. -/
theorem siteOf_eq_ok_iff : siteOf pool rule located = .ok site ↔
    Access.ofOpcode? located.instruction.opcode = none ∧ site = none ∨
      ∃ access index member, Access.ofOpcode? located.instruction.opcode = some access ∧
        located.instruction.poolIndex? = some index ∧ pool.member index = .ok member ∧
        site = if rule.forbids member.owner then some { access, member } else none := by
  unfold siteOf
  cases Access.ofOpcode? located.instruction.opcode with
  | none =>
    constructor
    · intro h
      cases h
      exact .inl ⟨rfl, rfl⟩
    · rintro (⟨-, rfl⟩ | ⟨_, _, _, haccess, -⟩)
      · rfl
      · cases haccess
  | some access =>
    cases located.instruction.poolIndex? with
    | none => simp
    | some index =>
      dsimp only
      rw [Except.bind_eq_ok_iff]
      constructor
      · rintro ⟨member, hmember, hpure⟩
        exact .inr ⟨access, index, member, rfl, rfl, hmember, (Except.ok.inj hpure).symm⟩
      · rintro (⟨hnone, -⟩ | ⟨_, _, member, haccess, hindex, hmember, rfl⟩)
        · cases hnone
        · cases haccess
          cases hindex
          exact ⟨member, hmember, rfl⟩

theorem siteOf_of_growth (h : siteOf pool rule located = .ok site)
    (hgrowth : Pool.Growth P pool later) : siteOf later rule located = .ok site := by
  rw [siteOf_eq_ok_iff] at h ⊢
  rcases h with hnone | ⟨access, index, member, haccess, hindex, hmember, hsite⟩
  · exact .inl hnone
  · exact .inr ⟨access, index, member, haccess, hindex, hgrowth.member_eq hmember, hsite⟩

/-- The site is that of the specification. -/
theorem use?_of_siteOf (h : siteOf pool rule located = .ok site) :
    rule.use? pool located = site := by
  unfold Rule.use?
  rcases siteOf_eq_ok_iff.1 h with ⟨haccess, rfl⟩ | ⟨_, _, _, haccess, hindex, hmember, rfl⟩
  · rw [haccess]
  · rw [haccess, hindex]
    dsimp only
    rw [hmember]

theorem uses_eq_nil {code : List Located}
    (h : ∀ located ∈ code, siteOf pool rule located = .ok none) : rule.uses pool code = [] :=
  List.filterMap_eq_nil_iff.2 fun located hlocated => use?_of_siteOf (h located hlocated)

/-- The sites are the uses of forbidden members. -/
theorem sites_eq {code : List Located} {marked : List Marked}
    (h : ofCode pool rule code = .ok marked) (hgrowth : Pool.Growth P pool later) :
    sites marked = rule.uses later code := by
  have hall := (forall₂_of_ofCode h).imp fun _ _ h =>
    (use?_of_siteOf (siteOf_of_growth h.2 hgrowth)).symm
  have hmap := congrArg (List.filterMap id) (Forall₂.map_eq hall)
  simpa [List.filterMap_map, sites, Rule.uses] using hmap

end Marked

namespace Rule
variable {rule : Rule} {pool : Pool} {move : Nat → Nat}

/-- The sequence of a site calls nothing but a constructor of the exception. -/
theorem siteOf_throwing {site : Site} {exception message constructor : UInt16}
    (h : rule.Throws pool site exception message constructor)
    (hnot : rule.forbids rule.exception = false) {i : Instruction}
    (hi : i ∈ Piece.throwing exception message constructor) (offset : Nat) :
    Marked.siteOf pool rule ⟨offset, i⟩ = .ok none := by
  rw [Marked.siteOf_eq_ok_iff]
  simp only [Piece.throwing, List.mem_cons, List.not_mem_nil, or_false] at hi
  rcases hi with rfl | rfl | rfl | rfl | rfl
  · exact .inl ⟨rfl, rfl⟩
  · exact .inl ⟨rfl, rfl⟩
  · split
    · exact .inl ⟨rfl, rfl⟩
    · exact .inl ⟨rfl, rfl⟩
  · have hindex : (Instruction.indexed Opcode.invokeSpecial constructor).poolIndex?
        = some constructor := congrArg some (Bytes.join_u16 constructor)
    refine .inr ⟨.call, constructor, rule.constructor, rfl, hindex, h.member, ?_⟩
    rw [Rule.constructor, hnot]
    rfl
  · exact .inl ⟨rfl, rfl⟩

theorem siteOf_filler {size : Nat} {isLast : Bool} {i : Instruction}
    (hi : i ∈ Layout.filler size isLast) (offset : Nat) :
    Marked.siteOf pool rule ⟨offset, i⟩ = .ok none := by
  obtain ⟨op, hop, rfl⟩ := List.mem_map.1 hi
  rcases Layout.eq_of_mem_fillerBytes hop with rfl | rfl
  · rfl
  · rfl

/-- New code makes no use of what is forbidden, and all its members resolve. -/
theorem Rewrites.siteOf_eq {old new : List Located} (h : rule.Rewrites pool old new)
    (hold : ∀ located ∈ old, ∃ site, Marked.siteOf pool rule located = .ok site)
    (hnot : rule.forbids rule.exception = false) :
    ∀ located ∈ new, Marked.siteOf pool rule located = .ok none := by
  intro located hlocated
  obtain ⟨move, parts, hnew, hall⟩ := h
  have hmem : located.instruction ∈ parts.flatten := by
    rw [← hnew]
    exact List.mem_map_of_mem hlocated
  obtain ⟨part, hpart, hi⟩ := List.mem_flatten.1 hmem
  obtain ⟨before, hbefore, hreplaces⟩ := Forall₂.exists_of_mem_right hall hpart
  cases hreplaces with
  | throwing _ hthrows => exact siteOf_throwing hthrows hnot hi located.offset
  | filler => exact siteOf_filler hi located.offset
  | kept huse =>
    obtain ⟨site, hsite⟩ := hold before hbefore
    obtain rfl : none = site := huse.symm.trans (Marked.use?_of_siteOf hsite)
    rw [Marked.siteOf_eq_ok_iff] at hsite ⊢
    rw [List.mem_singleton.1 hi, Instruction.opcode_retarget, Instruction.poolIndex?_retarget]
    exact hsite

end Rule

namespace Revision
variable {rule : Rule} {method : MethodInfo} {body new : Body} {pool newPool later : Pool}
  {P : String → Prop} (r : Revision rule method body pool new newPool)
include r

theorem growth_true : Pool.Growth (fun _ => True) pool newPool :=
  r.growth r.adds_true

theorem use?_eq (hgrowth : Pool.Growth P pool later) {marked : Marked}
    (hmarked : marked ∈ r.marked) : rule.use? later marked.located = marked.site := by
  obtain ⟨located, -, hlocated, hsite⟩ := Forall₂.exists_of_mem_right r.forall₂_marked hmarked
  rw [hlocated]
  exact Marked.use?_of_siteOf (Marked.siteOf_of_growth hsite hgrowth)

/-- The part of the new code that belongs to a piece. -/
theorem replaces (hpool : pool.WellFormed) (hlater : Pool.Growth P newPool later)
    {placed : Placed} (hplaced : placed ∈ r.layout.pieces) (next : List Placed) :
    rule.Replaces later r.layout.newOffset placed.located
      ((Layout.pieceInstructions r.layout.newOffset placed next).map Located.instruction) := by
  have hpiece : placed.piece ∈ r.pieces := by
    rw [← r.map_piece]
    exact List.mem_map_of_mem hplaced
  obtain ⟨marked, hmarked, hof, hthrows⟩ :=
    Forall₂.exists_of_mem_right (r.forall₂_throws hpool) hpiece
  have hlast : Pool.Growth (fun _ => True) newPool later := hlater.mono fun _ _ => trivial
  have huse : rule.use? later placed.located = marked.site := by
    rw [Placed.located, hof.located]
    exact r.use?_eq (r.growth_true.trans hlast) hmarked
  cases hsite : marked.site with
  | some site =>
    obtain ⟨exception, message, constructor, hfate, hthrows⟩ := hthrows site hsite
    rw [Layout.pieceInstructions_replaced hfate, Located.map_instruction_rowFrom]
    exact .throwing (huse.trans hsite) (hthrows.of_growth hlater)
  | none =>
    rw [hsite] at huse
    cases hfate : placed.piece.fate with
    | kept =>
      rw [Layout.pieceInstructions_kept hfate]
      exact .kept huse
    | replaced sequence =>
      have hsome := hof.isReplaced.2 ⟨sequence, hfate⟩
      rw [hsite] at hsome
      cases hsome
    | filled =>
      rw [Layout.pieceInstructions_filled hfate, Located.map_instruction_rowFrom]
      exact .filler _ _ huse

/-- The new code is the old code with each instruction replaced. -/
theorem rewrites (hpool : pool.WellFormed) (hlater : Pool.Growth P newPool later) :
    rule.Rewrites later r.old r.layout.instructions := by
  have hparts : ∀ pieces ⊆ r.layout.pieces, ∃ parts,
      (Layout.instructionsOf r.layout.newOffset pieces).map Located.instruction = parts.flatten ∧
        List.Forall₂ (rule.Replaces later r.layout.newOffset) (pieces.map Placed.located)
          parts := by
    intro pieces hpieces
    induction pieces with
    | nil => exact ⟨[], rfl, .nil⟩
    | cons placed next ih =>
      obtain ⟨hplaced, hnext⟩ := List.cons_subset.1 hpieces
      obtain ⟨parts, heq, hall⟩ := ih hnext
      refine ⟨_ :: parts, ?_, .cons (r.replaces hpool hlater hplaced next) hall⟩
      rw [Layout.instructionsOf, List.map_append, heq, List.flatten_cons]
  obtain ⟨parts, heq, hall⟩ := hparts r.layout.pieces (List.Subset.refl _)
  rw [r.lays.located] at hall
  exact ⟨r.layout.newOffset, parts, heq, hall⟩

end Revision

end Embargo
