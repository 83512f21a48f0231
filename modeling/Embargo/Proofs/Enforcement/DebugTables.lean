import Embargo.Proofs.Enforcement.Coverage
import Embargo.Proofs.Enforcement.DebugRows

/-!
Debug tables after an enforcement. Their rows follow the code, so that the new code for an
instruction has the line and the variables that the instruction had.
-/
namespace Embargo

/-- A list that is filtered, beside what is made of the elements that stay. -/
theorem Forall₂.filter_filterMap {α β : Type} {R : α → β → Prop} {p : α → Bool} {f : α → Option β}
    {xs : List α} (hsome : ∀ x ∈ xs, p x = true → ∃ y, f x = some y ∧ R x y)
    (hnone : ∀ x ∈ xs, p x = false → f x = none) :
    List.Forall₂ R (xs.filter p) (xs.filterMap f) := by
  induction xs with
  | nil => exact .nil
  | cons x xs ih =>
    obtain ⟨hhead, hrest⟩ := List.forall_mem_cons.1 hsome
    obtain ⟨hhead', hrest'⟩ := List.forall_mem_cons.1 hnone
    cases hp : p x with
    | true =>
      obtain ⟨y, hy, hR⟩ := hhead hp
      rw [List.filter_cons_of_pos hp, List.filterMap_cons_some hy]
      exact .cons hR (ih hrest hrest')
    | false =>
      rw [List.filter_cons_of_neg (by simp [hp]), List.filterMap_cons_none (hhead' hp)]
      exact ih hrest hrest'

theorem Forall₂.forall_mem_congr {α β : Type} {R : α → β → Prop} {P : α → Prop} {Q : β → Prop}
    {xs : List α} {ys : List β} (h : List.Forall₂ R xs ys) (hPQ : ∀ x y, R x y → (P x ↔ Q y)) :
    (∀ x ∈ xs, P x) ↔ ∀ y ∈ ys, Q y := by
  constructor
  · intro hall y hy
    obtain ⟨x, hx, hR⟩ := Forall₂.exists_of_mem_right h hy
    exact (hPQ x y hR).1 (hall x hx)
  · intro hall x hx
    obtain ⟨y, hy, hR⟩ := Forall₂.exists_of_mem_left h hx
    exact (hPQ x y hR).2 (hall y hy)

/-- Two lists that are filtered alike. -/
theorem Forall₂.map_filter_eq {α β γ : Type} {R : α → β → Prop} {p : α → Bool} {q : β → Bool}
    {f : α → γ} {g : β → γ} {xs : List α} {ys : List β} (h : List.Forall₂ R xs ys)
    (hkeep : ∀ x y, R x y → q y = p x) (hmap : ∀ x y, R x y → g y = f x) :
    (ys.filter q).map g = (xs.filter p).map f := by
  induction h with
  | nil => rfl
  | @cons x y _ _ hhead _ ih =>
    rw [List.filter_cons, List.filter_cons, hkeep x y hhead]
    split
    · rw [List.map_cons, List.map_cons, hmap x y hhead, ih]
    · exact ih

namespace DebugTable
open Rule (boundaries)

/-- A place in the new code for an old instruction. -/
def InPart (move : Nat → Nat) (located : Located) (p : Nat) : Prop :=
  move located.offset ≤ p ∧ p < move (located.offset + located.size)

/-- The lines of a place: those of the rows with the last start that is not behind it. -/
def linesAt (lines : List Line) (p : Nat) : List UInt16 :=
  (lines.filter fun row => row.start.toNat ≤ p ∧
    ∀ other ∈ lines, other.start.toNat ≤ p → other.start.toNat ≤ row.start.toNat).map Line.line

structure Line.Follows (move : Nat → Nat) (row new : Line) : Prop where
  start : new.start.toNat = move row.start.toNat
  line : new.line = row.line

/-- A row that speaks of an instruction or of the end. -/
def Line.Stays (ends : List Nat) (row : Line) : Prop := row.start.toNat ∈ ends

instance (ends : List Nat) (row : Line) : Decidable (row.Stays ends) :=
  inferInstanceAs (Decidable (row.start.toNat ∈ ends))

/-- How a line number table follows the code. -/
def KeepsLines (old : List Located) (oldLength : Nat) (move : Nat → Nat)
    (table new : List UInt8) : Prop :=
  ∃ lines newLines, rows Line.read table = .ok lines ∧ rows Line.read new = .ok newLines ∧
    List.Forall₂ (Line.Follows move)
      (lines.filter fun row => row.Stays (boundaries old oldLength)) newLines ∧
    ((∀ row ∈ lines, row.Stays (boundaries old oldLength)) →
      ∀ located ∈ old, ∀ p, InPart move located p →
        linesAt newLines p = linesAt lines located.offset)

/-- Whether a variable has its slot at a place. -/
def Variable.Covers (row : Variable) (p : Nat) : Prop :=
  row.start.toNat ≤ p ∧ p < row.start.toNat + row.length.toNat

/-- A row that goes from an instruction or the end to an instruction or the end. -/
def Variable.Stays (ends : List Nat) (row : Variable) : Prop :=
  row.start.toNat ∈ ends ∧ row.start.toNat + row.length.toNat ∈ ends

instance (ends : List Nat) (row : Variable) : Decidable (row.Stays ends) :=
  inferInstanceAs (Decidable (_ ∧ _))

structure Variable.Follows (old : List Located) (move : Nat → Nat) (row new : Variable) :
    Prop where
  name : new.name = row.name
  type : new.type = row.type
  slot : new.slot = row.slot
  start : new.start.toNat = move row.start.toNat
  stop : new.start.toNat + new.length.toNat = move (row.start.toNat + row.length.toNat)
  covers : ∀ located ∈ old, ∀ p, InPart move located p →
    (new.Covers p ↔ row.Covers located.offset)

/-- How a table of variables follows the code. -/
def KeepsVariables (old : List Located) (oldLength : Nat) (move : Nat → Nat)
    (table new : List UInt8) : Prop :=
  ∃ known newKnown, rows Variable.read table = .ok known ∧
    rows Variable.read new = .ok newKnown ∧
    List.Forall₂ (Variable.Follows old move)
      (known.filter fun row => row.Stays (boundaries old oldLength)) newKnown

end DebugTable

namespace Revision
open DebugTable
open Rule (boundaries)
variable {rule : Rule} {method : MethodInfo} {body new : Body} {pool newPool : Pool}
  (r : Revision rule method body pool new newPool)
include r

theorem newOffset_le_iff_of_inPart {offset p : Nat} {located : Located}
    (hoffset : offset ∈ boundaries r.old body.code.length) (hlocated : located ∈ r.old)
    (hp : InPart r.layout.newOffset located p) :
    r.layout.newOffset offset ≤ p ↔ offset ≤ located.offset := by
  obtain ⟨placed, hplaced, rfl, hfrom, hto⟩ := r.newOffset_ends hlocated
  obtain ⟨hstart, hstop⟩ := hp
  rw [hfrom] at hstart
  rw [hto] at hstop
  exact r.lays.newOffset_le_iff (r.mem_boundaries_iff.1 hoffset) hplaced hstart hstop

theorem toNat_newOffset {offset : Nat} (h : offset ∈ boundaries r.old body.code.length) :
    (UInt16.ofNat (r.layout.newOffset offset)).toNat = r.layout.newOffset offset :=
  UInt16.toNat_ofNat_of_le (r.newOffset_le (r.mem_boundaries_iff.1 h))

theorem forall₂_lines (lines : List Line) : List.Forall₂ (Line.Follows r.layout.newOffset)
    (lines.filter fun row => row.Stays (boundaries r.old body.code.length))
    (lines.filterMap (Line.moved? (Relocation.ofLayout r.layout body.code.length))) := by
  refine Forall₂.filter_filterMap (fun row _ hstays => ?_) fun row _ hdrops => ?_
  · have hmem : row.Stays _ := of_decide_eq_true hstays
    have hmove := r.move_eq_ok_iff.2 ⟨hmem, rfl⟩
    exact ⟨⟨UInt16.ofNat (r.layout.newOffset row.start.toNat), row.line⟩,
      by rw [Line.moved?, hmove], r.toNat_newOffset hmem, rfl⟩
  · have hmem : ¬ row.Stays _ := of_decide_eq_false hdrops
    unfold Line.moved?
    split
    case h_1 moved hmove => exact absurd (r.move_eq_ok_iff.1 hmove).1 hmem
    case h_2 => rfl

/-- A row that stays, and its new row. -/
def MovesLine (row new : Line) : Prop :=
  row.Stays (boundaries r.old body.code.length) ∧ row.Follows r.layout.newOffset new

theorem start_le_start_iff {row new other otherNew : Line} (hrow : r.MovesLine row new)
    (hother : r.MovesLine other otherNew) :
    new.start.toNat ≤ otherNew.start.toNat ↔ row.start.toNat ≤ other.start.toNat := by
  rw [hrow.2.start, hother.2.start]
  exact r.lays.newOffset_le_newOffset_iff (r.mem_boundaries_iff.1 hrow.1)
    (r.mem_boundaries_iff.1 hother.1)

/-- All rows stay, so the last start in front of a place is the moved one of the last start in
front of the instruction. -/
theorem linesAt_eq {lines newLines : List Line} {located : Located} {p : Nat}
    (hall : ∀ row ∈ lines, row.Stays (boundaries r.old body.code.length))
    (hfollow : List.Forall₂ (Line.Follows r.layout.newOffset) lines newLines)
    (hlocated : located ∈ r.old) (hp : InPart r.layout.newOffset located p) :
    linesAt newLines p = linesAt lines located.offset := by
  have hmoves : List.Forall₂ r.MovesLine lines newLines :=
    (List.forall₂_and_left _ _).2 ⟨hall, hfollow⟩
  have hfront {row new : Line} (hrow : r.MovesLine row new) :
      new.start.toNat ≤ p ↔ row.start.toNat ≤ located.offset := by
    rw [hrow.2.start]
    exact r.newOffset_le_iff_of_inPart hrow.1 hlocated hp
  refine Forall₂.map_filter_eq hmoves (fun row new hrow => decide_eq_decide.2 ?_)
    fun _ _ hrow => hrow.2.line
  refine and_congr (hfront hrow)
    (Forall₂.forall_mem_congr hmoves fun other otherNew hother => ?_).symm
  exact imp_congr (hfront hother).symm (r.start_le_start_iff hother hrow).symm

theorem keepsLines {table newTable : List UInt8}
    (h : relocateLines (Relocation.ofLayout r.layout body.code.length) table = .ok newTable) :
    KeepsLines r.old body.code.length r.layout.newOffset table newTable := by
  obtain ⟨lines, hlines, hnew⟩ := relocateLines_eq_ok h
  have hfollow := r.forall₂_lines lines
  refine ⟨lines, _, hlines, hnew, hfollow, fun hall located hlocated p hp => ?_⟩
  rw [List.filter_eq_self.2 fun row hrow => decide_eq_true (hall row hrow)] at hfollow
  exact r.linesAt_eq hall hfollow hlocated hp

/-- A variable whose range ends between instructions keeps covering the same ones. -/
theorem exists_movedVariable {row : Variable}
    (hends : row.Stays (boundaries r.old body.code.length)) :
    ∃ new, row.moved? (Relocation.ofLayout r.layout body.code.length) = some new ∧
      row.Follows r.old r.layout.newOffset new := by
  obtain ⟨hstart, hstop⟩ := hends
  have hmoved : row.moved? (Relocation.ofLayout r.layout body.code.length) = some { row with
      start := UInt16.ofNat (r.layout.newOffset row.start.toNat)
      length := UInt16.ofNat (r.layout.newOffset (row.start.toNat + row.length.toNat)
        - r.layout.newOffset row.start.toNat) } := by
    rw [Variable.moved?, r.move_eq_ok_iff.2 ⟨hstart, rfl⟩, r.move_eq_ok_iff.2 ⟨hstop, rfl⟩]
  have hle : r.layout.newOffset row.start.toNat
      ≤ r.layout.newOffset (row.start.toNat + row.length.toNat) :=
    (r.lays.newOffset_le_newOffset_iff (r.mem_boundaries_iff.1 hstart)
      (r.mem_boundaries_iff.1 hstop)).2 (Nat.le_add_right _ _)
  have hlength : (UInt16.ofNat (r.layout.newOffset (row.start.toNat + row.length.toNat)
      - r.layout.newOffset row.start.toNat)).toNat
      = r.layout.newOffset (row.start.toNat + row.length.toNat)
        - r.layout.newOffset row.start.toNat :=
    UInt16.toNat_ofNat_of_le (Nat.le_trans (Nat.sub_le _ _)
      (r.newOffset_le (r.mem_boundaries_iff.1 hstop)))
  have hsum := Nat.add_sub_of_le hle
  refine ⟨_, hmoved, rfl, rfl, rfl, r.toNat_newOffset hstart, ?_, fun located hlocated p hp => ?_⟩
  · rw [r.toNat_newOffset hstart, hlength, hsum]
  · unfold Variable.Covers
    rw [r.toNat_newOffset hstart, hlength, hsum, ← Nat.not_le, ← Nat.not_le,
      r.newOffset_le_iff_of_inPart hstart hlocated hp,
      r.newOffset_le_iff_of_inPart hstop hlocated hp]

theorem keepsVariables {table newTable : List UInt8} {slots : Nat} {middle : Pool}
    (h : relocateVariables middle (Relocation.ofLayout r.layout body.code.length) table
      = .ok (newTable, slots)) :
    KeepsVariables r.old body.code.length r.layout.newOffset table newTable := by
  obtain ⟨known, hknown, hnew, -⟩ := relocateVariables_eq_ok h
  refine ⟨known, _, hknown, hnew, Forall₂.filter_filterMap (fun row _ hstays => ?_)
    fun row _ hdrops => ?_⟩
  · have hends : row.Stays _ := of_decide_eq_true hstays
    exact r.exists_movedVariable hends
  · have hends : ¬ row.Stays _ := of_decide_eq_false hdrops
    unfold Variable.moved?
    split
    case h_1 hstart hstop =>
      exact absurd ⟨(r.move_eq_ok_iff.1 hstart).1, (r.move_eq_ok_iff.1 hstop).1⟩ hends
    case h_2 => rfl

end Revision

/-- An enforcement on a method keeps debug tables with what they describe: where it ends well and
finds something, each table has a new one whose rows are those that spoke of instructions and of
the end. -/
theorem Rule.enforceMethod_keepsDebug {rule : Rule} {method : MethodInfo} {body : Body}
    {pool : Pool} {counts : SiteCounts} (hpool : pool.WellFormed)
    (h : (rule.enforceMethod method body pool).result = .ok counts) (hcounts : counts.total ≠ 0) :
    ∃ old code unreachable move,
      rule.Relaid method body (rule.enforceMethod method body pool).body pool
        (rule.enforceMethod method body pool).pool old code unreachable move ∧
      List.Forall₂ (DebugTable.KeepsLines old body.code.length move)
        (Attribute.payloads pool "LineNumberTable" body.attributes)
        (Attribute.payloads (rule.enforceMethod method body pool).pool "LineNumberTable"
          (rule.enforceMethod method body pool).body.attributes) ∧
      ∀ name ∈ ["LocalVariableTable", "LocalVariableTypeTable"],
        List.Forall₂ (DebugTable.KeepsVariables old body.code.length move)
          (Attribute.payloads pool name body.attributes)
          (Attribute.payloads (rule.enforceMethod method body pool).pool name
            (rule.enforceMethod method body pool).body.attributes) := by
  obtain ⟨r, -⟩ := Revision.of_enforceMethod h hcounts
  refine ⟨r.old, r.layout.instructions, r.unreachable, r.layout.newOffset, r.relaid hpool, ?_,
    fun name hname => ?_⟩
  · refine (r.forall₂_payloads hpool (by decide) (by decide)).imp ?_
    rintro table new ⟨slots, -, hfollows⟩
    exact r.keepsLines (Draft.Attributes.relocateLines_of_follows hfollows)
  · obtain ⟨hother, hkept⟩ := Draft.Attributes.other_of_mem_variableTables name hname
    refine (r.forall₂_payloads hpool hother hkept).imp ?_
    rintro table new ⟨slots, -, hfollows⟩
    exact r.keepsVariables (Draft.Attributes.relocateVariables_of_follows hname hfollows)

/-- A pool with a method at index 6 and behind it the names of both tables and of a variable. -/
def debugPool : Pool := ((do
  let _ ← Pool.addMember .method ⟨"java/awt/Toolkit", "beep", "()V"⟩
  let _ ← Pool.addUtf8 "LineNumberTable"
  let _ ← Pool.addUtf8 "LocalVariableTable"
  let _ ← Pool.addUtf8 "J" : PoolStep Unit).run Pool.empty).2

theorem wellFormed_debugPool : debugPool.WellFormed :=
  ⟨by decide +kernel, debugPool.slots.toList.filterMap id, by decide +kernel⟩

/-- A call and a `return`. One variable lasts for the whole code, and another one begins inside of
the call. -/
def debugBody : Body :=
  ⟨0, 2, [0xb8, 0, 6, 0xb1], [],
    [⟨7, [0, 2, 0, 0, 0, 1, 0, 3, 0, 2]⟩,
      ⟨8, [0, 2, 0, 0, 0, 4, 0, 8, 0, 9, 0, 0, 0, 1, 0, 3, 0, 8, 0, 9, 0, 0]⟩]⟩

theorem Rule.enforceMethod_keepsDebug_call :
    (awtRule.enforceMethod runMethod debugBody debugPool).result = .ok ⟨1, 0⟩ ∧
      ((awtRule.enforceMethod runMethod debugBody debugPool).body.attributes.take 2).map
          Attribute.payload
        = [[0, 2, 0, 0, 0, 1, 0, 10, 0, 2], [0, 1, 0, 0, 0, 11, 0, 8, 0, 9, 0, 0]] ∧
      ∃ old code unreachable move,
        awtRule.Relaid runMethod debugBody
          (awtRule.enforceMethod runMethod debugBody debugPool).body debugPool
          (awtRule.enforceMethod runMethod debugBody debugPool).pool old code unreachable move ∧
        List.Forall₂ (DebugTable.KeepsLines old debugBody.code.length move)
          (Attribute.payloads debugPool "LineNumberTable" debugBody.attributes)
          (Attribute.payloads (awtRule.enforceMethod runMethod debugBody debugPool).pool
            "LineNumberTable"
            (awtRule.enforceMethod runMethod debugBody debugPool).body.attributes) ∧
        ∀ name ∈ ["LocalVariableTable", "LocalVariableTypeTable"],
          List.Forall₂ (DebugTable.KeepsVariables old debugBody.code.length move)
            (Attribute.payloads debugPool name debugBody.attributes)
            (Attribute.payloads (awtRule.enforceMethod runMethod debugBody debugPool).pool name
              (awtRule.enforceMethod runMethod debugBody debugPool).body.attributes) := by
  have hresult : (awtRule.enforceMethod runMethod debugBody debugPool).result = .ok ⟨1, 0⟩ := by
    decide +kernel
  refine ⟨hresult, by decide +kernel, ?_⟩
  exact Rule.enforceMethod_keepsDebug wellFormed_debugPool hresult (by decide)

end Embargo
