import Embargo.Proofs.ClassFile.ReadBack

/-!
What a class that was read from bytes can be relied on for: the layout of its pool and
the lengths of its texts.
-/
namespace Embargo
open Reader (Yields)

theorem Constant.yields_read (index : UInt16) : Yields (read index) Fits := by
  have other {constant : Constant} (h : ∀ bytes, constant ≠ .utf8 bytes) : constant.Fits :=
    fun bytes hbytes => absurd hbytes (h bytes)
  have word {make : UInt16 → Constant} (h : ∀ i bytes, make i ≠ .utf8 bytes) :
      Yields (do return make (← Reader.u16)) Fits :=
    .behind fun i => .pure (other (h i))
  have words {make : UInt16 → UInt16 → Constant} (h : ∀ i j bytes, make i j ≠ .utf8 bytes) :
      Yields (pair make) Fits :=
    .behind fun i => .behind fun j => .pure (other (h i j))
  refine .behind fun tag => ?_
  split
  · refine .behind fun length => .bind (Reader.yields_bytes _) fun bytes hbytes => .pure ?_
    rintro _ ⟨⟩
    rw [hbytes]
    exact length.toNat_lt
  · exact .behind fun v => .pure (other (by simp))
  · exact .behind fun v => .pure (other (by simp))
  · exact .behind fun v => .pure (other (by simp))
  · exact .behind fun v => .pure (other (by simp))
  · exact word (by simp)
  · exact word (by simp)
  · exact words (by simp)
  · exact words (by simp)
  · exact words (by simp)
  · exact words (by simp)
  · exact .behind fun kind => word (by simp)
  · exact word (by simp)
  · exact words (by simp)
  · exact words (by simp)
  · exact word (by simp)
  · exact word (by simp)
  · exact .throw _

namespace Pool

/-- Reading on leaves the slots of a pool in order and its texts short. -/
theorem readOnto_eq_ok {count fuel : Nat} {pool new : Pool} {cursor next : Cursor}
    (h : readOnto count fuel pool cursor = (.ok new, next))
    (hpool : ∃ constants : List Constant,
      pool.slots.toList = none :: constants.flatMap Constant.slots)
    (hfits : pool.Fits) :
    (∃ constants : List Constant, new.slots.toList = none :: constants.flatMap Constant.slots) ∧
      new.Fits := by
  induction fuel generalizing pool cursor with
  | zero =>
    cases h
    exact ⟨hpool, hfits⟩
  | succ fuel ih =>
    rw [readOnto] at h
    split at h
    case isFalse =>
      cases h
      exact ⟨hpool, hfits⟩
    case isTrue =>
      split at h
      case h_2 => cases h
      case h_1 constant middle hread =>
        have hconstant := Constant.yields_read _ _ _ _ hread
        obtain ⟨constants, hlist⟩ := hpool
        refine ih h ⟨constants ++ [constant], ?_⟩ fun bytes hbytes => ?_
        · rw [toList_push, hlist, List.flatMap_append, List.flatMap_singleton, List.cons_append]
        · rw [toList_push, List.mem_append] at hbytes
          rcases hbytes with hold | hnew
          · exact hfits bytes hold
          · refine hconstant bytes ?_
            unfold Constant.slots at hnew
            split at hnew <;> simp_all

theorem yields_read : Yields read fun pool => pool.WellFormed ∧ pool.Fits := by
  refine .behind fun count => ?_
  have hempty : empty.Fits := fun bytes hbytes => by simp [empty] at hbytes
  refine .bind (P := fun pool : Pool => (∃ constants : List Constant,
    pool.slots.toList = none :: constants.flatMap Constant.slots) ∧ pool.Fits)
    (fun _ _ _ hrun => readOnto_eq_ok hrun ⟨[], rfl⟩ hempty) fun pool hpool => ?_
  split
  case isTrue => exact .throw_bind _ _
  case isFalse hle =>
    have hcount := count.toNat_lt
    refine .pure ⟨⟨?_, hpool.1⟩, hpool.2⟩
    show pool.slots.size ≤ 65535
    omega

end Pool

/-- The pool of a class that was read. -/
theorem ClassFile.pool_of_parse {data : List UInt8} {c : ClassFile}
    (h : ClassFile.parse data = .ok c) : c.pool.WellFormed ∧ c.pool.Fits := by
  have hread : Yields read fun c : ClassFile => c.pool.WellFormed ∧ c.pool.Fits := by
    refine .behind fun found => ?_
    split
    case isTrue => exact .throw_bind _ _
    case isFalse =>
      refine .behind fun minor => .behind fun major => ?_
      refine .bind Pool.yields_read fun pool hpool => ?_
      exact .behind fun _ => .behind fun _ => .behind fun _ => .behind fun _ => .behind fun _ =>
        .behind fun _ => .behind fun _ => .pure hpool
  obtain ⟨read, hparse, hrest⟩ := Except.bind_eq_ok_iff.1 h
  obtain ⟨name, hname, hpure⟩ := Except.bind_eq_ok_iff.1 hrest
  cases hpure
  exact hread.of_parse hparse

end Embargo
