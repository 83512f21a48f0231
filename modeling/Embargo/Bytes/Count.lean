import Embargo.Fault

/-!
Counts of lists as the file notes them, in 16 bits. A count reads back as the
length that it was made of.
-/
namespace Embargo.Bytes

/-- The 16-bit count of a list in the file; longer lists have no written form. -/
def count (what : String) (n : Nat) : Except Fault UInt16 :=
  if n < 65536 then .ok (UInt16.ofNat n) else .error (.tooMany what n)

theorem count_eq_ok_iff {what : String} {n : Nat} {c : UInt16} :
    count what n = .ok c ↔ n = c.toNat := by
  unfold count
  split
  case isTrue h =>
    simp only [Except.ok.injEq]
    constructor
    · rintro rfl
      exact (UInt16.toNat_ofNat_of_lt h).symm
    · rintro rfl
      simp
  case isFalse h =>
    simp only [reduceCtorEq, false_iff]
    rintro rfl
    exact h c.toNat_lt

end Embargo.Bytes
