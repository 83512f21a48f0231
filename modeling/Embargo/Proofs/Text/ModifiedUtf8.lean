import Embargo.Text.ModifiedUtf8
import Mathlib.Tactic.IntervalCases
import Mathlib.Tactic.Common

/-!
Text and its bytes. Every text reads back from its bytes, and the text of some bytes
takes no more bytes than they are.
-/
namespace Embargo.Text.ModifiedUtf8

theorem continuation_continuationByte (u : UInt16) :
    continuation (continuationByte u) = some (u &&& 0x3F) := by
  have mark : continuationByte u &&& 0xC0 = 0x80 := by
    apply UInt8.eq_of_toBitVec_eq
    apply BitVec.eq_of_getLsbD_eq
    intro i hi
    interval_cases i <;> simp [continuationByte]
  have low : (continuationByte u &&& 0x3F).toUInt16 = u &&& 0x3F := by
    apply UInt16.eq_of_toBitVec_eq
    apply BitVec.eq_of_getLsbD_eq
    intro i hi
    interval_cases i <;> simp [continuationByte, -UInt16.toUInt16_toUInt8]
  rw [continuation, if_pos mark, low]

/-- The bits of a unit from `n` on, where it is smaller than the power of `n`. -/
theorem getLsbD_of_lt {u : UInt16} {n i : Nat} (h : u.toNat < 2 ^ n) (hi : n ≤ i) :
    u.toBitVec.getLsbD i = false :=
  Nat.testBit_lt_two_pow (lt_of_lt_of_le h (Nat.pow_le_pow_right (by omega) hi))

theorem unitsOnto_one {u : UInt16} (hpos : 1 ≤ u) (h : u ≤ 0x7F) (done : List UInt16)
    (rest : List UInt8) : unitsOnto done (u.toUInt8 :: rest) = unitsOnto (u :: done) rest := by
  have hpos : 1 ≤ u.toNat := UInt16.le_iff_toNat_le.1 hpos
  have h : u.toNat ≤ 127 := UInt16.le_iff_toNat_le.1 h
  have hbit (i : Nat) (hi : 7 ≤ i) : u.toBitVec.getLsbD i = false :=
    getLsbD_of_lt (n := 7) (by omega) hi
  have back : u.toUInt8.toUInt16 = u := by
    apply UInt16.toNat_inj.1
    simp only [UInt8.toNat_toUInt16, UInt16.toNat_toUInt8]
    omega
  have top : u.toUInt8 &&& 0x80 = 0 := by
    apply UInt8.eq_of_toBitVec_eq
    apply BitVec.eq_of_getLsbD_eq
    intro i hi
    have h7 := hbit 7 (le_refl _)
    interval_cases i <;> simp_all
  have nonzero : u.toUInt8 ≠ 0 := by
    intro hz
    rw [hz] at back
    rw [← back] at hpos
    simp at hpos
  rw [unitsOnto.eq_def]
  simp only [top, nonzero, ↓reduceIte, back]

theorem unitsOnto_two {u : UInt16} (h : u ≤ 0x7FF) (done : List UInt16) (rest : List UInt8) :
    unitsOnto done (((0xC0 : UInt8) ||| (u >>> 6).toUInt8) :: continuationByte u :: rest) =
      unitsOnto (u :: done) rest := by
  have h : u.toNat ≤ 2047 := UInt16.le_iff_toNat_le.1 h
  have hbit (i : Nat) (hi : 11 ≤ i) : u.toBitVec.getLsbD i = false :=
    getLsbD_of_lt (n := 11) (by omega) hi
  have mark : ((0xC0 : UInt8) ||| (u >>> 6).toUInt8) &&& 0xE0 = 0xC0 := by
    apply UInt8.eq_of_toBitVec_eq
    apply BitVec.eq_of_getLsbD_eq
    intro i hi
    have h11 := hbit 11 (le_refl _)
    interval_cases i <;> simp_all
  have top : ((0xC0 : UInt8) ||| (u >>> 6).toUInt8) &&& 0x80 ≠ 0 := by
    have : ((0xC0 : UInt8) ||| (u >>> 6).toUInt8) &&& 0x80 = 0x80 := by
      apply UInt8.eq_of_toBitVec_eq
      apply BitVec.eq_of_getLsbD_eq
      intro i hi
      interval_cases i <;> simp
    rw [this]
    decide
  have back : (((0xC0 : UInt8) ||| (u >>> 6).toUInt8) &&& 0x1F).toUInt16 <<< 6 ||| (u &&& 0x3F)
      = u := by
    apply UInt16.eq_of_toBitVec_eq
    apply BitVec.eq_of_getLsbD_eq
    intro i hi
    have h11 := hbit 11 (le_refl _)
    have h12 := hbit 12 (by omega)
    have h13 := hbit 13 (by omega)
    have h14 := hbit 14 (by omega)
    have h15 := hbit 15 (by omega)
    interval_cases i <;> simp_all [-UInt16.toUInt16_toUInt8]
  rw [unitsOnto, if_neg top, if_pos mark]
  simp only [continuation_continuationByte, back]

theorem unitsOnto_three (u : UInt16) (done : List UInt16) (rest : List UInt8) :
    unitsOnto done (((0xE0 : UInt8) ||| (u >>> 12).toUInt8) :: continuationByte (u >>> 6)
      :: continuationByte u :: rest) = unitsOnto (u :: done) rest := by
  have mark : ((0xE0 : UInt8) ||| (u >>> 12).toUInt8) &&& 0xF0 = 0xE0 := by
    apply UInt8.eq_of_toBitVec_eq
    apply BitVec.eq_of_getLsbD_eq
    intro i hi
    interval_cases i <;> simp
  have top : ((0xE0 : UInt8) ||| (u >>> 12).toUInt8) &&& 0x80 = 0x80 := by
    apply UInt8.eq_of_toBitVec_eq
    apply BitVec.eq_of_getLsbD_eq
    intro i hi
    interval_cases i <;> simp
  have third : ((0xE0 : UInt8) ||| (u >>> 12).toUInt8) &&& 0xE0 = 0xE0 := by
    apply UInt8.eq_of_toBitVec_eq
    apply BitVec.eq_of_getLsbD_eq
    intro i hi
    interval_cases i <;> simp
  have back : (((0xE0 : UInt8) ||| (u >>> 12).toUInt8) &&& 0x0F).toUInt16 <<< 12
      ||| ((u >>> 6) &&& 0x3F) <<< 6 ||| (u &&& 0x3F) = u := by
    apply UInt16.eq_of_toBitVec_eq
    apply BitVec.eq_of_getLsbD_eq
    intro i hi
    interval_cases i <;> simp [-UInt16.toUInt16_toUInt8]
  rw [unitsOnto, if_neg (by rw [top]; decide), if_neg (by rw [third]; decide), if_pos mark]
  simp only [continuation_continuationByte, back]

theorem unitsOnto_unitBytes (u : UInt16) (done : List UInt16) (rest : List UInt8) :
    unitsOnto done (unitBytes u ++ rest) = unitsOnto (u :: done) rest := by
  unfold unitBytes
  split
  case isTrue h =>
    simp only [Bool.and_eq_true, decide_eq_true_eq] at h
    exact unitsOnto_one h.1 h.2 done rest
  case isFalse =>
    split
    case isTrue h => exact unitsOnto_two h done rest
    case isFalse => exact unitsOnto_three u done rest

theorem unitsOnto_flatMap (us done : List UInt16) :
    unitsOnto done (us.flatMap unitBytes) = some (done.reverse ++ us) := by
  induction us generalizing done with
  | nil => rw [List.flatMap_nil, unitsOnto, List.append_nil]
  | cons u us ih =>
    rw [List.flatMap_cons, unitsOnto_unitBytes, ih, List.reverse_cons, List.append_assoc]
    rfl

theorem charsOnto_lone {u : UInt16} (h : isHighSurrogate u = false) (done : List Char)
    (us : List UInt16) : charsOnto done (u :: us) = charsOnto (loneChar u :: done) us := by
  cases us with
  | nil => rw [charsOnto, charsOnto]
  | cons v us => rw [charsOnto, h, Bool.false_and, if_neg (by simp)]

theorem charsOnto_pair {u v : UInt16} (hu : isHighSurrogate u = true)
    (hv : isLowSurrogate v = true) (done : List Char) (us : List UInt16) :
    charsOnto done (u :: v :: us) = charsOnto (pairChar u v :: done) us := by
  rw [charsOnto, hu, hv, Bool.and_self, if_pos rfl]

theorem charsOnto_charUnits (c : Char) (done : List Char) (us : List UInt16) :
    charsOnto done (charUnits c ++ us) = charsOnto (c :: done) us := by
  have hvalid : c.toNat < 0xD800 ∨ 0xDFFF < c.toNat ∧ c.toNat < 0x110000 := c.valid
  unfold charUnits
  by_cases hsmall : c.toNat < 0x10000
  · have hnat : (UInt16.ofNat c.toNat).toNat = c.toNat := UInt16.toNat_ofNat_of_lt hsmall
    have hhigh : isHighSurrogate (UInt16.ofNat c.toNat) = false := by
      simp only [isHighSurrogate, Bool.and_eq_false_iff, decide_eq_false_iff_not,
        UInt16.le_iff_toNat_le, UInt16.lt_iff_toNat_lt, hnat]
      simp only [UInt16.reduceToNat]
      omega
    have hlow : isLowSurrogate (UInt16.ofNat c.toNat) = false := by
      simp only [isLowSurrogate, Bool.and_eq_false_iff, decide_eq_false_iff_not,
        UInt16.le_iff_toNat_le, UInt16.lt_iff_toNat_lt, hnat]
      simp only [UInt16.reduceToNat]
      omega
    have hchar : loneChar (UInt16.ofNat c.toNat) = c := by
      rw [loneChar, hhigh, hlow, Bool.or_self, if_neg (by simp), hnat, Char.ofNat_toNat]
    simp only [hsmall, ↓reduceIte, List.cons_append, List.nil_append]
    rw [charsOnto_lone hhigh, hchar]
  · have hn : c.toNat - 0x10000 < 0x100000 := by omega
    have hhi : (UInt16.ofNat (0xD800 + (c.toNat - 0x10000) / 0x400)).toNat =
        0xD800 + (c.toNat - 0x10000) / 0x400 := UInt16.toNat_ofNat_of_lt (show _ < 65536 by omega)
    have hlo : (UInt16.ofNat (0xDC00 + (c.toNat - 0x10000) % 0x400)).toNat =
        0xDC00 + (c.toNat - 0x10000) % 0x400 := UInt16.toNat_ofNat_of_lt (show _ < 65536 by omega)
    have hhigh : isHighSurrogate (UInt16.ofNat (0xD800 + (c.toNat - 0x10000) / 0x400)) = true := by
      simp only [isHighSurrogate, Bool.and_eq_true, decide_eq_true_eq, UInt16.le_iff_toNat_le,
        UInt16.lt_iff_toNat_lt, hhi]
      simp only [UInt16.reduceToNat]
      omega
    have hlow : isLowSurrogate (UInt16.ofNat (0xDC00 + (c.toNat - 0x10000) % 0x400)) = true := by
      simp only [isLowSurrogate, Bool.and_eq_true, decide_eq_true_eq, UInt16.le_iff_toNat_le,
        UInt16.lt_iff_toNat_lt, hlo]
      simp only [UInt16.reduceToNat]
      omega
    have hchar : pairChar (UInt16.ofNat (0xD800 + (c.toNat - 0x10000) / 0x400))
        (UInt16.ofNat (0xDC00 + (c.toNat - 0x10000) % 0x400)) = c := by
      have hsum : 0x10000 + (0xD800 + (c.toNat - 0x10000) / 0x400 - 0xD800) * 0x400
          + (0xDC00 + (c.toNat - 0x10000) % 0x400 - 0xDC00) = c.toNat := by omega
      rw [pairChar, hhi, hlo, hsum, Char.ofNat_toNat]
    simp only [hsmall, ↓reduceIte, List.cons_append, List.nil_append]
    rw [charsOnto_pair hhigh hlow, hchar]

theorem charsOnto_flatMap (cs done : List Char) :
    charsOnto done (cs.flatMap charUnits) = done.reverse ++ cs := by
  induction cs generalizing done with
  | nil => rw [List.flatMap_nil, charsOnto, List.append_nil]
  | cons c cs ih =>
    rw [List.flatMap_cons, charsOnto_charUnits, ih, List.reverse_cons, List.append_assoc]
    rfl

/-- Text reads back from its bytes. -/
@[simp] theorem decode_encode (text : String) : decode (encode text) = .ok text := by
  rw [decode, encode, units, unitsOnto_flatMap]
  simp only [List.reverse_nil, List.nil_append, charsOnto_flatMap, String.ofList_toList]

theorem length_unitBytes_le_three (u : UInt16) : (unitBytes u).length ≤ 3 := by
  unfold unitBytes
  split
  · simp
  · split <;> simp

theorem length_unitBytes_le_two {u : UInt16} (h : u.toNat < 2048) :
    (unitBytes u).length ≤ 2 := by
  have hle : u ≤ 0x7FF := UInt16.le_iff_toNat_le.2 (show u.toNat ≤ 2047 by omega)
  unfold unitBytes
  rw [if_pos hle]
  split <;> simp

theorem length_unitBytes_eq_one {u : UInt16} (hpos : 0 < u.toNat) (h : u.toNat < 128) :
    (unitBytes u).length = 1 := by
  have hpos : 1 ≤ u := UInt16.le_iff_toNat_le.2 (show 1 ≤ u.toNat by omega)
  have hle : u ≤ 0x7F := UInt16.le_iff_toNat_le.2 (show u.toNat ≤ 127 by omega)
  simp [unitBytes, hpos, hle]

theorem length_unitBytes_eq_three {u : UInt16} (h : 2048 ≤ u.toNat) :
    (unitBytes u).length = 3 := by
  have hone : ¬ u ≤ 0x7F := fun hle => by
    have := UInt16.le_iff_toNat_le.1 hle
    simp only [UInt16.reduceToNat] at this
    omega
  have htwo : ¬ u ≤ 0x7FF := fun hle => by
    have := UInt16.le_iff_toNat_le.1 hle
    simp only [UInt16.reduceToNat] at this
    omega
  simp [unitBytes, hone, htwo]

theorem toNat_lt_of_ascii {a : UInt8} (h : a &&& 0x80 = 0) : a.toNat < 128 := by
  have hbit : a.toBitVec.getLsbD 7 = false := by
    have := congrArg (fun b : UInt8 => b.toBitVec.getLsbD 7) h
    simpa using this
  apply Nat.lt_pow_two_of_testBit (n := 7)
  intro i hi
  by_cases h7 : i = 7
  · rw [h7]
    exact hbit
  · exact Nat.testBit_lt_two_pow (lt_of_lt_of_le a.toNat_lt (Nat.pow_le_pow_right (by omega)
      (show 8 ≤ i by omega)))

theorem toNat_pair_lt (a b : UInt8) :
    ((a &&& 0x1F).toUInt16 <<< 6 ||| (b &&& 0x3F).toUInt16).toNat < 2048 := by
  apply Nat.lt_pow_two_of_testBit (n := 11)
  intro i hi
  by_cases h16 : i < 16
  · change BitVec.getLsbD (UInt16.toBitVec _) i = false
    interval_cases i <;> simp
  · exact Nat.testBit_lt_two_pow (lt_of_lt_of_le (UInt16.toNat_lt _)
      (Nat.pow_le_pow_right (by omega) (show 16 ≤ i by omega)))

theorem continuation_eq_some {b : UInt8} {u : UInt16} (h : continuation b = some u) :
    u = (b &&& 0x3F).toUInt16 := by
  unfold continuation at h
  split at h
  · exact (Option.some.inj h).symm
  · cases h

/-- The units of some bytes take no more bytes than they were read from. -/
theorem length_unitsOnto_le {bytes : List UInt8} {done us : List UInt16}
    (h : unitsOnto done bytes = some us) :
    (us.flatMap unitBytes).length ≤ (done.flatMap unitBytes).length + bytes.length := by
  fun_induction unitsOnto done bytes with
  | case1 done =>
    cases h
    simp [List.length_flatMap, List.sum_reverse]
  | case2 | case5 | case6 | case8 | case9 | case10 => cases h
  | case3 done a rest hascii hzero ih =>
    have hpos : 0 < a.toNat := by
      rcases Nat.eq_zero_or_pos a.toNat with hz | hpos
      · exact absurd (UInt8.toNat_inj.1 hz) hzero
      · exact hpos
    have hlen : (unitBytes a.toUInt16).length = 1 :=
      length_unitBytes_eq_one (by simpa using hpos) (by simpa using toNat_lt_of_ascii hascii)
    have := ih h
    simp only [List.flatMap_cons, List.length_append, List.length_cons, hlen] at this ⊢
    omega
  | case4 done a _ _ b rest low hlow ih =>
    have hlen : (unitBytes ((a &&& 0x1F).toUInt16 <<< 6 ||| low)).length ≤ 2 := by
      rw [continuation_eq_some hlow]
      exact length_unitBytes_le_two (toNat_pair_lt a b)
    have := ih h
    simp only [List.flatMap_cons, List.length_append, List.length_cons] at this ⊢
    omega
  | case7 done a _ _ _ b c rest middle low _ _ ih =>
    have hlen := length_unitBytes_le_three
      ((a &&& 0x0F).toUInt16 <<< 12 ||| middle <<< 6 ||| low)
    have := ih h
    simp only [List.flatMap_cons, List.length_append, List.length_cons] at this ⊢
    omega

/-- The bytes that characters take. -/
def size (cs : List Char) : Nat := ((cs.flatMap charUnits).flatMap unitBytes).length

@[simp] theorem size_append (cs ds : List Char) : size (cs ++ ds) = size cs + size ds := by
  simp [size]

theorem size_cons (c : Char) (cs : List Char) :
    size (c :: cs) = ((charUnits c).flatMap unitBytes).length + size cs := by
  simp [size]

theorem size_reverse (cs : List Char) : size cs.reverse = size cs := by
  induction cs with
  | nil => rfl
  | cons c cs ih =>
    rw [List.reverse_cons, size_append, ih, size_cons c cs, size_cons, Nat.add_comm]
    rfl

theorem length_encode (text : String) : (encode text).length = size text.toList := rfl

/-- The unit of the character of a unit outside a pair. -/
theorem charUnits_loneChar (u : UInt16) : charUnits (loneChar u) =
    [if isHighSurrogate u || isLowSurrogate u then 0xFFFD else u] := by
  by_cases h : isHighSurrogate u || isLowSurrogate u
  · rw [loneChar, if_pos h, if_pos h]
    rfl
  · have hvalid : Nat.isValidChar u.toNat := by
      simp only [isHighSurrogate, isLowSurrogate, Bool.or_eq_true, Bool.and_eq_true,
        decide_eq_true_eq, UInt16.le_iff_toNat_le, UInt16.lt_iff_toNat_lt,
        UInt16.reduceToNat] at h
      have := u.toNat_lt
      unfold Nat.isValidChar
      omega
    have hnat : (Char.ofNat u.toNat).toNat = u.toNat := by
      rw [Char.ofNat, dif_pos hvalid]
      rfl
    rw [loneChar, if_neg h, if_neg h, charUnits, hnat]
    simp [u.toNat_lt]

/-- A unit outside a pair takes as many bytes as its character. -/
theorem length_loneChar (u : UInt16) :
    ((charUnits (loneChar u)).flatMap unitBytes).length = (unitBytes u).length := by
  rw [charUnits_loneChar, List.flatMap_singleton]
  split
  case isTrue h =>
    have hu : 2048 ≤ u.toNat := by
      simp only [isHighSurrogate, isLowSurrogate, Bool.or_eq_true, Bool.and_eq_true,
        decide_eq_true_eq, UInt16.le_iff_toNat_le, UInt16.reduceToNat] at h
      omega
    rw [length_unitBytes_eq_three hu]
    rfl
  case isFalse => rfl

theorem charUnits_pairChar {u v : UInt16} (hu : isHighSurrogate u = true)
    (hv : isLowSurrogate v = true) : charUnits (pairChar u v) = [u, v] := by
  simp only [isHighSurrogate, isLowSurrogate, Bool.and_eq_true, decide_eq_true_eq,
    UInt16.le_iff_toNat_le, UInt16.lt_iff_toNat_lt, UInt16.reduceToNat] at hu hv
  have hvalid : Nat.isValidChar
      (0x10000 + (u.toNat - 0xD800) * 0x400 + (v.toNat - 0xDC00)) := by
    unfold Nat.isValidChar
    omega
  have hnat : (pairChar u v).toNat =
      0x10000 + (u.toNat - 0xD800) * 0x400 + (v.toNat - 0xDC00) := by
    rw [pairChar, Char.ofNat, dif_pos hvalid]
    rfl
  have hhigh : 0xD800 + (0x10000 + (u.toNat - 0xD800) * 0x400 + (v.toNat - 0xDC00) - 0x10000)
      / 0x400 = u.toNat := by omega
  have hlow : 0xDC00 + (0x10000 + (u.toNat - 0xD800) * 0x400 + (v.toNat - 0xDC00) - 0x10000)
      % 0x400 = v.toNat := by omega
  have hlarge : ¬ 0x10000 + (u.toNat - 0xD800) * 0x400 + (v.toNat - 0xDC00) < 0x10000 := by omega
  simp only [charUnits, hnat, hlarge, ↓reduceIte, hhigh, hlow, UInt16.ofNat_toNat]

theorem size_charsOnto (us : List UInt16) (done : List Char) :
    size (charsOnto done us) = size done + (us.flatMap unitBytes).length := by
  fun_induction charsOnto done us with
  | case1 done => simp [size_reverse]
  | case2 done u =>
    rw [size_reverse, size_cons, length_loneChar, List.flatMap_singleton, Nat.add_comm]
  | case3 done u v rest h ih =>
    rw [Bool.and_eq_true] at h
    rw [ih, size_cons, charUnits_pairChar h.1 h.2]
    simp only [List.flatMap_cons, List.flatMap_nil, List.append_nil, List.length_append]
    omega
  | case4 done u v rest h ih =>
    rw [ih, size_cons, length_loneChar]
    simp only [List.flatMap_cons, List.length_append]
    omega

/-- Text takes no more bytes than it was read from. -/
theorem size_le_of_decode {bytes : List UInt8} {text : String}
    (h : decode bytes = .ok text) : size text.toList ≤ bytes.length := by
  unfold decode at h
  split at h
  case h_1 us hus =>
    cases h
    rw [String.toList_ofList, size_charsOnto]
    simpa [size] using length_unitsOnto_le hus
  case h_2 => cases h

end Embargo.Text.ModifiedUtf8
