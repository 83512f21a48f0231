import Embargo.Proofs.Bytes.Reading
import Embargo.Proofs.Text.ModifiedUtf8

/-!
The groups of bytes that text is made of. Bytes have a text exactly if they are groups in a row,
and they are the bytes of their text exactly if every group is as short as its unit allows and
the surrogate units come in pairs.
-/
namespace Embargo.Text.ModifiedUtf8

/-- A group by the bits that it carries: `0xxxxxxx` with some bit set, `110xxxxx 10xxxxxx` or
`1110xxxx 10xxxxxx 10xxxxxx`. -/
inductive Group where
  | one (bits : Fin 128) (nonzero : bits ≠ 0)
  | two (high : Fin 32) (low : Fin 64)
  | three (high : Fin 16) (middle low : Fin 64)

namespace Group

def bytes : Group → List UInt8
  | one bits _ => [UInt8.ofNat bits]
  | two high low => [UInt8.ofNat (0xC0 + high), UInt8.ofNat (0x80 + low)]
  | three high middle low =>
    [UInt8.ofNat (0xE0 + high), UInt8.ofNat (0x80 + middle), UInt8.ofNat (0x80 + low)]

/-- The number that the bits of a group make up. -/
def number : Group → Nat
  | one bits _ => bits
  | two high low => 64 * high + low
  | three high middle low => 4096 * high + 64 * middle + low

/-- The unit that a group stands for. -/
def unit (g : Group) : UInt16 := UInt16.ofNat g.number

/-- No group of fewer bytes stands for the same unit. -/
def Shortest (g : Group) : Prop :=
  ∀ other : Group, other.unit = g.unit → g.bytes.length ≤ other.bytes.length

theorem number_lt (g : Group) : g.number < 65536 := by
  cases g <;> simp only [number] <;> omega

theorem toNat_unit (g : Group) : g.unit.toNat = g.number := UInt16.toNat_ofNat_of_lt g.number_lt

/-- A group is known by its unit and its length. -/
theorem eq_of_unit_eq {g h : Group} (hunit : g.unit = h.unit)
    (hlength : g.bytes.length = h.bytes.length) : g = h := by
  have hnumber : g.number = h.number := by rw [← toNat_unit, hunit, toNat_unit]
  cases g <;> cases h <;>
    simp_all only [bytes, number, List.length_cons, List.length_nil, one.injEq, two.injEq,
      three.injEq, Fin.ext_iff] <;> omega

end Group

theorem one_facts (bits : Fin 128) :
    UInt8.ofNat bits &&& 0x80 = 0 ∧ (bits ≠ 0 → UInt8.ofNat bits ≠ 0) := by
  revert bits
  decide +kernel

theorem two_facts (high : Fin 32) :
    UInt8.ofNat (0xC0 + high) &&& 0x80 ≠ 0 ∧ UInt8.ofNat (0xC0 + high) &&& 0xE0 = 0xC0 ∧
      UInt8.ofNat (0xC0 + high) &&& 0x1F = UInt8.ofNat high := by
  revert high
  decide +kernel

theorem three_facts (high : Fin 16) :
    UInt8.ofNat (0xE0 + high) &&& 0x80 ≠ 0 ∧ UInt8.ofNat (0xE0 + high) &&& 0xE0 ≠ 0xC0 ∧
      UInt8.ofNat (0xE0 + high) &&& 0xF0 = 0xE0 ∧
      UInt8.ofNat (0xE0 + high) &&& 0x0F = UInt8.ofNat high := by
  revert high
  decide +kernel

theorem continuation_ofNat (low : Fin 64) :
    continuation (UInt8.ofNat (0x80 + low)) = some (UInt16.ofNat low) := by
  revert low
  decide +kernel

theorem exists_one {a : UInt8} (h : a &&& 0x80 = 0) (hzero : a ≠ 0) :
    ∃ bits : Fin 128, bits ≠ 0 ∧ a = UInt8.ofNat bits := by
  refine ⟨⟨a.toNat, toNat_lt_of_ascii h⟩, fun hbits => hzero ?_, UInt8.ofNat_toNat.symm⟩
  have hnat : a.toNat = 0 := congrArg Fin.val hbits
  exact UInt8.toNat_inj.1 hnat

theorem exists_two {a : UInt8} (h : a &&& 0xE0 = 0xC0) :
    ∃ high : Fin 32, a = UInt8.ofNat (0xC0 + high) := by
  revert a
  apply Bytes.forall_of_fin
  decide +kernel

theorem exists_three {a : UInt8} (h : a &&& 0xF0 = 0xE0) :
    ∃ high : Fin 16, a = UInt8.ofNat (0xE0 + high) := by
  revert a
  apply Bytes.forall_of_fin
  decide +kernel

theorem exists_low {b : UInt8} {u : UInt16} (h : continuation b = some u) :
    ∃ low : Fin 64, b = UInt8.ofNat (0x80 + low) ∧ u = UInt16.ofNat low := by
  suffices hlow : ∃ low : Fin 64, b = UInt8.ofNat (0x80 + low) by
    obtain ⟨low, rfl⟩ := hlow
    rw [continuation_ofNat] at h
    exact ⟨low, rfl, (Option.some.inj h).symm⟩
  have hsome : (continuation b).isSome := by rw [h]; rfl
  clear h
  revert b
  apply Bytes.forall_of_fin
  decide +kernel

/-- Six more bits behind those of a number. -/
theorem shiftLeft_or {low : Nat} (h : low < 64) (high : Nat) :
    high <<< 6 ||| low = 64 * high + low := by
  rw [← Nat.shiftLeft_add_eq_or_of_lt (i := 6) h, Nat.shiftLeft_eq, Nat.mul_comm]

theorem join_two {high low : Nat} (hhigh : high < UInt8.size) (hlow : low < 64) :
    (UInt8.ofNat high).toUInt16 <<< 6 ||| UInt16.ofNat low = UInt16.ofNat (64 * high + low) := by
  rw [UInt8.toUInt16_ofNat' hhigh, ← shiftLeft_or hlow, UInt16.ofNat_or,
    UInt16.ofNat_shiftLeft _ _ (by decide)]
  rfl

theorem join_three {high middle low : Nat} (hhigh : high < UInt8.size) (hmiddle : middle < 64)
    (hlow : low < 64) :
    (UInt8.ofNat high).toUInt16 <<< 12 ||| UInt16.ofNat middle <<< 6 ||| UInt16.ofNat low =
      UInt16.ofNat (4096 * high + 64 * middle + low) := by
  have hfront : high <<< 12 ||| middle <<< 6 = (64 * high + middle) <<< 6 := by
    rw [← shiftLeft_or hmiddle, Nat.shiftLeft_or_distrib, ← Nat.shiftLeft_add]
  have hnumber : 4096 * high + 64 * middle + low = high <<< 12 ||| middle <<< 6 ||| low := by
    rw [hfront, shiftLeft_or hlow]
    omega
  rw [hnumber, UInt8.toUInt16_ofNat' hhigh, UInt16.ofNat_or, UInt16.ofNat_or,
    UInt16.ofNat_shiftLeft _ _ (by decide), UInt16.ofNat_shiftLeft _ _ (by decide)]
  rfl

/-- One step of the decoder takes one group. -/
theorem unitsOnto_bytes (g : Group) (done : List UInt16) (rest : List UInt8) :
    unitsOnto done (g.bytes ++ rest) = unitsOnto (g.unit :: done) rest := by
  cases g with
  | one bits nonzero =>
    obtain ⟨hascii, hzero⟩ := one_facts bits
    have hbits : (bits : Nat) < UInt8.size := lt_trans bits.isLt (by decide)
    rw [Group.bytes, List.cons_append, List.nil_append, unitsOnto.eq_def]
    simp only [hascii, hzero nonzero, ↓reduceIte, UInt8.toUInt16_ofNat' hbits]
    rfl
  | two high low =>
    obtain ⟨htop, hmark, hhigh⟩ := two_facts high
    rw [Group.bytes, List.cons_append, List.cons_append, List.nil_append, unitsOnto, if_neg htop,
      if_pos hmark]
    simp only [continuation_ofNat, hhigh, join_two (lt_trans high.isLt (by decide)) low.isLt]
    rfl
  | three high middle low =>
    obtain ⟨htop, hother, hmark, hhigh⟩ := three_facts high
    rw [Group.bytes, List.cons_append, List.cons_append, List.cons_append, List.nil_append,
      unitsOnto, if_neg htop, if_neg hother, if_pos hmark]
    simp only [continuation_ofNat, hhigh,
      join_three (lt_trans high.isLt (by decide)) middle.isLt low.isLt]
    rfl

/-- The bytes are groups in a row, whose units come behind those of `done`. -/
def Grouped (done us : List UInt16) (bytes : List UInt8) : Prop :=
  ∃ groups : List Group,
    groups.flatMap Group.bytes = bytes ∧ us = done.reverse ++ groups.map Group.unit

theorem Grouped.cons {g : Group} {done us : List UInt16} {bytes : List UInt8}
    (h : Grouped (g.unit :: done) us bytes) : Grouped done us (g.bytes ++ bytes) := by
  obtain ⟨groups, rfl, rfl⟩ := h
  exact ⟨g :: groups, by rw [List.flatMap_cons], by simp⟩

/-- Whatever the decoder takes is made of groups. -/
theorem grouped_of_unitsOnto {bytes : List UInt8} {done us : List UInt16}
    (h : unitsOnto done bytes = some us) : Grouped done us bytes := by
  fun_induction unitsOnto done bytes with
  | case1 done =>
    cases h
    exact ⟨[], rfl, (List.append_nil _).symm⟩
  | case2 | case5 | case6 | case8 | case9 | case10 => cases h
  | case3 done a rest hascii hzero ih =>
    obtain ⟨bits, hbits, rfl⟩ := exists_one hascii hzero
    rw [UInt8.toUInt16_ofNat' (lt_trans bits.isLt (by decide))] at h ih
    exact Grouped.cons (g := .one bits hbits) (ih h)
  | case4 done a _ hmark b rest low hlow ih =>
    obtain ⟨high, rfl⟩ := exists_two hmark
    obtain ⟨low, rfl, rfl⟩ := exists_low hlow
    rw [(two_facts high).2.2, join_two (lt_trans high.isLt (by decide)) low.isLt] at h ih
    exact Grouped.cons (g := .two high low) (ih h)
  | case7 done a _ _ hmark b c rest middle low hlow hmiddle ih =>
    obtain ⟨high, rfl⟩ := exists_three hmark
    obtain ⟨middle, rfl, rfl⟩ := exists_low hmiddle
    obtain ⟨low, rfl, rfl⟩ := exists_low hlow
    rw [(three_facts high).2.2.2, join_three (lt_trans high.isLt (by decide)) middle.isLt low.isLt]
      at h ih
    exact Grouped.cons (g := .three high middle low) (ih h)

/-- The units of groups in a row. -/
theorem units_flatMap (groups : List Group) :
    units (groups.flatMap Group.bytes) = some (groups.map Group.unit) := by
  suffices h : ∀ done, unitsOnto done (groups.flatMap Group.bytes) =
      some (done.reverse ++ groups.map Group.unit) from h []
  induction groups with
  | nil => exact fun done => by simp [unitsOnto]
  | cons g groups ih =>
    intro done
    rw [List.flatMap_cons, unitsOnto_bytes, ih]
    simp

theorem decode_flatMap (groups : List Group) : decode (groups.flatMap Group.bytes) =
    .ok (String.ofList (charsOnto [] (groups.map Group.unit))) := by
  rw [decode, units_flatMap]

/-- Exactly groups in a row have a text. -/
theorem exists_decode_iff (bytes : List UInt8) : (∃ text, decode bytes = .ok text) ↔
    ∃ groups : List Group, groups.flatMap Group.bytes = bytes := by
  constructor
  · rintro ⟨text, h⟩
    unfold decode at h
    split at h
    case h_1 us hus =>
      obtain ⟨groups, hgroups, -⟩ := grouped_of_unitsOnto hus
      exact ⟨groups, hgroups⟩
    case h_2 => cases h
  · rintro ⟨groups, rfl⟩
    exact ⟨_, decode_flatMap groups⟩

/-- The encoder writes groups. -/
theorem exists_group (u : UInt16) : ∃ g : Group, g.bytes = unitBytes u ∧ g.unit = u := by
  have hunits : unitsOnto [] (unitBytes u ++ []) = some [u] := by
    rw [unitsOnto_unitBytes, unitsOnto]
    rfl
  obtain ⟨groups, hbytes, hmap⟩ := grouped_of_unitsOnto hunits
  obtain ⟨g, rfl, hunit⟩ := List.map_eq_singleton_iff.1 hmap.symm
  exact ⟨g, by simpa using hbytes, hunit⟩

theorem length_flatMap_unitBytes_le (groups : List Group) :
    ((groups.map Group.unit).flatMap unitBytes).length ≤ (groups.flatMap Group.bytes).length := by
  simpa using length_unitsOnto_le (units_flatMap groups)

namespace Group

theorem shortest_iff {g : Group} : g.Shortest ↔ g.bytes.length ≤ (unitBytes g.unit).length := by
  constructor
  · intro hshortest
    obtain ⟨other, hbytes, hunit⟩ := exists_group g.unit
    rw [← hbytes]
    exact hshortest other hunit
  · intro hle other hunit
    have hother := length_flatMap_unitBytes_le [other]
    simp only [List.map_cons, List.map_nil, List.flatMap_cons, List.flatMap_nil, List.append_nil,
      hunit] at hother
    exact hle.trans hother

/-- There is one shortest group for each unit. -/
theorem Shortest.bytes_eq {g : Group} (h : g.Shortest) : g.bytes = unitBytes g.unit := by
  obtain ⟨other, hbytes, hunit⟩ := exists_group g.unit
  have hle : (unitBytes g.unit).length ≤ g.bytes.length := by
    simpa using length_flatMap_unitBytes_le [g]
  have hlength := Nat.le_antisymm (shortest_iff.1 h) hle
  rw [← hbytes, eq_of_unit_eq hunit.symm (by rw [hlength, hbytes])]

end Group

/-- Where shorter groups do not save a byte, there are none. -/
theorem forall_shortest_of_length_le {groups : List Group}
    (h : (groups.flatMap Group.bytes).length ≤
      ((groups.map Group.unit).flatMap unitBytes).length) : ∀ g ∈ groups, g.Shortest := by
  induction groups with
  | nil => exact fun _ hg => absurd hg List.not_mem_nil
  | cons g groups ih =>
    have hhead : (unitBytes g.unit).length ≤ g.bytes.length := by
      simpa using length_flatMap_unitBytes_le [g]
    have htail := length_flatMap_unitBytes_le groups
    simp only [List.map_cons, List.flatMap_cons, List.length_append] at h
    exact List.forall_mem_cons.2 ⟨Group.shortest_iff.2 (by omega), ih (by omega)⟩

theorem flatMap_bytes_of_shortest {groups : List Group} (h : ∀ g ∈ groups, g.Shortest) :
    groups.flatMap Group.bytes = (groups.map Group.unit).flatMap unitBytes := by
  rw [List.flatMap_map]
  exact List.flatMap_congr fun g hg => (h g hg).bytes_eq

/-- The first units of pairs. -/
def IsHigh (u : UInt16) : Prop := 0xD800 ≤ u.toNat ∧ u.toNat ≤ 0xDBFF

/-- The second units of pairs. -/
def IsLow (u : UInt16) : Prop := 0xDC00 ≤ u.toNat ∧ u.toNat ≤ 0xDFFF

/-- Every surrogate is part of a pair. -/
inductive Paired : List UInt16 → Prop
  | nil : Paired []
  | plain {u : UInt16} {us : List UInt16} (hhigh : ¬ IsHigh u) (hlow : ¬ IsLow u)
      (tail : Paired us) : Paired (u :: us)
  | pair {u v : UInt16} {us : List UInt16} (hhigh : IsHigh u) (hlow : IsLow v)
      (tail : Paired us) : Paired (u :: v :: us)

theorem isHighSurrogate_iff {u : UInt16} : isHighSurrogate u = true ↔ IsHigh u := by
  simp only [isHighSurrogate, IsHigh, Bool.and_eq_true, decide_eq_true_eq, UInt16.le_iff_toNat_le,
    UInt16.lt_iff_toNat_lt, UInt16.reduceToNat]
  omega

theorem isLowSurrogate_iff {u : UInt16} : isLowSurrogate u = true ↔ IsLow u := by
  simp only [isLowSurrogate, IsLow, Bool.and_eq_true, decide_eq_true_eq, UInt16.le_iff_toNat_le,
    UInt16.lt_iff_toNat_lt, UInt16.reduceToNat]
  omega

theorem isSurrogate_iff {u : UInt16} :
    (isHighSurrogate u || isLowSurrogate u) = true ↔ IsHigh u ∨ IsLow u := by
  rw [Bool.or_eq_true, isHighSurrogate_iff, isLowSurrogate_iff]

theorem paired_cons_iff_of_plain {u : UInt16} {us : List UInt16} (hhigh : ¬ IsHigh u)
    (hlow : ¬ IsLow u) : Paired (u :: us) ↔ Paired us := by
  constructor
  · intro h
    cases h with
    | plain _ _ tail => exact tail
    | pair hu => exact absurd hu hhigh
  · exact .plain hhigh hlow

theorem paired_cons_iff_of_pair {u v : UInt16} {us : List UInt16} (hhigh : IsHigh u)
    (hlow : IsLow v) : Paired (u :: v :: us) ↔ Paired us := by
  constructor
  · intro h
    cases h with
    | plain hu => exact absurd hhigh hu
    | pair _ _ tail => exact tail
  · exact .pair hhigh hlow

/-- Characters that are done do not matter. -/
theorem charsOnto_append (done other : List Char) (us : List UInt16) :
    charsOnto (done ++ other) us = other.reverse ++ charsOnto done us := by
  fun_induction charsOnto done us with
  | case1 done => simp [charsOnto]
  | case2 done u => simp [charsOnto]
  | case3 done u v rest h ih =>
    rw [charsOnto, if_pos h]
    exact ih
  | case4 done u v rest h ih =>
    rw [charsOnto, if_neg h]
    exact ih

/-- A unit that is not in a pair with the next one keeps its value unless it is a surrogate. -/
theorem charUnits_charsOnto_lone {u : UInt16} {us : List UInt16} {done : List Char}
    (hlone : ∀ v rest, us = v :: rest → IsHigh u → ¬ IsLow v)
    (ih : (charsOnto (loneChar u :: done) us).flatMap charUnits =
      (loneChar u :: done).reverse.flatMap charUnits ++ us ↔ Paired us) :
    (charsOnto (loneChar u :: done) us).flatMap charUnits =
      done.reverse.flatMap charUnits ++ u :: us ↔ Paired (u :: us) := by
  have hunits := charUnits_loneChar u
  by_cases hsurrogate : IsHigh u ∨ IsLow u
  · rw [if_pos (isSurrogate_iff.2 hsurrogate)] at hunits
    constructor
    · -- the replacement character would have to be the surrogate
      intro h
      rw [← List.nil_append (loneChar u :: done), charsOnto_append, List.reverse_cons,
        List.flatMap_append, List.flatMap_append, List.flatMap_singleton, hunits,
        List.append_assoc, List.append_cancel_left_eq, List.singleton_append,
        List.cons.injEq] at h
      obtain ⟨rfl, -⟩ := h
      simp [IsHigh, IsLow] at hsurrogate
    · intro h
      cases h with
      | plain hhigh hlow => exact absurd hsurrogate (not_or.2 ⟨hhigh, hlow⟩)
      | pair hhigh hlow => exact absurd hlow (hlone _ _ rfl hhigh)
  · rw [if_neg (mt isSurrogate_iff.1 hsurrogate)] at hunits
    obtain ⟨hhigh, hlow⟩ := not_or.1 hsurrogate
    rw [paired_cons_iff_of_plain hhigh hlow, ← ih, List.reverse_cons, List.flatMap_append,
      List.flatMap_singleton, hunits, List.append_assoc]
    rfl

/-- The characters of units have these units exactly if all surrogates are in pairs. -/
theorem charUnits_charsOnto_iff (done : List Char) (us : List UInt16) :
    (charsOnto done us).flatMap charUnits = done.reverse.flatMap charUnits ++ us ↔ Paired us := by
  fun_induction charsOnto done us with
  | case1 done => simp [Paired.nil]
  | case2 done u =>
    have hnil : charsOnto (loneChar u :: done) [] = (loneChar u :: done).reverse := rfl
    rw [← hnil]
    exact charUnits_charsOnto_lone (by simp) (by simp [hnil, Paired.nil])
  | case3 done u v rest h ih =>
    rw [Bool.and_eq_true] at h
    rw [paired_cons_iff_of_pair (isHighSurrogate_iff.1 h.1) (isLowSurrogate_iff.1 h.2), ← ih,
      List.reverse_cons, List.flatMap_append, List.flatMap_singleton,
      charUnits_pairChar h.1 h.2, List.append_assoc]
    rfl
  | case4 done u v rest h ih =>
    rw [Bool.and_eq_true, not_and, isHighSurrogate_iff, isLowSurrogate_iff] at h
    refine charUnits_charsOnto_lone (fun w tail heq => ?_) ih
    cases heq
    exact h

/-- Groups are the bytes of their text exactly if none is longer than needed and no surrogate is
left alone. -/
theorem encode_decode_iff (groups : List Group) :
    (decode (groups.flatMap Group.bytes)).map encode = .ok (groups.flatMap Group.bytes) ↔
      (∀ g ∈ groups, g.Shortest) ∧ Paired (groups.map Group.unit) := by
  have hunits := charUnits_charsOnto_iff [] (groups.map Group.unit)
  have hsize := size_charsOnto (groups.map Group.unit) []
  rw [List.reverse_nil, List.flatMap_nil, List.nil_append] at hunits
  rw [decode_flatMap, Except.map, Except.ok.injEq, encode, String.toList_ofList]
  generalize charsOnto [] (groups.map Group.unit) = cs at hunits hsize
  constructor
  · intro h
    -- lone surrogates keep their length, so only the length of the groups can have changed it
    have hlength : (groups.flatMap Group.bytes).length ≤
        ((groups.map Group.unit).flatMap unitBytes).length := by
      rw [← h]
      simpa [size] using hsize.le
    have hshortest := forall_shortest_of_length_le hlength
    rw [flatMap_bytes_of_shortest hshortest] at h
    have hread := congrArg (unitsOnto []) h
    rw [unitsOnto_flatMap, unitsOnto_flatMap] at hread
    exact ⟨hshortest, hunits.1 (by simpa using hread)⟩
  · rintro ⟨hshortest, hpaired⟩
    rw [hunits.2 hpaired, flatMap_bytes_of_shortest hshortest]

/-- Every text reads back from its bytes. Bytes have a text exactly if they are groups in a row,
and such bytes are those of their text exactly if every group is the shortest for its unit and
every surrogate unit is part of a pair. -/
theorem codec_exact :
    (∀ text, decode (encode text) = .ok text) ∧
    (∀ bytes, (∃ text, decode bytes = .ok text) ↔
      ∃ groups : List Group, groups.flatMap Group.bytes = bytes) ∧
    ∀ groups : List Group,
      (decode (groups.flatMap Group.bytes)).map encode = .ok (groups.flatMap Group.bytes) ↔
        (∀ g ∈ groups, g.Shortest) ∧ Paired (groups.map Group.unit) :=
  ⟨decode_encode, exists_decode_iff, encode_decode_iff⟩

end Embargo.Text.ModifiedUtf8
