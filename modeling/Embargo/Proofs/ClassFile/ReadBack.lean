import Embargo.ClassFile.Basic
import Embargo.ClassFile.Body
import Embargo.Proofs.Bytes.Reading
import Embargo.Proofs.ClassFile.PoolGrowth

/-!
Class files read back as they were written, as long as every length fits its field. The
writer checks the counts of lists, but neither the length of a text nor that of a payload.
-/
namespace Embargo
open Reader

namespace Constant

/-- A text that its 16-bit length can tell. -/
def Fits (constant : Constant) : Prop :=
  ∀ bytes, constant = .utf8 bytes → bytes.length < 65536

theorem reads_pair {make : UInt16 → UInt16 → Constant} (position : Nat) (first second : UInt16) :
    Reads (pair make) position (Bytes.u16 first ++ Bytes.u16 second) (make first second) :=
  (reads_u16 _ first).bind (reads_u16 _ second).map

theorem reads_read {constant : Constant} (h : constant.Fits) (index : UInt16) (position : Nat) :
    Reads (read index) position constant.toBytes constant := by
  refine (reads_u8 position constant.tag).bind ?_
  cases constant with
  | utf8 bytes =>
    have hlength : (UInt16.ofNat bytes.length).toNat = bytes.length :=
      UInt16.toNat_ofNat_of_lt (h bytes rfl)
    refine (reads_u16 _ _).bind ?_
    rw [hlength]
    exact (reads_bytes _ bytes).map
  | integer value => exact (reads_i32 _ value).map
  | float bits => exact (reads_u32 _ bits).map
  | long value =>
    have h := (reads_u64 (position + 1) value.toUInt64).map (f := fun v => long v.toInt64)
    exact h
  | double bits => exact (reads_u64 _ bits).map
  | classRef name => exact (reads_u16 _ name).map
  | string text => exact (reads_u16 _ text).map
  | member kind owner nameAndType =>
    cases kind with
    | field => exact reads_pair _ owner nameAndType
    | method => exact reads_pair _ owner nameAndType
    | interfaceMethod => exact reads_pair _ owner nameAndType
  | nameAndType name descriptor => exact reads_pair _ name descriptor
  | methodHandle kind reference => exact (reads_u8 _ kind).bind (reads_u16 _ reference).map
  | methodType descriptor => exact (reads_u16 _ descriptor).map
  | dynamic bootstrap nameAndType => exact reads_pair _ bootstrap nameAndType
  | invokeDynamic bootstrap nameAndType => exact reads_pair _ bootstrap nameAndType
  | module name => exact (reads_u16 _ name).map
  | package name => exact (reads_u16 _ name).map

theorem width_pos (constant : Constant) : 0 < constant.width := by
  unfold width
  split <;> omega

end Constant

namespace Pool

/-- Every text of the pool is short enough for its length field. -/
def Fits (pool : Pool) : Prop :=
  ∀ bytes, some (.utf8 bytes) ∈ pool.slots.toList → bytes.length < 65536

theorem ext_toList {a b : Pool} (h : a.slots.toList = b.slots.toList) : a = b := by
  cases a
  cases b
  congr 1
  exact Array.toList_inj.1 h

theorem size_le_foldl_push (constants : List Constant) (pool : Pool) :
    pool.slots.size ≤ (constants.foldl push pool).slots.size := by
  rw [← Array.length_toList, ← Array.length_toList, toList_foldl_push, List.length_append]
  omega

/-- Constants in a row fill a pool up to the count that it was given. -/
theorem reads_readOnto {constants : List Constant} (h : ∀ constant ∈ constants, constant.Fits)
    {pool : Pool} {count fuel : Nat}
    (hcount : (constants.foldl push pool).slots.size = count)
    (hfuel : count - pool.slots.size ≤ fuel) (position : Nat) :
    Reads (readOnto count fuel pool) position (constants.flatMap Constant.toBytes)
      (constants.foldl push pool) := by
  induction constants generalizing pool fuel position with
  | nil =>
    intro rest
    have hfull : ¬ pool.slots.size < count := by
      rw [← hcount]
      exact lt_irrefl _
    cases fuel with
    | zero => rfl
    | succ fuel =>
      change (if pool.slots.size < count then _ else _) = _
      rw [if_neg hfull]
      rfl
  | cons constant constants ih =>
    intro rest
    have hpush := size_push pool constant
    have hwidth := constant.width_pos
    have hle := size_le_foldl_push constants (pool.push constant)
    rw [List.foldl_cons] at hcount
    have hroom : pool.slots.size < count := by omega
    cases fuel with
    | zero => omega
    | succ fuel =>
      have head := Constant.reads_read (h constant List.mem_cons_self) pool.count position
        (constants.flatMap Constant.toBytes ++ rest)
      have tail := ih (fun c hc => h c (List.mem_cons_of_mem _ hc)) hcount
        (show count - (pool.push constant).slots.size ≤ fuel by omega)
        (position + constant.toBytes.length) rest
      rw [List.flatMap_cons, List.append_assoc]
      change readOnto count (fuel + 1) pool _ = _
      rw [readOnto, if_pos hroom, head]
      refine tail.trans ?_
      simp [Nat.add_assoc]

theorem WellFormed.eq_foldl_push {pool : Pool} (h : pool.WellFormed) :
    ∃ constants : List Constant, pool = constants.foldl Pool.push empty := by
  obtain ⟨constants, hlist⟩ := h.exists_constants
  refine ⟨constants, ext_toList ?_⟩
  rw [hlist, toList_foldl_push]
  rfl

theorem flatMap_slots {write : Option Constant → List UInt8} (hnone : write none = [])
    (hsome : ∀ constant, write (some constant) = constant.toBytes) (constants : List Constant) :
    (constants.flatMap Constant.slots).flatMap write = constants.flatMap Constant.toBytes := by
  have hslots (constant : Constant) : constant.slots.flatMap write = constant.toBytes := by
    unfold Constant.slots
    split <;> simp [hnone, hsome]
  rw [List.flatMap_assoc]
  simp only [hslots]

theorem toBytes_foldl_push (constants : List Constant) :
    (constants.foldl push empty).toBytes =
      Bytes.u16 (constants.foldl push empty).count ++ constants.flatMap Constant.toBytes := by
  unfold toBytes
  rw [toList_foldl_push, List.flatMap_append, flatMap_slots rfl fun _ => rfl]
  rfl

theorem reads_read {pool : Pool} (hpool : pool.WellFormed) (hfits : pool.Fits)
    (position : Nat) : Reads read position pool.toBytes pool := by
  have hsize : pool.slots.size ≤ 65535 := hpool.size_le
  have hcount : pool.count.toNat = pool.slots.size :=
    UInt16.toNat_ofNat_of_lt (show pool.slots.size < 65536 by omega)
  obtain ⟨constants, hconstants⟩ := hpool.eq_foldl_push
  have hconstantsFit : ∀ constant ∈ constants, constant.Fits := by
    rintro constant hconstant bytes rfl
    apply hfits bytes
    rw [hconstants, toList_foldl_push]
    refine List.mem_append_right _ (List.mem_flatMap.2 ⟨_, hconstant, ?_⟩)
    exact List.mem_singleton.2 rfl
  have hfull : (constants.foldl push empty).slots.size = pool.count.toNat := by
    rw [hcount, hconstants]
  have hrest := reads_readOnto hconstantsFit hfull
    (Nat.sub_le pool.count.toNat empty.slots.size) (position + 2)
  rw [← hconstants] at hrest
  have hwhole : pool.toBytes = Bytes.u16 pool.count ++ constants.flatMap Constant.toBytes := by
    rw [hconstants]
    exact toBytes_foldl_push constants
  rw [hwhole]
  refine (reads_u16 position pool.count).bind ?_
  rw [← List.append_nil (constants.flatMap Constant.toBytes)]
  refine hrest.bind ?_
  rw [if_neg (by rw [hcount]; exact lt_irrefl _)]
  exact .pure

end Pool

/-- A payload that its 32-bit length can tell. -/
def Attribute.Fits (a : Attribute) : Prop := a.payload.length < 4294967296

theorem Attribute.reads_read {a : Attribute} (h : a.Fits) (position : Nat) :
    Reads read position a.toBytes a := by
  have hlength : (UInt32.ofNat a.payload.length).toNat = a.payload.length :=
    UInt32.toNat_ofNat_of_lt h
  rw [toBytes, List.append_assoc]
  refine (reads_u16 position a.name).bind ((reads_u32 _ _).bind ?_)
  rw [hlength]
  exact (reads_bytes _ a.payload).map

theorem Attribute.reads_readList {attributes : List Attribute} {bytes : List UInt8}
    (hfits : ∀ a ∈ attributes, a.Fits) (h : listBytes attributes = .ok bytes)
    (position : Nat) : Reads readList position bytes attributes := by
  obtain ⟨count, hcount, hbytes⟩ := Except.bind_eq_ok_iff.1 h
  cases hbytes
  rw [List.flatMap_def]
  exact reads_counted (Bytes.count_eq_ok_iff.1 hcount)
    (forall₂_reads_map fun a ha => reads_read (hfits a ha)) position

/-- A payload in a list of attributes is no longer than what is written for the list. -/
theorem Attribute.length_payload_le {attributes : List Attribute} {bytes : List UInt8}
    (h : listBytes attributes = .ok bytes) {a : Attribute} (ha : a ∈ attributes) :
    a.payload.length ≤ bytes.length := by
  obtain ⟨count, -, hbytes⟩ := Except.bind_eq_ok_iff.1 h
  cases hbytes
  obtain ⟨front, back, rfl⟩ := List.append_of_mem ha
  simp [toBytes]
  omega

theorem Handler.reads_read (handler : Handler) (position : Nat) :
    Reads read position handler.toBytes handler := by
  rw [toBytes, List.append_assoc, List.append_assoc]
  exact (reads_u16 _ _).bind ((reads_u16 _ _).bind ((reads_u16 _ _).bind (reads_u16 _ _).map))

/-- A body that is written reads back. -/
theorem Body.parse_toBytes {body : Body} {bytes : List UInt8}
    (hfits : ∀ a ∈ body.attributes, a.Fits) (h : body.toBytes = .ok bytes) :
    Body.parse bytes = .ok body := by
  unfold toBytes at h
  split at h
  case isTrue => cases h
  case isFalse hlength =>
    obtain ⟨handlers, hhandlers, hrest⟩ := Except.bind_eq_ok_iff.1 h
    obtain ⟨attributes, hattributes, hbytes⟩ := Except.bind_eq_ok_iff.1 hrest
    cases hbytes
    have hcode : (UInt32.ofNat body.code.length).toNat = body.code.length :=
      UInt32.toNat_ofNat_of_lt (show body.code.length < 4294967296 by omega)
    apply Reads.parse_eq
    simp only [List.append_assoc]
    refine (reads_u16 _ _).bind ((reads_u16 _ _).bind ((reads_u32 _ _).bind ?_))
    rw [hcode]
    refine (reads_bytes _ body.code).bind ?_
    rw [← List.append_assoc, List.flatMap_def]
    refine (reads_counted (Bytes.count_eq_ok_iff.1 hhandlers)
      (forall₂_reads_map fun handler _ => handler.reads_read) _).bind ?_
    exact (Attribute.reads_readList hfits hattributes _).map

/-- The payloads in a body fit if the whole body does. -/
theorem Body.fits_of_toBytes {body : Body} {bytes : List UInt8} (h : body.toBytes = .ok bytes)
    (hlength : bytes.length < 4294967296) : ∀ a ∈ body.attributes, a.Fits := by
  intro a ha
  unfold toBytes at h
  split at h
  case isTrue => cases h
  case isFalse =>
    obtain ⟨handlers, -, hrest⟩ := Except.bind_eq_ok_iff.1 h
    obtain ⟨attributes, hattributes, hbytes⟩ := Except.bind_eq_ok_iff.1 hrest
    cases hbytes
    have hle := Attribute.length_payload_le hattributes ha
    rw [List.length_append] at hlength
    exact (show a.payload.length < 4294967296 by omega)

/-- Every payload of the member's attributes fits its length. -/
def Member.Fits (member : Member) : Prop := ∀ a ∈ member.attributes, a.Fits

theorem Member.reads_read {member : Member} {bytes : List UInt8} (hfits : member.Fits)
    (h : member.toBytes = .ok bytes) (position : Nat) : Reads read position bytes member := by
  obtain ⟨attributes, hattributes, hbytes⟩ := Except.bind_eq_ok_iff.1 h
  cases hbytes
  simp only [List.append_assoc]
  exact (reads_u16 _ _).bind ((reads_u16 _ _).bind ((reads_u16 _ _).bind
    (Attribute.reads_readList hfits hattributes _).map))

theorem Member.reads_readList {members : List Member} {bytes : List UInt8}
    (hfits : ∀ member ∈ members, member.Fits) (h : listBytes members = .ok bytes)
    (position : Nat) : Reads readList position bytes members := by
  obtain ⟨count, hcount, hrest⟩ := Except.bind_eq_ok_iff.1 h
  obtain ⟨parts, hparts, hbytes⟩ := Except.bind_eq_ok_iff.1 hrest
  cases hbytes
  refine reads_counted (Bytes.count_eq_ok_iff.1 hcount) ?_ position
  rw [List.forall₂_iff_get]
  have hlength := (Except.mapM_eq_ok_iff.1 hparts).length_eq
  refine ⟨hlength.symm, fun i hi hi' position => ?_⟩
  exact Member.reads_read (hfits _ (List.getElem_mem _))
    ((List.forall₂_iff_get.1 (Except.mapM_eq_ok_iff.1 hparts)).2 i hi' hi) position

/-- What the writer takes for granted: texts and payloads that their lengths can tell. -/
structure ClassFile.Fits (c : ClassFile) : Prop where
  pool : c.pool.Fits
  fields : ∀ member ∈ c.fields, member.Fits
  methods : ∀ member ∈ c.methods, member.Fits
  attributes : ∀ a ∈ c.attributes, a.Fits

theorem Member.fits_of_listBytes {members : List Member} {bytes : List UInt8}
    (h : listBytes members = .ok bytes) (hlength : bytes.length < 4294967296) :
    ∀ member ∈ members, member.Fits := by
  obtain ⟨count, -, hrest⟩ := Except.bind_eq_ok_iff.1 h
  obtain ⟨parts, hparts, hbytes⟩ := Except.bind_eq_ok_iff.1 hrest
  cases hbytes
  intro member hmember a ha
  obtain ⟨part, hpart, hwritten⟩ :=
    Forall₂.exists_of_mem_left (Except.mapM_eq_ok_iff.1 hparts) hmember
  obtain ⟨attributes, hattributes, hbytes⟩ := Except.bind_eq_ok_iff.1 hwritten
  cases hbytes
  have hle := Attribute.length_payload_le hattributes ha
  have hsub := (List.sublist_flatten_of_mem hpart).length_le
  simp only [List.length_append] at hsub hlength
  exact (show a.payload.length < 4294967296 by omega)

/-- Payloads fit if the whole class does. -/
theorem ClassFile.fits_of_toBytes {c : ClassFile} {bytes : List UInt8} (hpool : c.pool.Fits)
    (h : c.toBytes = .ok bytes) (hlength : bytes.length < 4294967296) : c.Fits := by
  obtain ⟨interfaces, -, h⟩ := Except.bind_eq_ok_iff.1 h
  obtain ⟨fields, hfields, h⟩ := Except.bind_eq_ok_iff.1 h
  obtain ⟨methods, hmethods, h⟩ := Except.bind_eq_ok_iff.1 h
  obtain ⟨attributes, hattributes, h⟩ := Except.bind_eq_ok_iff.1 h
  cases h
  simp only [List.length_append] at hlength
  refine ⟨hpool, Member.fits_of_listBytes hfields (by omega),
    Member.fits_of_listBytes hmethods (by omega), fun a ha => ?_⟩
  have hle := Attribute.length_payload_le hattributes ha
  exact (show a.payload.length < 4294967296 by omega)

/-- A class that is written reads back, if it can be named. -/
theorem ClassFile.parse_toBytes {c : ClassFile} {bytes : List UInt8} {name : String}
    (hpool : c.pool.WellFormed) (hfits : c.Fits) (hname : c.name = .ok name)
    (h : c.toBytes = .ok bytes) : ClassFile.parse bytes = .ok c := by
  obtain ⟨interfaces, hinterfaces, h⟩ := Except.bind_eq_ok_iff.1 h
  obtain ⟨fields, hfields, h⟩ := Except.bind_eq_ok_iff.1 h
  obtain ⟨methods, hmethods, h⟩ := Except.bind_eq_ok_iff.1 h
  obtain ⟨attributes, hattributes, h⟩ := Except.bind_eq_ok_iff.1 h
  cases h
  refine Except.bind_eq_ok_iff.2 ⟨c, ?_, Except.bind_eq_ok_iff.2 ⟨name, hname, rfl⟩⟩
  apply Reads.parse_eq
  simp only [List.append_assoc]
  refine (reads_u32 _ _).bind ?_
  rw [if_neg (by simp)]
  refine (reads_u16 _ _).bind ((reads_u16 _ _).bind ?_)
  refine (Pool.reads_read hpool hfits.pool _).bind ?_
  refine (reads_u16 _ _).bind ((reads_u16 _ _).bind ((reads_u16 _ _).bind ?_))
  rw [← List.append_assoc, List.flatMap_def]
  refine (reads_counted (Bytes.count_eq_ok_iff.1 hinterfaces)
    (forall₂_reads_map fun index _ position => reads_u16 position index) _).bind ?_
  refine (Member.reads_readList hfits.fields hfields _).bind ?_
  refine (Member.reads_readList hfits.methods hmethods _).bind ?_
  exact (Attribute.reads_readList hfits.attributes hattributes _).map

end Embargo
