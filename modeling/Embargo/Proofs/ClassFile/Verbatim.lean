import Embargo.Proofs.ClassFile.ReadBack

/-!
Class files are written as they were read. Every reader takes the bytes that the writer
makes of what it returns, so data that parses comes back byte for byte. The one thing that
can be read and not written is code of more than 65535 bytes.
-/
namespace Embargo
open Reader

theorem Constant.takes_read (index : UInt16) :
    Takes (read index) fun bytes constant => bytes = constant.toBytes := by
  have word {tag : UInt8} {make : UInt16 → Constant}
      (h : ∀ i, (make i).toBytes = tag :: Bytes.u16 i) :
      Takes (do return make (← Reader.u16)) fun bytes constant =>
        Bytes.u8 tag ++ bytes = constant.toBytes :=
    takes_u16.map fun i bytes hbytes => by rw [hbytes, h]; rfl
  have words {tag : UInt8} {make : UInt16 → UInt16 → Constant}
      (h : ∀ i j, (make i j).toBytes = tag :: (Bytes.u16 i ++ Bytes.u16 j)) :
      Takes (pair make) fun bytes constant => Bytes.u8 tag ++ bytes = constant.toBytes :=
    takes_u16.bind fun i first hfirst => takes_u16.map fun j second hsecond => by
      rw [hfirst, hsecond, h]; rfl
  apply takes_u8.bind
  rintro tag _ rfl
  split
  · apply takes_u16.bind
    rintro length _ rfl
    apply (takes_bytes _).map
    rintro _ text ⟨rfl, hlength⟩
    rw [toBytes, payload, hlength, UInt16.ofNat_toNat]
    rfl
  · exact takes_i32.map fun v bytes hbytes => by rw [hbytes]; rfl
  · exact takes_u32.map fun v bytes hbytes => by rw [hbytes]; rfl
  · exact takes_u64.map fun v bytes hbytes => by rw [hbytes]; rfl
  · exact takes_u64.map fun v bytes hbytes => by rw [hbytes]; rfl
  · exact word fun _ => rfl
  · exact word fun _ => rfl
  · exact words fun _ _ => rfl
  · exact words fun _ _ => rfl
  · exact words fun _ _ => rfl
  · exact words fun _ _ => rfl
  · apply takes_u8.bind
    rintro kind _ rfl
    exact takes_u16.map fun i bytes hbytes => by rw [hbytes]; rfl
  · exact word fun _ => rfl
  · exact words fun _ _ => rfl
  · exact words fun _ _ => rfl
  · exact word fun _ => rfl
  · exact word fun _ => rfl
  · exact .throw _

namespace Pool

/-- Reading on takes the bytes of the constants that it pushes, and with fuel enough it
fills the pool. -/
theorem takes_readOnto (count fuel : Nat) (pool : Pool) :
    Takes (readOnto count fuel pool) fun bytes new => ∃ constants : List Constant,
      bytes = constants.flatMap Constant.toBytes ∧ new = constants.foldl push pool ∧
        (count ≤ pool.slots.size + fuel → count ≤ new.slots.size) := by
  induction fuel generalizing pool with
  | zero =>
    intro cursor new next hrun
    cases hrun
    exact ⟨[], rfl, rfl, [], rfl, rfl, id⟩
  | succ fuel ih =>
    intro cursor new next hrun
    change readOnto count (fuel + 1) pool cursor = _ at hrun
    rw [readOnto] at hrun
    split at hrun
    case isFalse hfull =>
      cases hrun
      exact ⟨[], rfl, rfl, [], rfl, rfl, fun _ => by omega⟩
    case isTrue =>
      split at hrun
      case h_2 => cases hrun
      case h_1 constant middle hread =>
        obtain ⟨bytes, hrest, hposition, rfl⟩ := Constant.takes_read _ _ _ _ hread
        obtain ⟨_, hrest', hposition', constants, rfl, rfl, hfull⟩ := ih _ _ _ _ hrun
        refine ⟨constant.toBytes ++ constants.flatMap Constant.toBytes, ?_, ?_,
          constant :: constants, rfl, rfl, fun hfuel => hfull ?_⟩
        · rw [hrest, hrest', List.append_assoc]
        · rw [hposition', hposition, List.length_append, Nat.add_assoc]
        · have hwidth := constant.width_pos
          rw [size_push]
          omega

theorem takes_read : Takes read fun bytes pool => bytes = pool.toBytes := by
  apply takes_u16.bind
  rintro count _ rfl
  apply (takes_readOnto count.toNat count.toNat empty).bind
  rintro _ _ ⟨constants, rfl, rfl, hfull⟩
  split
  case isTrue => exact .throw_bind _ _
  case isFalse hle =>
    have hsize : (constants.foldl push empty).slots.size = count.toNat := by
      have hge := hfull (by omega)
      omega
    have hcount : (constants.foldl push empty).count = count := by
      rw [Pool.count, hsize, UInt16.ofNat_toNat]
    refine .pure ?_
    rw [toBytes_foldl_push, hcount, List.append_nil]

end Pool

theorem Attribute.takes_read : Takes read fun bytes a => bytes = a.toBytes := by
  apply takes_u16.bind
  rintro name _ rfl
  apply takes_u32.bind
  rintro length _ rfl
  apply (takes_bytes _).map
  rintro _ payload ⟨rfl, hlength⟩
  rw [toBytes, hlength, UInt32.ofNat_toNat, List.append_assoc]

theorem Attribute.takes_readList :
    Takes readList fun bytes attributes => listBytes attributes = .ok bytes := by
  refine (takes_counted takes_read).mono fun bytes attributes => ?_
  rintro ⟨count, parts, hlength, rfl, hparts⟩
  rw [flatten_of_forall₂ hparts]
  exact Except.bind_eq_ok_iff.2 ⟨count, Bytes.count_eq_ok_iff.2 hlength, rfl⟩

theorem Member.takes_read : Takes read fun bytes member => member.toBytes = .ok bytes := by
  apply takes_u16.bind
  rintro flags _ rfl
  apply takes_u16.bind
  rintro name _ rfl
  apply takes_u16.bind
  rintro descriptor _ rfl
  apply Attribute.takes_readList.map
  intro attributes bytes hattributes
  refine Except.bind_eq_ok_iff.2 ⟨bytes, hattributes, ?_⟩
  simp only [List.append_assoc]
  rfl

theorem Member.takes_readList :
    Takes readList fun bytes members => listBytes members = .ok bytes := by
  refine (takes_counted takes_read).mono fun bytes members => ?_
  rintro ⟨count, parts, hlength, rfl, hparts⟩
  exact Except.bind_eq_ok_iff.2 ⟨count, Bytes.count_eq_ok_iff.2 hlength,
    Except.bind_eq_ok_iff.2 ⟨parts, Except.mapM_eq_ok_iff.2 hparts.flip, rfl⟩⟩

theorem Handler.takes_read : Takes read fun bytes handler => bytes = handler.toBytes := by
  apply takes_u16.bind
  rintro startPc _ rfl
  apply takes_u16.bind
  rintro endPc _ rfl
  apply takes_u16.bind
  rintro handlerPc _ rfl
  apply takes_u16.map
  rintro catchType _ rfl
  simp only [toBytes, List.append_assoc]

/-- A body is written as it was read, if its code is not too long. -/
theorem Body.takes_read : Takes read fun bytes body =>
    body.toBytes = if body.code.length ≤ 65535 then .ok bytes
      else .error (.codeTooLarge body.code.length) := by
  apply takes_u16.bind
  rintro maxStack _ rfl
  apply takes_u16.bind
  rintro maxLocals _ rfl
  apply takes_u32.bind
  rintro length _ rfl
  apply (takes_bytes _).bind
  rintro _ code ⟨rfl, hlength⟩
  apply (takes_counted Handler.takes_read).bind
  rintro handlers _ ⟨count, parts, hcount, rfl, hparts⟩
  apply Attribute.takes_readList.map
  intro attributes bytes hattributes
  unfold toBytes
  split
  case isTrue hlong => rw [if_neg (Nat.not_le.2 hlong)]; rfl
  case isFalse hshort =>
    rw [if_pos (Nat.not_lt.1 hshort)]
    refine Except.bind_eq_ok_iff.2 ⟨count, Bytes.count_eq_ok_iff.2 hcount,
      Except.bind_eq_ok_iff.2 ⟨bytes, hattributes, ?_⟩⟩
    rw [flatten_of_forall₂ hparts, hlength, UInt32.ofNat_toNat]
    simp only [List.append_assoc]
    rfl

theorem ClassFile.takes_read : Takes read fun bytes c => c.toBytes = .ok bytes := by
  apply takes_u32.bind
  rintro found _ rfl
  split
  case isTrue => exact .throw_bind _ _
  case isFalse hmagic =>
    rw [ne_eq, not_not] at hmagic
    apply takes_u16.bind
    rintro minorVersion _ rfl
    apply takes_u16.bind
    rintro majorVersion _ rfl
    apply Pool.takes_read.bind
    rintro pool _ rfl
    apply takes_u16.bind
    rintro flags _ rfl
    apply takes_u16.bind
    rintro thisClass _ rfl
    apply takes_u16.bind
    rintro superClass _ rfl
    apply (takes_counted takes_u16).bind
    rintro interfaces _ ⟨count, parts, hcount, rfl, hparts⟩
    apply Member.takes_readList.bind
    intro fields fieldBytes hfields
    apply Member.takes_readList.bind
    intro methods methodBytes hmethods
    apply Attribute.takes_readList.map
    intro attributes attributeBytes hattributes
    refine Except.bind_eq_ok_iff.2 ⟨count, Bytes.count_eq_ok_iff.2 hcount,
      Except.bind_eq_ok_iff.2 ⟨fieldBytes, hfields, Except.bind_eq_ok_iff.2 ⟨methodBytes, hmethods,
        Except.bind_eq_ok_iff.2 ⟨attributeBytes, hattributes, ?_⟩⟩⟩⟩
    rw [flatten_of_forall₂ hparts, hmagic]
    simp only [List.append_assoc]
    rfl

/-- Data that parses is what the class in it is written as, and so it is with the payload
of a code attribute, unless there is too much code in it. -/
theorem toBytes_of_parse (data : List UInt8) :
    (∀ c, ClassFile.parse data = .ok c → c.toBytes = .ok data) ∧
      ∀ body, Body.parse data = .ok body → body.toBytes =
        if body.code.length ≤ 65535 then .ok data else .error (.codeTooLarge body.code.length) := by
  refine ⟨fun c h => ?_, fun body h => Body.takes_read.of_parse h⟩
  obtain ⟨read, hread, hrest⟩ := Except.bind_eq_ok_iff.1 h
  obtain ⟨name, -, hpure⟩ := Except.bind_eq_ok_iff.1 hrest
  cases hpure
  exact ClassFile.takes_read.of_parse hread

/-- A class with a wide constant in its last slots. -/
def trailingWideBytes : List UInt8 :=
  [0xca, 0xfe, 0xba, 0xbe, 0, 0, 0, 52, 0, 5,
    1, 0, 1, 0x41,
    7, 0, 1,
    5, 0, 0, 0, 0, 0, 0, 0, 9,
    0, 1, 0, 2, 0, 0, 0, 0, 0, 0, 0, 0, 0, 0]

def trailingWideClass : ClassFile where
  minorVersion := 0
  majorVersion := 52
  pool := [.utf8 [0x41], .classRef 1, .long 9].foldl Pool.push .empty
  flags := 1
  thisClass := 2
  superClass := 0
  interfaces := []
  fields := []
  methods := []
  attributes := []

/-- The payload of a body that has nothing but code, as many zeros as it says. -/
def bareBody (length : UInt32) : List UInt8 :=
  Bytes.u16 0 ++ (Bytes.u16 0 ++ (Bytes.u32 length
    ++ (List.replicate length.toNat 0 ++ (Bytes.u16 0 ++ Bytes.u16 0))))

theorem parse_bareBody (length : UInt32) :
    Body.parse (bareBody length) = .ok ⟨0, 0, List.replicate length.toNat 0, [], []⟩ := by
  have hcode (position : Nat) : Reads (bytes length.toNat) position
      (List.replicate length.toNat 0) (List.replicate length.toNat 0) := by
    have hbytes := reads_bytes position (List.replicate length.toNat (0 : UInt8))
    rwa [List.length_replicate] at hbytes
  have hnone {α : Type} (item : Reader α) (position : Nat) :
      Reads (counted item) position (Bytes.u16 0) [] :=
    reads_counted rfl .nil position
  apply Reads.parse_eq
  exact (reads_u16 _ _).bind ((reads_u16 _ _).bind ((reads_u32 _ _).bind ((hcode _).bind
    ((hnone _ _).bind (hnone _ _).map))))

theorem toBytes_of_parse_trailingWide :
    trailingWideClass.toBytes = .ok trailingWideBytes ∧
      Body.toBytes ⟨0, 0, List.replicate 65535 0, [], []⟩ = .ok (bareBody 65535) ∧
      Body.toBytes ⟨0, 0, List.replicate 65536 0, [], []⟩ = .error (.codeTooLarge 65536) := by
  refine ⟨?_, ?_, ?_⟩
  · exact (toBytes_of_parse trailingWideBytes).1 trailingWideClass (by decide +kernel)
  · have hshort := (toBytes_of_parse (bareBody 65535)).2 _ (parse_bareBody 65535)
    rwa [List.length_replicate, if_pos (by decide)] at hshort
  · have hlong := (toBytes_of_parse (bareBody 65536)).2 _ (parse_bareBody 65536)
    rwa [List.length_replicate, if_neg (by decide)] at hlong

end Embargo
