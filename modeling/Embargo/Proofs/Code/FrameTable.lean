import Embargo.Proofs.Code.FrameNames

/-!
Stack map tables read back as they were written, also from a pool that has grown since.
-/
namespace Embargo
open Reader

namespace ValueType

/-- The type with another name for its class. -/
def rename (f : String → String) : ValueType → ValueType
  | object name => object (f name)
  | type => type

theorem map_rename_id (types : List ValueType) : types.map (rename id) = types := by
  refine (List.map_congr_left fun type _ => ?_).trans (List.map_id types)
  cases type <;> rfl

end ValueType

namespace Frame

/-- The frame with other names for its classes. -/
def rename (f : String → String) (frame : Frame) : Frame where
  offset := frame.offset
  locals := frame.locals.map (ValueType.rename f)
  stack := frame.stack.map (ValueType.rename f)

theorem map_rename_id (frames : List Frame) : frames.map (rename id) = frames := by
  refine (List.map_congr_left fun frame _ => ?_).trans (List.map_id frames)
  rw [rename, ValueType.map_rename_id, ValueType.map_rename_id]
  rfl

end Frame

/-- Classes that were added on the way to a pool have other names in another pool. -/
def Pool.Renames (later other : Pool) (names : String → String) : Prop :=
  ∀ {name : String} {pool new : Pool} {index : UInt16}, pool.WellFormed →
    (addClass name).run pool = (.ok index, new) → Growth (fun _ => True) new later →
    other.className index = .ok (names name)

theorem Pool.renames_self (later : Pool) : later.Renames later id :=
  fun hpool hindex hlater => hlater.className_eq (className_addClass hpool hindex)

variable {P : String → Prop} {names : String → String} {pool new later other : Pool}
  {bytes : List UInt8}

theorem ValueType.reads_read {type : ValueType} (hother : later.Renames other names)
    (hpool : pool.WellFormed) (h : type.write.run pool = (.ok bytes, new))
    (hlater : Pool.Growth (fun _ => True) new later) (position : Nat) :
    Reads (read other) position bytes (type.rename names) := by
  cases type with
  | object name =>
    obtain ⟨index, middle, hindex, hpure⟩ := Attempt.run_bind_eq_ok_iff.1 h
    cases hpure
    have hname := hother hpool hindex hlater
    have hvalue : Reads (do
        let index ← u16
        return object (← Attempt.ofExcept (other.className index)))
        (position + 1) (Bytes.u16 index) (object (names name)) := by
      rw [← List.append_nil (Bytes.u16 index)]
      exact (reads_u16 _ index).bind (Reads.ofExcept hname _).map
    exact (reads_u8 position 7).bind hvalue
  | uninitialized offset =>
    change (if offset < 65536 then _ else _ : PoolStep (List UInt8)).run pool = _ at h
    split at h
    case isTrue hoffset =>
      cases h
      have hread : (UInt16.ofNat offset).toNat = offset := UInt16.toNat_ofNat_of_lt hoffset
      have hvalue := (reads_u16 (position + 1) (UInt16.ofNat offset)).map
        (f := fun v => uninitialized v.toNat)
      rw [hread] at hvalue
      exact (reads_u8 position 8).bind hvalue
    case isFalse => cases h
  | _ =>
    cases h
    exact (reads_u8 position _).bind .pure

/-- Types in a row are read one by one. -/
theorem ValueType.forall₂_reads {types : List ValueType} (hother : later.Renames other names)
    (hpool : pool.WellFormed) (h : (writeList types).run pool = (.ok bytes, new))
    (hlater : Pool.Growth P new later) :
    ∃ parts, bytes = parts.flatten ∧ List.Forall₂
      (fun part type => ∀ position, Reads (read other) position part type) parts
      (types.map (ValueType.rename names)) := by
  obtain ⟨parts, middle, hparts, hpure⟩ := Attempt.run_bind_eq_ok_iff.1 h
  cases hpure
  refine ⟨parts, rfl, ?_⟩
  have hgrowth := (Attempt.run_mapM_eq_ok_iff.1 hparts).forall₂
    (R := Pool.Growth fun _ => True) .refl (fun _ _ _ => .trans)
    fun type start part stop hrun => (grows_write fun _ _ => trivial).growth hrun
  refine List.forall₂_map_right_iff.2 (hgrowth.2.imp ?_).flip
  rintro type part ⟨start, stop, hstart, hrun, hstop⟩ position
  have hlast : Pool.Growth (fun _ => True) new later := hlater.mono fun _ _ => trivial
  exact reads_read hother (hstart.wellFormed hpool) hrun (hstop.trans hlast) position

namespace FrameTable
variable {before : List ValueType} {gap : Nat} {frame : Frame} {index : Nat}

theorem reads_readGap (hgap : gap ≤ 65535) (position : Nat) :
    Reads readGap position (Bytes.u16 (UInt16.ofNat gap)) gap := by
  have hread : (UInt16.ofNat gap).toNat = gap := 
    UInt16.toNat_ofNat_of_lt (show gap < 65536 by omega)
  have hvalue := (reads_u16 position (UInt16.ofNat gap)).map (f := UInt16.toNat)
  rwa [hread] at hvalue

theorem reads_writeFull (hother : later.Renames other names) (hpool : pool.WellFormed)
    (hgap : gap ≤ 65535) (h : (writeFull gap frame).run pool = (.ok bytes, new))
    (hlater : Pool.Growth P new later) (position : Nat) :
    Reads (readEntry other index before) position bytes
      ⟨gap, (frame.rename names).locals, (frame.rename names).stack⟩ := by
  obtain ⟨localCount, _, hstep, h⟩ := Attempt.run_bind_eq_ok_iff.1 h
  obtain ⟨hlocalCount, rfl⟩ := Attempt.run_ofExcept_eq_ok_iff.1 hstep
  obtain ⟨locals, middle, hlocals, h⟩ := Attempt.run_bind_eq_ok_iff.1 h
  obtain ⟨stackCount, _, hstep, h⟩ := Attempt.run_bind_eq_ok_iff.1 h
  obtain ⟨hstackCount, rfl⟩ := Attempt.run_ofExcept_eq_ok_iff.1 hstep
  obtain ⟨stack, last, hstack, h⟩ := Attempt.run_bind_eq_ok_iff.1 h
  cases h
  have hfirst : Pool.Growth (fun _ => True) pool middle :=
    (ValueType.grows_writeList fun _ _ => trivial).growth hlocals
  have hsecond : Pool.Growth (fun _ => True) middle new :=
    (ValueType.grows_writeList fun _ _ => trivial).growth hstack
  have hlast : Pool.Growth (fun _ => True) new later := hlater.mono fun _ _ => trivial
  obtain ⟨localParts, rfl, hlocalParts⟩ :=
    ValueType.forall₂_reads hother hpool hlocals (hsecond.trans hlast)
  obtain ⟨stackParts, rfl, hstackParts⟩ :=
    ValueType.forall₂_reads hother (hfirst.wellFormed hpool) hstack hlast
  have hlength (types : List ValueType) : (types.map (ValueType.rename names)).length
      = types.length := List.length_map _
  have hlocalList := reads_counted
    ((hlength frame.locals).trans (Bytes.count_eq_ok_iff.1 hlocalCount)) hlocalParts
  have hstackList := reads_counted
    ((hlength frame.stack).trans (Bytes.count_eq_ok_iff.1 hstackCount)) hstackParts
  have hparts : Reads (do
      let gap ← readGap
      let locals ← counted (ValueType.read other)
      let stack ← counted (ValueType.read other)
      return Entry.mk gap locals stack) (position + 1)
      (Bytes.u16 (UInt16.ofNat gap) ++ (Bytes.u16 localCount ++ localParts.flatten
        ++ (Bytes.u16 stackCount ++ stackParts.flatten)))
      ⟨gap, (frame.rename names).locals, (frame.rename names).stack⟩ := by
    apply (reads_readGap hgap _).bind
    exact (hlocalList _).bind (hstackList _).map
  simp only [← List.append_assoc] at hparts
  exact (reads_u8 position 255).bind hparts

theorem reads_of_readKind {kind : UInt8} {more : List UInt8} {entry : Entry} {position : Nat}
    (h : Reads (readKind later index before kind) (position + 1) more entry) :
    Reads (readEntry later index before) position (kind :: more) entry :=
  (reads_u8 position kind).bind h

theorem reads_same (hgap : gap ≤ 65535) (position : Nat) :
    Reads (readEntry later index before) position (gapBytes UInt8.ofNat 251 gap)
      ⟨gap, before, []⟩ := by
  unfold gapBytes
  split
  case isTrue hshort =>
    have hkind : (UInt8.ofNat gap).toNat = gap :=
      UInt8.toNat_ofNat_of_lt (show gap < 256 by omega)
    refine reads_of_readKind ?_
    have hlt : UInt8.ofNat gap < 64 := by simp [UInt8.lt_iff_toNat_lt, hkind, hshort]
    rw [readKind, if_pos hlt, hkind]
    exact .pure
  case isFalse =>
    have hgapOnly : Reads (do return (⟨← readGap, before, []⟩ : Entry)) (position + 1)
        (Bytes.u16 (UInt16.ofNat gap)) ⟨gap, before, []⟩ := (reads_readGap hgap _).map
    exact (reads_u8 position 251).bind hgapOnly

theorem reads_sameItem {item : ValueType} {itemBytes : List UInt8} (hgap : gap ≤ 65535)
    (hitem : ∀ position, Reads (ValueType.read later) position itemBytes item) (position : Nat) :
    Reads (readEntry later index before) position
      (gapBytes (fun gap => UInt8.ofNat (64 + gap)) 247 gap ++ itemBytes)
      ⟨gap, before, [item]⟩ := by
  unfold gapBytes
  split
  case isTrue hshort =>
    have hkind : (UInt8.ofNat (64 + gap)).toNat = 64 + gap :=
      UInt8.toNat_ofNat_of_lt (show 64 + gap < 256 by omega)
    refine (reads_u8 position (UInt8.ofNat (64 + gap))).bind ?_
    have hge : ¬ UInt8.ofNat (64 + gap) < 64 := by
      rw [UInt8.lt_iff_toNat_lt, hkind]
      exact (show ¬ 64 + gap < 64 by omega)
    have hlt : UInt8.ofNat (64 + gap) < 128 := by
      rw [UInt8.lt_iff_toNat_lt, hkind]
      exact (show 64 + gap < 128 by omega)
    rw [readKind, if_neg hge, if_pos hlt, hkind, Nat.add_sub_cancel_left]
    exact (hitem _).map
  case isFalse =>
    have hparts : Reads (do
        let gap ← readGap
        return (⟨gap, before, [← ValueType.read later]⟩ : Entry)) (position + 1)
        (Bytes.u16 (UInt16.ofNat gap) ++ itemBytes) ⟨gap, before, [item]⟩ :=
      (reads_readGap hgap _).bind (hitem _).map
    exact (reads_u8 position 247).bind hparts

theorem extendsByFew_iff {shorter longer : List ValueType} :
    extendsByFew shorter longer = true ↔ shorter.length < longer.length ∧
      longer.length - shorter.length ≤ 3 ∧ shorter <+: longer := by
  simp [extendsByFew, and_assoc]

/-- The forms for one to three locals less. -/
theorem readKind_chop {chop : Nat} (hpos : 0 < chop) (hle : chop ≤ 3) :
    readKind later index before (UInt8.ofNat (251 - chop)) = (do
      let gap ← readGap
      if before.length < chop then
        throw (.badStackMap (.chopTooDeep chop before.length))
      return ⟨gap, before.take (before.length - chop), []⟩) := by
  obtain rfl | rfl | rfl : chop = 1 ∨ chop = 2 ∨ chop = 3 := by omega
  · rfl
  · rfl
  · rfl

/-- The forms for one to three locals more. -/
theorem readKind_append {added : Nat} (hpos : 0 < added) (hle : added ≤ 3) :
    readKind later index before (UInt8.ofNat (251 + added)) = (do
      let gap ← readGap
      return ⟨gap, before ++ (← many added (ValueType.read later)), []⟩) := by
  obtain rfl | rfl | rfl : added = 1 ∨ added = 2 ∨ added = 3 := by omega
  · rfl
  · rfl
  · rfl

theorem reads_chop {locals : List ValueType} (hgap : gap ≤ 65535)
    (hfew : extendsByFew locals before = true) (position : Nat) :
    Reads (readEntry later index before) position
      (UInt8.ofNat (251 - (before.length - locals.length)) :: Bytes.u16 (UInt16.ofNat gap))
      ⟨gap, locals, []⟩ := by
  obtain ⟨hlt, hle, hprefix⟩ := extendsByFew_iff.1 hfew
  refine reads_of_readKind ?_
  have henough : ¬ before.length < before.length - locals.length := by omega
  rw [readKind_chop (by omega) hle]
  simp only [if_neg henough]
  have hlength : before.length - (before.length - locals.length) = locals.length := by omega
  rw [hlength, ← List.prefix_iff_eq_take.1 hprefix]
  exact (reads_readGap hgap _).map

theorem reads_append {locals : List ValueType} {parts : List (List UInt8)} (hgap : gap ≤ 65535)
    (hfew : extendsByFew before locals = true)
    (hparts : List.Forall₂ (fun part type => ∀ position,
      Reads (ValueType.read later) position part type) parts (locals.drop before.length))
    (position : Nat) :
    Reads (readEntry later index before) position
      (UInt8.ofNat (251 + (locals.length - before.length))
        :: (Bytes.u16 (UInt16.ofNat gap) ++ parts.flatten)) ⟨gap, locals, []⟩ := by
  obtain ⟨hlt, hle, more, rfl⟩ := extendsByFew_iff.1 hfew
  rw [List.drop_left] at hparts
  rw [List.length_append, Nat.add_sub_cancel_left] at hle ⊢
  have hmany := (reads_manyOnto hparts (position + 1 + 2) []).map
    (f := fun added => (⟨gap, before ++ added, []⟩ : Entry))
  refine reads_of_readKind ?_
  rw [readKind_append (by simp at hlt; omega) hle]
  exact (reads_readGap hgap _).bind hmany

theorem extendsByFew_rename {shorter longer : List ValueType}
    (h : extendsByFew shorter longer = true) :
    extendsByFew (shorter.map (ValueType.rename names)) (longer.map (ValueType.rename names))
      = true := by
  obtain ⟨hlt, hle, hprefix⟩ := extendsByFew_iff.1 h
  exact extendsByFew_iff.2 ⟨by simpa using hlt, by simpa using hle, hprefix.map _⟩

/-- What is written for a frame reads back as the frame. -/
theorem reads_writeEntry (hother : later.Renames other names) (hpool : pool.WellFormed)
    (hgap : gap ≤ 65535) (h : (writeEntry before gap frame).run pool = (.ok bytes, new))
    (hlater : Pool.Growth P new later) (position : Nat) :
    Reads (readEntry other index (before.map (ValueType.rename names))) position bytes
      ⟨gap, (frame.rename names).locals, (frame.rename names).stack⟩ := by
  unfold writeEntry at h
  dsimp only at h
  split at h
  case h_1 hstack =>
    have hempty : (frame.rename names).stack = [] := by rw [Frame.rename, hstack]; rfl
    split at h
    case isTrue hsame =>
      cases h
      rw [hempty, ← hsame]
      exact reads_same hgap position
    case isFalse =>
      split at h
      case isTrue hfew =>
        cases h
        have hread : Reads (readEntry other index (before.map (ValueType.rename names))) position _
            ⟨gap, frame.locals.map (ValueType.rename names), []⟩ :=
          reads_chop hgap (extendsByFew_rename hfew) position
        rw [List.length_map, List.length_map] at hread
        rwa [hempty]
      case isFalse =>
        split at h
        case isTrue hfew =>
          obtain ⟨added, middle, hadded, hpure⟩ := Attempt.run_bind_eq_ok_iff.1 h
          cases hpure
          obtain ⟨parts, rfl, hparts⟩ := ValueType.forall₂_reads hother hpool hadded hlater
          rw [List.map_drop, ← List.length_map (ValueType.rename names)] at hparts
          have hread : Reads (readEntry other index (before.map (ValueType.rename names)))
              position _ ⟨gap, frame.locals.map (ValueType.rename names), []⟩ :=
            reads_append hgap (extendsByFew_rename hfew) hparts position
          rw [List.length_map, List.length_map] at hread
          rwa [hempty]
        case isFalse => exact reads_writeFull hother hpool hgap h hlater position
  case h_2 item hstack =>
    split at h
    case isTrue hsame =>
      obtain ⟨itemBytes, middle, hitem, hpure⟩ := Attempt.run_bind_eq_ok_iff.1 h
      cases hpure
      have hlast : Pool.Growth (fun _ => True) new later := hlater.mono fun _ _ => trivial
      have hone : (frame.rename names).stack = [item.rename names] := by
        rw [Frame.rename, hstack]
        rfl
      rw [hone, ← hsame]
      exact reads_sameItem hgap (ValueType.reads_read hother hpool hitem hlast) position
    case isFalse => exact reads_writeFull hother hpool hgap h hlater position
  case h_3 => exact reads_writeFull hother hpool hgap h hlater position

theorem offsetAfter_of_gapAfter {previous : Option Nat} {offset : Nat}
    (h : gapAfter previous offset = .ok gap) : offsetAfter previous gap = offset := by
  cases previous with
  | none =>
    cases h
    rfl
  | some first =>
    change (if first < offset then _ else _) = _ at h
    split at h
    case isTrue hlt =>
      cases h
      change first + (offset - first - 1) + 1 = offset
      omega
    case isFalse => cases h

/-- Frames that are written behind others read back behind them. -/
theorem reads_writeOnto {frames : List Frame} (hother : later.Renames other names)
    (hpool : pool.WellFormed) {previous : Option Nat} {done parts : List (List UInt8)}
    (h : writeOnto previous before frames done pool = (.ok parts, new))
    (hlater : Pool.Growth P new later) : ∃ more, parts = done.reverse ++ more ∧
      ∀ index front position, Reads (readOnto other index previous
          (before.map (ValueType.rename names)) frames.length front)
        position more.flatten (front.reverse ++ frames.map (Frame.rename names)) := by
  induction frames generalizing pool previous before done with
  | nil =>
    cases h
    refine ⟨[], (List.append_nil _).symm, fun index front position => ?_⟩
    rw [List.map_nil, List.append_nil]
    exact .pure
  | cons frame frames ih =>
    unfold writeOnto at h
    split at h
    case h_1 => cases h
    case h_2 gap hgapAfter =>
      split at h
      case isTrue => cases h
      case isFalse hgap =>
        split at h
        case h_2 => cases h
        case h_1 bytes middle hrun =>
          have hentry : Pool.Growth (fun _ => True) pool middle :=
            (grows_writeEntry ⟨fun _ _ => trivial, fun _ _ => trivial⟩).growth hrun
          have hrest : Pool.Growth (fun _ => True) middle new := by
            have hgrows : Pool.Grows (fun _ => True)
                (writeOnto (some frame.offset) frame.locals frames (bytes :: done)) :=
              grows_writeOnto (fun _ _ => ⟨fun _ _ => trivial, fun _ _ => trivial⟩) _ _ _
            exact hgrows.growth h
          obtain ⟨more, rfl, hmore⟩ := ih (hentry.wellFormed hpool) h
          refine ⟨bytes :: more, by simp, fun index front position rest => ?_⟩
          have hlast : Pool.Growth (fun _ => True) new later := hlater.mono fun _ _ => trivial
          have hentryReads : Reads
              (readEntry other index (before.map (ValueType.rename names))) position bytes
              ⟨gap, (frame.rename names).locals, (frame.rename names).stack⟩ :=
            reads_writeEntry hother hpool (Nat.not_lt.1 hgap) hrun (hrest.trans hlast) position
          have hhead := hentryReads (more.flatten ++ rest)
          have htail := hmore (index + 1) (frame.rename names :: front)
            (position + bytes.length) rest
          have hoffset := offsetAfter_of_gapAfter hgapAfter
          rw [List.flatten_cons, List.append_assoc]
          change readOnto other index previous (before.map (ValueType.rename names))
            (frames.length + 1) front _ = _
          rw [readOnto, hhead]
          dsimp only
          rw [hoffset]
          refine htail.trans ?_
          simp [Nat.add_assoc]

/-- A table that is written reads back as the frames that it was made of, with the names that
the classes have where it is read. -/
theorem decode_encode_rename {initial : List ValueType} {frames : List Frame}
    (hother : later.Renames other names) (hpool : pool.WellFormed)
    (h : (encode initial frames).run pool = (.ok bytes, new)) (hlater : Pool.Growth P new later) :
    decode other (initial.map (ValueType.rename names)) bytes
      = .ok (frames.map (Frame.rename names)) := by
  obtain ⟨count, _, hstep, h⟩ := Attempt.run_bind_eq_ok_iff.1 h
  obtain ⟨hcount, rfl⟩ := Attempt.run_ofExcept_eq_ok_iff.1 hstep
  obtain ⟨parts, middle, hparts, hpure⟩ := Attempt.run_bind_eq_ok_iff.1 h
  cases hpure
  obtain ⟨more, rfl, hmore⟩ := reads_writeOnto hother hpool hparts hlater
  apply Reads.parse_eq
  apply (reads_u16 0 count).bind
  rw [← Bytes.count_eq_ok_iff.1 hcount]
  exact hmore 0 [] _

/-- A table that is written reads back as the frames that it was made of. -/
theorem decode_encode {initial : List ValueType} {frames : List Frame} (hpool : pool.WellFormed)
    (h : (encode initial frames).run pool = (.ok bytes, new)) (hlater : Pool.Growth P new later) :
    decode later initial bytes = .ok frames := by
  have hread := decode_encode_rename later.renames_self hpool h hlater
  rwa [ValueType.map_rename_id, Frame.map_rename_id] at hread

end FrameTable

end Embargo
