import Embargo.Proofs.Code.FrameOrder

/-!
The size of stack map tables. Every form of a frame takes at least as many bytes as the one
that is written for it, so a table that is read is never shorter than the one that is written
for its frames.
-/
namespace Embargo
open Reader

namespace ValueType

/-- The bytes that a type takes in a table. -/
def width : ValueType → Nat
  | object _ | uninitialized _ => 3
  | _ => 1

def widths (types : List ValueType) : Nat := (types.map width).sum

theorem widths_append (types more : List ValueType) :
    widths (types ++ more) = widths types + widths more := by
  simp [widths]

theorem widths_drop_le (n : Nat) (types : List ValueType) :
    widths (types.drop n) ≤ widths types := by
  have hsplit := widths_append (types.take n) (types.drop n)
  rw [List.take_append_drop] at hsplit
  omega

theorem length_write {type : ValueType} {pool new : Pool} {bytes : List UInt8}
    (h : type.write.run pool = (.ok bytes, new)) : bytes.length = type.width := by
  cases type with
  | object name =>
    obtain ⟨index, middle, -, hpure⟩ := Attempt.run_bind_eq_ok_iff.1 h
    cases hpure
    simp [width]
  | uninitialized offset =>
    change (if offset < 65536 then _ else _ : PoolStep (List UInt8)).run pool = _ at h
    split at h
    · cases h
      simp [width]
    · cases h
  | _ =>
    cases h
    rfl

theorem length_flatten {parts : List (List UInt8)} {types : List ValueType}
    (h : List.Forall₂ (fun part type => part.length = width type) parts types) :
    parts.flatten.length = widths types := by
  induction h with
  | nil => rfl
  | cons head _ ih => simp [widths] at ih ⊢; omega

theorem length_writeList {types : List ValueType} {pool new : Pool} {bytes : List UInt8}
    (h : (writeList types).run pool = (.ok bytes, new)) : bytes.length = widths types := by
  obtain ⟨parts, middle, hparts, hpure⟩ := Attempt.run_bind_eq_ok_iff.1 h
  cases hpure
  apply length_flatten
  have heach := (Attempt.run_mapM_eq_ok_iff.1 hparts).forall₂ (R := fun _ _ => True)
    (fun _ => trivial) (fun _ _ _ _ _ => trivial) fun _ _ _ _ _ => trivial
  exact (heach.2.imp fun type part ⟨_, _, _, hrun, _⟩ => length_write hrun).flip

theorem takes_read (pool : Pool) :
    Takes (read pool) fun bytes type => bytes.length = width type := by
  unfold read
  apply takes_u8.bind
  rintro tag _ rfl
  split
  case h_8 =>
    apply takes_u16.bind
    rintro index _ rfl
    refine (Takes.ofExcept (R := fun bytes _ => bytes = []) fun _ _ => rfl).map ?_
    rintro name _ rfl
    rfl
  case h_9 =>
    apply takes_u16.map
    rintro offset _ rfl
    rfl
  case h_10 => exact .throw _
  all_goals exact .pure rfl

end ValueType

namespace FrameTable
open ValueType (width widths widths_append length_flatten)
variable {pool new : Pool} {before locals stack : List ValueType} {gap index : Nat}
  {frame : Frame} {bytes : List UInt8}

/-- The bytes of a kind with a gap. -/
def gapSize (gap : Nat) : Nat := if gap < 64 then 1 else 3

/-- The bytes of the form that states everything. -/
def fullSize (frame : Frame) : Nat := 7 + widths frame.locals + widths frame.stack

/-- The bytes of a frame behind a gap and the locals in front of it. -/
def entrySize (before : List ValueType) (gap : Nat) (frame : Frame) : Nat :=
  match frame.stack with
  | [] =>
    if frame.locals = before then gapSize gap
    else if extendsByFew frame.locals before then 3
    else if extendsByFew before frame.locals then
      3 + widths (frame.locals.drop before.length)
    else fullSize frame
  | [item] => if frame.locals = before then gapSize gap + item.width else fullSize frame
  | _ => fullSize frame

theorem gapSize_le (gap : Nat) : gapSize gap ≤ 3 := by
  unfold gapSize
  split <;> omega

theorem length_gapBytes (short : Nat → UInt8) (long : UInt8) (gap : Nat) :
    (gapBytes short long gap).length = gapSize gap := by
  unfold gapBytes gapSize
  split <;> simp

theorem length_writeFull (h : (writeFull gap frame).run pool = (.ok bytes, new)) :
    bytes.length = fullSize frame := by
  obtain ⟨localCount, _, -, h⟩ := Attempt.run_bind_eq_ok_iff.1 h
  obtain ⟨locals, middle, hlocals, h⟩ := Attempt.run_bind_eq_ok_iff.1 h
  obtain ⟨stackCount, _, -, h⟩ := Attempt.run_bind_eq_ok_iff.1 h
  obtain ⟨stack, last, hstack, h⟩ := Attempt.run_bind_eq_ok_iff.1 h
  cases h
  have hlocalBytes := ValueType.length_writeList hlocals
  have hstackBytes := ValueType.length_writeList hstack
  simp [fullSize]
  omega

theorem length_writeEntry (h : (writeEntry before gap frame).run pool = (.ok bytes, new)) :
    bytes.length = entrySize before gap frame := by
  unfold writeEntry at h
  unfold entrySize
  dsimp only at h
  match hstack : frame.stack with
  | [] =>
    simp only [hstack] at h ⊢
    split at h
    case isTrue hsame =>
      cases h
      simp [hsame, length_gapBytes]
    case isFalse hother =>
      split at h
      case isTrue hchop =>
        cases h
        simp [hother, hchop]
      case isFalse hchop =>
        split at h
        case isTrue hfew =>
          obtain ⟨added, middle, hadded, hpure⟩ := Attempt.run_bind_eq_ok_iff.1 h
          cases hpure
          have haddedBytes := ValueType.length_writeList hadded
          simp [hother, hchop, hfew]
          omega
        case isFalse hfew => simpa [hother, hchop, hfew] using length_writeFull h
  | [item] =>
    simp only [hstack] at h ⊢
    split at h
    case isTrue hsame =>
      obtain ⟨itemBytes, middle, hitem, hpure⟩ := Attempt.run_bind_eq_ok_iff.1 h
      cases hpure
      have hitemBytes := ValueType.length_write hitem
      simp [hsame, length_gapBytes, hitemBytes]
    case isFalse hother => simpa [hother] using length_writeFull h
  | _ :: _ :: _ =>
    simp only [hstack] at h ⊢
    exact length_writeFull h

theorem entrySize_le_fullSize (before : List ValueType) (gap : Nat) (frame : Frame) :
    entrySize before gap frame ≤ fullSize frame := by
  have hgap := gapSize_le gap
  have hdrop := ValueType.widths_drop_le before.length frame.locals
  unfold entrySize
  split
  case h_1 =>
    unfold fullSize
    split_ifs <;> omega
  case h_2 item hitem =>
    have hwidth : widths frame.stack = item.width := by simp [widths, hitem]
    unfold fullSize
    split_ifs <;> omega
  case h_3 => exact Nat.le_refl _

/-- Bytes that a frame was read from are no fewer than those of the form that is written. -/
def Covers (before : List ValueType) (bytes : List UInt8) (entry : Entry) : Prop :=
  entry.gap ≤ 65535 ∧ ∀ offset,
    entrySize before entry.gap ⟨offset, entry.locals, entry.stack⟩ ≤ bytes.length

namespace Covers

theorem same (hgap : gap ≤ 65535) (h : gapSize gap ≤ bytes.length) :
    Covers before bytes ⟨gap, before, []⟩ :=
  ⟨hgap, fun _ => by simpa [entrySize] using h⟩

theorem sameItem {item : ValueType} (hgap : gap ≤ 65535)
    (h : gapSize gap + item.width ≤ bytes.length) : Covers before bytes ⟨gap, before, [item]⟩ :=
  ⟨hgap, fun _ => by simpa [entrySize] using h⟩

/-- One to three locals less. -/
theorem chop {chop : Nat} (hpos : 0 < chop) (hfew : chop ≤ 3) (hle : chop ≤ before.length)
    (hgap : gap ≤ 65535) (h : 3 ≤ bytes.length) :
    Covers before bytes ⟨gap, before.take (before.length - chop), []⟩ := by
  have hlength : (before.take (before.length - chop)).length = before.length - chop := by simp
  have hother : before.take (before.length - chop) ≠ before := by
    intro heq
    rw [heq] at hlength
    omega
  have hchop : extendsByFew (before.take (before.length - chop)) before = true := by
    rw [extendsByFew_iff, hlength]
    exact ⟨by omega, by omega, List.take_prefix _ _⟩
  exact ⟨hgap, fun _ => by simpa [entrySize, hother, hchop] using h⟩

/-- One to three locals more. -/
theorem append {added : List ValueType} (hpos : 0 < added.length) (hfew : added.length ≤ 3)
    (hgap : gap ≤ 65535) (h : 3 + widths added ≤ bytes.length) :
    Covers before bytes ⟨gap, before ++ added, []⟩ := by
  have hother : added ≠ [] := List.ne_nil_of_length_pos hpos
  have hchop : ¬ extendsByFew (before ++ added) before = true := by
    rw [extendsByFew_iff, List.length_append]
    omega
  have happend : extendsByFew before (before ++ added) = true := by
    rw [extendsByFew_iff, List.length_append]
    exact ⟨by omega, by omega, List.prefix_append _ _⟩
  exact ⟨hgap, fun _ => by simpa [entrySize, hother, hchop, happend] using h⟩

theorem full (hgap : gap ≤ 65535) (h : 7 + widths locals + widths stack ≤ bytes.length) :
    Covers before bytes ⟨gap, locals, stack⟩ :=
  ⟨hgap, fun offset => (entrySize_le_fullSize before gap ⟨offset, locals, stack⟩).trans h⟩

end Covers

theorem takes_readGap : Takes readGap fun bytes gap => bytes.length = 2 ∧ gap ≤ 65535 := by
  apply takes_u16.map
  rintro gap _ rfl
  have hlt := gap.toNat_lt
  exact ⟨rfl, by omega⟩

/-- A frame by its kind. The forms that change the locals change one to three of them. -/
theorem takes_readKind (pool : Pool) (index : Nat) (before : List ValueType) (kind : UInt8) :
    Takes (readKind pool index before kind) fun bytes entry =>
      Covers before (kind :: bytes) entry := by
  have hread := ValueType.takes_read pool
  have hleast {bound : UInt8} (h : ¬kind < bound) : bound.toNat ≤ kind.toNat :=
    UInt8.le_iff_toNat_le.1 (UInt8.not_lt.1 h)
  unfold readKind
  refine .ite (fun hsame => ?same) fun hsame => .ite (fun hitem => ?item) fun _ =>
    .ite (fun _ => .throw _) fun hgapped => .ite (fun _ => ?gappedItem) fun hother =>
    .ite (fun hchop => ?chop) fun hchop => .ite (fun _ => ?gapped) fun hother =>
    .ite (fun hadds => ?append) fun _ => ?full
  case same =>
    have hlt : kind.toNat < 64 := UInt8.lt_iff_toNat_lt.1 hsame
    exact .pure (.same (by omega) (by simp [gapSize, hlt]))
  case item =>
    have hlow : 64 ≤ kind.toNat := hleast hsame
    have hlt : kind.toNat < 128 := UInt8.lt_iff_toNat_lt.1 hitem
    have hshort : kind.toNat - 64 < 64 := by omega
    refine hread.map fun item bytes hbytes => .sameItem (by omega) ?_
    simp [gapSize, hshort, hbytes, Nat.add_comm]
  case gappedItem =>
    refine takes_readGap.bind fun gap gapped hgap => ?_
    refine hread.map fun item bytes hbytes => .sameItem hgap.2 ?_
    have hsize := gapSize_le gap
    simp [hgap.1, hbytes]
    omega
  case chop =>
    have hlow : 247 ≤ kind.toNat := hleast hgapped
    have hne : kind.toNat ≠ 247 := fun heq => hother (UInt8.toNat_inj.1 heq)
    have hlt : kind.toNat < 251 := UInt8.lt_iff_toNat_lt.1 hchop
    refine takes_readGap.bind fun gap gapped hgap => ?_
    refine .ite (fun _ => .throw_bind _ _) fun henough => ?_
    exact .pure (.chop (by omega) (by omega) (by omega) hgap.2 (by simp [hgap.1]))
  case gapped =>
    refine takes_readGap.map fun gap gapped hgap => .same hgap.2 ?_
    have hsize := gapSize_le gap
    simp [hgap.1]
    omega
  case append =>
    have hlow : 251 ≤ kind.toNat := hleast hchop
    have hne : kind.toNat ≠ 251 := fun heq => hother (UInt8.toNat_inj.1 heq)
    have hlt : kind.toNat < 255 := UInt8.lt_iff_toNat_lt.1 hadds
    refine takes_readGap.bind fun gap gapped hgap => ?_
    refine (takes_many hread _).map fun added bytes => ?_
    rintro ⟨hlength, parts, rfl, hparts⟩
    refine .append (by omega) (by omega) hgap.2 ?_
    rw [List.length_cons, List.length_append, hgap.1, length_flatten hparts]
    omega
  case full =>
    refine takes_readGap.bind fun gap gapped hgap => ?_
    refine (takes_counted hread).bind fun locals bytes => ?_
    rintro ⟨localCount, localParts, -, rfl, hlocals⟩
    refine (takes_counted hread).map fun stack bytes => ?_
    rintro ⟨stackCount, stackParts, -, rfl, hstack⟩
    refine .full hgap.2 ?_
    simp only [List.length_cons, List.length_append, Bytes.length_u16, hgap.1,
      length_flatten hlocals, length_flatten hstack]
    omega

theorem takes_readEntry (pool : Pool) (index : Nat) (before : List ValueType) :
    Takes (readEntry pool index before) (Covers before) := by
  apply takes_u8.bind
  rintro kind _ rfl
  exact takes_readKind pool index before kind

/-- The gap in front of an offset. -/
def gapTo (previous : Option Nat) (offset : Nat) : Nat :=
  match previous with
  | none => offset
  | some before => offset - before - 1

/-- The bytes of frames in a row. -/
def rowSize : Option Nat → List ValueType → List Frame → Nat
  | _, _, [] => 0
  | previous, before, frame :: frames =>
    entrySize before (gapTo previous frame.offset) frame
      + rowSize (some frame.offset) frame.locals frames

theorem gapTo_of_gapAfter {previous : Option Nat} {offset : Nat}
    (h : gapAfter previous offset = .ok gap) : gapTo previous offset = gap := by
  cases previous with
  | none => exact Except.ok.inj h
  | some first =>
    change (if first < offset then _ else _) = _ at h
    split at h
    · exact Except.ok.inj h
    · cases h

theorem gapTo_offsetAfter (previous : Option Nat) (gap : Nat) :
    gapTo previous (offsetAfter previous gap) = gap := by
  cases previous with
  | none => rfl
  | some first => simp [gapTo, offsetAfter]; omega

theorem length_writeOnto {previous : Option Nat} {frames : List Frame}
    {done parts : List (List UInt8)}
    (h : writeOnto previous before frames done pool = (.ok parts, new)) :
    parts.flatten.length = done.flatten.length + rowSize previous before frames := by
  induction frames generalizing previous before done pool with
  | nil =>
    cases h
    simp [rowSize]
  | cons frame frames ih =>
    unfold writeOnto at h
    split at h
    case h_1 => cases h
    case h_2 gap hgap =>
      split at h
      case isTrue => cases h
      case isFalse =>
        split at h
        case h_2 => cases h
        case h_1 part middle hpart =>
          have hentry := length_writeEntry hpart
          rw [ih h, rowSize, gapTo_of_gapAfter hgap, List.flatten_cons, List.length_append, hentry]
          omega

theorem length_encode {initial : List ValueType} {frames : List Frame}
    (h : (encode initial frames).run pool = (.ok bytes, new)) :
    bytes.length = 2 + rowSize none initial frames := by
  obtain ⟨count, _, -, h⟩ := Attempt.run_bind_eq_ok_iff.1 h
  obtain ⟨parts, middle, hparts, hpure⟩ := Attempt.run_bind_eq_ok_iff.1 h
  cases hpure
  have hrow := length_writeOnto hparts
  simp only [List.length_append, Bytes.length_u16, hrow, List.flatten_nil, List.length_nil]
  omega

/-- The first offset that is free behind a frame. -/
def firstBehind : Option Nat → Nat
  | none => 0
  | some offset => offset + 1

/-- What frames were read from covers them, and each takes at most 65536 offsets. -/
theorem takes_readOnto (pool : Pool) (n index : Nat) (previous : Option Nat)
    (before : List ValueType) (done : List Frame) :
    Takes (readOnto pool index previous before n done) fun bytes frames =>
      ∃ more, frames = done.reverse ++ more ∧ rowSize previous before more ≤ bytes.length ∧
        ∀ frame ∈ more, frame.offset < firstBehind previous + 65536 * n := by
  induction n generalizing index previous before done with
  | zero =>
    intro cursor frames next hrun
    cases hrun
    exact ⟨[], rfl, rfl, [], (List.append_nil _).symm, Nat.le_refl _, by simp⟩
  | succ n ih =>
    intro cursor frames last hrun
    change readOnto pool index previous before (n + 1) done cursor = _ at hrun
    rw [readOnto] at hrun
    split at hrun
    case h_2 => cases hrun
    case h_1 entry middle hentry =>
      obtain ⟨bytes, hrest, hposition, hgap, hsize⟩ := takes_readEntry _ _ _ _ _ _ hentry
      obtain ⟨behind, hrest', hposition', more, rfl, hrow, hbound⟩ := ih _ _ _ _ _ _ _ hrun
      have hoffset : offsetAfter previous entry.gap = firstBehind previous + entry.gap := by
        cases previous with
        | none => simp [offsetAfter, firstBehind]
        | some first => simp [offsetAfter, firstBehind]; omega
      let frame : Frame := ⟨offsetAfter previous entry.gap, entry.locals, entry.stack⟩
      refine ⟨bytes ++ behind, ?_, ?_, frame :: more, ?_, ?_, ?_⟩
      · rw [hrest, hrest', List.append_assoc]
      · rw [hposition', hposition, List.length_append, Nat.add_assoc]
      · rw [List.reverse_cons, List.append_assoc, List.singleton_append]
      · have hhead := hsize (offsetAfter previous entry.gap)
        rw [rowSize, gapTo_offsetAfter, List.length_append]
        exact Nat.add_le_add hhead hrow
      · refine List.forall_mem_cons.2 ⟨?_, fun frame hframe => ?_⟩
        · show offsetAfter previous entry.gap < _
          omega
        · have hlt := hbound frame hframe
          simp only [firstBehind] at hlt
          omega

/-- A table that was read is no shorter than what would be written for its frames, and its
offsets fit in 32 bits. -/
theorem size_of_decode {initial : List ValueType} {frames : List Frame}
    (h : decode pool initial bytes = .ok frames) :
    2 + rowSize none initial frames ≤ bytes.length ∧
      ∀ frame ∈ frames, frame.offset < 4294967296 := by
  have hread : Takes (read pool initial) fun bytes frames =>
      2 + rowSize none initial frames ≤ bytes.length ∧
        ∀ frame ∈ frames, frame.offset < 4294967296 := by
    apply takes_u16.bind
    rintro count _ rfl
    refine (takes_readOnto pool count.toNat 0 none initial []).mono fun bytes frames => ?_
    rintro ⟨more, rfl, hrow, hbound⟩
    have hcount := count.toNat_lt
    refine ⟨by simp; omega, fun frame hframe => ?_⟩
    have hlt := hbound frame hframe
    simp only [firstBehind] at hlt
    omega
  exact hread.of_parse h

/-- The frames of a table come one after the other at offsets of at most 32 bits, and no table
has the same frames in fewer bytes than the one that is written for them. -/
theorem encode_shortest {initial : List ValueType} {frames : List Frame}
    (h : decode pool initial bytes = .ok frames) :
    (frames.map Frame.offset).Pairwise (· < ·) ∧
      (∀ frame ∈ frames, frame.offset < 4294967296) ∧
      ∀ later written last, (encode initial frames).run later = (.ok written, last) →
        written.length ≤ bytes.length := by
  obtain ⟨hsize, hbound⟩ := size_of_decode h
  refine ⟨pairwise_of_decode h, hbound, fun later written last hrun => ?_⟩
  rw [length_encode hrun]
  exact hsize

/-- A table with long gaps where short ones do, and all types stated where two locals are
new. -/
def wordyTable : List UInt8 :=
  [0, 3, 251, 0, 5, 255, 0, 0, 0, 3, 1, 7, 0, 2, 4, 0, 0, 247, 0, 60, 5]

/-- The frames come back in 12 of 21 bytes. -/
theorem encode_shortest_wordy :
    decode variedPool [.integer] wordyTable =
        .ok [⟨5, [.integer], []⟩, ⟨6, [.integer, .object "a/B", .long], []⟩,
          ⟨67, [.integer, .object "a/B", .long], [.null]⟩] ∧
      (encode [.integer] [⟨5, [.integer], []⟩, ⟨6, [.integer, .object "a/B", .long], []⟩,
          ⟨67, [.integer, .object "a/B", .long], [.null]⟩]).run variedPool =
        (.ok [0, 3, 5, 253, 0, 0, 7, 0, 2, 4, 124, 5], variedPool) ∧
      [0, 3, 5, 253, 0, 0, 7, 0, 2, 4, 124, 5].length ≤ wordyTable.length := by
  have hdecode : decode variedPool [.integer] wordyTable =
      .ok [⟨5, [.integer], []⟩, ⟨6, [.integer, .object "a/B", .long], []⟩,
        ⟨67, [.integer, .object "a/B", .long], [.null]⟩] := by decide +kernel
  have hrun : (encode [.integer] [⟨5, [.integer], []⟩, ⟨6, [.integer, .object "a/B", .long], []⟩,
      ⟨67, [.integer, .object "a/B", .long], [.null]⟩]).run variedPool =
        (.ok [0, 3, 5, 253, 0, 0, 7, 0, 2, 4, 124, 5], variedPool) :=
    Prod.ext (by decide +kernel) (by decide +kernel)
  exact ⟨hdecode, hrun, (encode_shortest hdecode).2.2 _ _ _ hrun⟩

end FrameTable

end Embargo
