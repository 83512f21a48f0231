import Embargo.Proofs.Code.FrameTable

/-!
Stack map tables as a whole. The frames of a table are in the order of their offsets. Only such
frames can be written, and they read back from the pool that the writing leaves.
-/
namespace Embargo.FrameTable
variable {initial before : List ValueType} {frames : List Frame} {pool new : Pool}
  {bytes : List UInt8}

theorem lt_of_gapAfter {first offset gap : Nat} (h : gapAfter (some first) offset = .ok gap) :
    first < offset := by
  change (if first < offset then _ else _) = _ at h
  split at h
  case isTrue hlt => exact hlt
  case isFalse => cases h

/-- What is written behind a frame comes later than it, in order. -/
theorem isChain_of_writeOnto {previous : Option Nat} {done parts : List (List UInt8)}
    (h : writeOnto previous before frames done pool = (.ok parts, new)) :
    (previous.toList ++ frames.map Frame.offset).IsChain (· < ·) := by
  induction frames generalizing previous before done pool with
  | nil => cases previous <;> simp
  | cons frame frames ih =>
    unfold writeOnto at h
    split at h
    case h_1 => cases h
    case h_2 gap hgap =>
      split at h
      case isTrue => cases h
      case isFalse =>
        split at h
        case h_2 => cases h
        case h_1 part middle _ =>
          -- the frame is the previous one of what is left
          have hrest := ih h
          cases previous with
          | none => exact hrest
          | some first => exact List.isChain_cons_cons.2 ⟨lt_of_gapAfter hgap, hrest⟩

theorem pairwise_of_encode (h : (encode initial frames).run pool = (.ok bytes, new)) :
    (frames.map Frame.offset).Pairwise (· < ·) := by
  obtain ⟨count, _, hstep, h⟩ := Attempt.run_bind_eq_ok_iff.1 h
  obtain ⟨-, rfl⟩ := Attempt.run_ofExcept_eq_ok_iff.1 hstep
  obtain ⟨parts, middle, hparts, -⟩ := Attempt.run_bind_eq_ok_iff.1 h
  exact List.isChain_iff_pairwise.1 (isChain_of_writeOnto hparts)

/-- What is read behind a frame comes later than it, in order. -/
theorem yields_readOnto_isChain (n index : Nat) (previous : Option Nat) (done : List Frame) :
    Reader.Yields (readOnto pool index previous before n done) fun frames =>
      ∃ rest, frames = done.reverse ++ rest ∧
        (previous.toList ++ rest.map Frame.offset).IsChain (· < ·) := by
  induction n generalizing index previous before done with
  | zero =>
    intro cursor frames next hrun
    cases hrun
    refine ⟨[], (List.append_nil _).symm, ?_⟩
    cases previous <;> simp
  | succ n ih =>
    intro cursor frames last hrun
    change readOnto pool index previous before (n + 1) done cursor = _ at hrun
    rw [readOnto] at hrun
    split at hrun
    case h_2 => cases hrun
    case h_1 entry middle _ =>
      obtain ⟨rest, rfl, hrest⟩ := ih _ _ _ _ _ _ hrun
      refine ⟨_ :: rest, by rw [List.reverse_cons, List.append_assoc, List.singleton_append], ?_⟩
      cases previous with
      | none => exact hrest
      | some first =>
        refine List.isChain_cons_cons.2 ⟨?_, hrest⟩
        show first < first + entry.gap + 1
        omega

/-- The frames of a table come one after the other. -/
theorem pairwise_of_decode (h : decode pool initial bytes = .ok frames) :
    (frames.map Frame.offset).Pairwise (· < ·) := by
  have hread : Reader.Yields (read pool initial) fun frames =>
      (frames.map Frame.offset).Pairwise (· < ·) := by
    refine .behind fun count cursor frames next hrun => ?_
    obtain ⟨rest, rfl, hrest⟩ := yields_readOnto_isChain _ _ _ _ _ _ _ hrun
    exact List.isChain_iff_pairwise.1 hrest
  exact hread.of_parse h

/-- Frames that can be written are in the order of their offsets, and they read back with the
same locals on entry from the pool that the writing leaves. Every pool that is read from bytes
or grown from the empty one is well formed. -/
theorem reread_of_encode (h : (encode initial frames).run pool = (.ok bytes, new)) :
    (frames.map Frame.offset).Pairwise (· < ·) ∧
      (pool.WellFormed → decode new initial bytes = .ok frames) :=
  ⟨pairwise_of_encode h, fun hpool => decode_encode hpool h (.refl (P := fun _ => True) new)⟩

/-- A frame of each kind: short and long gaps without and with an item on the stack, two locals
more, two locals less, and all of them stated. -/
def variedFrames : List Frame :=
  [⟨5, [.integer], []⟩, ⟨100, [.integer], []⟩, ⟨101, [.integer], [.object "a/B"]⟩,
    ⟨200, [.integer], [.uninitialized 7]⟩, ⟨201, [.integer, .object "a/B", .long], []⟩,
    ⟨202, [.integer], []⟩, ⟨60000, [.double], [.null, .object "c/D"]⟩]

def variedTable : List UInt8 :=
  [0, 7, 5, 251, 0, 94, 64, 7, 0, 2, 247, 0, 98, 8, 0, 7, 253, 0, 0, 7, 0, 2, 4, 249, 0, 0,
    255, 233, 149, 0, 1, 3, 0, 2, 5, 7, 0, 4]

/-- The empty pool with the two classes that the frames name. -/
def variedPool : Pool :=
  ⟨#[none, some (.utf8 [97, 47, 66]), some (.classRef 1), some (.utf8 [99, 47, 68]),
    some (.classRef 3)]⟩

theorem reread_of_encode_varied :
    (encode [.integer] variedFrames).run .empty = (.ok variedTable, variedPool) ∧
      decode variedPool [.integer] variedTable = .ok variedFrames := by
  have hrun : (encode [.integer] variedFrames).run .empty = (.ok variedTable, variedPool) :=
    Prod.ext (by decide +kernel) (by decide +kernel)
  exact ⟨hrun, (reread_of_encode hrun).2 Pool.wellFormed_empty⟩

end Embargo.FrameTable
