import Embargo.Proofs.Jar.Opened

/-!
What a run writes, with any library for archives: the members that the entries ask for, one after
the other, where the library takes them. The library at hand takes all that fits.
-/
namespace Embargo

namespace Zip
variable {members : List Member} {bytes : List UInt8}

/-- The library writes some members as an archive of some bytes. -/
def Library.Writes [Library] (members : List Member) (bytes : List UInt8) : Prop :=
  ∃ draft, members.foldlM Library.add Library.start = .ok draft ∧ Library.finish draft = .ok bytes

/-- The fields of an archive have place for the name of a member and for its data. -/
def Member.Fits (member : Member) : Prop :=
  (Text.Utf8.encode member.name).length ≤ 0xFFFF ∧ member.data.length ≤ 0xFFFFFFFF

instance (member : Member) : Decidable member.Fits := inferInstanceAs (Decidable (_ ∧ _))

theorem Library.add_eq_ok_iff {member : Member} {draft last : List Member} :
    add draft member = .ok last ↔
      member.Fits ∧ last = member :: draft := by
  simp only [add, Member.Fits]
  split_ifs with hname hdata
  · simp [Nat.not_le.2 hname]
  · simp [Nat.not_le.2 hdata]
  · rw [Except.ok.injEq, and_iff_right ⟨Nat.not_lt.1 hname, Nat.not_lt.1 hdata⟩]
    exact eq_comm

theorem Library.foldlM_add_eq_ok_iff {draft last : List Member} :
    members.foldlM add draft = .ok last ↔
      (∀ member ∈ members, member.Fits) ∧ last = members.reverse ++ draft := by
  induction members generalizing draft with
  | nil => simp [pure, Except.pure, eq_comm]
  | cons member members ih =>
    rw [List.foldlM_cons, Except.bind_eq_ok_iff, List.forall_mem_cons, List.reverse_cons,
      List.append_assoc]
    constructor
    · rintro ⟨next, hnext, hrest⟩
      obtain ⟨hmember, rfl⟩ := Library.add_eq_ok_iff.1 hnext
      obtain ⟨hmembers, rfl⟩ := ih.1 hrest
      exact ⟨⟨hmember, hmembers⟩, rfl⟩
    · rintro ⟨⟨hmember, hmembers⟩, rfl⟩
      exact ⟨_, Library.add_eq_ok_iff.2 ⟨hmember, rfl⟩, ih.2 ⟨hmembers, rfl⟩⟩

/-- Without the wide forms just that is written which fits. -/
theorem Library.writes_iff :
    Writes members bytes ↔ (∀ member ∈ members, member.Fits) ∧
      (render members).length ≤ 0xFFFFFFFF ∧ bytes = render members := by
  have hfinish : ∀ draft : List Member, finish draft = .ok bytes ↔
      (render draft.reverse).length ≤ 0xFFFFFFFF ∧ bytes = render draft.reverse := by
    intro draft
    simp only [finish]
    split_ifs with hlong
    · simp [Nat.not_le.2 hlong]
    · rw [Except.ok.injEq, and_iff_right (Nat.not_lt.1 hlong)]
      exact eq_comm
  have hdraft : (members.reverse ++ (start : List Member)).reverse = members := by
    rw [show (start : List Member) = [] from rfl, List.append_nil, List.reverse_reverse]
  constructor
  · rintro ⟨draft, hadd, hbytes⟩
    obtain ⟨hmembers, rfl⟩ := Library.foldlM_add_eq_ok_iff.1 hadd
    rw [hfinish, hdraft] at hbytes
    exact ⟨hmembers, hbytes⟩
  · rintro ⟨hmembers, hbytes⟩
    rw [← hdraft, ← hfinish] at hbytes
    exact ⟨_, Library.foldlM_add_eq_ok_iff.2 ⟨hmembers, rfl⟩, hbytes⟩

end Zip

namespace Jar
variable [Zip.Library] {settings : JarSettings} {archive : Zip.Archive} {bytes : List UInt8}
  {report : Report} {members : List Zip.Member} {draft last : Zip.Library.Draft}

theorem addMember_eq_ok_iff {member : Zip.Member} :
    addMember draft member = .ok last ↔ Zip.Library.add draft member = .ok last :=
  Except.mapError_eq_ok_iff

theorem foldlM_addMember_eq_ok_iff :
    members.foldlM addMember draft = .ok last ↔
      members.foldlM Zip.Library.add draft = .ok last := by
  induction members generalizing draft with
  | nil => simp [pure, Except.pure]
  | cons member members ih =>
    simp only [List.foldlM_cons, Except.bind_eq_ok_iff, addMember_eq_ok_iff, ih]

/-- A run that writes ends well where one that collects the members does, and the library takes
these. -/
theorem build_eq_ok_iff :
    build settings archive = .ok (bytes, report) ↔ ∃ members,
      enforce settings archive = .ok (members, report) ∧ Zip.Library.Writes members bytes := by
  constructor
  · intro h
    obtain ⟨⟨draft, counts⟩, honto, h⟩ := Except.bind_eq_ok_iff.1 h
    obtain ⟨written, hfinish, h⟩ := Except.bind_eq_ok_iff.1 h
    cases h
    obtain ⟨opened, hopened, hnone, hdraft, hcounts⟩ := enforceOnto_eq_ok_iff.1 honto
    rw [Report.empty_add_of] at hcounts
    exact ⟨_, enforce_eq_ok_iff.2 ⟨opened, hopened, hnone, rfl, hcounts⟩, draft,
      foldlM_addMember_eq_ok_iff.1 hdraft, Except.mapError_eq_ok_iff.1 hfinish⟩
  · rintro ⟨members, henforce, draft, hdraft, hfinish⟩
    obtain ⟨opened, hopened, hnone, rfl, rfl⟩ := enforce_eq_ok_iff.1 henforce
    have honto : enforceOnto addMember settings Zip.Library.start {} archive =
        .ok (draft, .of settings.rule opened) :=
      enforceOnto_eq_ok_iff.2 ⟨opened, hopened, hnone, foldlM_addMember_eq_ok_iff.2 hdraft,
        (Report.empty_add_of _ _).symm⟩
    exact Except.bind_eq_ok_iff.2 ⟨_, honto, Except.bind_eq_ok_iff.2
      ⟨bytes, Except.mapError_eq_ok_iff.2 hfinish, rfl⟩⟩

end Jar

end Embargo
