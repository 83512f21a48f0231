import Embargo.Proofs.Jar.Accounting

/-!
What becomes of the entries that are neither classes nor directories by the slash at the end of
their names. They keep their data, unless the name ends in a backslash: such an entry passes for
a directory and comes out empty.
-/
namespace Embargo.Jar

/-- The name has neither the ending of a class nor the slash of a directory. -/
def IsResource (entry : Zip.Entry) : Prop :=
  ¬ ".class".toList <:+ entry.name.toList ∧ entry.name.toList.getLast? ≠ some '/'

theorem IsResource.isClass_eq_false {entry : Zip.Entry} (h : IsResource entry) :
    isClass entry = false := by
  cases hclass : isClass entry with
  | false => rfl
  | true =>
    simp only [isClass, Bool.and_eq_true, List.isSuffixOf_iff_suffix] at hclass
    exact absurd hclass.2 h.1

theorem IsResource.isDirectory_eq {entry : Zip.Entry} (h : IsResource entry) :
    entry.isDirectory = decide (entry.name.toList.getLast? = some '\\') := by
  have hslash := h.2
  unfold Zip.Entry.isDirectory
  split
  case h_1 c hlast =>
    rw [hlast] at hslash
    simp_all
  case h_2 hlast => simp [hlast]

theorem Opened.newData_of_not_isClass {rule : Rule} {x : Opened}
    (hclass : isClass x.entry = false) : x.newData rule = x.data := by
  simp [newData, changed?, outcome?_of_not_isClass rule hclass]

/-- What a resource holds behind a run. -/
theorem Opened.data_member_of_isResource {rule : Rule} {x : Opened} (h : IsResource x.entry) :
    (x.member rule).data = if x.entry.name.toList.getLast? = some '\\' then [] else x.data := by
  rw [member, h.isDirectory_eq]
  simp only [decide_eq_true_eq]
  split
  case isTrue => rfl
  case isFalse => exact newData_of_not_isClass h.isClass_eq_false

/-- Behind a run that ends well every resource is there under its name. It has the same data as
before, unless its name ends in a backslash: then it has none. -/
theorem enforce_keeps_resources {settings : JarSettings} {archive : Zip.Archive}
    {members : List Zip.Member} {report : Report}
    (h : enforce settings archive = .ok (members, report)) :
    ∃ opened, Opens settings.maxEntrySize archive opened ∧
      List.Forall₂ (fun x member => IsResource x.entry → member.name = x.entry.name ∧
        member.data = if x.entry.name.toList.getLast? = some '\\' then [] else x.data)
        opened members := by
  obtain ⟨opened, hopened, -, rfl, -⟩ := enforce_eq_ok_iff.1 h
  refine ⟨opened, hopened, ?_⟩
  rw [List.forall₂_map_right_iff]
  exact List.forall₂_same.2 fun x _ hresource =>
    ⟨x.name_member settings.rule, Opened.data_member_of_isResource hresource⟩

/-- Two texts whose names differ in a backslash at the end. -/
def backslashOpened : List Opened :=
  [.raw "lib\\notes\\" [104, 105], .raw "lib\\notes" [104, 105]]

def backslashJar : Zip.Archive := backslashOpened.map Opened.entry

/-- The first of the two loses its data. -/
theorem enforce_keeps_resources_backslash : ∃ members,
    enforce (beepSettings .abort) backslashJar = .ok (members, { entries := 2 }) ∧
      backslashOpened.map Opened.data = [[104, 105], [104, 105]] ∧
      members.map Zip.Member.data = [[], [104, 105]] := by
  have hrun : enforce (beepSettings .abort) backslashJar =
      .ok ([.directory "lib\\notes\\" none none,
        .file "lib\\notes" .stored none none [104, 105]], { entries := 2 }) := by
    decide +kernel
  obtain ⟨opened, hopened, hall⟩ := enforce_keeps_resources hrun
  obtain rfl : opened = backslashOpened := hopened.unique ⟨rfl, by decide +kernel⟩
  refine ⟨_, hrun, rfl, ?_⟩
  cases hall with
  | cons hfirst hrest =>
    cases hrest with
    | cons hsecond _ =>
      have hlost := (hfirst ⟨by decide +kernel, by decide +kernel⟩).2
      have hkept := (hsecond ⟨by decide +kernel, by decide +kernel⟩).2
      rw [if_pos (by decide +kernel)] at hlost
      rw [if_neg (by decide +kernel)] at hkept
      rw [List.map_cons, List.map_cons, hlost, hkept]
      rfl

end Embargo.Jar
