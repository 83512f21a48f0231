import Embargo.Proofs.Enforcement.Readable
import Embargo.Proofs.Jar.Opened

/-!
The new archive has one member for each entry, and the report tells how the class entries
fared. Under the policy `abort` the first class entry that cannot be dealt with ends the run.
-/
namespace Embargo.Jar

section Accounting
variable {settings : JarSettings} {opened : List Opened} {archive : Zip.Archive}

@[simp] theorem Opened.name_member (rule : Rule) (x : Opened) :
    (x.member rule).name = x.entry.name := by
  unfold member
  split <;> rfl

/-- A class entry is never a directory. -/
theorem Opened.data_member_of_isClass {rule : Rule} {x : Opened} (h : isClass x.entry = true) :
    (x.member rule).data = x.newData rule := by
  rw [member, isDirectory_of_isClass h]
  rfl

theorem stop?_eq_none_iff {x : Opened} :
    x.stop? settings = none ↔ (settings.policy = .abort → x.fault? settings.rule = none) := by
  cases hpolicy : settings.policy <;> simp [Opened.stop?, hpolicy]

/-- The fault of the first class entry that has one ends the run. -/
theorem enforce_of_fault? {front back : List Opened} {x : Opened} {cause : Embargo.Fault}
    (hopened : Opens settings.maxEntrySize archive (front ++ x :: back))
    (hpolicy : settings.policy = .abort) (hfront : ∀ y ∈ front, y.fault? settings.rule = none)
    (hcause : x.fault? settings.rule = some cause) :
    enforce settings archive = .error (.classFile x.entry.name cause) := by
  have hnone : front.findSome? (Opened.stop? settings) = none :=
    List.findSome?_eq_none_iff.2 fun y hy => Opened.stop?_of_fault? (hfront y hy)
  have hsome : x.stop? settings = some (.classFile x.entry.name cause) := by
    simp [Opened.stop?, hpolicy, hcause]
  rw [enforce_of_opens hopened, List.findSome?_append, hnone, Option.none_or,
    List.findSome?_cons, hsome]

variable (settings archive) in
/-- What a run that ended well owes the entries of an archive. -/
structure Accounts (opened : List Opened) (members : List Zip.Member) (report : Report) :
    Prop where
  opens : Opens settings.maxEntrySize archive opened
  /-- There is one member for each entry, in order and under its name. -/
  names : members.map Zip.Member.name = archive.map Zip.Entry.name
  /-- A class entry has the new bytes that the rule makes of it, or else its own. -/
  classes : List.Forall₂ (fun x member => isClass x.entry = true →
    member.data = x.newData settings.rule) opened members
  report : report = .of settings.rule opened
  /-- Only a run that copies gets over a fault. -/
  faultless : settings.policy = .abort → ∀ x ∈ opened, x.fault? settings.rule = none

/-- A run that ends well accounts for every entry. Where all entries can be read, it ends well
unless some class entry is at fault and the policy is `abort`; the first such entry is named. -/
theorem enforce_accounted (settings : JarSettings) (archive : Zip.Archive) :
    (∀ members report, enforce settings archive = .ok (members, report) →
      ∃ opened, Accounts settings archive opened members report) ∧
    (settings.policy = .abort → ∀ front x back cause,
      Opens settings.maxEntrySize archive (front ++ x :: back) →
      (∀ y ∈ front, y.fault? settings.rule = none) → x.fault? settings.rule = some cause →
      enforce settings archive = .error (.classFile x.entry.name cause)) ∧
    ∀ opened, Opens settings.maxEntrySize archive opened →
      (settings.policy = .abort → ∀ x ∈ opened, x.fault? settings.rule = none) →
      ∃ members report, enforce settings archive = .ok (members, report) := by
  refine ⟨fun members report h => ?_, fun hpolicy front x back cause hopened hfront hcause =>
    enforce_of_fault? hopened hpolicy hfront hcause, fun opened hopened hnone => ?_⟩
  · obtain ⟨opened, hopened, hstop, rfl, rfl⟩ := enforce_eq_ok_iff.1 h
    refine ⟨opened, hopened, ?_, ?_, rfl, fun hpolicy x hx => ?_⟩
    · rw [← hopened.entries]
      simp
    · rw [List.forall₂_map_right_iff]
      exact List.forall₂_same.2 fun x _ hclass => Opened.data_member_of_isClass hclass
    · exact stop?_eq_none_iff.1 (hstop x hx) hpolicy
  · have hstop : opened.findSome? (Opened.stop? settings) = none :=
      List.findSome?_eq_none_iff.2 fun x hx =>
        stop?_eq_none_iff.2 fun hpolicy => hnone hpolicy x hx
    rw [enforce_of_opens hopened, hstop]
    exact ⟨_, _, rfl⟩

end Accounting

/-- An entry that yields its data as it is. -/
def rawEntry (name : String) (data : List UInt8) : Zip.Entry where
  name := name
  method := .stored
  modified := none
  mode := none
  declaredSize := UInt64.ofNat data.length
  content := .ok ⟨fun count => .ok ⟨(data.take count).toArray⟩⟩

def Opened.raw (name : String) (data : List UInt8) : Opened := ⟨rawEntry name data, data⟩

/-- The rule of `beepRule`, over faults or not. -/
def beepSettings (policy : Policy) : JarSettings where
  exception := beepRule.exception
  preamble := beepRule.preamble
  policy := policy

/-- A directory, a class with one call under the embargo, one that is cut off, and a text. -/
def mixedOpened : List Opened :=
  [.raw "META-INF/" [], .raw "Beep.class" beepBytes, .raw "Bad.class" [0xca, 0xfe],
    .raw "notes.txt" [104, 105]]

def mixedJar : Zip.Archive := mixedOpened.map Opened.entry

theorem enforce_accounted_mixed :
    (∃ members, enforce (beepSettings .copy) mixedJar
        = .ok (members, ⟨4, 2, 1, 1, 0, ["Bad.class"], ""⟩) ∧
      members.map Zip.Member.name = ["META-INF/", "Beep.class", "Bad.class", "notes.txt"]) ∧
    enforce (beepSettings .abort) mixedJar
      = .error (.classFile "Bad.class" (.unexpectedEnd 0)) := by
  have hopens : Opens 268435456 mixedJar mixedOpened := ⟨rfl, by decide +kernel⟩
  constructor
  · obtain ⟨haccounts, -, hends⟩ := enforce_accounted (beepSettings .copy) mixedJar
    obtain ⟨members, report, hrun⟩ := hends mixedOpened hopens nofun
    obtain ⟨opened, hopened, hnames, -, hreport, -⟩ := haccounts members report hrun
    obtain rfl : opened = mixedOpened := hopened.unique hopens
    have hcounts : Report.of (beepSettings .copy).rule mixedOpened
        = ⟨4, 2, 1, 1, 0, ["Bad.class"], ""⟩ := by decide +kernel
    exact ⟨members, by rw [hrun, hreport, hcounts], hnames⟩
  · obtain ⟨-, hnamed, -⟩ := enforce_accounted (beepSettings .abort) mixedJar
    exact hnamed rfl (mixedOpened.take 2) (.raw "Bad.class" [0xca, 0xfe]) (mixedOpened.drop 3) _
      hopens (by decide +kernel) (by decide +kernel)

end Embargo.Jar
