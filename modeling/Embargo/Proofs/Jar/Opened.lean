import Embargo.Jar.Enforcement
import Embargo.Proofs.Attempt
import Mathlib.Algebra.GroupWithZero.Nat

/-!
What becomes of an archive, told entry by entry: the member that stands for an entry and what
is reported of it. A run goes over the entries once. Where no entry stops it, its members and
its report are put together from those of the entries.
-/
namespace Embargo.Jar

/-- An entry with the data that is read for it. -/
structure Opened where
  entry : Zip.Entry
  data : List UInt8

/-- The entries of an archive with their data, where all of them can be read. -/
structure Opens (limit : UInt64) (archive : Zip.Archive) (opened : List Opened) : Prop where
  entries : opened.map Opened.entry = archive
  data : ∀ x ∈ opened, readEntry limit x.entry = .ok x.data

/-- An archive gives the data of its entries in one way only. -/
theorem Opens.unique {limit : UInt64} {archive : Zip.Archive} {opened other : List Opened}
    (h : Opens limit archive opened) (h' : Opens limit archive other) : opened = other := by
  induction opened generalizing archive other with
  | nil =>
    obtain rfl := h.entries
    exact (List.map_eq_nil_iff.1 h'.entries).symm
  | cons x opened ih =>
    obtain ⟨rfl, hdata⟩ := h
    obtain ⟨y, rest, rfl, hentry, hentries⟩ := List.map_eq_cons_iff.1 h'.entries
    obtain ⟨hx, hopened⟩ := List.forall_mem_cons.1 hdata
    obtain ⟨hy, hrest⟩ := List.forall_mem_cons.1 h'.data
    rw [hentry, hx] at hy
    have hxy : x = y := by
      cases x
      cases y
      cases hentry
      cases hy
      rfl
    rw [hxy, ih ⟨rfl, hopened⟩ ⟨hentries, hrest⟩]

namespace Opened
variable (rule : Rule) (x : Opened)

/-- What the rule makes of a class entry; any other entry is none of its business. -/
def outcome? : Option (Except Embargo.Fault EnforcedClass) :=
  if isClass x.entry then some (rule.enforceBytes x.data) else none

/-- The class with its new bytes, where the rule changes it. -/
def changed? : Option (EnforcedClass × List UInt8) :=
  match x.outcome? rule with
  | some (.ok enforced) => enforced.bytes.map fun bytes => (enforced, bytes)
  | _ => none

/-- Why a class entry cannot be dealt with. -/
def fault? : Option Embargo.Fault :=
  match x.outcome? rule with
  | some (.error cause) => some cause
  | _ => none

/-- The data behind an enforcement. -/
def newData : List UInt8 := ((x.changed? rule).map Prod.snd).getD x.data

def member : Zip.Member :=
  if x.entry.isDirectory then .directory x.entry.name x.entry.modified x.entry.mode
  else .file x.entry.name x.entry.method x.entry.modified x.entry.mode (x.newData rule)

/-- What stops a run at the entry. -/
def stop? (settings : JarSettings) (x : Opened) : Option Fault :=
  match settings.policy with
  | .abort => (x.fault? settings.rule).map (.classFile x.entry.name)
  | .copy => none

end Opened

/-- What a run reports of the entries that it was over. -/
def Report.of (rule : Rule) (opened : List Opened) : Report :=
  let changed := opened.filterMap (Opened.changed? rule)
  { entries := opened.length
    classes := (opened.filter fun x => isClass x.entry).length
    changedClasses := changed.length
    calls := (changed.map fun c => c.1.counts.calls).sum
    fields := (changed.map fun c => c.1.counts.fields).sum
    passedThrough := (opened.filter fun x => (x.fault? rule).isSome).map fun x => x.entry.name }

/-- Two reports in one, with the digest of the first. -/
def Report.add (a b : Report) : Report :=
  { entries := a.entries + b.entries
    classes := a.classes + b.classes
    changedClasses := a.changedClasses + b.changedClasses
    calls := a.calls + b.calls
    fields := a.fields + b.fields
    passedThrough := a.passedThrough ++ b.passedThrough
    digest := a.digest }

namespace Report

theorem add_assoc (a b c : Report) : (a.add b).add c = a.add (b.add c) := by
  simp [add, Nat.add_assoc]

@[simp] theorem add_of_nil (rule : Rule) (report : Report) :
    report.add (.of rule []) = report := by
  simp [add, of]

@[simp] theorem empty_add_of (rule : Rule) (opened : List Opened) :
    ({} : Report).add (.of rule opened) = .of rule opened := by
  simp [add, of]

theorem of_append (rule : Rule) (front back : List Opened) :
    of rule (front ++ back) = (of rule front).add (of rule back) := by
  simp [of, add]

end Report

section Entry
variable {settings : JarSettings} {x : Opened} {report : Report}

theorem Opened.outcome?_of_not_isClass (rule : Rule) (hclass : isClass x.entry = false) :
    x.outcome? rule = none := by
  simp [outcome?, hclass]

theorem Opened.outcome?_of_isClass (rule : Rule) (hclass : isClass x.entry = true) :
    x.outcome? rule = some (rule.enforceBytes x.data) := by
  simp [outcome?, hclass]

theorem Opened.stop?_of_fault? (h : x.fault? settings.rule = none) : x.stop? settings = none := by
  cases hpolicy : settings.policy <;> simp [stop?, hpolicy, h]

/-- The data of a class entry and its part of the report, unless it stops the run. -/
theorem enforceClass_of_opened (hclass : isClass x.entry = true) :
    enforceClass settings x.entry.name x.data
        { report with entries := report.entries + 1, classes := report.classes + 1 } =
      match x.stop? settings with
      | some fault => .error fault
      | none => .ok (x.newData settings.rule, report.add (.of settings.rule [x])) := by
  have houtcome := Opened.outcome?_of_isClass settings.rule hclass
  unfold enforceClass
  cases henforce : settings.rule.enforceBytes x.data with
  | ok enforced =>
    rw [henforce] at houtcome
    have hfault : x.fault? settings.rule = none := by simp [Opened.fault?, houtcome]
    have hstop := Opened.stop?_of_fault? hfault
    cases hbytes : enforced.bytes with
    | none =>
      have hchanged : x.changed? settings.rule = none := by
        simp [Opened.changed?, houtcome, hbytes]
      simp [hbytes, hstop, Opened.newData, hchanged, hfault, hclass, Report.of, Report.add]
    | some bytes =>
      have hchanged : x.changed? settings.rule = some (enforced, bytes) := by
        simp [Opened.changed?, houtcome, hbytes]
      simp [hbytes, hstop, Opened.newData, hchanged, hfault, hclass, Report.of, Report.add]
  | error cause =>
    rw [henforce] at houtcome
    have hfault : x.fault? settings.rule = some cause := by simp [Opened.fault?, houtcome]
    have hchanged : x.changed? settings.rule = none := by simp [Opened.changed?, houtcome]
    cases hpolicy : settings.policy with
    | abort => simp [Opened.stop?, hpolicy, hfault]
    | copy =>
      simp [Opened.stop?, hpolicy, Opened.newData, hchanged, hfault, hclass, Report.of,
        Report.add]

theorem isDirectory_of_isClass {entry : Zip.Entry} (h : isClass entry = true) :
    entry.isDirectory = false := by
  simp only [isClass, Bool.and_eq_true, Bool.not_eq_true'] at h
  exact h.1

/-- An entry that is read stops the run, or else it gives its member and its part of the
report. -/
theorem enforceEntry_of_opened (h : readEntry settings.maxEntrySize x.entry = .ok x.data) :
    enforceEntry settings x.entry report =
      match x.stop? settings with
      | some fault => .error fault
      | none => .ok (x.member settings.rule, report.add (.of settings.rule [x])) := by
  unfold enforceEntry
  rw [h]
  cases hclass : isClass x.entry with
  | true =>
    have hfile := isDirectory_of_isClass hclass
    simp only [hfile, Bool.false_eq_true, ↓reduceIte, Except.bind, bind]
    rw [enforceClass_of_opened hclass]
    cases x.stop? settings with
    | some fault => rfl
    | none => simp [Opened.member, hfile, pure, Except.pure]
  | false =>
    -- only the count of the entries goes up, whether it is a directory or a file
    have houtcome := Opened.outcome?_of_not_isClass settings.rule hclass
    have hfault : x.fault? settings.rule = none := by simp [Opened.fault?, houtcome]
    have hchanged : x.changed? settings.rule = none := by simp [Opened.changed?, houtcome]
    have hstop := Opened.stop?_of_fault? hfault
    have hreport : report.add (.of settings.rule [x]) =
        { report with entries := report.entries + 1 } := by
      simp [Report.of, Report.add, hchanged, hfault, hclass]
    cases hdirectory : x.entry.isDirectory with
    | true => simp [hstop, hreport, Opened.member, hdirectory, bind, Except.bind, pure, Except.pure]
    | false =>
      simp [hstop, hreport, Opened.member, Opened.newData, hchanged, hdirectory, bind, Except.bind,
        pure, Except.pure]

end Entry

section Archive
variable {settings : JarSettings} {opened : List Opened} {archive : Zip.Archive} {δ : Type}
  {add : δ → Zip.Member → Except Fault δ} {draft last : δ} {report counts : Report}

/-- An entry that is read stops the run, or else its member is handed on. -/
theorem enforceOnto_cons_of_opened {x : Opened}
    (h : readEntry settings.maxEntrySize x.entry = .ok x.data) (rest : Zip.Archive) :
    enforceOnto add settings draft report (x.entry :: rest) =
      match x.stop? settings with
      | some fault => .error fault
      | none => add draft (x.member settings.rule) >>= fun draft =>
          enforceOnto add settings draft (report.add (.of settings.rule [x])) rest := by
  rw [enforceOnto, enforceEntry_of_opened h]
  cases x.stop? settings with
  | some fault => rfl
  | none =>
    dsimp only
    cases add draft (x.member settings.rule) <;> rfl

/-- A run over entries that are read ends at the first of them that stops it, where any member can
be handed on. -/
theorem enforceOnto_of_opened (next : δ → Zip.Member → δ)
    (h : ∀ x ∈ opened, readEntry settings.maxEntrySize x.entry = .ok x.data)
    (draft : δ) (report : Report) :
    enforceOnto (fun draft member => .ok (next draft member)) settings draft report
        (opened.map Opened.entry) =
      match opened.findSome? (Opened.stop? settings) with
      | some fault => .error fault
      | none => .ok ((opened.map (Opened.member settings.rule)).foldl next draft,
          report.add (.of settings.rule opened)) := by
  induction opened generalizing draft report with
  | nil => simp [enforceOnto]
  | cons x opened ih =>
    obtain ⟨hx, hrest⟩ := List.forall_mem_cons.1 h
    rw [List.map_cons, enforceOnto_cons_of_opened hx, List.findSome?_cons]
    cases x.stop? settings with
    | some fault => rfl
    | none =>
      dsimp only [bind, Except.bind]
      rw [ih hrest, Report.add_assoc, ← Report.of_append]
      rfl

/-- A run that ends well has read every entry, was stopped by none and has handed on the members
for all of them. -/
theorem enforceOnto_eq_ok_iff :
    enforceOnto add settings draft report archive = .ok (last, counts) ↔
      ∃ opened, Opens settings.maxEntrySize archive opened ∧
        (∀ x ∈ opened, x.stop? settings = none) ∧
        (opened.map (Opened.member settings.rule)).foldlM add draft = .ok last ∧
        counts = report.add (.of settings.rule opened) := by
  induction archive generalizing draft report with
  | nil =>
    rw [enforceOnto, Except.ok.injEq, Prod.mk.injEq]
    constructor
    · rintro ⟨rfl, rfl⟩
      exact ⟨[], ⟨rfl, by simp⟩, by simp, rfl, by simp⟩
    · rintro ⟨opened, hopened, -, hlast, rfl⟩
      obtain rfl := List.map_eq_nil_iff.1 hopened.entries
      exact ⟨Except.ok.inj hlast, by simp⟩
  | cons entry archive ih =>
    constructor
    · intro h
      obtain ⟨data, hdata⟩ : ∃ data, readEntry settings.maxEntrySize entry = .ok data := by
        rw [enforceOnto] at h
        cases hentry : enforceEntry settings entry report with
        | error fault => simp [hentry] at h
        | ok next =>
          obtain ⟨data, hdata, -⟩ := Except.bind_eq_ok_iff.1 hentry
          exact ⟨data, hdata⟩
      rw [show entry = (Opened.mk entry data).entry from rfl, enforceOnto_cons_of_opened hdata] at h
      cases hstop : Opened.stop? settings ⟨entry, data⟩ with
      | some fault => simp [hstop] at h
      | none =>
        rw [hstop] at h
        obtain ⟨next, hnext, hrest⟩ := Except.bind_eq_ok_iff.1 h
        obtain ⟨opened, hopened, hnone, hlast, rfl⟩ := ih.1 hrest
        refine ⟨⟨entry, data⟩ :: opened, ⟨by rw [List.map_cons, hopened.entries], ?_⟩, ?_, ?_, ?_⟩
        · exact List.forall_mem_cons.2 ⟨hdata, hopened.data⟩
        · exact List.forall_mem_cons.2 ⟨hstop, hnone⟩
        · exact Except.bind_eq_ok_iff.2 ⟨next, hnext, hlast⟩
        · rw [Report.add_assoc, ← Report.of_append]
          rfl
    · rintro ⟨opened, hopened, hnone, hlast, rfl⟩
      obtain ⟨x, opened, rfl, rfl, rfl⟩ := List.map_eq_cons_iff.1 hopened.entries
      obtain ⟨hx, hdata⟩ := List.forall_mem_cons.1 hopened.data
      obtain ⟨hstop, hnone⟩ := List.forall_mem_cons.1 hnone
      obtain ⟨next, hnext, hlast⟩ := Except.bind_eq_ok_iff.1 hlast
      rw [enforceOnto_cons_of_opened hx, hstop]
      refine Except.bind_eq_ok_iff.2 ⟨next, hnext, ih.2 ⟨opened, ⟨rfl, hdata⟩, hnone, hlast, ?_⟩⟩
      rw [Report.add_assoc, ← Report.of_append]
      rfl

/-- What a run over an archive makes of it, where all entries can be read. -/
theorem enforce_of_opens (h : Opens settings.maxEntrySize archive opened) :
    enforce settings archive =
      match opened.findSome? (Opened.stop? settings) with
      | some fault => .error fault
      | none => .ok (opened.map (Opened.member settings.rule), .of settings.rule opened) := by
  obtain ⟨rfl, hdata⟩ := h
  rw [enforce, enforceOnto_of_opened _ hdata, Report.empty_add_of]
  cases opened.findSome? (Opened.stop? settings) with
  | some fault => rfl
  | none => simp [Except.map, ← List.foldr_reverse]

/-- A run that ends well has read every entry and was stopped by none. -/
theorem enforce_eq_ok_iff {members : List Zip.Member} :
    enforce settings archive = .ok (members, report) ↔
      ∃ opened, Opens settings.maxEntrySize archive opened ∧
        (∀ x ∈ opened, x.stop? settings = none) ∧
        members = opened.map (Opened.member settings.rule) ∧
        report = .of settings.rule opened := by
  constructor
  · intro h
    obtain ⟨ended, honto, -⟩ := Except.map_eq_ok_iff.1 h
    obtain ⟨opened, hopened, hnone, -⟩ := enforceOnto_eq_ok_iff.1 honto
    rw [enforce_of_opens hopened, List.findSome?_eq_none_iff.2 hnone] at h
    cases h
    exact ⟨opened, hopened, hnone, rfl, rfl⟩
  · rintro ⟨opened, hopened, hnone, rfl, rfl⟩
    rw [enforce_of_opens hopened, List.findSome?_eq_none_iff.2 hnone]

end Archive

end Embargo.Jar
