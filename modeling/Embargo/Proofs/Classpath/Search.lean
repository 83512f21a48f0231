import Embargo.Proofs.Classpath.Containment
import Embargo.Proofs.Classpath.Registration

/-!
Which root a class comes from. A root that has no file for the class is passed over, unless the
way to where the file would be is cut off: then the search ends there, and what later roots
have is not seen.
-/
namespace Embargo.Classpath
open Storage (Tree)

variable {tree : Tree} {name : String} {root : Root} {before : List Root}

namespace Root

/-- Whether a root has a file for a class. -/
def Holds (tree : Tree) (name : String) : Root → Prop
  | directory base => ∃ data, tree.read (Storage.join base (EntryPath.ofClass name)) = .ok data
  | archive _ entries _ => (entries.find? (EntryPath.ofClass name)).isSome

/-- What cuts off the way to a file. A missing name does not: there is nothing to be read. -/
def cutOff? : Except StorageFault (List UInt8) → Option StorageFault
  | .ok _ => none
  | .error cause => if cause = .missing then none else some cause

theorem cutOff?_eq_some_iff {result : Except StorageFault (List UInt8)} {cause : StorageFault} :
    cutOff? result = some cause ↔ cause ≠ .missing ∧ result = .error cause := by
  cases result with
  | ok data => simp [cutOff?]
  | error fault =>
    rw [cutOff?, Except.error.injEq, Option.ite_none_left_eq_some, Option.some.injEq]
    exact ⟨fun ⟨hne, h⟩ => ⟨h ▸ hne, h⟩, fun ⟨hne, h⟩ => ⟨h ▸ hne, h⟩⟩

/-- What cuts off the way to where a root would have the file for a class. -/
def obstacle? (tree : Tree) (name : String) : Root → Option StorageFault
  | directory base => cutOff? (tree.read (Storage.join base (EntryPath.ofClass name)))
  | archive .. => none

/-- What comes of loading a class from a root alone. -/
def outcome (tree : Tree) (name : String) (root : Root) : Except LoadFault ClassFile :=
  ((root.load name : StateM Tree _).run tree).1

theorem parseClass_ne_missing (data : List UInt8) (other : String) :
    parseClass name data ≠ .error (.missing other) := by
  rw [parseClass]
  split
  · simp
  · split
    · simp
    · dsimp only
      split_ifs <;> simp

theorem readEntry_ne_missing {entries : Zip.Archive} (limit : UInt64)
    (h : (entries.find? (EntryPath.ofClass name)).isSome) (other : String) :
    readEntry entries limit name ≠ .error (.missing other) := by
  obtain ⟨entry, hentry⟩ := Option.isSome_iff_exists.1 h
  rw [readEntry, hentry]
  dsimp only
  split
  · simp
  · split <;> simp

theorem outcome_directory (base : String) : (directory base).outcome tree name =
    match tree.read (Storage.join base (EntryPath.ofClass name)) with
    | .ok data => parseClass name data
    | .error .missing => .error (.missing name)
    | .error cause => .error (.unreadable name cause) := by
  rw [outcome, load, loadRead, StateT.run_bind, run_readClass_directory]
  rcases tree.read (Storage.join base (EntryPath.ofClass name)) with cause | data
  · cases cause <;> rfl
  · rfl

theorem outcome_archive (path : String) (entries : Zip.Archive) (limit : UInt64) :
    (archive path entries limit).outcome tree name =
      readEntry entries limit name >>= parseClass name := by
  have hread : ((archive path entries limit).readClass name : StateM Tree _).run tree =
      (readEntry entries limit name, tree) := rfl
  rw [outcome, load, loadRead, StateM.run_bind_of_eq hread]
  cases readEntry entries limit name <;> rfl

/-- A root that has a file for a class is never passed over. -/
theorem outcome_of_holds (h : root.Holds tree name) (other : String) :
    root.outcome tree name ≠ .error (.missing other) := by
  cases root with
  | directory base =>
    obtain ⟨data, hdata⟩ := h
    rw [outcome_directory, hdata]
    exact parseClass_ne_missing data other
  | archive path entries limit =>
    have hread := readEntry_ne_missing limit h other
    rw [outcome_archive]
    cases hentry : readEntry entries limit name with
    | ok data => exact parseClass_ne_missing data other
    | error fault =>
      rw [hentry] at hread
      intro hmissing
      cases hmissing
      exact hread rfl

theorem outcome_of_not_holds (h : ¬ root.Holds tree name) : root.outcome tree name =
    match root.obstacle? tree name with
    | none => .error (.missing name)
    | some cause => .error (.unreadable name cause) := by
  cases root with
  | directory base =>
    rw [outcome_directory, obstacle?]
    cases hread : tree.read (Storage.join base (EntryPath.ofClass name)) with
    | ok data => exact absurd (Exists.intro data hread) h
    | error cause => cases cause <;> rfl
  | archive path entries limit =>
    have hnone : entries.find? (EntryPath.ofClass name) = none := by
      simpa [Holds] using h
    rw [outcome_archive, readEntry, hnone]
    rfl

end Root

theorem outcome_cons (root : Root) (after : Classpath (StateM Tree)) :
    outcome (root.walker :: after) tree name =
      match root.outcome tree name with
      | .error (.missing _) => after.outcome tree name
      | outcome => outcome := by
  have hload : (root.walker.load name : StateM Tree _).run tree = (root.outcome tree name, tree) :=
    Prod.ext rfl (root.snd_run_load Storage.steady_tree name tree)
  rw [outcome, load, StateM.run_bind_of_eq hload]
  rcases root.outcome tree name with cause | classFile
  · cases cause <;> rfl
  · rfl

/-- Roots without a file for a class are passed over up to the first obstacle. -/
theorem outcome_append (h : ∀ root ∈ before, ¬ root.Holds tree name)
    (after : Classpath (StateM Tree)) :
    outcome (before.map Root.walker ++ after) tree name =
      match before.findSome? (Root.obstacle? tree name) with
      | none => after.outcome tree name
      | some cause => .error (.unreadable name cause) := by
  induction before with
  | nil => rfl
  | cons root before ih =>
    obtain ⟨hroot, hbefore⟩ := List.forall_mem_cons.1 h
    rw [List.map_cons, List.cons_append, outcome_cons, Root.outcome_of_not_holds hroot,
      List.findSome?_cons]
    cases root.obstacle? tree name with
    | none => exact ih hbefore
    | some cause => rfl

/-- A class comes from the first root that has a file for it, and is missing where no root has
one, as long as the way there is not cut off in a root that is searched before. It is cut off
by a file in place of one of the directories on the way, by a directory in place of the class
file and by names that are too long. -/
theorem search_exact (tree : Tree) (name : String) :
    (∀ (before : List Root) (root : Root) after, (∀ other ∈ before, ¬ other.Holds tree name) →
      root.Holds tree name →
      outcome (before.map Root.walker ++ root.walker :: after) tree name =
        match before.findSome? (Root.obstacle? tree name) with
        | none => root.outcome tree name
        | some cause => .error (.unreadable name cause)) ∧
      (∀ roots : List Root, (∀ root ∈ roots, ¬ root.Holds tree name) →
        outcome (roots.map Root.walker) tree name =
          match roots.findSome? (Root.obstacle? tree name) with
          | none => .error (.missing name)
          | some cause => .error (.unreadable name cause)) ∧
      ∀ base here, tree.HasRoot base here → (EntryPath.ofClass name).toList.head? ≠ some '/' →
        Tree.Openable (Storage.join base (EntryPath.ofClass name)) → ∀ cause,
        ((Root.directory base).obstacle? tree name = some cause ↔ cause ≠ .missing ∧
          tree.Ends here (Storage.steps (Storage.parts (EntryPath.ofClass name)))
            (.error cause)) := by
  refine ⟨fun before root after hbefore hroot => ?_, fun roots hroots => ?_,
    fun base here hhere hrelative hopen cause => ?_⟩
  · rw [outcome_append hbefore, outcome_cons]
    have hfound := Root.outcome_of_holds hroot
    cases hloaded : root.outcome tree name with
    | ok classFile => rfl
    | error fault =>
      rw [hloaded] at hfound
      cases fault with
      | missing other => exact absurd rfl (hfound other)
      | _ => rfl
  · have := outcome_append hroots []
    rwa [List.append_nil] at this
  · rw [Root.obstacle?, Root.cutOff?_eq_some_iff,
      Tree.read_join_iff hhere (EntryPath.downward_ofClass hrelative) hopen]

/-- Three roots: a file stands in place of a package in the first, the second has a class file
in that package, and the third is empty. -/
def crossedTree : Tree where
  workingDirectory := ["home"]
  nodes := [(["home"], .directory), (["home", "one"], .directory),
    (["home", "one", "a"], .file [0]), (["home", "two"], .directory),
    (["home", "two", "a"], .directory), (["home", "two", "a", "B.class"], .file [1]),
    (["home", "three"], .directory)]

theorem search_exact_crossed :
    outcome [(Root.directory "one").walker, (Root.directory "two").walker] crossedTree "a.B" =
        .error (.unreadable "a.B" .notDirectory) ∧
      outcome [(Root.directory "three").walker, (Root.directory "two").walker] crossedTree "a.B" =
        Root.outcome crossedTree "a.B" (.directory "two") ∧
      outcome [(Root.directory "three").walker] crossedTree "a.B" = .error (.missing "a.B") ∧
      crossedTree.Ends ["home", "one"] ["a", "B.class"] (.error .notDirectory) := by
  have habsent : ∀ base cause,
      crossedTree.read (Storage.join base (EntryPath.ofClass "a.B")) = .error cause →
        ∀ other ∈ [Root.directory base], ¬ other.Holds crossedTree "a.B" := by
    intro base cause hcause other hother hholds
    obtain rfl := List.mem_singleton.1 hother
    obtain ⟨data, hdata⟩ := hholds
    rw [hcause] at hdata
    cases hdata
  have hone := habsent "one" .notDirectory rfl
  have hthree := habsent "three" .missing rfl
  have htwo : (Root.directory "two").Holds crossedTree "a.B" := ⟨[1], rfl⟩
  obtain ⟨hfirst, hnone, hobstacle⟩ := search_exact crossedTree "a.B"
  refine ⟨(hfirst _ _ [] hone htwo).trans rfl, (hfirst _ _ [] hthree htwo).trans rfl,
    (hnone _ hthree).trans rfl, ?_⟩
  exact ((hobstacle "one" ["home", "one"] rfl (by decide) ⟨by decide, by decide⟩
    .notDirectory).1 rfl).2

end Embargo.Classpath
