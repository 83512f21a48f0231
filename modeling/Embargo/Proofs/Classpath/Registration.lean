import Embargo.Classpath.Registration
import Embargo.Storage.Tree
import Embargo.Proofs.Document
import Embargo.Proofs.Enforcement.Readable
import Embargo.Proofs.Jar.Accounting
import Mathlib.Data.List.Perm.Basic

/-!
What a registration pass does over roots of any kind. It never stops, it registers the classes that
it is told of and that load, each once, and it accounts for everything else. What it registers does
not depend on the order in which it is told of the classes, nor on how often, and the document of
the registry says just that.
-/
namespace Embargo

namespace StateM
variable {σ α β : Type} {x : StateM σ α} {f : α → StateM σ β} {s : σ}

theorem run_bind_of_eq {a : α} (h : x.run s = (a, s)) : (x >>= f).run s = (f a).run s := by
  rw [StateT.run_bind, h]
  rfl

theorem snd_run_bind (h : (x.run s).2 = s) (hf : ∀ a, ((f a).run s).2 = s) :
    ((x >>= f).run s).2 = s := by
  have hx : x.run s = ((x.run s).1, s) := Prod.ext rfl h
  rw [run_bind_of_eq hx]
  exact hf _

theorem run_mapM {g : α → β} {xs : List α} (h : ∀ x ∈ xs, (f x).run s = (g x, s)) :
    (xs.mapM f).run s = (xs.map g, s) := by
  induction xs with
  | nil => rfl
  | cons x xs ih =>
    obtain ⟨hx, hxs⟩ := List.forall_mem_cons.1 h
    rw [List.mapM_cons, run_bind_of_eq hx, run_bind_of_eq (ih hxs), List.map_cons]
    rfl

theorem run_foldlM {f : β → α → StateM σ β} {g : β → α → β}
    (h : ∀ y x, (f y x).run s = (g y x, s)) (xs : List α) (y : β) :
    (xs.foldlM f y).run s = (xs.foldl g y, s) := by
  induction xs generalizing y with
  | nil => rfl
  | cons x xs ih => rw [List.foldlM_cons, run_bind_of_eq (h y x), ih, List.foldl_cons]

end StateM

/-- Looking at files changes nothing. -/
structure Storage.Steady (σ : Type) [Storage (StateM σ)] : Prop where
  list : ∀ path (s : σ), ((Storage.list path : StateM σ _).run s).2 = s
  read : ∀ path (s : σ), ((Storage.read path : StateM σ _).run s).2 = s

theorem Storage.steady_tree : Steady Tree where
  list := fun _ _ => rfl
  read := fun _ _ => rfl

namespace Classpath
open Reflection (Registry)

section Roots
variable {σ : Type} [Storage (StateM σ)]

/-- The classes that a root reports for a package, and the faults on the way. -/
def Root.reports (s : σ) (package : String) (root : Root) : List (Except RootFault String) :=
  ((root.classNames package : StateM σ _).run s).1

theorem Root.snd_run_load (h : Storage.Steady σ) (root : Root) (name : String) (s : σ) :
    ((root.load name : StateM σ _).run s).2 = s := by
  have hread : ((root.readClass name : StateM σ _).run s).2 = s := by
    cases root with
    | archive => rfl
    | directory path =>
      refine StateM.snd_run_bind (h.read _ s) fun data => ?_
      rcases data with cause | data
      · cases cause <;> rfl
      · rfl
  refine StateM.snd_run_bind hread fun data => ?_
  cases data <;> rfl

end Roots

section Answers
variable {σ : Type}

/-- Asking a root changes nothing, so that its answers depend on the state alone. -/
structure Walker.Steady (root : Walker (StateM σ)) : Prop where
  classNames : ∀ package s, ((root.classNames package).run s).2 = s
  load : ∀ name s, ((root.load name).run s).2 = s

/-- Directories and archives are steady where looking at files changes nothing. -/
theorem Root.steady_walker [Storage (StateM σ)] (h : Storage.Steady σ) (root : Root) :
    (root.walker : Walker (StateM σ)).Steady where
  classNames := fun package s => by
    cases root with
    | archive => rfl
    | directory path => exact h.list path s
  load := root.snd_run_load h

/-- The classes that a root reports for a package, and the faults on the way. -/
def Walker.reports (s : σ) (package : String) (root : Walker (StateM σ)) :
    List (Except RootFault String) :=
  ((root.classNames package).run s).1

/-- What comes of loading a class. -/
def outcome (roots : Classpath (StateM σ)) (s : σ) (name : String) : Except LoadFault ClassFile :=
  ((load name roots).run s).1

variable {roots : Classpath (StateM σ)} (h : ∀ root ∈ roots, root.Steady)
include h

theorem run_load (name : String) (s : σ) :
    (load name roots).run s = (roots.outcome s name, s) := by
  refine Prod.ext rfl ?_
  induction roots with
  | nil => rfl
  | cons root rest ih =>
    obtain ⟨hroot, hrest⟩ := List.forall_mem_cons.1 h
    refine StateM.snd_run_bind (hroot.load name s) fun loaded => ?_
    rcases loaded with cause | classFile
    · cases cause <;> first | exact ih hrest | rfl
    · rfl

theorem run_classNames (package : String) (s : σ) :
    (roots.classNames package).run s = (roots.flatMap (Walker.reports s package), s) := by
  have hreports : ∀ root ∈ roots,
      (root.classNames package).run s = (root.reports s package, s) :=
    fun root hroot => Prod.ext rfl ((h root hroot).classNames package s)
  rw [classNames, StateM.run_bind_of_eq (StateM.run_mapM hreports)]
  rfl

end Answers

/-- What a pass is told: a class that it is to try, or a part of a package that it must leave
out. -/
abbrev Notice := Except (String × RootFault) String

/-- What the notices make a pass leave out of the packages. -/
def faults (notices : List Notice) : List Omission :=
  notices.filterMap fun
    | .ok _ => none
    | .error (package, cause) => some (.package package cause)

namespace Pass
variable {outcome : String → Except LoadFault ClassFile} {notices : List Notice} {pass : Pass}
  {P : String → Prop}

/-- How a pass takes a notice, where it is known what comes of loading a class. -/
def heed (outcome : String → Except LoadFault ClassFile) (pass : Pass) : Notice → Pass
  | .ok name =>
    if name ∈ pass.tried then pass
    else
      let pass := { pass with tried := name :: pass.tried }
      match outcome name with
      | .ok _ =>
        { pass with registry := pass.registry.register name, registered := pass.registered + 1 }
      | .error cause => { pass with omitted := .classFile name cause :: pass.omitted }
  | .error (package, cause) => { pass with omitted := .package package cause :: pass.omitted }

/-- How things stand behind some notices. -/
structure Accounts (outcome : String → Except LoadFault ClassFile) (notices : List Notice)
    (pass : Pass) : Prop where
  mem_tried : ∀ name, name ∈ pass.tried ↔ .ok name ∈ notices
  holds : pass.registry.Holds fun name =>
    .ok name ∈ notices ∧ ∃ classFile, outcome name = .ok classFile
  registered : pass.registered = pass.registry.size
  omitted : ∃ failing : List (String × LoadFault), (failing.map Prod.fst).Nodup ∧
    (∀ name cause, (name, cause) ∈ failing ↔ .ok name ∈ notices ∧ outcome name = .error cause) ∧
    pass.omitted.Perm (faults notices ++ failing.map fun (name, cause) => .classFile name cause)

theorem accounts_start : (start .empty).Accounts outcome [] where
  mem_tried := fun name => by simp [start]
  holds := Registry.holds_empty fun name h => nomatch h.1
  registered := rfl
  omitted := ⟨[], .nil, fun name cause => by simp, .nil⟩

/-- A class that has been tried is not tried again. -/
theorem Accounts.again {name : String} (h : pass.Accounts outcome notices)
    (hname : .ok name ∈ notices) : pass.Accounts outcome (notices ++ [.ok name]) := by
  have hmem : ∀ other, .ok other ∈ notices ++ [.ok name] ↔ .ok other ∈ notices := by
    intro other
    rw [List.mem_append, List.mem_singleton, or_iff_left_of_imp]
    rintro ⟨⟩
    exact hname
  obtain ⟨failing, hnodup, hfailing, homitted⟩ := h.omitted
  exact {
    mem_tried := fun other => (h.mem_tried other).trans (hmem other).symm
    holds := h.holds.congr fun other => by rw [hmem]
    registered := h.registered
    omitted := ⟨failing, hnodup, fun other cause => by rw [hmem, hfailing],
      by simpa [faults] using homitted⟩ }

theorem Accounts.fault {package : String} {cause : RootFault} (h : pass.Accounts outcome notices) :
    (pass.heed outcome (.error (package, cause))).Accounts outcome
      (notices ++ [.error (package, cause)]) := by
  have hmem : ∀ other, .ok other ∈ notices ++ [.error (package, cause)] ↔ .ok other ∈ notices := by
    simp
  obtain ⟨failing, hnodup, hfailing, homitted⟩ := h.omitted
  refine ⟨fun other => (h.mem_tried other).trans (hmem other).symm,
    h.holds.congr fun other => by rw [hmem], h.registered, failing, hnodup,
    fun other cause => by rw [hmem, hfailing], ?_⟩
  simpa [faults, heed] using (homitted.cons _).trans List.perm_middle.symm

theorem mem_told {name other : String} :
    Except.ok other ∈ notices ++ [.ok name] ↔ other = name ∨ .ok other ∈ notices := by
  rw [List.mem_append, List.mem_singleton, Except.ok.injEq, or_comm]

theorem told_and_iff_of_pos {name other : String} (hname : P name) :
    (Except.ok other ∈ notices ++ [.ok name] ∧ P other) ↔
      other = name ∨ .ok other ∈ notices ∧ P other := by
  rw [mem_told]
  constructor
  · rintro ⟨rfl | hother, hP⟩
    · exact .inl rfl
    · exact .inr ⟨hother, hP⟩
  · rintro (rfl | ⟨hother, hP⟩)
    · exact ⟨.inl rfl, hname⟩
    · exact ⟨.inr hother, hP⟩

theorem told_and_iff_of_neg {name other : String} (hname : ¬ P name) :
    (Except.ok other ∈ notices ++ [.ok name] ∧ P other) ↔ .ok other ∈ notices ∧ P other := by
  rw [mem_told, or_and_right, or_iff_right]
  rintro ⟨rfl, hP⟩
  exact hname hP

theorem Accounts.loads {name : String} {classFile : ClassFile}
    (h : pass.Accounts outcome notices) (hname : .ok name ∉ notices)
    (hload : outcome name = .ok classFile) :
    (pass.heed outcome (.ok name)).Accounts outcome (notices ++ [.ok name]) := by
  obtain ⟨failing, hnodup, hfailing, homitted⟩ := h.omitted
  have hheed : pass.heed outcome (.ok name) = { pass with
      tried := name :: pass.tried, registry := pass.registry.register name,
      registered := pass.registered + 1 } := by
    rw [heed, if_neg (mt (h.mem_tried name).1 hname), hload]
  rw [hheed]
  refine ⟨fun other => ?_, (h.holds.register name).congr fun other => ?_, ?_, failing, hnodup,
    fun other cause => ?_, ?_⟩
  · rw [mem_told, List.mem_cons, h.mem_tried]
  · exact (told_and_iff_of_pos (P := fun name => ∃ classFile, outcome name = .ok classFile)
      ⟨classFile, hload⟩).symm
  · rw [h.holds.size_register fun hold => hname hold.1, h.registered]
  · rw [hfailing]
    exact (told_and_iff_of_neg (P := fun name => outcome name = .error cause)
      (by rw [hload]; nofun)).symm
  · simpa [faults] using homitted

theorem Accounts.fails {name : String} {cause : LoadFault}
    (h : pass.Accounts outcome notices) (hname : .ok name ∉ notices)
    (hload : outcome name = .error cause) :
    (pass.heed outcome (.ok name)).Accounts outcome (notices ++ [.ok name]) := by
  obtain ⟨failing, hnodup, hfailing, homitted⟩ := h.omitted
  have hheed : pass.heed outcome (.ok name) = { pass with
      tried := name :: pass.tried, omitted := .classFile name cause :: pass.omitted } := by
    rw [heed, if_neg (mt (h.mem_tried name).1 hname), hload]
  rw [hheed]
  refine ⟨fun other => ?_, h.holds.congr fun other => ?_, h.registered,
    (name, cause) :: failing, ?_, fun other fault => ?_, ?_⟩
  · rw [mem_told, List.mem_cons, h.mem_tried]
  · exact (told_and_iff_of_neg (P := fun name => ∃ classFile, outcome name = .ok classFile)
      (by rw [hload]; rintro ⟨_, ⟨⟩⟩)).symm
  · refine List.nodup_cons.2 ⟨fun hmem => ?_, hnodup⟩
    obtain ⟨⟨other, fault⟩, hfail, rfl⟩ := List.mem_map.1 hmem
    exact hname ((hfailing other fault).1 hfail).1
  · rw [List.mem_cons, hfailing, Prod.mk.injEq]
    by_cases hfault : fault = cause
    · rw [hfault, and_iff_left rfl]
      exact (told_and_iff_of_pos (P := fun name => outcome name = .error cause) hload).symm
    · rw [or_iff_right fun heq => hfault heq.2]
      refine (told_and_iff_of_neg (P := fun name => outcome name = .error fault) ?_).symm
      rw [hload, Except.error.injEq]
      exact Ne.symm hfault
  · simpa [faults] using (homitted.cons _).trans List.perm_middle.symm

/-- One notice more. -/
theorem Accounts.heed (h : pass.Accounts outcome notices) (notice : Notice) :
    (pass.heed outcome notice).Accounts outcome (notices ++ [notice]) := by
  cases notice with
  | error fault => exact h.fault
  | ok name =>
    by_cases hname : .ok name ∈ notices
    · rw [Pass.heed, if_pos ((h.mem_tried name).2 hname)]
      exact h.again hname
    · cases hload : outcome name with
      | ok classFile => exact h.loads hname hload
      | error cause => exact h.fails hname hload

theorem Accounts.foldl (h : pass.Accounts outcome notices) (more : List Notice) :
    (more.foldl (Pass.heed outcome) pass).Accounts outcome (notices ++ more) := by
  induction more generalizing pass notices with
  | nil => simpa using h
  | cons notice more ih => simpa using ih (h.heed notice)

end Pass

section Notices
variable {σ : Type} {roots : Classpath (StateM σ)}

/-- What a pass is told of a package. -/
def packageNotices (roots : Classpath (StateM σ)) (s : σ) (package : String) : List Notice :=
  (roots.flatMap (Walker.reports s package)).map fun
    | .ok name => .ok name
    | .error cause => .error (package, cause)

/-- All that a pass is told. -/
def notices (roots : Classpath (StateM σ)) (s : σ) (packages classes : List String) :
    List Notice :=
  packages.flatMap (roots.packageNotices s) ++ classes.map .ok

section Run
variable (h : ∀ root ∈ roots, root.Steady) (s : σ)
include h

theorem Pass.run_tryClass (pass : Pass) (name : String) :
    (pass.tryClass roots name).run s = (pass.heed (roots.outcome s) (.ok name), s) := by
  rw [tryClass, heed]
  split
  case isTrue => rfl
  case isFalse =>
    rw [StateM.run_bind_of_eq (run_load h name s)]
    cases roots.outcome s name <;> rfl

theorem Pass.run_tryPackage (pass : Pass) (package : String) :
    (pass.tryPackage roots package).run s =
      ((roots.packageNotices s package).foldl (heed (roots.outcome s)) pass, s) := by
  rw [tryPackage, StateM.run_bind_of_eq (run_classNames h package s), packageNotices,
    List.foldl_map]
  refine StateM.run_foldlM (fun pass found => ?_) _ pass
  cases found with
  | ok name => exact pass.run_tryClass h s name
  | error cause => rfl

/-- A pass never stops. -/
theorem run_register (packages classes : List String) (registry : Registry) :
    (register roots packages classes registry).run s =
      (let pass := (roots.notices s packages classes).foldl (Pass.heed (roots.outcome s))
        (Pass.start registry)
      { pass with omitted := pass.omitted.reverse }, s) := by
  rw [register, StateM.run_bind_of_eq (StateM.run_foldlM (Pass.run_tryPackage h s) _ _),
    StateM.run_bind_of_eq (StateM.run_foldlM (Pass.run_tryClass h s) _ _), notices,
    List.foldl_append, List.foldl_flatMap, List.foldl_map]
  rfl

end Run

/-- The classes that a pass is told of. -/
def Told (roots : Classpath (StateM σ)) (s : σ) (packages classes : List String)
    (name : String) : Prop :=
  (∃ package ∈ packages, ∃ root ∈ roots, .ok name ∈ root.reports s package) ∨ name ∈ classes

theorem ok_mem_notices {s : σ} {packages classes : List String}
    {name : String} :
    .ok name ∈ roots.notices s packages classes ↔ roots.Told s packages classes name := by
  have hmap : ∀ (package : String) (found : List (Except RootFault String)),
      (Except.ok name : Notice) ∈ (found.map fun
        | .ok name => .ok name
        | .error cause => .error (package, cause) : List Notice) ↔ .ok name ∈ found := by
    intro package found
    rw [List.mem_map]
    constructor
    · rintro ⟨cause | other, hmem, ⟨⟩⟩
      exact hmem
    · exact fun hmem => ⟨.ok name, hmem, rfl⟩
  simp [notices, packageNotices, hmap, Told]

/-- The faults that come up as the packages are scanned. -/
def scanFaults (roots : Classpath (StateM σ)) (s : σ) (packages : List String) : List Omission :=
  packages.flatMap fun package => roots.flatMap fun root =>
    (root.reports s package).filterMap fun
      | .ok _ => none
      | .error cause => some (.package package cause)

theorem faults_notices (s : σ) (packages classes : List String) :
    faults (roots.notices s packages classes) = roots.scanFaults s packages := by
  have hclasses : faults (classes.map .ok) = [] := by simp [faults]
  have hpackage : ∀ package, faults (roots.packageNotices s package) =
      roots.flatMap fun root => (root.reports s package).filterMap fun
        | .ok _ => none
        | .error cause => some (.package package cause) := by
    intro package
    rw [faults, packageNotices, List.filterMap_map, List.filterMap_flatMap]
    congr! 3 with root found
    cases found <;> rfl
  rw [notices, faults, List.filterMap_append, List.filterMap_flatMap]
  change packages.flatMap (fun package => faults (roots.packageNotices s package)) ++
    faults (classes.map .ok) = _
  simp only [hclasses, hpackage, List.append_nil, scanFaults]

/-- The outcome of a pass. Its registry holds the classes that the pass was told of and that
load, each once and in order of the names, and so does the document when it is read; one omission
stands for each of the others, and one for each fault that came up as a package was scanned. -/
structure Registers (roots : Classpath (StateM σ)) (s : σ) (packages classes : List String)
    (pass : Pass) : Prop where
  holds : pass.registry.Holds fun name =>
    roots.Told s packages classes name ∧ ∃ classFile, roots.outcome s name = .ok classFile
  document : ∃ entries, Reflection.parse pass.registry.document = some entries ∧
    Reflection.Ordered entries ∧ ∀ entry, entry ∈ entries ↔ ∃ name,
      (roots.Told s packages classes name ∧ ∃ classFile, roots.outcome s name = .ok classFile) ∧
        entry = Reflection.Entry.whole name
  registered : pass.registered = pass.registry.size
  omitted : ∃ failing : List (String × LoadFault), (failing.map Prod.fst).Nodup ∧
    (∀ name cause, (name, cause) ∈ failing ↔
      roots.Told s packages classes name ∧ roots.outcome s name = .error cause) ∧
    pass.omitted.Perm (roots.scanFaults s packages ++
      failing.map fun (name, cause) => .classFile name cause)

theorem registers_of_accounts {s : σ} {packages classes : List String} {pass : Pass}
    (h : pass.Accounts (roots.outcome s) (roots.notices s packages classes)) :
    roots.Registers s packages classes { pass with omitted := pass.omitted.reverse } := by
  obtain ⟨failing, hnodup, hfailing, homitted⟩ := h.omitted
  rw [faults_notices] at homitted
  have hholds : pass.registry.Holds fun name =>
      roots.Told s packages classes name ∧ ∃ classFile, roots.outcome s name = .ok classFile :=
    h.holds.congr fun name => by rw [ok_mem_notices]
  exact {
    holds := hholds
    document := ⟨_, Reflection.parse_document _, hholds.ordered, hholds.mem_iff⟩
    registered := h.registered
    omitted := ⟨failing, hnodup, fun name cause => by rw [hfailing, ok_mem_notices],
      (List.reverse_perm _).trans homitted⟩ }

/-- A pass ends, whatever it meets. -/
theorem exists_run_register (h : ∀ root ∈ roots, root.Steady) (packages classes : List String)
    (s : σ) : ∃ pass, (register roots packages classes .empty).run s = (pass, s) ∧
      roots.Registers s packages classes pass :=
  ⟨_, run_register h s packages classes .empty,
    registers_of_accounts (by simpa using Pass.accounts_start.foldl _)⟩

/-- Two passes that are told of the same classes, of which the same load, have one registry. -/
theorem Registers.registry_eq {roots' : Classpath (StateM σ)} {s s' : σ}
    {packages packages' classes classes' : List String} {pass pass' : Pass}
    (h : roots.Registers s packages classes pass)
    (h' : roots'.Registers s' packages' classes' pass')
    (htold : ∀ name, roots.Told s packages classes name ↔ roots'.Told s' packages' classes' name)
    (hload : ∀ name, (∃ classFile, roots.outcome s name = .ok classFile) ↔
      ∃ classFile, roots'.outcome s' name = .ok classFile) :
    pass.registry = pass'.registry :=
  h.holds.unique (h'.holds.congr fun name => by rw [htold, hload])

/-- A pass over steady roots always ends, and registers exactly the classes that it is told of and
that load. What it registers is the same for the same packages, classes and listings in another
order, or with repetitions, and so is the document. -/
theorem register_registers (h : ∀ root ∈ roots, root.Steady) (packages classes : List String)
    (s : σ) :
    ∃ pass, (register roots packages classes .empty).run s = (pass, s) ∧
      roots.Registers s packages classes pass ∧
      ∀ (roots' : Classpath (StateM σ)) (s' : σ) (packages' classes' : List String),
        (∀ root ∈ roots', root.Steady) →
        (∀ package, package ∈ packages' ↔ package ∈ packages) →
        (∀ name, name ∈ classes' ↔ name ∈ classes) →
        (∀ package ∈ packages, ∀ name, (∃ root ∈ roots', .ok name ∈ root.reports s' package) ↔
          ∃ root ∈ roots, .ok name ∈ root.reports s package) →
        (∀ name, (∃ classFile, roots'.outcome s' name = .ok classFile) ↔
          ∃ classFile, roots.outcome s name = .ok classFile) →
        ∃ pass', (register roots' packages' classes' .empty).run s' = (pass', s') ∧
          pass'.registry = pass.registry ∧
          pass'.registry.document = pass.registry.document := by
  obtain ⟨pass, heq, hregisters⟩ := exists_run_register h packages classes s
  refine ⟨pass, heq, hregisters,
    fun roots' s' packages' classes' h' hpackages hclasses hlists hload => ?_⟩
  obtain ⟨pass', heq', hregisters'⟩ := exists_run_register h' packages' classes' s'
  have hregistry : pass'.registry = pass.registry := by
    refine hregisters'.registry_eq hregisters (fun name => ?_) hload
    rw [Told, Told, hclasses]
    refine or_congr_left (exists_congr fun package => ?_)
    rw [hpackages]
    exact and_congr_right fun hpackage => hlists package hpackage name
  exact ⟨pass', heq', hregistry, by rw [hregistry]⟩

end Notices

/-- A root of its own kind, which lists the same for any package and has one class. -/
def strayRoot (found : List (Except RootFault String)) : Walker (StateM Storage.Tree) where
  path := "stray"
  classNames := fun _ => return found
  readClass := fun name => return .error (.missing name)
  load := fun name =>
    return if name = "other.X" then Root.parseClass "a.B" beepBytes else .error (.missing name)

/-- Two archives with a class each and what is wrong beside them, and a root of another kind. -/
def pairRoots (found : List (Except RootFault String)) : Classpath (StateM Storage.Tree) :=
  [(Root.archive "one.jar"
      [Jar.rawEntry "../Up.class" [], Jar.rawEntry "a/C.class" [0xca, 0xfe]] 1000).walker,
    (Root.archive "two.jar"
      [Jar.rawEntry "a/B.class" beepBytes, Jar.rawEntry "a/C.class" beepBytes] 1000).walker,
    strayRoot found]

theorem steady_pairRoots (found : List (Except RootFault String)) :
    ∀ root ∈ pairRoots found, root.Steady := by
  have harchive : ∀ root : Root, (root.walker : Walker (StateM Storage.Tree)).Steady :=
    Root.steady_walker Storage.steady_tree
  have hstray : (strayRoot found).Steady := ⟨fun _ _ => rfl, fun _ _ => rfl⟩
  simp [pairRoots, harchive, hstray]

theorem register_registers_pair :
    let refused := RootFault.refusedPath "closed"
    let roots := pairRoots [.ok "other.X", .error refused]
    (∀ root ∈ roots, root.Steady) ∧
    ∃ pass, (register roots ["", "a"] ["a.B", "Gone"] .empty).run ⟨[], []⟩ = (pass, ⟨[], []⟩) ∧
      pass.registry = ⟨[.whole "a.B", .whole "other.X"]⟩ ∧ pass.registered = 2 ∧
      pass.omitted = [.package "" (.badPath (.climbing "../Up.class")),
        .classFile "a.C" (.malformed "a.C" (.unexpectedEnd 0)), .package "" refused,
        .package "a" (.badPath (.climbing "../Up.class")), .package "a" refused,
        .classFile "Gone" (.missing "Gone")] ∧
      ∃ pass', (register (pairRoots [.error refused, .ok "other.X", .ok "other.X"])
          ["a", "", "a"] ["Gone", "a.B", "Gone"] .empty).run ⟨[], []⟩ = (pass', ⟨[], []⟩) ∧
        Reflection.parse pass'.registry.document = some [.whole "a.B", .whole "other.X"] := by
  intro refused roots
  have hsteady := steady_pairRoots [.ok "other.X", .error refused]
  obtain ⟨pass, hrun, -, hother⟩ := register_registers hsteady ["", "a"] ["a.B", "Gone"] ⟨[], []⟩
  have hvalues : ((register roots ["", "a"] ["a.B", "Gone"] .empty).run ⟨[], []⟩).1 = pass :=
    congrArg Prod.fst hrun
  have hpass : (pass.registry, pass.registered, pass.omitted) =
      (⟨[.whole "a.B", .whole "other.X"]⟩, 2,
        [.package "" (.badPath (.climbing "../Up.class")),
          .classFile "a.C" (.malformed "a.C" (.unexpectedEnd 0)), .package "" refused,
          .package "a" (.badPath (.climbing "../Up.class")), .package "a" refused,
          .classFile "Gone" (.missing "Gone")]) := by
    rw [← hvalues]
    decide +kernel
  simp only [Prod.mk.injEq] at hpass
  have hreports : ∀ found s package, (strayRoot found).reports s package = found :=
    fun _ _ _ => rfl
  obtain ⟨pass', hrun', hregistry, -⟩ :=
    hother (pairRoots [.error refused, .ok "other.X", .ok "other.X"]) ⟨[], []⟩ ["a", "", "a"]
      ["Gone", "a.B", "Gone"] (steady_pairRoots _) (fun package => by grind) (fun name => by grind)
      (fun package _ name => by simp [pairRoots, hreports]) (fun _ => Iff.rfl)
  refine ⟨hsteady, pass, hrun, hpass.1, hpass.2.1, hpass.2.2, pass', hrun', ?_⟩
  rw [Reflection.parse_document, hregistry, hpass.1]

end Classpath

end Embargo
