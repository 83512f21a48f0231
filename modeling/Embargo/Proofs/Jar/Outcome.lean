import Embargo.Jar.File
import Embargo.Proofs.Classpath.Registration
import Embargo.Proofs.Jar.Build
import Embargo.Proofs.Storage.Writing
import Embargo.Proofs.Zip.Directory

/-!
What a run on files leaves, with any library for archives. The old jar keeps its bytes. Where the
run ends well the new file is the new archive, and where it fails after it created that file there
is none; a run that fails before leaves everything as it was.
-/
namespace Embargo.Jar
open Storage (Tree)

variable {σ : Type} [Storage (StateM σ)] {files : σ → Tree} {settings : JarSettings}
  {archive : Zip.Archive} {input output : String} {location : Storage.Location} {s t : σ}

/-- A file of which something is at its place. -/
def Holds (tree : Tree) (location : Storage.Location) : Prop :=
  ∃ bytes, tree.node? location = some (.file bytes)

theorem not_directory_of_holds {tree : Tree} (h : Holds tree location) :
    tree.node? location ≠ some .directory := by
  obtain ⟨bytes, hbytes⟩ := h
  simp [hbytes]

/-- Writing to a file that was created leaves a file there, whether it fails or not. -/
theorem exists_run_write (h : Storage.Keeps σ files) (htarget : (files s).IsTarget output location)
    (hsame : (files s).SameBut location (files t)) (hholds : Holds (files t) location)
    (bytes : List UInt8) :
    ∃ result u, (Storage.write output bytes : StateM σ _).run t = (result, u) ∧
      (files s).SameBut location (files u) ∧ Holds (files u) location ∧
      (result = .ok () → (files u).node? location = some (.file bytes)) := by
  have hreach : ∀ {there}, (files t).target output = .ok there → there = location := by
    intro there hthere
    have := Storage.Tree.target_eq_ok_iff.2
      (htarget.of_sameBut hsame (not_directory_of_holds hholds))
    rw [this, Except.ok.injEq] at hthere
    exact hthere.symm
  cases hrun : (Storage.write output bytes : StateM σ _).run t with
  | mk result u =>
    refine ⟨result, u, rfl, ?_⟩
    cases result with
    | ok =>
      obtain ⟨there, hthere, hput⟩ := h.write _ _ _ _ hrun
      obtain rfl := hreach hthere
      have hnode : ((files t).put there (.file bytes)).node? there = some (.file bytes) :=
        Storage.Tree.node?_put htarget.ne_nil
      rw [hput]
      exact ⟨hsame.trans (Storage.Tree.sameBut_put _ _ _), ⟨bytes, hnode⟩, fun _ => hnode⟩
    | error cause =>
      obtain hkept | ⟨there, left, hthere, hput⟩ := h.fail _ _ _ _ _ hrun
      · rw [hkept]
        exact ⟨hsame, hholds, nofun⟩
      · obtain rfl := hreach hthere
        rw [hput]
        exact ⟨hsame.trans (Storage.Tree.sameBut_put _ _ _),
          ⟨left, Storage.Tree.node?_put htarget.ne_nil⟩, nofun⟩

section Library
variable [Zip.Library]

/-- The bytes are all of the new archive for an old one, and the report is about both. -/
def Complete [Digest] (settings : JarSettings) (archive : Zip.Archive) (bytes : List UInt8)
    (report : Report) : Prop :=
  ∃ members counts, enforce settings archive = .ok (members, counts) ∧
    Zip.Library.Writes members bytes ∧ report = counts.seal bytes

section Output
variable [Digest]

/-- What comes of filling a file that was created. -/
theorem exists_run_fill (h : Storage.Keeps σ files) (htarget : (files s).IsTarget output location)
    (hsame : (files s).SameBut location (files t)) (hholds : Holds (files t) location)
    (settings : JarSettings) (archive : Zip.Archive) :
    ∃ result u, (fill settings archive output : StateM σ _).run t = (result, u) ∧
      (files s).SameBut location (files u) ∧ Holds (files u) location ∧
      match result with
      | .ok report => ∃ bytes, Complete settings archive bytes report ∧
          (files u).node? location = some (.file bytes)
      | .error fault => build settings archive = .error fault ∨
          ∃ cause, fault = .outputFile output cause := by
  rw [fill]
  cases hbuild : build settings archive with
  | error fault => exact ⟨_, t, rfl, hsame, hholds, .inl rfl⟩
  | ok built =>
    obtain ⟨bytes, counts⟩ := built
    obtain ⟨result, u, hwrite, hsame, hholds, hnode⟩ :=
      exists_run_write h htarget hsame hholds bytes
    dsimp only
    rw [StateT.run_bind, hwrite]
    cases result with
    | error cause => exact ⟨_, u, rfl, hsame, hholds, .inr ⟨cause, rfl⟩⟩
    | ok =>
      obtain ⟨back, hread, hback⟩ := h.read output u
      change ∃ result v, ((Storage.read output : StateM σ _) >>= _).run u = (result, v) ∧ _
      rw [StateM.run_bind_of_eq hread]
      cases back with
      | error cause => exact ⟨_, u, rfl, hsame, hholds, .inr ⟨cause, rfl⟩⟩
      | ok written =>
        obtain rfl : bytes = written := by
          have hfile := htarget.find_of_file hsame (hnode rfl)
          simpa [Storage.Tree.read, hfile, bind, Except.bind, pure, Except.pure] using
            hback written rfl
        obtain ⟨members, henforce, hwrites⟩ := build_eq_ok_iff.1 hbuild
        exact ⟨_, u, rfl, hsame, hholds, bytes, ⟨members, counts, henforce, hwrites, rfl⟩,
          hnode rfl⟩

/-- What a run that has created the new file leaves, and how it ends. -/
def Concludes (settings : JarSettings) (archive : Zip.Archive) (output : String)
    (before after : Tree) (result : Except Fault Report) : Prop :=
  ∃ location, before.target output = .ok location ∧ before.SameBut location after ∧
    match result with
    | .ok report => ∃ bytes, Complete settings archive bytes report ∧
        after.find output = .ok (location, .file bytes)
    | .error fault => (build settings archive = .error fault ∨
        ∃ cause, fault = .outputFile output cause) ∧ after.find output = .error .missing

theorem exists_run_produce_of_error (h : Storage.Keeps σ files)
    (hcreate : ((Storage.write output [] : StateM σ _).run s).1 ≠ .ok ())
    (settings : JarSettings) (archive : Zip.Archive) :
    ∃ fault t, (produce settings archive output : StateM σ _).run s = (.error fault, t) ∧
      files t = files s := by
  cases hrun : (Storage.write output [] : StateM σ _).run s with
  | mk created t =>
    rw [hrun] at hcreate
    cases created with
    | ok => exact absurd rfl hcreate
    | error cause =>
      refine ⟨.outputFile output cause, t, ?_, h.create _ _ _ _ hrun⟩
      rw [produce, StateT.run_bind, hrun]
      rfl

theorem exists_run_produce_of_ok (h : Storage.Keeps σ files)
    (hcreate : ((Storage.write output [] : StateM σ _).run s).1 = .ok ())
    (settings : JarSettings) (archive : Zip.Archive) :
    ∃ result t, (produce settings archive output : StateM σ _).run s = (result, t) ∧
      Concludes settings archive output (files s) (files t) result := by
  cases hrun : (Storage.write output [] : StateM σ _).run s with
  | mk created t =>
    obtain rfl : created = .ok () := by rwa [hrun] at hcreate
    obtain ⟨location, htarget, hput⟩ := h.write _ _ _ _ hrun
    have hreach := Storage.Tree.target_eq_ok_iff.1 htarget
    have hsame : (files s).SameBut location (files t) := hput ▸ Storage.Tree.sameBut_put _ _ _
    have hholds : Holds (files t) location :=
      ⟨[], hput ▸ Storage.Tree.node?_put hreach.ne_nil⟩
    obtain ⟨result, u, hfill, hsame, hholds, houtcome⟩ :=
      exists_run_fill h hreach hsame hholds settings archive
    rw [produce, StateT.run_bind, hrun]
    change ∃ result v, (fill settings archive output >>= _ : StateM σ _).run t = (result, v) ∧ _
    rw [StateT.run_bind, hfill]
    cases result with
    | ok report =>
      obtain ⟨bytes, hcomplete, hnode⟩ := houtcome
      exact ⟨_, u, rfl, location, htarget, hsame, bytes, hcomplete,
        hreach.find_of_file hsame hnode⟩
    | error fault =>
      obtain ⟨left, hleft⟩ := hholds
      obtain ⟨v, hremove, herase⟩ := h.remove _ _ _ _ _ _ hrun htarget hsame hleft
      have hnone : (files v).node? location = none :=
        herase ▸ Storage.Tree.node?_erase hreach.ne_nil
      have hsame : (files s).SameBut location (files v) :=
        hsame.trans (herase ▸ Storage.Tree.sameBut_erase _ _)
      refine ⟨.error fault, v, ?_, location, htarget, hsame, houtcome,
        hreach.find_of_none hsame hnone⟩
      change (Storage.remove output >>= _ : StateM σ _).run u = _
      rw [StateT.run_bind, hremove]
      rfl

end Output

/-- The run comes to create the new file and can: the old file and the new one are not the same,
the old one is read as an archive, and the new one is created. -/
def Begins (files : σ → Tree) (s : σ) (input output : String) (archive : Zip.Archive) : Prop :=
  ∃ path bytes, (files s).resolve input = .ok path ∧ (files s).resolve output ≠ .ok path ∧
    ((Storage.read path : StateM σ _).run s).1 = .ok bytes ∧
    Zip.Library.read bytes = .ok archive ∧
    ((Storage.write output [] : StateM σ _).run s).1 = .ok ()

/-- Opening an archive changes nothing. -/
theorem exists_run_openArchive (h : Storage.Keeps σ files) (input path : String) (s : σ) :
    ∃ opened, (openArchive input path : StateM σ _).run s = (opened, s) ∧
      ∀ archive, opened = .ok archive ↔
        ∃ bytes, ((Storage.read path : StateM σ _).run s).1 = .ok bytes ∧
          Zip.Library.read bytes = .ok archive := by
  obtain ⟨result, hread, -⟩ := h.read path s
  rw [openArchive, StateM.run_bind_of_eq hread, hread]
  cases result with
  | error cause => cases cause <;> exact ⟨_, rfl, fun _ => by simp⟩
  | ok bytes =>
    refine ⟨_, rfl, fun archive => ?_⟩
    exact ⟨fun hparse => ⟨bytes, rfl, Except.mapError_eq_ok_iff.1 hparse⟩,
      fun ⟨_, hbytes, hparse⟩ => by
        cases hbytes
        exact Except.mapError_eq_ok_iff.2 hparse⟩

section Start
variable [Digest] {path : String} (h : Storage.Keeps σ files)
include h

theorem run_transform_of_error {cause : StorageFault}
    (hinput : (files s).resolve input = .error cause) :
    (transform settings input output : StateM σ _).run s =
      (.error (.inputFile input cause), s) := by
  rw [transform, StateM.run_bind_of_eq (h.resolve input s), hinput]
  rfl

theorem run_transform_of_same (hinput : (files s).resolve input = .ok path)
    (houtput : (files s).resolve output = .ok path) :
    (transform settings input output : StateM σ _).run s = (.error (.sameFile output), s) := by
  rw [transform, StateM.run_bind_of_eq (h.resolve input s), hinput]
  dsimp only
  rw [StateM.run_bind_of_eq (h.resolve output s), houtput]
  exact congrArg (fun rest : StateM σ _ => rest.run s) (if_pos rfl)

theorem run_transform_of_ne (hinput : (files s).resolve input = .ok path)
    (houtput : (files s).resolve output ≠ .ok path) :
    (transform settings input output : StateM σ _).run s =
      (openArchive input path >>= fun
        | .error fault => pure (.error fault)
        | .ok archive => produce settings archive output : StateM σ _).run s := by
  rw [transform, StateM.run_bind_of_eq (h.resolve input s), hinput]
  dsimp only
  rw [StateM.run_bind_of_eq (h.resolve output s)]
  cases hother : (files s).resolve output with
  | error => rfl
  | ok outputPath =>
    have hne : outputPath ≠ path := fun heq => houtput (hother.trans (heq ▸ rfl))
    exact congrArg (fun rest : StateM σ _ => rest.run s) (if_neg hne)

/-- A run is over before it creates the new file, or creates it. -/
theorem exists_run_transform (settings : JarSettings) (input output : String) (s : σ) :
    ∃ result t, (transform settings input output : StateM σ _).run s = (result, t) ∧
      ((¬∃ archive, Begins files s input output archive) ∧
          (∃ fault, result = .error fault) ∧ files t = files s ∨
        ∃ archive, Begins files s input output archive ∧
          Concludes settings archive output (files s) (files t) result) := by
  cases hinput : (files s).resolve input with
  | error cause =>
    refine ⟨_, s, run_transform_of_error h hinput, .inl ⟨?_, ⟨_, rfl⟩, rfl⟩⟩
    rintro ⟨archive, path, bytes, hpath, -⟩
    simp [hinput] at hpath
  | ok path =>
    by_cases hsame : (files s).resolve output = .ok path
    · refine ⟨_, s, run_transform_of_same h hinput hsame, .inl ⟨?_, ⟨_, rfl⟩, rfl⟩⟩
      rintro ⟨archive, there, bytes, hthere, hother, -⟩
      rw [hinput] at hthere
      exact hother (hthere ▸ hsame)
    obtain ⟨opened, hopen, hopened⟩ := exists_run_openArchive h input path s
    rw [run_transform_of_ne h hinput hsame, StateM.run_bind_of_eq hopen]
    cases opened with
    | error fault =>
      refine ⟨.error fault, s, rfl, .inl ⟨?_, ⟨_, rfl⟩, rfl⟩⟩
      rintro ⟨archive, there, bytes, hthere, -, hread, hparse, -⟩
      rw [hinput] at hthere
      cases hthere
      exact nomatch (hopened archive).2 ⟨bytes, hread, hparse⟩
    | ok archive =>
      by_cases hcreate : ((Storage.write output [] : StateM σ _).run s).1 = .ok ()
      · obtain ⟨result, t, hrun, hconcludes⟩ :=
          exists_run_produce_of_ok h hcreate settings archive
        obtain ⟨bytes, hread, hparse⟩ := (hopened archive).1 rfl
        exact ⟨result, t, hrun, .inr ⟨archive,
          ⟨path, bytes, hinput, hsame, hread, hparse, hcreate⟩, hconcludes⟩⟩
      · obtain ⟨fault, t, hrun, hkept⟩ :=
          exists_run_produce_of_error h hcreate settings archive
        refine ⟨.error fault, t, hrun, .inl ⟨?_, ⟨_, rfl⟩, hkept⟩⟩
        rintro ⟨archive, there, bytes, -, -, -, -, hok⟩
        exact hcreate hok

end Start

theorem Begins.unique {other : Zip.Archive} (h : Begins files s input output archive)
    (h' : Begins files s input output other) : archive = other := by
  obtain ⟨path, bytes, hpath, -, hread, hparse, -⟩ := h
  obtain ⟨there, found, hthere, -, hread', hparse', -⟩ := h'
  rw [hpath, Except.ok.injEq] at hthere
  subst hthere
  rw [hread, Except.ok.injEq] at hread'
  subst hread'
  rw [hparse, Except.ok.injEq] at hparse'
  exact hparse'

/-- What a run leaves at a path that is not the new file's is what was there. -/
theorem Begins.locate_eq (h : Begins files s input output archive)
    (htarget : (files s).target output = .ok location)
    (hsame : (files s).SameBut location (files t)) :
    (files t).locate input = (files s).locate input := by
  obtain ⟨path, bytes, hpath, hother, -⟩ := h
  have hreach := Storage.Tree.target_eq_ok_iff.1 htarget
  rw [Storage.Tree.resolve_eq] at hpath
  cases hlocate : (files s).locate input with
  | error => simp [hlocate, Except.map] at hpath
  | ok found =>
    obtain ⟨there, node⟩ := found
    refine hsame.locate hreach.vacant hlocate (hreach.ne_of_resolve hlocate fun heq => hother ?_)
    rw [heq, Storage.Tree.resolve_eq, hpath]

/-- Whatever a run comes to, the old jar is as it was. Where the run fails before it creates the
new file, so is everything. Where it fails later there is no new file, and where it succeeds the new
file is the whole new archive; either way nothing but that file has changed. -/
theorem transform_leaves [Digest] (h : Storage.Keeps σ files) (settings : JarSettings)
    (input output : String) (s : σ) :
    ∃ result t, (transform settings input output : StateM σ _).run s = (result, t) ∧
      (files t).locate input = (files s).locate input ∧
      ((¬∃ archive, Begins files s input output archive) →
        (∃ fault, result = .error fault) ∧ files t = files s) ∧
      ∀ archive, Begins files s input output archive →
        Concludes settings archive output (files s) (files t) result := by
  obtain ⟨result, t, hrun, ⟨hnot, hfault, hkept⟩ | ⟨archive, hbegins, hconcludes⟩⟩ :=
    exists_run_transform h settings input output s
  · exact ⟨result, t, hrun, by rw [hkept], fun _ => ⟨hfault, hkept⟩,
      fun archive hbegins => absurd ⟨archive, hbegins⟩ hnot⟩
  · obtain ⟨location, htarget, hsame, -⟩ := id hconcludes
    exact ⟨result, t, hrun, hbegins.locate_eq htarget hsame,
      fun hnot => absurd ⟨archive, hbegins⟩ hnot,
      fun other hother => hbegins.unique hother ▸ hconcludes⟩

end Library

/-- A jar of one class, of which nothing is there. -/
def cutJar : List UInt8 := Zip.render [.file "Bad.class" .stored none none []]

theorem enforce_cutJar : ∃ archive, Zip.Library.read cutJar = .ok archive ∧
    ∀ members report, enforce {} archive ≠ .ok (members, report) := by
  -- Names are looked up by their hashes, so the archive itself does not evaluate.
  have hnoted : (Zip.Archive.noted? cutJar).map (fun entries =>
      (entries.map Zip.Entry.name, (enforce {} entries).isOk)) = some (["Bad.class"], false) := by
    decide +kernel
  obtain ⟨entries, hentries, hvalue⟩ := Option.map_eq_some_iff.1 hnoted
  obtain ⟨hnames, hfails⟩ := Prod.mk.injEq .. ▸ hvalue
  refine ⟨entries, Zip.Archive.parse_eq_ok_iff.2 ⟨entries, hentries,
    Zip.Archive.ofEntries_of_nodup (hnames ▸ List.nodup_singleton _)⟩, fun members report hok => ?_⟩
  rw [hok] at hfails
  cases hfails

/-- A jar with a class that has one call under an embargo, and a text. -/
def beepJar : List UInt8 :=
  Zip.render [.file "Beep.class" .stored none none beepBytes,
    .file "notes.txt" .stored none none [104, 105]]

/-- Whether entries come to a changed class and a text as it was, and both can be written. -/
def changesBeep (entries : List Zip.Entry) : Bool :=
  entries.map Zip.Entry.name = ["Beep.class", "notes.txt"] &&
    match enforce (beepSettings .abort) entries with
    | .ok ([changed, notes], report) =>
      changed.name = "Beep.class" && changed.data ≠ beepBytes && notes.name = "notes.txt" &&
        notes.data = [104, 105] && report = ⟨2, 1, 1, 1, 0, [], ""⟩ && changed.Fits && notes.Fits &&
          (Zip.render [changed, notes]).length ≤ 0xFFFFFFFF
    | _ => false

theorem changes_beepJar : (Zip.Archive.noted? beepJar).map changesBeep = some true := by
  decide +kernel

theorem build_beepJar : ∃ archive changed notes, Zip.Library.read beepJar = .ok archive ∧
    build (beepSettings .abort) archive =
      .ok (Zip.render [changed, notes], ⟨2, 1, 1, 1, 0, [], ""⟩) ∧
    changed.name = "Beep.class" ∧ changed.data ≠ beepBytes ∧
    notes.name = "notes.txt" ∧ notes.data = [104, 105] := by
  obtain ⟨entries, hentries, hchanges⟩ := Option.map_eq_some_iff.1 changes_beepJar
  obtain ⟨hnames, hchanges⟩ := Bool.and_eq_true_iff.1 hchanges
  have hread : Zip.Library.read beepJar = .ok entries := by
    have hnodup : (entries.map Zip.Entry.name).Nodup := by
      rw [of_decide_eq_true hnames]
      decide
    exact Zip.Archive.parse_eq_ok_iff.2
      ⟨entries, hentries, Zip.Archive.ofEntries_of_nodup hnodup⟩
  split at hchanges
  case h_1 changed notes report henforce =>
    simp only [Bool.and_eq_true, decide_eq_true_eq] at hchanges
    obtain ⟨⟨⟨⟨⟨⟨⟨hchanged, hnew⟩, hnotes⟩, hold⟩, rfl⟩, hfirst⟩, hsecond⟩, hlength⟩ := hchanges
    have hwrites : Zip.Library.Writes [changed, notes] (Zip.render [changed, notes]) :=
      Zip.Library.writes_iff.2 ⟨by simp [hfirst, hsecond], hlength, rfl⟩
    exact ⟨entries, changed, notes, hread, build_eq_ok_iff.2 ⟨_, henforce, hwrites⟩, hchanged, hnew,
      hnotes, hold⟩
  case h_2 => cases hchanges

/-- Two jars in a directory, and a file in the place of a new jar. -/
def jarsTree : Tree where
  workingDirectory := ["home"]
  nodes := [(["home"], .directory), (["home", "cut.jar"], .file cutJar),
    (["home", "beep.jar"], .file beepJar), (["home", "new.jar"], .file [1])]

theorem run_transform_beepJar {archive : Zip.Archive} {bytes : List UInt8} {report : Report}
    (hread : Zip.Library.read beepJar = .ok archive)
    (hbuild : build (beepSettings .abort) archive = .ok (bytes, report)) :
    ∃ after, (transform (beepSettings .abort) "beep.jar" "new.jar" : StateM Tree _).run jarsTree =
      (.ok (report.seal bytes), after) := by
  have hinput : jarsTree.resolve "beep.jar" = .ok "/home/beep.jar" := by decide +kernel
  have houtput : jarsTree.resolve "new.jar" ≠ .ok "/home/beep.jar" := by decide +kernel
  obtain ⟨opened, hopen, hopened⟩ :=
    exists_run_openArchive Storage.keeps_tree "beep.jar" "/home/beep.jar" jarsTree
  obtain rfl := (hopened archive).2 ⟨beepJar, rfl, hread⟩
  rw [run_transform_of_ne (s := jarsTree) Storage.keeps_tree hinput houtput,
    StateM.run_bind_of_eq hopen]
  simp only [produce, fill, hbuild]
  exact ⟨_, rfl⟩

theorem transform_leaves_jarsTree :
    (∃ fault after, (transform {} "cut.jar" "../home/new.jar" : StateM Tree _).run jarsTree
        = (.error fault, after) ∧
      after.locate "cut.jar" = .ok (["home", "cut.jar"], .file cutJar) ∧
      after.find "../home/new.jar" = .error .missing) ∧
    (∃ changed notes after,
      (transform (beepSettings .abort) "beep.jar" "new.jar" : StateM Tree _).run jarsTree =
        (.ok ⟨2, 1, 1, 1, 0, [], Digest.text (Zip.render [changed, notes])⟩, after) ∧
      after.locate "beep.jar" = .ok (["home", "beep.jar"], .file beepJar) ∧
      after.find "new.jar" = .ok (["home", "new.jar"], .file (Zip.render [changed, notes])) ∧
      changed.name = "Beep.class" ∧ changed.data ≠ beepBytes ∧
      notes.name = "notes.txt" ∧ notes.data = [104, 105]) ∧
    ∃ fault, (transform {} "cut.jar" "./cut.jar" : StateM Tree _).run jarsTree
      = (.error fault, jarsTree) := by
  refine ⟨?_, ?_, ?_⟩
  · obtain ⟨archive, hparse, hfails⟩ := enforce_cutJar
    obtain ⟨result, after, hrun, hinput, -, hafter⟩ :=
      transform_leaves Storage.keeps_tree {} "cut.jar" "../home/new.jar" jarsTree
    have hbegins : Begins id jarsTree "cut.jar" "../home/new.jar" archive :=
      ⟨"/home/cut.jar", cutJar, by decide +kernel, by decide +kernel, rfl, hparse, rfl⟩
    obtain ⟨location, -, -, hleft⟩ := hafter archive hbegins
    cases result with
    | ok report =>
      obtain ⟨bytes, ⟨members, counts, henforce, -⟩, -⟩ := hleft
      exact absurd henforce (hfails members counts)
    | error fault => exact ⟨fault, after, hrun, hinput.trans rfl, hleft.2⟩
  · obtain ⟨archive, changed, notes, hread, hbuild, hcontents⟩ := build_beepJar
    obtain ⟨result, after, hrun, hinput, -, hafter⟩ :=
      transform_leaves Storage.keeps_tree (beepSettings .abort) "beep.jar" "new.jar" jarsTree
    have hbegins : Begins id jarsTree "beep.jar" "new.jar" archive :=
      ⟨"/home/beep.jar", beepJar, by decide +kernel, by decide +kernel, rfl, hread, rfl⟩
    obtain ⟨location, htarget, -, hleft⟩ := hafter archive hbegins
    have hplace : jarsTree.target "new.jar" = .ok ["home", "new.jar"] := by decide +kernel
    obtain rfl : ["home", "new.jar"] = location := Except.ok.inj (hplace.symm.trans htarget)
    obtain ⟨last, hlast⟩ := run_transform_beepJar hread hbuild
    obtain ⟨rfl, rfl⟩ := Prod.mk.inj (hrun.symm.trans hlast)
    obtain ⟨bytes, ⟨members, counts, henforce, hwrites, -⟩, hfind⟩ := hleft
    obtain rfl : bytes = Zip.render [changed, notes] := by
      have hbytes := build_eq_ok_iff.2 ⟨members, henforce, hwrites⟩
      rw [hbuild] at hbytes
      cases hbytes
      rfl
    exact ⟨changed, notes, after, hrun, hinput.trans rfl, hfind, hcontents⟩
  · obtain ⟨result, after, hrun, -, hover, -⟩ :=
      transform_leaves Storage.keeps_tree {} "cut.jar" "./cut.jar" jarsTree
    have hsame : (jarsTree.resolve "./cut.jar") = jarsTree.resolve "cut.jar" := by decide +kernel
    obtain ⟨⟨fault, rfl⟩, hkept⟩ := hover (by
      rintro ⟨archive, path, bytes, hpath, hother, -⟩
      exact hother (hsame.trans hpath))
    exact ⟨fault, by rw [hrun]; exact congrArg _ hkept⟩

end Embargo.Jar
