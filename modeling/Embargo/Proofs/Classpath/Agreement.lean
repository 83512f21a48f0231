import Embargo.Proofs.Classpath.Search
import Embargo.Proofs.Storage.Listing
import Embargo.Proofs.Zip.Payload

/-!
A directory and an archive of the same files. They report the same classes, and load the same of
those whose names lead back to a path below the root, unless the limit of the archive is the
highest of all.
-/
namespace Embargo

namespace EntryPath
open Text
open Storage (parts steps join)

variable {path base : String}

theorem IsCanonical.descends (h : IsCanonical path) :
    ∀ name ∈ parts path, Storage.Tree.Descends name := by
  intro name hname
  obtain ⟨part, hpart, rfl⟩ := List.mem_map.1 hname
  have hne : ∀ other : String, part ≠ other.toList → String.ofList part ≠ other := by
    rintro other hother rfl
    exact hother String.toList_ofList.symm
  obtain ⟨hempty, hdot, hclimb⟩ := h part hpart
  exact ⟨hne _ hempty, hne _ hdot, hne _ hclimb⟩

theorem IsCanonical.steps_eq (h : IsCanonical path) : steps (parts path) = parts path :=
  List.filter_eq_self.2 fun name hname =>
    decide_eq_true ⟨(h.descends name hname).1, (h.descends name hname).2.1⟩

theorem IsCanonical.downward (h : IsCanonical path) : Storage.Tree.Downward path := by
  refine ⟨⟨?_, ?_⟩, fun hclimb => (h.descends _ hclimb).2.2 rfl, ?_⟩
  · rintro rfl
    exact (h [] (.head _)).1 rfl
  · exact (Parts.ne_of_nil_notMem fun hnil => (h [] hnil).1 rfl).1
  · have hlast := h.descends _ (List.getLast_mem (Storage.parts_ne_nil path))
    exact ⟨_, _, (List.dropLast_append_getLast (Storage.parts_ne_nil path)).symm,
      hlast.1, hlast.2.1⟩

/-- What stands in front of the last name of a path is the path of a directory. -/
theorem IsCanonical.exists_parent (h : IsCanonical path) (hne : (parts path).dropLast ≠ []) :
    ∃ parent more, IsCanonical parent ∧ path = parent ++ more ∧
      parts parent = (parts path).dropLast := by
  have hcut := List.dropLast_append_getLast (Parts.cut_ne_nil '/' path.toList)
  obtain ⟨hslash, hpath⟩ := Parts.exists_of_cut hcut.symm
  generalize (Parts.cut '/' path.toList).getLast _ = last at hcut hslash hpath
  obtain hpath | ⟨before, hpath⟩ := hpath
  · rw [parts, hpath, Parts.cut_of_notMem hslash] at hne
    exact absurd rfl hne
  · have hbefore : Parts.cut '/' path.toList = Parts.cut '/' before ++ [last] := by
      rw [hpath, Parts.cut_append_cons, Parts.cut_of_notMem hslash]
    refine ⟨String.ofList before, String.ofList ('/' :: last), fun part hpart => ?_, ?_, ?_⟩
    · rw [String.toList_ofList] at hpart
      exact h part (hbefore ▸ List.mem_append_left _ hpart)
    · rw [← String.ofList_append, ← hpath, String.ofList_toList]
    · rw [parts, parts, hbefore, String.toList_ofList, List.map_append, List.map_singleton,
        List.dropLast_concat]

/-- A file that can be opened stands in a directory that can be opened. -/
theorem IsCanonical.not_unlisted (h : IsCanonical path)
    (hopen : Storage.Tree.Openable (join base path)) :
    ¬ Storage.Tree.Unlisted base (parts path) := by
  rintro ⟨hne, hlong⟩
  obtain ⟨parent, more, hparent, rfl, hparts⟩ := h.exists_parent hne
  rw [← hparts, Storage.intercalate_parts] at hlong
  refine hopen.2 ?_
  rw [Storage.join_append hparent.downward.relative]
  exact Storage.Tree.isTooLong_append hlong more

end EntryPath

namespace Storage.Tree
open EntryPath (IsCanonical)

variable {tree : Tree} {base path : String} {here : Location} {bytes : List UInt8}
  {files : List (String × List UInt8)}

/-- A directory with some files in it and below. Each is at its path, which the system takes, and
no other file is there. -/
structure Shows (tree : Tree) (base : String) (here : Location)
    (files : List (String × List UInt8)) : Prop where
  root : tree.find base = .ok (here, .directory)
  canonical : ∀ path bytes, (path, bytes) ∈ files → IsCanonical path
  openable : ∀ path bytes, (path, bytes) ∈ files → Openable (join base path)
  holds : ∀ path bytes, (path, bytes) ∈ files → tree.Ends here (parts path) (.ok bytes)
  only : ∀ names bytes, names ≠ [] → (here ++ names, .file bytes) ∈ tree.nodes →
    ∃ bytes, ("/".intercalate names, bytes) ∈ files

theorem Shows.read_iff (h : tree.Shows base here files) (hpath : IsCanonical path) :
    tree.read (join base path) = .ok bytes ↔ (path, bytes) ∈ files := by
  have hroot : tree.HasRoot base here := by
    rw [HasRoot, if_neg (openable_of_find h.root).1, h.root]
  have hread : ∀ {bytes}, Openable (join base path) →
      (tree.read (join base path) = .ok bytes ↔ tree.Ends here (parts path) (.ok bytes)) := by
    intro bytes hopen
    rw [read_join_iff hroot hpath.downward hopen, hpath.steps_eq]
  constructor
  · intro h'
    have hopen : Openable (join base path) := by
      rw [read_eq] at h'
      obtain ⟨⟨there, node⟩, hfind, -⟩ := Except.bind_eq_ok_iff.1 h'
      exact (openable_of_find hfind).2
    obtain ⟨hne, hnode⟩ := ((hread hopen).1 h').node?
    obtain ⟨other, hother⟩ := h.only _ bytes hne
      (mem_nodes_of_node? (List.append_ne_nil_of_right_ne_nil _ hne) hnode)
    rw [intercalate_parts] at hother
    have hsame := (hread hopen).2 (h.holds _ _ hother)
    rw [h', Except.ok.injEq] at hsame
    rwa [hsame]
  · intro hfile
    exact (hread (h.openable _ _ hfile)).2 (h.holds _ _ hfile)

theorem Shows.unique (h : tree.Shows base here files) {other : List UInt8}
    (hfile : (path, bytes) ∈ files) (hother : (path, other) ∈ files) : bytes = other := by
  have hpath := h.canonical _ _ hfile
  exact Except.ok.inj (((h.read_iff hpath).2 hfile).symm.trans ((h.read_iff hpath).2 hother))

theorem Shows.mem_list_iff (h : tree.Shows base here files) :
    .ok path ∈ tree.list base ↔ ∃ bytes, (path, bytes) ∈ files := by
  rw [ok_mem_list_iff h.root]
  constructor
  · rintro ⟨names, bytes, hnames, hmem, -, rfl⟩
    exact h.only names bytes hnames hmem
  · rintro ⟨bytes, hfile⟩
    obtain ⟨hne, hnode⟩ := (h.holds _ _ hfile).node?
    exact ⟨parts path, bytes, hne,
      mem_nodes_of_node? (List.append_ne_nil_of_right_ne_nil _ hne) hnode,
      (h.canonical _ _ hfile).not_unlisted (h.openable _ _ hfile), (intercalate_parts path).symm⟩

end Storage.Tree

namespace Zip
variable {entries : Archive} {path : String} {bytes : List UInt8}
  {files : List (String × List UInt8)}

/-- An entry with some data, whose size it notes. -/
structure Entry.Stores (entry : Entry) (bytes : List UInt8) : Prop where
  size : entry.declaredSize.toNat = bytes.length
  content : ∃ stream, entry.content = .ok stream ∧ stream.Yields bytes

/-- An archive of some files, in any order. -/
structure Archive.Packs (entries : Archive) (files : List (String × List UInt8)) : Prop where
  stored : ∀ entry ∈ entries, ∃ bytes, (entry.name, bytes) ∈ files ∧ entry.Stores bytes
  packed : ∀ path bytes, (path, bytes) ∈ files → ∃ entry ∈ entries, entry.name = path

theorem Archive.Packs.find?_eq_some (h : entries.Packs files) {entry : Entry}
    (hfind : entries.find? path = some entry) :
    ∃ bytes, (path, bytes) ∈ files ∧ entry.Stores bytes := by
  rw [Archive.find?] at hfind
  have hname : entry.name = path := by simpa using List.find?_some hfind
  rw [← hname]
  exact h.stored entry (List.mem_of_find?_eq_some hfind)

theorem Archive.Packs.find?_isSome (h : entries.Packs files) (hfile : (path, bytes) ∈ files) :
    (entries.find? path).isSome := by
  obtain ⟨entry, hentry, hname⟩ := h.packed path bytes hfile
  exact List.find?_isSome.2 ⟨entry, hentry, decide_eq_true hname⟩

end Zip

namespace Classpath
open EntryPath (IsCanonical)
open Storage (Tree)

variable {tree : Tree} {base name : String} {here : Storage.Location} {entries : Zip.Archive}
  {limit : UInt64} {files : List (String × List UInt8)} {package : String}
  {report : Except RootFault String}

/-- What is to be reported of some files. -/
def Reported (files : List (String × List UInt8)) (package : String)
    (report : Except RootFault String) : Prop :=
  ∃ path bytes, (path, bytes) ∈ files ∧ Root.classAt package path = some report

/-- What is loaded of some files for a name. -/
def Loaded (files : List (String × List UInt8)) (name : String) (classFile : ClassFile) : Prop :=
  ∃ bytes, (EntryPath.ofClass name, bytes) ∈ files ∧ Root.parseClass name bytes = .ok classFile

theorem Root.mem_reports_directory_iff (h : tree.Shows base here files)
    (hreport : ∀ place cause, report ≠ .error (.cannotList place cause)) :
    report ∈ (directory base).reports tree package ↔ Reported files package report := by
  change report ∈ (tree.list base).filterMap _ ↔ _
  rw [List.mem_filterMap, Reported]
  constructor
  · rintro ⟨cause | path, hmem, hpath⟩
    · exact absurd (Option.some.inj hpath).symm (hreport base cause)
    · obtain ⟨bytes, hfile⟩ := h.mem_list_iff.1 hmem
      exact ⟨path, bytes, hfile, hpath⟩
  · rintro ⟨path, bytes, hfile, hpath⟩
    exact ⟨.ok path, h.mem_list_iff.2 ⟨bytes, hfile⟩, hpath⟩

theorem Root.mem_reports_archive_iff (h : entries.Packs files)
    (hcanonical : ∀ path bytes, (path, bytes) ∈ files → IsCanonical path) (place : String) :
    report ∈ (archive place entries limit).reports tree package ↔
      Reported files package report := by
  change report ∈ (filePaths entries).filterMap _ ↔ _
  simp only [List.mem_filterMap, Reported, filePaths, List.mem_filter, List.mem_map,
    decide_eq_true_eq]
  constructor
  · rintro ⟨path, ⟨⟨entry, hentry, rfl⟩, -⟩, hpath⟩
    obtain ⟨bytes, hfile, -⟩ := h.stored entry hentry
    exact ⟨_, bytes, hfile, hpath⟩
  · rintro ⟨path, bytes, hfile, hpath⟩
    obtain ⟨entry, hentry, rfl⟩ := h.packed path bytes hfile
    refine ⟨_, ⟨⟨entry, hentry, rfl⟩, ?_⟩, hpath⟩
    exact (Text.Parts.ne_of_nil_notMem fun hnil => (hcanonical _ _ hfile [] hnil).1 rfl).2

theorem Root.outcome_directory_eq_ok_iff {classFile : ClassFile} (h : tree.Shows base here files)
    (hname : IsCanonical (EntryPath.ofClass name)) :
    (directory base).outcome tree name = .ok classFile ↔ Loaded files name classFile := by
  rw [outcome_directory, Loaded]
  simp only [← h.read_iff hname]
  rcases tree.read (Storage.join base (EntryPath.ofClass name)) with cause | bytes
  · cases cause <;> simp
  · simp

/-- Nothing is no class file. -/
theorem Root.parseClass_nil (name : String) :
    ∃ cause, parseClass name [] = .error (.malformed name cause) :=
  ⟨_, rfl⟩

theorem Root.outcome_archive_eq_ok_iff {classFile : ClassFile} (h : tree.Shows base here files)
    (hpacks : entries.Packs files)
    (hlimit : ∀ path bytes, (path, bytes) ∈ files → bytes.length ≤ limit.toNat) (place : String) :
    (archive place entries limit).outcome tree name = .ok classFile ↔
      limit.toNat + 1 < UInt64.size ∧ Loaded files name classFile := by
  rw [outcome_archive, Loaded]
  cases hfind : entries.find? (EntryPath.ofClass name) with
  | none =>
    rw [readEntry, hfind]
    refine iff_of_false (fun hload => ?_) ?_
    · cases hload
    · rintro ⟨-, bytes, hfile, -⟩
      have hsome := hpacks.find?_isSome hfile
      rw [hfind] at hsome
      cases hsome
  | some entry =>
    obtain ⟨bytes, hfile, hsize, stream, hcontent, hdata⟩ := hpacks.find?_eq_some hfind
    have hfits : entry.declaredSize ≤ limit ∧ bytes.length ≤ limit.toNat := by
      rw [UInt64.le_iff_toNat_le, hsize]
      exact ⟨hlimit _ _ hfile, hlimit _ _ hfile⟩
    have hloaded : (∃ other, (EntryPath.ofClass name, other) ∈ files ∧
        parseClass name other = .ok classFile) ↔ parseClass name bytes = .ok classFile := by
      refine ⟨?_, fun hparse => ⟨bytes, hfile, hparse⟩⟩
      rintro ⟨other, hother, hparse⟩
      rwa [h.unique hfile hother]
    rw [Zip.readEntry_eq_of_root hcontent hdata hfind, Zip.Entry.capped, hloaded]
    split_ifs with hroom
    · rw [Zip.Entry.whole, if_pos hfits, and_iff_right hroom]
      rfl
    · obtain ⟨cause, hnil⟩ := parseClass_nil name
      refine ⟨fun hparse => ?_, fun h => absurd h.1 hroom⟩
      rw [show ((.ok [] : Except LoadFault (List UInt8)) >>= parseClass name) = _ from hnil] at hparse
      cases hparse

/-- A reported name has its dots in the place of slashes. -/
theorem Reported.slashless (h : Reported files package (.ok name)) : '/' ∉ name.toList := by
  obtain ⟨path, bytes, -, hpath⟩ := h
  have hname : EntryPath.className? path = .ok (some name) := by
    rw [Root.classAt] at hpath
    split at hpath
    · split_ifs at hpath
      cases hpath
      assumption
    · cases hpath
    · cases hpath
  obtain ⟨-, stem, -, -, -, rfl⟩ := EntryPath.className?_eq_some_iff.1 hname
  rw [Text.Name.toDotted, Text.Name.toList_substitute]
  intro hslash
  obtain ⟨c, -, hc⟩ := List.mem_map.1 hslash
  split_ifs at hc with hdot
  · exact absurd hc (by decide)
  · exact hdot hc

/-- A directory and an archive of the same files, none of which is above the limit of the archive,
report the same classes and the same paths at fault. Of the reported names without an empty part
they load the same classes, as long as something is read under the limit: of the highest limit, one
more is none, and no class is loaded from the archive. -/
theorem packed_agrees (h : tree.Shows base here files) (hpacks : entries.Packs files)
    (hlimit : ∀ path bytes, (path, bytes) ∈ files → bytes.length ≤ limit.toNat)
    (place package : String) :
    (∀ name, .ok name ∈ (Root.directory base).reports tree package ↔
      .ok name ∈ (Root.archive place entries limit).reports tree package) ∧
    (∀ cause, .error (.badPath cause) ∈ (Root.directory base).reports tree package ↔
      .error (.badPath cause) ∈ (Root.archive place entries limit).reports tree package) ∧
    ∀ name, .ok name ∈ (Root.directory base).reports tree package →
      [] ∉ Text.Parts.cut '.' name.toList →
      ((∀ classFile, (Root.directory base).outcome tree name = .ok classFile ↔
          (Root.archive place entries limit).outcome tree name = .ok classFile) ↔
        limit.toNat + 1 < UInt64.size ∨
          ∀ classFile, (Root.directory base).outcome tree name ≠ .ok classFile) := by
  refine ⟨fun name => ?_, fun cause => ?_, fun name hname hparts => ?_⟩
  · rw [Root.mem_reports_directory_iff h (by simp),
      Root.mem_reports_archive_iff hpacks h.canonical place]
  · rw [Root.mem_reports_directory_iff h (by simp),
      Root.mem_reports_archive_iff hpacks h.canonical place]
  · have hreported := (Root.mem_reports_directory_iff h (by simp)).1 hname
    have hdotted : EntryPath.IsDotted name := ⟨hparts, hreported.slashless⟩
    simp only [Root.outcome_directory_eq_ok_iff h hdotted.isCanonical_ofClass, ne_eq,
      Root.outcome_archive_eq_ok_iff h hpacks hlimit place]
    by_cases hroom : limit.toNat + 1 < UInt64.size
    · exact iff_of_true (fun _ => (and_iff_right hroom).symm) (.inl hroom)
    · simp only [hroom, false_and, iff_false, false_or]

/-- The class `a/B`, without members. -/
def packedClass : List UInt8 :=
  [0xca, 0xfe, 0xba, 0xbe, 0, 0, 0, 52, 0, 3, 1, 0, 3, 97, 47, 66, 7, 0, 1, 0, 1, 0, 2, 0, 0, 0, 0,
    0, 0, 0, 0, 0, 0]

def packedFiles : List (String × List UInt8) :=
  [("a/B.class", packedClass), ("notes.txt", [104, 105])]

def packedTree : Tree where
  workingDirectory := ["home"]
  nodes := [(["home"], .directory), (["home", "lib"], .directory),
    (["home", "lib", "a"], .directory)] ++
      packedFiles.map fun (path, bytes) => (["home", "lib"] ++ Storage.parts path, .file bytes)

/-- The files in another order. -/
def packedEntries : Zip.Archive :=
  packedFiles.reverse.map fun (path, bytes) => Jar.rawEntry path bytes

theorem mem_packedFiles_iff {path : String} {bytes : List UInt8} :
    (path, bytes) ∈ packedFiles ↔
      path = "a/B.class" ∧ bytes = packedClass ∨ path = "notes.txt" ∧ bytes = [104, 105] := by
  simp [packedFiles]

theorem shows_packedTree : packedTree.Shows "lib" ["home", "lib"] packedFiles where
  root := by decide +kernel
  canonical path bytes h := by
    obtain ⟨rfl, -⟩ | ⟨rfl, -⟩ := mem_packedFiles_iff.1 h <;> unfold IsCanonical <;> decide
  openable path bytes h := by
    obtain ⟨rfl, -⟩ | ⟨rfl, -⟩ := mem_packedFiles_iff.1 h <;> exact ⟨by decide, by decide⟩
  holds path bytes h := by
    obtain ⟨rfl, rfl⟩ | ⟨rfl, rfl⟩ := mem_packedFiles_iff.1 h
    · exact .file (rfl : _ = ["a"] ++ _) ⟨by decide, rfl, trivial⟩ (by decide) rfl
    · exact .file (rfl : _ = [] ++ _) trivial (by decide) rfl
  only names bytes hnames hmem := by
    simp only [packedTree, List.cons_append, List.nil_append, List.mem_cons, Prod.mk.injEq,
      reduceCtorEq, and_false, false_or, List.mem_map, Prod.exists, List.cons.injEq, true_and,
      Storage.Node.file.injEq] at hmem
    obtain ⟨path, data, hfile, rfl, -⟩ := hmem
    exact ⟨data, (Storage.intercalate_parts path).symm ▸ hfile⟩

/-- An entry that is stored as it is yields its data. -/
theorem stores_rawEntry (name : String) {data : List UInt8} (h : data.length < UInt64.size) :
    (Jar.rawEntry name data).Stores data where
  size := UInt64.toNat_ofNat_of_lt h
  content := ⟨_, rfl, fun count => by rw [Except.map, Zip.bytesOf_eq]⟩

theorem packs_packedEntries : packedEntries.Packs packedFiles where
  stored entry h := by
    obtain ⟨⟨path, bytes⟩, hfile, rfl⟩ := List.mem_map.1 h
    rw [List.mem_reverse] at hfile
    refine ⟨bytes, hfile, stores_rawEntry path ?_⟩
    obtain ⟨-, rfl⟩ | ⟨-, rfl⟩ := mem_packedFiles_iff.1 hfile <;> decide
  packed path bytes h := ⟨_, List.mem_map.2 ⟨_, List.mem_reverse.2 h, rfl⟩, rfl⟩

/-- The class is reported of both and loaded from both, but under the highest limit it is loaded
from the directory alone. -/
theorem packed_agrees_highest :
    .ok "a.B" ∈ (Root.archive "lib.jar" packedEntries 100).reports packedTree "" ∧
      (∃ classFile, (Root.archive "lib.jar" packedEntries 100).outcome packedTree "a.B" =
        .ok classFile ∧ (Root.directory "lib").outcome packedTree "a.B" = .ok classFile) ∧
      .ok "a.B" ∈ (Root.archive "lib.jar" packedEntries 0xFFFFFFFFFFFFFFFF).reports packedTree "" ∧
      ¬ ∀ classFile, (Root.directory "lib").outcome packedTree "a.B" = .ok classFile ↔
        (Root.archive "lib.jar" packedEntries 0xFFFFFFFFFFFFFFFF).outcome packedTree "a.B" =
          .ok classFile := by
  have hreported : .ok "a.B" ∈ (Root.directory "lib").reports packedTree "" := by
    rw [Root.mem_reports_directory_iff shows_packedTree (by simp)]
    exact ⟨"a/B.class", packedClass, .head _, by decide +kernel⟩
  obtain ⟨classFile, hloaded⟩ :
      ∃ classFile, (Root.directory "lib").outcome packedTree "a.B" = .ok classFile := ⟨_, rfl⟩
  have hsizes : ∀ path bytes, (path, bytes) ∈ packedFiles → bytes.length ≤ 100 := by
    intro path bytes h
    obtain ⟨-, rfl⟩ | ⟨-, rfl⟩ := mem_packedFiles_iff.1 h <;> decide
  have hagrees (limit : UInt64) (hlimit : 100 ≤ limit.toNat) :=
    packed_agrees shows_packedTree packs_packedEntries
      (fun path bytes h => (hsizes path bytes h).trans hlimit) "lib.jar" ""
  obtain ⟨hnames, -, hloads⟩ := hagrees 100 (by decide)
  obtain ⟨hothers, -, hnone⟩ := hagrees 0xFFFFFFFFFFFFFFFF (by decide)
  have hparts : [] ∉ Text.Parts.cut '.' "a.B".toList := by decide
  have hsame := (hloads "a.B" hreported hparts).2 (.inl (by decide)) classFile
  refine ⟨(hnames "a.B").1 hreported, ⟨classFile, hsame.1 hloaded, hloaded⟩,
    (hothers "a.B").1 hreported, fun hall => ?_⟩
  rcases (hnone "a.B" hreported hparts).1 hall with hroom | hnever
  · exact absurd hroom (by decide)
  · exact hnever classFile hloaded

end Classpath

end Embargo
