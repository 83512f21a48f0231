import Embargo.Classpath.Root
import Embargo.Proofs.Classpath.Naming
import Embargo.Proofs.Storage.Following

/-!
Which class files are looked for below their root. A path is relative and never climbs, and so
is the path that is made of its class name, unless the name starts with a dot: that dot turns
into a slash, and the path into an absolute one.
-/
namespace Embargo

/-- What a directory root reads for a class is what stands at its path. -/
theorem Classpath.Root.run_readClass_directory (base name : String) (tree : Storage.Tree) :
    ((directory base).readClass name : StateM Storage.Tree _).run tree =
      (match tree.read (Storage.join base (EntryPath.ofClass name)) with
        | .ok data => .ok data
        | .error .missing => .error (.missing name)
        | .error cause => .error (.unreadable name cause), tree) := by
  have hread : (Storage.read (Storage.join base (EntryPath.ofClass name)) :
      StateM Storage.Tree _).run tree = (tree.read _, tree) := rfl
  rw [readClass, StateT.run_bind, hread]
  rcases tree.read (Storage.join base (EntryPath.ofClass name)) with cause | data
  · cases cause <;> rfl
  · rfl

namespace EntryPath
open Text

variable {path name : String} {text stem : List Char}

/-- What spells the class name in a canonical path does not start with a slash, whether or not
the file is for a version. -/
theorem Spells.head_ne (h : Spells text stem) (hcut : [] ∉ Parts.cut '/' text) :
    stem.head? ≠ some '/' := by
  intro hhead
  obtain ⟨more, rfl⟩ := List.head?_eq_some_iff.1 hhead
  cases h with
  | plain => exact hcut (Parts.cut_append_cons [] (more ++ suffix) ▸ .head _)
  | version => exact head_ne_of_behind hcut rfl

/-- The dots of a name are slashes in the path, so that only the suffix holds one. -/
theorem exists_cut_ofClass (name : String) : ∃ front last,
    Parts.cut '/' (ofClass name).toList = front ++ [last ++ suffix] ∧
      ∀ part ∈ front, '.' ∉ part := by
  obtain ⟨front, last, hcut, happend⟩ := Parts.cut_append_of_notMem
    (show '/' ∉ suffix by decide) (Name.toInternal name).toList
  refine ⟨front, last, (toList_ofClass name).symm ▸ happend, fun part hpart hdot => ?_⟩
  have hmem : part ∈ Parts.cut '/' _ := hcut ▸ List.mem_append_left _ hpart
  have hdotted := (Parts.of_mem_cut hmem hdot).1
  rw [Name.toInternal, Name.toList_substitute] at hdotted
  obtain ⟨c, -, hc⟩ := List.mem_map.1 hdotted
  split_ifs at hc with hdotted
  · exact absurd hc (by decide)
  · exact hdotted hc

theorem downward_ofClass (h : (ofClass name).toList.head? ≠ some '/') :
    Storage.Tree.Downward (ofClass name) := by
  obtain ⟨front, last, hcut, hfront⟩ := exists_cut_ofClass name
  have hparts : Storage.parts (ofClass name) =
      front.map String.ofList ++ [String.ofList (last ++ suffix)] := by
    rw [Storage.parts, hcut]
    simp
  have hlast : ∀ few : String, few.length < 6 → String.ofList (last ++ suffix) ≠ few := by
    rintro few hfew rfl
    rw [String.length_ofList] at hfew
    exact append_suffix_ne hfew rfl
  refine ⟨⟨fun hempty => ?_, h⟩, fun hclimb => ?_,
    ⟨_, _, hparts, hlast "" (by decide), hlast "." (by decide)⟩⟩
  · have := toList_ofClass name
    rw [hempty, String.toList_empty, eq_comm, List.append_eq_nil_iff] at this
    exact absurd this.2 (by decide)
  · rw [hparts] at hclimb
    rcases List.mem_append.1 hclimb with hclimb | hclimb
    · obtain ⟨part, hpart, hdots⟩ := List.mem_map.1 hclimb
      refine hfront part hpart ?_
      rw [← String.toList_ofList (l := part), hdots]
      decide
    · exact hlast ".." (by decide) (List.mem_singleton.1 hclimb).symm

theorem exists_canonical (h : Storage.Tree.Downward path) :
    ∃ inside, canonical path = .ok inside := by
  obtain ⟨front, last, hparts, hlast⟩ := h.last
  have hmem : last ∈ Storage.parts path := hparts ▸ List.mem_append_right _ (.head _)
  obtain ⟨part, hpart, rfl⟩ := List.mem_map.1 hmem
  refine ⟨_, canonical_eq_ok_iff.2 ⟨h.relative.2, fun hclimb => h.noClimb ?_, fun hnone => ?_, rfl⟩⟩
  · exact List.mem_map.2 ⟨_, (List.mem_filter.1 hclimb).1, rfl⟩
  · have hproper : part ∈ names path.toList := by
      refine List.mem_filter.2 ⟨hpart, decide_eq_true ⟨?_, ?_⟩⟩
      · rintro rfl
        exact hlast.1 rfl
      · rintro rfl
        exact hlast.2 rfl
    rw [hnone] at hproper
    exact absurd hproper List.not_mem_nil

theorem canonical_of_absolute (h : path.toList.head? = some '/') :
    canonical path = .error (.absolute path) := by
  have hne : path.toList ≠ [] := fun hnil => by simp [hnil] at h
  simp only [canonical, if_neg hne, if_pos h]

/-- A path whose class name starts with a dot, be it below a root or below the directory of a
version. -/
def IsHidden (path : String) : Prop :=
  ∃ inside stem, canonical path = .ok inside ∧ stem? inside.toList = some stem ∧
    stem.head? = some '.'

theorem head_ofClass_iff (h : className? path = .ok (some name)) :
    (ofClass name).toList.head? = some '/' ↔ IsHidden path := by
  obtain ⟨inside, stem, hinside, hspells, -, rfl⟩ := className?_eq_some_iff.1 h
  have hstem := stem?_eq_some_iff.2 hspells
  have hhead := hspells.head_ne (nil_notMem_cut hinside)
  have hhidden : IsHidden path ↔ stem.head? = some '.' := by
    refine ⟨fun ⟨inside', stem', hinside', hstem', h⟩ => ?_, fun h => ⟨_, _, hinside, hstem, h⟩⟩
    rw [hinside, Except.ok.injEq] at hinside'
    rw [← hinside', hstem, Option.some.injEq] at hstem'
    rwa [hstem']
  rw [hhidden, toList_ofClass, Name.toInternal, Name.toList_substitute]
  -- Of the two characters that the path has a slash for, the stem can only begin with the dot.
  cases stem with
  | nil => decide
  | cons c stem =>
    have hc : c ≠ '/' := by simpa using hhead
    by_cases hdot : c = '.' <;> simp [Name.toDotted, Name.substitute, hc, hdot]

/-- A class is looked for below the root, unless its path is hidden. Then the name gives an
absolute path, and the root does not count. -/
theorem lookup_contained (h : className? path = .ok (some name)) :
    ((∃ inside, canonical (ofClass name) = .ok inside) ↔ ¬ IsHidden path) ∧
      (IsHidden path → canonical (ofClass name) = .error (.absolute (ofClass name)) ∧
        ∀ base, Storage.join base (ofClass name) = ofClass name) ∧
      (¬ IsHidden path → ∀ (tree : Storage.Tree) (base : String) (data : List UInt8),
        (((Classpath.Root.directory base).readClass name : StateM Storage.Tree _).run tree).1 =
          .ok data →
        ∃ root below, tree.HasRoot base root ∧ below ≠ [] ∧
          (∀ part ∈ below, Storage.Tree.Descends part) ∧
          tree.node? (root ++ below) = some (.file data)) := by
  rw [← head_ofClass_iff h]
  refine ⟨⟨fun ⟨inside, hinside⟩ => (canonical_eq_ok_iff.1 hinside).1,
    fun h => exists_canonical (downward_ofClass h)⟩,
    fun h => ⟨canonical_of_absolute h, fun base => by rw [Storage.join, if_pos h]⟩,
    fun h tree base data hread => ?_⟩
  refine Storage.Tree.exists_file_of_read (downward_ofClass h) ?_
  rw [Classpath.Root.run_readClass_directory] at hread
  split at hread
  case h_1 found hfound =>
    cases hread
    exact hfound
  all_goals cases hread

/-- A root with a class file below it, and a file at the top of the tree. -/
def strayTree : Storage.Tree where
  workingDirectory := ["home"]
  nodes := [(["home"], .directory), (["home", "root"], .directory),
    (["home", "root", "a"], .directory), (["home", "root", "a", "B.class"], .file [1]),
    (["Up.class"], .file [2])]

theorem lookup_contained_hidden :
    className? ".Up.class" = .ok (some ".Up") ∧
      canonical (ofClass ".Up") = .error (.absolute "/Up.class") ∧
      (∀ base, Storage.join base (ofClass ".Up") = "/Up.class") ∧
      className? "a/B.class" = .ok (some "a.B") ∧
      ∃ root below, strayTree.HasRoot "root" root ∧ below ≠ [] ∧
        (∀ part ∈ below, Storage.Tree.Descends part) ∧
        strayTree.node? (root ++ below) = some (.file [1]) := by
  have hup : className? ".Up.class" = .ok (some ".Up") := by decide
  have hab : className? "a/B.class" = .ok (some "a.B") := by decide
  have hhidden : IsHidden ".Up.class" :=
    ⟨".Up.class", ".Up".toList, by decide, by decide, by decide⟩
  have hplain : ¬ IsHidden "a/B.class" := (lookup_contained hab).1.1 ⟨"a/B.class", by decide⟩
  obtain ⟨habsolute, hjoin⟩ := (lookup_contained hup).2.1 hhidden
  exact ⟨hup, habsolute, hjoin, hab, (lookup_contained hab).2.2 hplain strayTree "root" [1] rfl⟩

end EntryPath

end Embargo
