import Embargo.Storage.Tree
import Embargo.Proofs.Attempt
import Embargo.Proofs.Text.Parts

/-!
Where a path leads in a file tree. Names are followed one after another, so a path inside
another one is followed on from where that one leads. A way that never climbs goes straight
down, and ends at the first node that is no directory.
-/
namespace Embargo.Storage
open Text

/-- The names in a path as they are followed. -/
def parts (path : String) : List String := (Parts.cut '/' path.toList).map String.ofList

/-- The names that do not stand for the place itself. -/
def steps (names : List String) : List String := names.filter fun name => name ≠ "" ∧ name ≠ "."

theorem parts_ne_nil (path : String) : parts path ≠ [] := by
  simpa [parts] using Parts.cut_ne_nil '/' path.toList

/-- A path that starts where another one leads. -/
def Relative (path : String) : Prop := path ≠ "" ∧ path.toList.head? ≠ some '/'

theorem exists_join (base : String) {path : String} (hpath : Relative path) :
    ∃ rest, join base path = base ++ rest := by
  rw [join, if_neg hpath.2]
  split
  · exact ⟨path, rfl⟩
  · exact ⟨"/" ++ path, String.append_assoc⟩

/-- The parts of a path inside another one follow those of the other, where a slash at the
end of that does not count. -/
theorem parts_join {base path : String} (hbase : base ≠ "") (hpath : Relative path) :
    parts (join base path) = parts base ++ parts path ∨
      ∃ front, parts base = front ++ [""] ∧ parts (join base path) = front ++ parts path := by
  rw [join, if_neg hpath.2]
  split
  case isTrue h =>
    right
    have hlast : base.toList.getLast? = some '/' := by simpa [hbase] using h
    obtain ⟨front, hfront⟩ := List.getLast?_eq_some_iff.1 hlast
    refine ⟨(Parts.cut '/' front).map String.ofList, ?_, ?_⟩
    · rw [parts, hfront, Parts.cut_append_cons]
      simp
    · rw [parts, parts, String.toList_append, hfront, List.append_assoc, List.singleton_append,
        Parts.cut_append_cons, List.map_append]
  case isFalse =>
    left
    rw [parts, String.toList_append, String.toList_append, List.append_assoc]
    exact (congrArg _ (Parts.cut_append_cons _ _)).trans List.map_append

/-- What is read of a node that is opened. -/
def Node.read : Node → Except StorageFault (List UInt8)
  | .file bytes => .ok bytes
  | .directory => .error .isDirectory

namespace Tree
variable {tree : Tree} {names xs ys : List String} {here there root : Location} {node found : Node}
  {base path : String}

theorem follow_append (xs ys : List String) (here : Location) (node : Node) :
    tree.follow (xs ++ ys) here node =
      tree.follow xs here node >>= fun (there, node) => tree.follow ys there node := by
  induction xs generalizing here node with
  | nil => rfl
  | cons name xs ih =>
    cases node with
    | file => rfl
    | directory =>
      simp only [List.cons_append, follow]
      split_ifs
      · exact ih _ _
      · exact ih _ _
      · rfl
      · split
        · exact ih _ _
        · rfl

/-- What is followed inside a directory does not depend on empty names in front. -/
theorem follow_empty_bind (h : ys ≠ []) (here : Location) (node : Node) :
    (tree.follow [""] here node >>= fun (there, node) => tree.follow ys there node) =
      tree.follow ys here node := by
  obtain ⟨name, rest, rfl⟩ := List.exists_cons_of_ne_nil h
  cases node <;> rfl

theorem follow_join (hbase : base ≠ "") (hpath : Relative path) (here : Location) (node : Node) :
    tree.follow (parts (join base path)) here node =
      tree.follow (parts base) here node >>= fun (there, node) =>
        tree.follow (parts path) there node := by
  rcases parts_join hbase hpath with h | ⟨front, hparts, h⟩
  · rw [h, follow_append]
  · rw [h, hparts, follow_append, follow_append, bind_assoc]
    simp only [follow_empty_bind (parts_ne_nil path)]

/-- A path that the system takes. -/
def Openable (path : String) : Prop := '\x00' ∉ path.toList ∧ ¬ isTooLong path

/-- Where the first name of a path is looked for. -/
def start (tree : Tree) (path : String) : Location :=
  if path.toList.head? = some '/' then [] else tree.workingDirectory

theorem find_of_openable (hpath : path ≠ "") (h : Openable path) :
    tree.find path = tree.follow (parts path) (tree.start path) .directory := by
  obtain ⟨hnul, hsize⟩ := h
  rw [find, names, if_neg (by simpa using hpath), if_neg (by simpa using hnul)]
  simp only [bind, Except.bind, if_neg hsize]
  rfl

theorem openable_of_find (h : tree.find path = .ok (there, found)) :
    path ≠ "" ∧ Openable path := by
  rw [find, names] at h
  by_cases hempty : path = ""
  · simp [hempty, bind, Except.bind] at h
  by_cases hnul : '\x00' ∈ path.toList
  · simp [hempty, hnul, bind, Except.bind] at h
  refine ⟨hempty, hnul, fun hsize => ?_⟩
  simp [hempty, hnul, hsize, bind, Except.bind] at h

/-- The directory that the paths inside a path start from. Those inside the empty path start
where every relative path does. -/
def HasRoot (tree : Tree) (base : String) (root : Location) : Prop :=
  if base = "" then root = tree.workingDirectory else tree.find base = .ok (root, .directory)

theorem Openable.of_join (hpath : Relative path) (h : Openable (join base path)) :
    Openable base := by
  obtain ⟨rest, hrest⟩ := exists_join base hpath
  rw [hrest] at h
  refine ⟨fun hnul => h.1 (by simp [hnul]), fun hsize => h.2 ?_⟩
  simp only [isTooLong, String.utf8ByteSize_append, decide_eq_true_eq] at hsize ⊢
  omega

theorem find_join_bind (hbase : base ≠ "") (hpath : Relative path) (h : Openable (join base path)) :
    tree.find (join base path) =
      tree.find base >>= fun (there, node) => tree.follow (parts path) there node := by
  obtain ⟨c, cs, hcs⟩ := List.exists_cons_of_ne_nil (mt String.toList_eq_nil_iff.1 hbase)
  obtain ⟨rest, hrest⟩ := exists_join base hpath
  have hjoin : (join base path).toList = c :: (cs ++ rest.toList) := by simp [hrest, hcs]
  have hne : join base path ≠ "" := fun he => by simp [he] at hjoin
  have hstart : tree.start (join base path) = tree.start base := by
    rw [start, start, hjoin, hcs]
    rfl
  rw [find_of_openable hne h, follow_join hbase hpath, hstart,
    find_of_openable hbase (h.of_join hpath)]

theorem find_join (hroot : tree.HasRoot base root) (hpath : Relative path)
    (h : Openable (join base path)) :
    tree.find (join base path) = tree.follow (parts path) root .directory := by
  by_cases hbase : base = ""
  · rw [HasRoot, if_pos hbase] at hroot
    have hjoin : join base path = path := by simp [join, hbase, hpath.2]
    rw [hjoin] at h ⊢
    rw [find_of_openable hpath.1 h, start, if_neg hpath.2, hroot]
  · rw [HasRoot, if_neg hbase] at hroot
    rw [find_join_bind hbase hpath h, hroot]
    rfl

theorem exists_hasRoot (hpath : Relative path)
    (h : tree.find (join base path) = .ok (there, found)) : ∃ root, tree.HasRoot base root := by
  by_cases hbase : base = ""
  · exact ⟨tree.workingDirectory, by rw [HasRoot, if_pos hbase]⟩
  · rw [find_join_bind hbase hpath (openable_of_find h).2] at h
    obtain ⟨⟨root, node⟩, hroot, h⟩ := Except.bind_eq_ok_iff.1 h
    refine ⟨root, ?_⟩
    rw [HasRoot, if_neg hbase, hroot]
    obtain ⟨name, rest, hparts⟩ := List.exists_cons_of_ne_nil (parts_ne_nil path)
    cases node with
    | directory => rfl
    | file =>
      rw [hparts] at h
      cases h

/-- A name that leads one level down. -/
def Descends (name : String) : Prop := name ≠ "" ∧ name ≠ "." ∧ name ≠ ".."

/-- Each of some names stands for a directory inside the one before. -/
def Leads (tree : Tree) : Location → List String → Prop
  | _, [] => True
  | here, name :: rest =>
    name.utf8ByteSize ≤ 255 ∧ tree.node? (here ++ [name]) = some .directory ∧
      tree.Leads (here ++ [name]) rest

/-- What is read at the end of a way down. The way stops at the first name that does not
stand for a directory. -/
inductive Ends (tree : Tree) (here : Location) (way : List String) :
    Except StorageFault (List UInt8) → Prop
  | directory : tree.Leads here way → tree.Ends here way (.error .isDirectory)
  | file {front name bytes} : way = front ++ [name] → tree.Leads here front →
      name.utf8ByteSize ≤ 255 → tree.node? (here ++ front ++ [name]) = some (.file bytes) →
      tree.Ends here way (.ok bytes)
  | blocked {front name back bytes} : way = front ++ name :: back → back ≠ [] →
      tree.Leads here front → name.utf8ByteSize ≤ 255 →
      tree.node? (here ++ front ++ [name]) = some (.file bytes) →
      tree.Ends here way (.error .notDirectory)
  | missing {front name back} : way = front ++ name :: back → tree.Leads here front →
      name.utf8ByteSize ≤ 255 → tree.node? (here ++ front ++ [name]) = none →
      tree.Ends here way (.error .missing)
  | nameTooLong {front name back} : way = front ++ name :: back → tree.Leads here front →
      255 < name.utf8ByteSize → tree.Ends here way (.error .nameTooLong)

theorem Ends.below {name : String} {way : List String} {result : Except StorageFault (List UInt8)}
    (hname : name.utf8ByteSize ≤ 255) (hnode : tree.node? (here ++ [name]) = some .directory)
    (h : tree.Ends (here ++ [name]) way result) : tree.Ends here (name :: way) result := by
  have hleads : ∀ {front}, tree.Leads (here ++ [name]) front → tree.Leads here (name :: front) :=
    fun h => ⟨hname, hnode, h⟩
  cases h with
  | directory h => exact .directory (hleads h)
  | file hway h hsize hfound =>
    exact .file (congrArg _ hway) (hleads h) hsize (by simpa using hfound)
  | blocked hway hback h hsize hfound =>
    exact .blocked (congrArg _ hway) hback (hleads h) hsize (by simpa using hfound)
  | missing hway h hsize hfound =>
    exact .missing (congrArg _ hway) (hleads h) hsize (by simpa using hfound)
  | nameTooLong hway h hsize => exact .nameTooLong (congrArg _ hway) (hleads h) hsize

theorem read_eq (path : String) :
    tree.read path = tree.find path >>= fun (_, node) => node.read := by
  rw [read]
  congr
  funext ⟨_, node⟩
  cases node <;> rfl

theorem follow_cons {name : String} (h : Descends name) (rest : List String) (here : Location) :
    tree.follow (name :: rest) here .directory =
      if 255 < name.utf8ByteSize then .error .nameTooLong
      else
        match tree.node? (here ++ [name]) with
        | some node => tree.follow rest (here ++ [name]) node
        | none => .error .missing := by
  rw [follow]
  exact (if_neg (by simp [h.1, h.2.1])).trans (if_neg h.2.2)

/-- Every way down ends. -/
theorem ends_follow {way : List String} (hway : ∀ name ∈ way, Descends name) (here : Location) :
    tree.Ends here way (tree.follow way here .directory >>= fun (_, node) => node.read) := by
  induction way generalizing here with
  | nil => exact .directory trivial
  | cons name rest ih =>
    obtain ⟨hname, hrest⟩ := List.forall_mem_cons.1 hway
    rw [follow_cons hname]
    split_ifs with hsize
    · exact .nameTooLong (List.nil_append _).symm trivial hsize
    · rw [Nat.not_lt] at hsize
      match hnode : tree.node? (here ++ [name]) with
      | none => exact .missing (List.nil_append _).symm trivial hsize (by simpa using hnode)
      | some .directory => exact (ih hrest _).below hsize hnode
      | some (.file bytes) =>
        cases rest with
        | nil => exact .file (List.nil_append _).symm trivial hsize (by simpa using hnode)
        | cons next rest =>
          exact .blocked (List.nil_append _).symm (List.cons_ne_nil _ _) trivial hsize
            (by simpa using hnode)

theorem follow_of_leads {front : List String} (hfront : ∀ name ∈ front, Descends name)
    (h : tree.Leads here front) (rest : List String) :
    tree.follow (front ++ rest) here .directory = tree.follow rest (here ++ front) .directory := by
  induction front generalizing here with
  | nil => simp
  | cons name front ih =>
    obtain ⟨hname, hfront⟩ := List.forall_mem_cons.1 hfront
    obtain ⟨hsize, hnode, hleads⟩ := h
    rw [List.cons_append, follow_cons hname, if_neg (Nat.not_lt.2 hsize), hnode]
    simpa using ih hfront hleads

/-- A way down ends in one way only. -/
theorem Ends.eq {way : List String} {result : Except StorageFault (List UInt8)}
    (hway : ∀ name ∈ way, Descends name) (h : tree.Ends here way result) :
    (tree.follow way here .directory >>= fun (_, node) => node.read) = result := by
  -- Directories lead to the name that decides; what stands there is looked up once.
  have hdown : ∀ {front name back}, way = front ++ name :: back → tree.Leads here front →
      tree.follow way here .directory =
        if 255 < name.utf8ByteSize then .error .nameTooLong
        else
          match tree.node? (here ++ front ++ [name]) with
          | some node => tree.follow back (here ++ front ++ [name]) node
          | none => .error .missing := by
    rintro front name back rfl hleads
    obtain ⟨hfront, hback⟩ := List.forall_mem_append.1 hway
    rw [follow_of_leads hfront hleads, follow_cons (List.forall_mem_cons.1 hback).1]
  cases h with
  | directory h =>
    have := follow_of_leads hway h []
    rw [List.append_nil] at this
    rw [this]
    rfl
  | file hfront h hsize hnode => rw [hdown hfront h, if_neg (Nat.not_lt.2 hsize), hnode]; rfl
  | @blocked _ _ back _ hfront hback h hsize hnode =>
    obtain ⟨next, rest, rfl⟩ := List.exists_cons_of_ne_nil hback
    rw [hdown hfront h, if_neg (Nat.not_lt.2 hsize), hnode]
    rfl
  | missing hfront h hsize hnode => rw [hdown hfront h, if_neg (Nat.not_lt.2 hsize), hnode]; rfl
  | nameTooLong hfront h hsize => rw [hdown hfront h, if_pos hsize]; rfl

/-- Names that stand for the place itself do not count, unless one of them is the last. -/
theorem follow_steps {last : String} (hlast : last ≠ "" ∧ last ≠ ".") (names : List String)
    (here : Location) (node : Node) :
    tree.follow (names ++ [last]) here node = tree.follow (steps (names ++ [last])) here node := by
  -- Some name is left to follow, so a file is no end to the steps either.
  have hsteps : ∀ names, ∃ name rest, steps (names ++ [last]) = name :: rest := fun names => by
    refine List.exists_cons_of_ne_nil ?_
    simp [steps, hlast]
  induction names generalizing here node with
  | nil => simp [steps, hlast]
  | cons name names ih =>
    cases node with
    | file =>
      obtain ⟨step, rest, h⟩ := hsteps (name :: names)
      rw [h]
      rfl
    | directory =>
      by_cases hname : name = "" ∨ name = "."
      · have hskip : steps (name :: names ++ [last]) = steps (names ++ [last]) := by
          rcases hname with rfl | rfl <;> simp [steps]
        rw [hskip, List.cons_append, follow, if_pos hname]
        exact ih _ _
      · have hkeep : steps (name :: names ++ [last]) = name :: steps (names ++ [last]) := by
          simp [steps, not_or.1 hname]
        rw [hkeep, List.cons_append, follow, follow, if_neg hname, if_neg hname]
        simp only [ih]

/-- A path that goes down from a root, to a name of its own. -/
structure Downward (path : String) : Prop where
  relative : Relative path
  noClimb : ".." ∉ parts path
  last : ∃ front last, parts path = front ++ [last] ∧ last ≠ "" ∧ last ≠ "."

theorem Downward.descends (h : Downward path) : ∀ name ∈ steps (parts path), Descends name := by
  intro name hname
  obtain ⟨hname, hstep⟩ := List.mem_filter.1 hname
  obtain ⟨hempty, hdot⟩ := of_decide_eq_true hstep
  exact ⟨hempty, hdot, fun hclimb => h.noClimb (hclimb ▸ hname)⟩

/-- What is read at a path inside a root is what the way down from the root ends at. -/
theorem read_join_iff {result : Except StorageFault (List UInt8)} (hroot : tree.HasRoot base root)
    (hpath : Downward path) (hopen : Openable (join base path)) :
    tree.read (join base path) = result ↔ tree.Ends root (steps (parts path)) result := by
  obtain ⟨front, last, hparts, hlast⟩ := hpath.last
  have hfollow : tree.follow (parts path) root .directory =
      tree.follow (steps (parts path)) root .directory := by
    rw [hparts, follow_steps hlast]
  rw [read_eq, find_join hroot hpath.relative hopen, hfollow]
  exact ⟨fun h => h ▸ ends_follow hpath.descends root, fun h => h.eq hpath.descends⟩

/-- Data that is read at a path inside a root is that of a file below the root. -/
theorem exists_file_of_read {data : List UInt8} (hpath : Downward path)
    (h : tree.read (join base path) = .ok data) :
    ∃ root below, tree.HasRoot base root ∧ below ≠ [] ∧ (∀ name ∈ below, Descends name) ∧
      tree.node? (root ++ below) = some (.file data) := by
  rw [read_eq] at h
  obtain ⟨⟨there, node⟩, hfind, hnode⟩ := Except.bind_eq_ok_iff.1 h
  obtain ⟨root, hroot⟩ := exists_hasRoot hpath.relative hfind
  rw [← read_eq, read_join_iff hroot hpath (openable_of_find hfind).2] at h
  have hdescends := hpath.descends
  generalize steps (parts path) = way at h hdescends
  cases h with
  | @file front last _ hway _ _ hfile =>
    exact ⟨root, way, hroot, by simp [hway], hdescends, by simpa [hway] using hfile⟩

end Tree

end Embargo.Storage
