import Embargo.Proofs.Storage.Following

/-!
What is found in a file tree after something was put at a location or erased there. All other
locations stay as they are, and so do the ways that do not end at the location.
-/
namespace Embargo.Storage

namespace Tree
variable {tree other : Tree} {location here there : Location} {names : List String}
  {node found : Node} {path : String}

/-- Two trees that differ at most in what is at one location. -/
structure SameBut (location : Location) (tree other : Tree) : Prop where
  workingDirectory : other.workingDirectory = tree.workingDirectory
  node? : ∀ there, there ≠ location → other.node? there = tree.node? there

theorem SameBut.trans {third : Tree} (h : SameBut location tree other)
    (h' : SameBut location other third) : SameBut location tree third :=
  ⟨h'.workingDirectory.trans h.workingDirectory,
    fun there hne => (h'.node? there hne).trans (h.node? there hne)⟩

theorem lookup_cons_eq (there first : Location) (old : Node) (rest : List (Location × Node)) :
    ((first, old) :: rest).lookup there = if there = first then some old else rest.lookup there := by
  by_cases h : there = first
  · simp [h]
  · rw [List.lookup_cons, beq_eq_false_iff_ne.2 h, if_neg h]

theorem lookup_putNode (there : Location) (nodes : List (Location × Node)) :
    (putNode location node nodes).lookup there =
      if there = location then some node else nodes.lookup there := by
  induction nodes with
  | nil => rw [putNode, lookup_cons_eq]
  | cons entry rest ih =>
    obtain ⟨first, old⟩ := entry
    rw [putNode]
    split_ifs with hfirst h h <;> simp only [lookup_cons_eq, ih]
    · rw [if_pos (h.trans hfirst.symm)]
    · rw [if_neg (hfirst ▸ h), if_neg (hfirst ▸ h)]
    · rw [if_neg (h ▸ Ne.symm hfirst), if_pos h]
    · rw [if_neg h]

theorem lookup_erased (there : Location) (nodes : List (Location × Node)) :
    (nodes.filter fun (here, _) => here ≠ location).lookup there =
      if there = location then none else nodes.lookup there := by
  induction nodes with
  | nil => simp
  | cons entry rest ih =>
    obtain ⟨first, old⟩ := entry
    by_cases hfirst : first = location
    · rw [List.filter_cons_of_neg (by simpa using hfirst), ih, lookup_cons_eq, hfirst]
      split_ifs <;> rfl
    · rw [List.filter_cons_of_pos (by simpa using hfirst), lookup_cons_eq, lookup_cons_eq, ih]
      by_cases h : there = location
      · rw [if_neg (h ▸ Ne.symm hfirst), if_pos h, if_pos h]
      · rw [if_neg h, if_neg h]

theorem node?_put (hlocation : location ≠ []) :
    (tree.put location node).node? location = some node := by
  rw [Tree.node?, if_neg hlocation, put, lookup_putNode, if_pos rfl]

theorem node?_erase (hlocation : location ≠ []) : (tree.erase location).node? location = none := by
  rw [Tree.node?, if_neg hlocation, erase, lookup_erased, if_pos rfl]

theorem sameBut_put (tree : Tree) (location : Location) (node : Node) :
    tree.SameBut location (tree.put location node) :=
  ⟨rfl, fun there hne => by rw [Tree.node?, Tree.node?, put, lookup_putNode, if_neg hne]⟩

theorem sameBut_erase (tree : Tree) (location : Location) :
    tree.SameBut location (tree.erase location) :=
  ⟨rfl, fun there hne => by rw [Tree.node?, Tree.node?, erase, lookup_erased, if_neg hne]⟩

/-- A way that does not end at a location does not lead past it, unless there is a directory. -/
theorem SameBut.follow (h : tree.SameBut location other)
    (hlocation : tree.node? location ≠ some .directory)
    (hfollow : tree.follow names here node = .ok (there, found))
    (hend : there ≠ location ∨ found = .directory) :
    other.follow names here node = .ok (there, found) := by
  induction names generalizing here node with
  | nil => exact hfollow
  | cons name rest ih =>
    cases node with
    | file => cases hfollow
    | directory =>
      rw [Tree.follow] at hfollow ⊢
      split_ifs at hfollow ⊢
      · exact ih hfollow
      · exact ih hfollow
      · by_cases hhere : here ++ [name] = location
        · -- What stands at the location is no directory, so the way would end there.
          rw [hhere] at hfollow
          split at hfollow
          case h_1 step hstep =>
            cases step with
            | directory => exact absurd hstep hlocation
            | file =>
              cases rest with
              | nil =>
                cases hfollow
                exact absurd rfl (hend.resolve_right Node.noConfusion)
              | cons => cases hfollow
          case h_2 => cases hfollow
        · rw [h.node? _ hhere]
          split at hfollow
          · exact ih hfollow
          · cases hfollow

/-- A file at the end of a way is what stands there. -/
theorem node?_of_follow {bytes : List UInt8}
    (h : tree.follow names here .directory = .ok (there, .file bytes)) :
    tree.node? there = some (.file bytes) := by
  suffices hall : ∀ names here node, tree.follow names here node = .ok (there, .file bytes) →
      (node = .file bytes → tree.node? here = some (.file bytes)) →
      tree.node? there = some (.file bytes) from hall names here _ h nofun
  clear h
  intro names here node h hnode
  induction names generalizing here node with
  | nil =>
    cases h
    exact hnode rfl
  | cons name rest ih =>
    cases node with
    | file => cases h
    | directory =>
      rw [Tree.follow] at h
      split_ifs at h
      · exact ih _ _ h nofun
      · exact ih _ _ h nofun
      · split at h
        case h_1 step hstep => exact ih _ _ h fun hfile => hfile ▸ hstep
        case h_2 => cases h

/-- Where a path leads, whatever its length. -/
def locate (tree : Tree) (path : String) : Except StorageFault (Location × Node) := do
  let (start, names) ← tree.names path
  tree.follow names start .directory

theorem resolve_eq (tree : Tree) (path : String) :
    tree.resolve path = (tree.locate path).map fun (location, _) => pathText location := by
  rw [resolve, locate]
  cases tree.names path with
  | error => rfl
  | ok names =>
    obtain ⟨start, names⟩ := names
    simp only [bind, Except.bind]
    cases tree.follow names start .directory <;> rfl

theorem locate_of_openable (hpath : path ≠ "") (h : Openable path) :
    tree.locate path = tree.find path := by
  rw [find_of_openable hpath h, locate, names, if_neg (by simpa using hpath),
    if_neg (by simpa using h.1)]
  rfl

theorem SameBut.locate (h : tree.SameBut location other)
    (hlocation : tree.node? location ≠ some .directory)
    (hlocate : tree.locate path = .ok (there, found)) (hend : there ≠ location ∨ found = .directory) :
    other.locate path = .ok (there, found) := by
  obtain ⟨⟨start, names⟩, hnames, hfollow⟩ := Except.bind_eq_ok_iff.1 hlocate
  have hnames' : other.names path = .ok (start, names) := by
    rwa [Tree.names, h.workingDirectory]
  exact Except.bind_eq_ok_iff.2 ⟨_, hnames', h.follow hlocation hfollow hend⟩

/-- Where a file is or may be created: at the end of a way into a directory, in place of a file
or of nothing. -/
structure IsTarget (tree : Tree) (path : String) (location : Location) : Prop where
  nonempty : path ≠ ""
  openable : Openable path
  vacant : tree.node? location ≠ some .directory
  way : ∃ front last parent, parts path = front ++ [last] ∧ Descends last ∧
    last.utf8ByteSize ≤ 255 ∧ location = parent ++ [last] ∧
    tree.follow front (tree.start path) .directory = .ok (parent, .directory)

theorem names_of_openable (hpath : path ≠ "") (h : Openable path) :
    tree.names path = .ok (tree.start path, parts path) := by
  rw [Tree.names, if_neg (by simpa using hpath), if_neg (by simpa using h.1)]
  rfl

theorem openable_of_target (h : tree.target path = .ok location) : path ≠ "" ∧ Openable path := by
  rw [target, Tree.names] at h
  by_cases hempty : path = ""
  · simp [hempty, bind, Except.bind] at h
  by_cases hnul : '\x00' ∈ path.toList
  · simp [hempty, hnul, bind, Except.bind] at h
  refine ⟨hempty, hnul, fun hsize => ?_⟩
  simp [hempty, hnul, hsize, bind, Except.bind, throw, throwThe, MonadExceptOf.throw] at h

/-- A slash at the end asks for a directory, where no file can be. -/
theorem target_ne_ok_of_trailing {front : List String} (hpath : path ≠ "") (h : Openable path)
    (hparts : parts path = front ++ [""]) : tree.target path ≠ .ok location := by
  have htrailing : (parts path).reverse.takeWhile String.isEmpty ≠ [] := by simp [hparts]
  intro hok
  rw [target, names_of_openable hpath h] at hok
  simp only [bind, Except.bind, if_neg h.2] at hok
  split at hok
  · cases hok
  · split at hok
    · cases hok
    · split at hok
      · cases hok
      · rw [if_pos (.inr (.inr htrailing))] at hok
        cases hok

theorem target_of_parts {front : List String} {last : String} (hpath : path ≠ "") (h : Openable path)
    (hparts : parts path = front ++ [last]) (hlast : last ≠ "") :
    tree.target path = (tree.follow front (tree.start path) .directory).bind fun
      | (_, .file _) => .error .notDirectory
      | (parent, .directory) =>
        if last = "." ∨ last = ".." then .error .isDirectory
        else if 255 < last.utf8ByteSize then .error .nameTooLong
        else
          match tree.node? (parent ++ [last]) with
          | some .directory => .error .isDirectory
          | _ => .ok (parent ++ [last]) := by
  have hproper : last.isEmpty = false := by simpa using hlast
  have htrailing : (parts path).reverse.takeWhile String.isEmpty = [] := by simp [hparts, hproper]
  have hnames : ((parts path).reverse.dropWhile String.isEmpty).reverse = front ++ [last] := by
    simp [hparts, hproper]
  rw [target, names_of_openable hpath h]
  simp only [bind, Except.bind, if_neg h.2, htrailing, hnames, List.getLast?_concat,
    List.dropLast_concat, ne_eq, not_true_eq_false, or_false]
  rfl

theorem target_eq_ok_of_parts {front : List String} {last : String} (hpath : path ≠ "")
    (h : Openable path) (hparts : parts path = front ++ [last]) :
    tree.target path = .ok location ↔ Descends last ∧ last.utf8ByteSize ≤ 255 ∧
      tree.node? location ≠ some .directory ∧ ∃ parent, location = parent ++ [last] ∧
      tree.follow front (tree.start path) .directory = .ok (parent, .directory) := by
  by_cases hlast : last = ""
  · subst hlast
    exact iff_of_false (target_ne_ok_of_trailing hpath h hparts) fun hok => hok.1.1 rfl
  rw [target_of_parts hpath h hparts hlast]
  rcases tree.follow front (tree.start path) .directory with fault | ⟨parent, _ | _⟩
  · simp [Except.bind]
  · simp [Except.bind]
  · constructor
    · intro hok
      simp only [Except.bind] at hok
      split_ifs at hok with hdots hsize
      split at hok
      · cases hok
      · next hvacant =>
        cases hok
        exact ⟨⟨hlast, fun hdot => hdots (.inl hdot), fun hclimb => hdots (.inr hclimb)⟩,
          Nat.not_lt.1 hsize, hvacant, parent, rfl, rfl⟩
    · rintro ⟨⟨-, hdot, hclimb⟩, hsize, hvacant, parent, rfl, hparent⟩
      cases hparent
      simp only [Except.bind]
      rw [if_neg (by simp [hdot, hclimb]), if_neg (Nat.not_lt.2 hsize)]

theorem target_eq_ok_iff : tree.target path = .ok location ↔ tree.IsTarget path location := by
  constructor
  · intro h
    obtain ⟨hpath, hopen⟩ := openable_of_target h
    have hparts := (List.dropLast_append_getLast (parts_ne_nil path)).symm
    obtain ⟨hlast, hsize, hvacant, parent, hlocation, hparent⟩ :=
      (target_eq_ok_of_parts hpath hopen hparts).1 h
    exact ⟨hpath, hopen, hvacant, _, _, parent, hparts, hlast, hsize, hlocation, hparent⟩
  · rintro ⟨hpath, hopen, hvacant, front, last, parent, hparts, hlast, hsize, hlocation, hparent⟩
    exact (target_eq_ok_of_parts hpath hopen hparts).2
      ⟨hlast, hsize, hvacant, parent, hlocation, hparent⟩

theorem IsTarget.ne_nil (h : tree.IsTarget path location) : location ≠ [] := by
  obtain ⟨front, last, parent, -, -, -, rfl, -⟩ := h.way
  exact List.append_ne_nil_of_right_ne_nil _ (List.cons_ne_nil _ _)

/-- What is done at a location does not change where a path leads to it. -/
theorem IsTarget.of_sameBut (h : tree.IsTarget path location) (hsame : tree.SameBut location other)
    (hvacant : other.node? location ≠ some .directory) : other.IsTarget path location := by
  obtain ⟨front, last, parent, hparts, hlast, hsize, hlocation, hparent⟩ := h.way
  have hstart : other.start path = tree.start path := by rw [start, start, hsame.workingDirectory]
  refine ⟨h.nonempty, h.openable, hvacant, front, last, parent, hparts, hlast, hsize, hlocation, ?_⟩
  rw [hstart]
  exact hsame.follow h.vacant hparent (.inr rfl)

/-- What is found at the path of a file that is there or may be created. -/
theorem IsTarget.find_eq (h : tree.IsTarget path location) : tree.find path =
    match tree.node? location with
    | some node => .ok (location, node)
    | none => .error .missing := by
  obtain ⟨front, last, parent, hparts, hlast, hsize, rfl, hparent⟩ := h.way
  rw [find_of_openable h.nonempty h.openable, hparts, follow_append, hparent]
  change tree.follow [last] parent .directory = _
  rw [follow_cons hlast, if_neg (Nat.not_lt.2 hsize)]
  rfl

theorem IsTarget.find_of_file {bytes : List UInt8} (h : tree.IsTarget path location)
    (hsame : tree.SameBut location other) (hnode : other.node? location = some (.file bytes)) :
    other.find path = .ok (location, .file bytes) := by
  rw [(h.of_sameBut hsame (by simp [hnode])).find_eq, hnode]

theorem IsTarget.find_of_none (h : tree.IsTarget path location)
    (hsame : tree.SameBut location other) (hnode : other.node? location = none) :
    other.find path = .error .missing := by
  rw [(h.of_sameBut hsame (by simp [hnode])).find_eq, hnode]

/-- A file of which the canonical path is not that of a second one is none of the files that
writing to the second one reaches. -/
theorem IsTarget.ne_of_resolve {input : String} (h : tree.IsTarget path location)
    (hinput : tree.locate input = .ok (there, found))
    (hother : tree.resolve path ≠ tree.resolve input) : there ≠ location ∨ found = .directory := by
  by_contra hboth
  obtain ⟨hthere, hfound⟩ := not_or.1 hboth
  obtain rfl := not_not.1 hthere
  cases found with
  | directory => exact hfound rfl
  | file bytes =>
    obtain ⟨⟨start, names⟩, -, hfollow⟩ := Except.bind_eq_ok_iff.1 hinput
    have hlocate : tree.locate path = .ok (there, .file bytes) := by
      rw [locate_of_openable h.nonempty h.openable, h.find_eq, node?_of_follow hfollow]
    refine hother ?_
    rw [resolve_eq, resolve_eq, hlocate, hinput]

end Tree

/-- A storage that keeps a file tree. Looking at files changes nothing. Opening, reading and
writing may fail for reasons of their own; a file that cannot be opened stays as it is, and one
that cannot be written to is left with anything in it. A file that was just created can be
removed. -/
structure Keeps (σ : Type) [Storage (StateM σ)] (files : σ → Tree) : Prop where
  resolve : ∀ path s, (Storage.resolve path : StateM σ _).run s = ((files s).resolve path, s)
  read : ∀ path s, ∃ result, (Storage.read path : StateM σ _).run s = (result, s) ∧
    ∀ bytes, result = .ok bytes → (files s).read path = .ok bytes
  create : ∀ path s t cause, (Storage.write path [] : StateM σ _).run s = (.error cause, t) →
    files t = files s
  write : ∀ path bytes s t, (Storage.write path bytes : StateM σ _).run s = (.ok (), t) →
    ∃ location, (files s).target path = .ok location ∧
      files t = (files s).put location (.file bytes)
  fail : ∀ path bytes s t cause, (Storage.write path bytes : StateM σ _).run s = (.error cause, t) →
    files t = files s ∨ ∃ location left, (files s).target path = .ok location ∧
      files t = (files s).put location (.file left)
  remove : ∀ path s t u location bytes, (Storage.write path [] : StateM σ _).run s = (.ok (), t) →
    (files s).target path = .ok location → (files s).SameBut location (files u) →
    (files u).node? location = some (.file bytes) →
    ∃ v, (Storage.remove path : StateM σ _).run u = (.ok (), v) ∧ files v = (files u).erase location

theorem Tree.run_write (tree : Tree) (path : String) (bytes : List UInt8) :
    (Storage.write path bytes : StateM Tree _).run tree =
      match tree.target path with
      | .error fault => (.error fault, tree)
      | .ok location => (.ok (), tree.put location (.file bytes)) := rfl

/-- A tree in memory keeps itself, and nothing fails there but for the paths. -/
theorem keeps_tree : Keeps Tree id where
  resolve _ _ := rfl
  read _ _ := ⟨_, rfl, fun _ h => h⟩
  create path s t cause h := by
    rw [Tree.run_write] at h
    split at h <;> cases h
    rfl
  write path bytes s t h := by
    rw [Tree.run_write] at h
    split at h
    · cases h
    · next location htarget =>
      cases h
      exact ⟨location, htarget, rfl⟩
  fail path bytes s t cause h := by
    rw [Tree.run_write] at h
    split at h <;> cases h
    exact .inl rfl
  remove path s t u location bytes _ htarget hsame hnode := by
    dsimp only [id] at htarget hsame hnode
    have hfind := (Tree.target_eq_ok_iff.1 htarget).find_of_file hsame hnode
    refine ⟨u.erase location, ?_, rfl⟩
    change u.remove path = _
    rw [Tree.remove, hfind]

end Embargo.Storage
