import Embargo.Proofs.Storage.Following

/-!
What is listed of a directory: the files below it by their paths inside, but for those in a
directory that cannot be opened.
-/
namespace Embargo.Storage
open Text

theorem intercalate_parts (path : String) : "/".intercalate (parts path) = path := by
  have hparts : (parts path).map String.toList = Parts.cut '/' path.toList := by
    rw [parts, List.map_map]
    exact (List.map_congr_left fun part _ => String.toList_ofList).trans (List.map_id _)
  rw [← String.toList_inj, String.toList_intercalate, hparts]
  exact Parts.join_cut '/' path.toList

namespace Tree
variable {tree : Tree} {here location : Location} {names : List String} {node : Node}
  {base path : String}

theorem isTooLong_append (h : isTooLong path) (more : String) : isTooLong (path ++ more) := by
  simp only [isTooLong, String.utf8ByteSize_append, decide_eq_true_eq] at h ⊢
  omega

theorem mem_nodes_of_node? (hlocation : location ≠ []) (h : tree.node? location = some node) :
    (location, node) ∈ tree.nodes := by
  rw [node?, if_neg hlocation] at h
  obtain ⟨before, after, hnodes, -⟩ := List.lookup_eq_some_iff.1 h
  rw [hnodes]
  exact List.mem_append_right _ (.head _)

theorem mem_below :
    (names, node) ∈ tree.below here ↔ names ≠ [] ∧ (here ++ names, node) ∈ tree.nodes := by
  rw [below, List.mem_mergeSort, List.mem_filterMap]
  constructor
  · rintro ⟨⟨location, found⟩, hmem, h⟩
    dsimp only at h
    split_ifs at h with hbelow
    obtain ⟨rfl, rfl⟩ := Prod.mk.inj (Option.some.inj h)
    obtain ⟨hstart, hlength⟩ := Bool.and_eq_true_iff.1 hbelow
    obtain ⟨names, rfl⟩ := List.isPrefixOf_iff_prefix.1 hstart
    rw [List.drop_left]
    refine ⟨?_, hmem⟩
    rintro rfl
    simp at hlength
  · rintro ⟨hnames, hmem⟩
    refine ⟨_, hmem, ?_⟩
    dsimp only
    have hlength : here.length < (here ++ names).length := by
      rw [List.length_append]
      exact Nat.lt_add_of_pos_right (List.length_pos_iff.2 hnames)
    rw [if_pos (Bool.and_eq_true_iff.2 ⟨List.isPrefixOf_iff_prefix.2 (List.prefix_append _ _),
      decide_eq_true hlength⟩), List.drop_left]

/-- A file at the end of a way down. -/
theorem Ends.node? {way : List String} {bytes : List UInt8} (h : tree.Ends here way (.ok bytes)) :
    way ≠ [] ∧ tree.node? (here ++ way) = some (.file bytes) := by
  cases h with
  | file hway _ _ hfile =>
    subst hway
    exact ⟨List.append_ne_nil_of_right_ne_nil _ (List.cons_ne_nil _ _), by
      rwa [← List.append_assoc]⟩

/-- Whether the directory that a file stands in cannot be opened by its path inside another. -/
def Unlisted (base : String) (names : List String) : Prop :=
  names.dropLast ≠ [] ∧ isTooLong (join base ("/".intercalate names.dropLast))

/-- The files that are listed of a directory. -/
theorem ok_mem_list_iff (hbase : tree.find base = .ok (here, .directory)) :
    .ok path ∈ tree.list base ↔ ∃ names bytes, names ≠ [] ∧
      (here ++ names, .file bytes) ∈ tree.nodes ∧ ¬ Unlisted base names ∧
      path = "/".intercalate names := by
  have hlisted : ∀ names node, listed base names node = some (.ok path) ↔
      ¬ Unlisted base names ∧ (∃ bytes, node = .file bytes) ∧ path = "/".intercalate names := by
    intro names node
    have hfault : (faultInside base names.dropLast).isSome ↔
        isTooLong (join base ("/".intercalate names.dropLast)) := by
      rw [faultInside]
      split <;> simp_all
    simp only [listed, hfault]
    split_ifs with hunlisted
    · exact ⟨fun h => (nomatch h), fun h => absurd hunlisted h.1⟩
    · cases node with
      | file bytes =>
        rw [Option.some.injEq, Except.ok.injEq]
        exact ⟨fun h => ⟨hunlisted, ⟨bytes, rfl⟩, h.symm⟩, fun h => h.2.2.symm⟩
      | directory =>
        refine ⟨fun h => ?_, fun ⟨_, ⟨_, h⟩, _⟩ => (nomatch h)⟩
        obtain ⟨_, _, h⟩ := Option.map_eq_some_iff.1 h
        cases h
  rw [list, hbase]
  simp only [List.mem_filterMap, Prod.exists, hlisted, mem_below]
  constructor
  · rintro ⟨names, node, ⟨hnames, hmem⟩, hseen, ⟨bytes, rfl⟩, hpath⟩
    exact ⟨names, bytes, hnames, hmem, hseen, hpath⟩
  · rintro ⟨names, bytes, hnames, hmem, hseen, hpath⟩
    exact ⟨names, _, ⟨hnames, hmem⟩, hseen, ⟨bytes, rfl⟩, hpath⟩

end Tree

/-- A path inside another one can be led further. -/
theorem join_append {path : String} (hpath : Relative path) (base more : String) :
    join base (path ++ more) = join base path ++ more := by
  have hhead : (path ++ more).toList.head? = path.toList.head? := by
    obtain ⟨c, cs, hcs⟩ := List.exists_cons_of_ne_nil (mt String.toList_eq_nil_iff.1 hpath.1)
    rw [String.toList_append, hcs]
    rfl
  rw [join, join, hhead, if_neg hpath.2, if_neg hpath.2]
  split_ifs <;> simp only [String.append_assoc]

end Embargo.Storage
