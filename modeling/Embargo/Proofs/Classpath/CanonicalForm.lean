import Embargo.Classpath.EntryPath
import Embargo.Proofs.Text.Parts

/-!
The canonical form of a path. It keeps the names of the path in order, and it exists exactly for
relative paths that have a name and never climb. A path in canonical form is its own.
-/
namespace Embargo.EntryPath
open Text

variable {path inside : String} {front rest : List Char}

theorem canonical_eq_ok_iff : canonical path = .ok inside ↔
    path.toList.head? ≠ some '/' ∧ ['.', '.'] ∉ names path.toList ∧ names path.toList ≠ [] ∧
      inside = String.ofList (Parts.join '/' (names path.toList)) := by
  have hempty : path.toList = [] → names path.toList = [] := fun h => by rw [h]; rfl
  simp only [canonical]
  split_ifs with hnil hslash hclimb hnone
  · exact ⟨fun h => (nomatch h), fun h => absurd (hempty hnil) h.2.2.1⟩
  · exact ⟨fun h => (nomatch h), fun h => absurd hslash h.1⟩
  · exact ⟨fun h => (nomatch h), fun h => absurd hclimb h.2.1⟩
  · exact ⟨fun h => (nomatch h), fun h => absurd hnone h.2.2.1⟩
  · rw [Except.ok.injEq]
    exact ⟨fun h => ⟨hslash, hclimb, hnone, h.symm⟩, fun h => h.2.2.2.symm⟩

theorem mem_names {part text : List Char} :
    part ∈ names text ↔ part ∈ Parts.cut '/' text ∧ part ≠ [] ∧ part ≠ ['.'] := by
  rw [names, List.mem_filter, decide_eq_true_eq]

/-- The parts of a canonical path are the names of the path that it comes from. -/
theorem cut_canonical (h : canonical path = .ok inside) :
    Parts.cut '/' inside.toList = names path.toList := by
  obtain ⟨-, -, hne, rfl⟩ := canonical_eq_ok_iff.1 h
  rw [String.toList_ofList]
  exact Parts.cut_join hne fun name hname hslash =>
    (Parts.of_mem_cut (mem_names.1 hname).1 hslash).2 rfl

/-- No slash in a canonical path stands behind a slash. -/
theorem nil_notMem_cut (h : canonical path = .ok inside) : [] ∉ Parts.cut '/' inside.toList := by
  rw [cut_canonical h]
  exact fun hnil => (mem_names.1 hnil).2.1 rfl

theorem head_ne_of_behind (h : [] ∉ Parts.cut '/' (front ++ '/' :: rest)) :
    rest.head? ≠ some '/' := by
  rw [Parts.cut_append_cons] at h
  exact (Parts.ne_of_nil_notMem fun hnil => h (List.mem_append_right _ hnil)).1

/-- A path of single slashes between names, all of which lead one level down. -/
def IsCanonical (path : String) : Prop :=
  ∀ part ∈ Parts.cut '/' path.toList, part ≠ [] ∧ part ≠ ['.'] ∧ part ≠ ['.', '.']

theorem IsCanonical.of_canonical (h : canonical path = .ok inside) : IsCanonical inside := by
  intro part hpart
  rw [cut_canonical h] at hpart
  obtain ⟨hempty, hdot⟩ := (mem_names.1 hpart).2
  exact ⟨hempty, hdot, fun hclimb => (canonical_eq_ok_iff.1 h).2.1 (hclimb ▸ hpart)⟩

/-- The paths in canonical form are those that are their own. -/
theorem canonical_eq_self_iff : canonical path = .ok path ↔ IsCanonical path := by
  refine ⟨.of_canonical, fun h => ?_⟩
  have hnames : names path.toList = Parts.cut '/' path.toList :=
    List.filter_eq_self.2 fun part hpart => decide_eq_true ⟨(h part hpart).1, (h part hpart).2.1⟩
  refine canonical_eq_ok_iff.2 ⟨(Parts.ne_of_nil_notMem fun hnil => (h [] hnil).1 rfl).1, ?_, ?_, ?_⟩
  · rw [hnames]
    exact fun hclimb => (h _ hclimb).2.2 rfl
  · rw [hnames]
    exact Parts.cut_ne_nil '/' path.toList
  · rw [hnames, Parts.join_cut, String.ofList_toList]

/-- A path has a canonical form exactly if it is relative, does not climb and has a name. The form
has just the names of the path in order, between single slashes, and it is its own. -/
theorem canonical_exact (path : String) :
    ((∃ inside, canonical path = .ok inside) ↔
      path ≠ "" ∧ path.toList.head? ≠ some '/' ∧ ['.', '.'] ∉ Parts.cut '/' path.toList ∧
        ∃ part ∈ Parts.cut '/' path.toList, part ≠ [] ∧ part ≠ ['.']) ∧
    ∀ inside, canonical path = .ok inside →
      inside.toList = Parts.join '/'
        ((Parts.cut '/' path.toList).filter fun part => part ≠ [] ∧ part ≠ ['.']) ∧
      Parts.cut '/' inside.toList =
        ((Parts.cut '/' path.toList).filter fun part => part ≠ [] ∧ part ≠ ['.']) ∧
      inside.toList.head? ≠ some '/' ∧ inside.toList.getLast? ≠ some '/' ∧
      ['.'] ∉ Parts.cut '/' inside.toList ∧ ['.', '.'] ∉ Parts.cut '/' inside.toList ∧
      canonical inside = .ok inside := by
  constructor
  · constructor
    · rintro ⟨inside, h⟩
      obtain ⟨hhead, hclimb, hne, -⟩ := canonical_eq_ok_iff.1 h
      obtain ⟨part, hpart⟩ := List.exists_mem_of_ne_nil _ hne
      refine ⟨?_, hhead, fun hmem => hclimb (mem_names.2 ⟨hmem, by decide, by decide⟩),
        part, mem_names.1 hpart⟩
      rintro rfl
      exact hne rfl
    · rintro ⟨-, hhead, hclimb, part, hpart⟩
      exact ⟨_, canonical_eq_ok_iff.2 ⟨hhead, fun hmem => hclimb (mem_names.1 hmem).1,
        List.ne_nil_of_mem (mem_names.2 hpart), rfl⟩⟩
  · intro inside h
    have hcanonical := IsCanonical.of_canonical h
    obtain ⟨hhead, hlast⟩ := Parts.ne_of_nil_notMem fun hnil => (hcanonical [] hnil).1 rfl
    refine ⟨?_, cut_canonical h, hhead, hlast, fun hdot => (hcanonical _ hdot).2.1 rfl,
      fun hclimb => (hcanonical _ hclimb).2.2 rfl, canonical_eq_self_iff.2 hcanonical⟩
    rw [← Parts.join_cut '/' inside.toList, cut_canonical h]
    rfl

/-- Slashes in a row, at the end and around dots. -/
theorem canonical_exact_dotted : canonical ".//a/./..b/.class//./" = .ok "a/..b/.class" ∧
    canonical "a/..b/.class" = .ok "a/..b/.class" ∧
    (∃ inside, canonical ".//a/./..b/.class//./" = .ok inside) ∧
    ¬ ∃ inside, canonical "a/b/../c" = .ok inside := by
  have h : canonical ".//a/./..b/.class//./" = .ok "a/..b/.class" := by decide
  refine ⟨h, ((canonical_exact _).2 _ h).2.2.2.2.2.2, (canonical_exact _).1.2 ?_, fun hclimb => ?_⟩
  · exact ⟨by decide, by decide, by decide, ['a'], by decide, by decide, by decide⟩
  · exact ((canonical_exact _).1.1 hclimb).2.2.1 (by decide)

end Embargo.EntryPath
