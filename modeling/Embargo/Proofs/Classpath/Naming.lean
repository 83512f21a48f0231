import Embargo.Proofs.Attempt
import Embargo.Proofs.Classpath.CanonicalForm
import Mathlib.Data.List.TakeWhile

/-!
Class names and the paths of their files. What spells a name in a path is put between dots, and
a name is put between slashes to give a path back. The two undo each other where neither spelling
holds the separator of the other.
-/
namespace Embargo

namespace Text.Name
variable {old new : Char} {text : String}

theorem toList_substitute (old new : Char) (text : String) :
    (substitute old new text).toList = text.toList.map fun c => if c = old then new else c :=
  String.toList_ofList

theorem substitute_substitute (h : new ∉ text.toList) :
    substitute new old (substitute old new text) = text := by
  rw [substitute, toList_substitute, List.map_map]
  have hback : ∀ c ∈ text.toList,
      ((fun c => if c = new then old else c) ∘ fun c => if c = old then new else c) c = c := by
    intro c hc
    have hne : c ≠ new := fun heq => h (heq ▸ hc)
    by_cases hold : c = old <;> simp [hold, hne]
  rw [List.map_congr_left hback, List.map_id'', String.ofList_toList]
  exact fun _ => rfl

end Text.Name

namespace EntryPath
open Text

variable {path inside name : String} {text front rest stem start stop number : List Char}

theorem behind?_eq_some_iff : behind? start text = some rest ↔ text = start ++ rest := by
  rw [behind?]
  split
  case isTrue h =>
    obtain ⟨more, rfl⟩ := List.isPrefixOf_iff_prefix.1 h
    rw [List.drop_left, Option.some.injEq, List.append_cancel_left_eq]
  case isFalse h =>
    refine ⟨fun hnone => (nomatch hnone), fun htext => absurd ?_ h⟩
    exact List.isPrefixOf_iff_prefix.2 ⟨rest, htext.symm⟩

theorem behind?_eq_none_iff : behind? start text = none ↔ ¬ start <+: text := by
  rw [← List.isPrefixOf_iff_prefix, behind?]
  split <;> simp_all

theorem before?_eq_some_iff : before? stop text = some front ↔ text = front ++ stop := by
  rw [before?]
  split
  case isTrue h =>
    obtain ⟨more, rfl⟩ := List.isSuffixOf_iff_suffix.1 h
    rw [List.length_append, Nat.add_sub_cancel, List.take_left, Option.some.injEq,
      List.append_cancel_right_eq]
  case isFalse h =>
    refine ⟨fun hnone => (nomatch hnone), fun htext => absurd ?_ h⟩
    exact List.isSuffixOf_iff_suffix.2 ⟨front, htext.symm⟩

/-- The text in a path that its class has for a name: all but the suffix, without the directory
of a version. -/
inductive Spells : List Char → List Char → Prop
  | plain {stem : List Char} : ¬ metaInf <+: stem → Spells (stem ++ suffix) stem
  | version {number stem : List Char} : (∀ c ∈ number, c.isDigit) →
      Spells (versions ++ number ++ '/' :: (stem ++ suffix)) stem

theorem Spells.exists_append (h : Spells text stem) : ∃ whole, text = whole ++ suffix := by
  cases h with
  | plain => exact ⟨stem, rfl⟩
  | version => exact ⟨_, by rw [← List.cons_append, ← List.append_assoc]⟩

theorem ne_slash_of_isDigit {c : Char} (h : c.isDigit) : c ≠ '/' := by
  rintro rfl
  exact absurd h (by decide)

theorem stem?_eq_some_iff : stem? text = some stem ↔ Spells text stem := by
  have hmeta : metaInf <+: versions := by decide
  constructor
  · intro h
    obtain ⟨whole, hwhole, hstem⟩ := Option.bind_eq_some_iff.1 h
    obtain rfl := before?_eq_some_iff.1 hwhole
    clear h
    split at hstem
    case h_1 versioned hversions =>
      obtain rfl := behind?_eq_some_iff.1 hversions
      split at hstem
      case h_1 slash rest hrest =>
        split_ifs at hstem with hdigits
        cases hstem
        obtain rfl : slash = '/' := by
          have := List.head?_dropWhile_not (fun c => decide (c ≠ '/')) versioned
          rw [hrest] at this
          simpa using this
        have hversioned : versioned = versioned.takeWhile (· ≠ '/') ++ '/' :: stem := by
          rw [← hrest, List.takeWhile_append_dropWhile]
        rw [hversioned, ← List.append_assoc, List.append_assoc, List.cons_append]
        exact .version (List.all_eq_true.1 hdigits)
      case h_2 => cases hstem
    case h_2 hversions =>
      split_ifs at hstem with hnone
      cases hstem
      exact .plain (behind?_eq_none_iff.1 (Option.not_isSome_iff_eq_none.1 hnone))
  · rintro (h | h)
    case plain =>
      have hversions : behind? versions stem = none :=
        behind?_eq_none_iff.2 fun hprefix => h (hmeta.trans hprefix)
      rw [stem?, before?_eq_some_iff.2 rfl, Option.bind_eq_bind, Option.bind_some, hversions,
        behind?_eq_none_iff.2 h]
      rfl
    case version number =>
      have hslash : ∀ c ∈ number, decide (c ≠ '/') = true := fun c hc =>
        decide_eq_true (ne_slash_of_isDigit (h c hc))
      have htext : versions ++ number ++ '/' :: (stem ++ suffix) =
          versions ++ (number ++ '/' :: stem) ++ suffix := by simp
      have hnumber : (number ++ '/' :: stem).takeWhile (· ≠ '/') = number := by
        rw [List.takeWhile_append_of_pos hslash]
        simp
      have hstem : (number ++ '/' :: stem).dropWhile (· ≠ '/') = '/' :: stem := by
        rw [List.dropWhile_append_of_pos hslash]
        simp
      rw [stem?, before?_eq_some_iff.2 htext, Option.bind_eq_bind, Option.bind_some,
        behind?_eq_some_iff.2 rfl]
      simp only [hnumber, hstem]
      exact if_pos (List.all_eq_true.2 h)

theorem lastName_of_cut {front : List (List Char)} {last : List Char}
    (h : Parts.cut '/' text = front ++ [last]) : lastName text = last := by
  obtain ⟨hlast, hbefore⟩ := Parts.exists_of_cut h
  have hall : ∀ c ∈ last.reverse, decide (c ≠ '/') = true := fun c hc =>
    decide_eq_true fun heq => hlast (heq ▸ List.mem_reverse.1 hc)
  obtain rfl | ⟨before, rfl⟩ := hbefore
  · rw [lastName, List.takeWhile_eq_self_iff.2 hall, List.reverse_reverse]
  · rw [lastName, List.reverse_append, List.reverse_cons, List.append_assoc,
      List.takeWhile_append_of_pos hall]
    simp

/-- A class name is what spells it in the canonical path, with dots for the slashes. -/
theorem className?_eq_some_iff : className? path = .ok (some name) ↔
    ∃ inside stem, canonical path = .ok inside ∧ Spells inside.toList stem ∧
      lastName stem ∉ classless ∧ name = Name.toDotted (String.ofList stem) := by
  rw [className?, Except.map_eq_ok_iff]
  refine exists_congr fun inside => ?_
  constructor
  · rintro ⟨hinside, h⟩
    split at h
    case h_1 stem hstem =>
      split_ifs at h with hclassless
      exact ⟨stem, hinside, stem?_eq_some_iff.1 hstem, hclassless, (Option.some.inj h).symm⟩
    case h_2 => cases h
  · rintro ⟨stem, hinside, hstem, hclassless, rfl⟩
    refine ⟨hinside, ?_⟩
    rw [stem?_eq_some_iff.2 hstem]
    exact if_neg hclassless

theorem toList_ofClass (name : String) :
    (ofClass name).toList = (Name.toInternal name).toList ++ suffix := by
  simp [ofClass]

/-- The suffix alone is longer than the names that lead elsewhere. -/
theorem append_suffix_ne {part : List Char} (h : part.length < 6) : front ++ suffix ≠ part := by
  rintro rfl
  have hsuffix : suffix.length = 6 := by decide
  rw [List.length_append] at h
  omega

/-- A class name of proper parts between dots. -/
structure IsDotted (name : String) : Prop where
  nonempty : [] ∉ Parts.cut '.' name.toList
  slashless : '/' ∉ name.toList

/-- The parts of a name between dots are those of its path between slashes. -/
theorem IsDotted.cut_toInternal (h : IsDotted name) :
    Parts.cut '/' (Name.toInternal name).toList = Parts.cut '.' name.toList := by
  have hdots : ∀ c ∈ name.toList, (if c = '.' then '/' else c) = '/' ↔ c = '.' := by
    intro c hc
    have hslash : c ≠ '/' := fun heq => h.slashless (heq ▸ hc)
    by_cases hdot : c = '.' <;> simp [hdot, hslash]
  have hparts : ∀ part ∈ Parts.cut '.' name.toList,
      part.map (fun c => if c = '.' then '/' else c) = part := by
    intro part hpart
    refine (List.map_congr_left fun c hc => ?_).trans (List.map_id part)
    exact if_neg (Parts.of_mem_cut hpart hc).2
  rw [Name.toInternal, Name.toList_substitute, Parts.cut_map hdots,
    List.map_congr_left hparts, List.map_id']

/-- The path for a class is in canonical form. -/
theorem IsDotted.isCanonical_ofClass (h : IsDotted name) : IsCanonical (ofClass name) := by
  obtain ⟨front, last, hcut, happend⟩ := Parts.cut_append_of_notMem
    (show '/' ∉ suffix by decide) (Name.toInternal name).toList
  rw [h.cut_toInternal] at hcut
  intro part hpart
  rw [toList_ofClass, happend] at hpart
  rcases List.mem_append.1 hpart with hpart | hpart
  · have hmem : part ∈ Parts.cut '.' name.toList := hcut ▸ List.mem_append_left _ hpart
    have hdot : '.' ∉ part := fun hdot => (Parts.of_mem_cut hmem hdot).2 rfl
    refine ⟨fun hnil => h.nonempty (hnil ▸ hmem), ?_, ?_⟩
    · rintro rfl
      exact hdot (by decide)
    · rintro rfl
      exact hdot (by decide)
  · obtain rfl := List.mem_singleton.1 hpart
    exact ⟨append_suffix_ne (by decide), append_suffix_ne (by decide),
      append_suffix_ne (by decide)⟩

/-- A path that is not for a version, whose canonical form has no dot but that of the suffix. -/
structure IsPlain (path inside : String) : Prop where
  canonical : canonical path = .ok inside
  unversioned : ¬ versions <+: inside.toList
  dots : inside.toList.count '.' = 1

theorem IsPlain.ofClass_eq (h : IsPlain path inside) (hname : className? path = .ok (some name)) :
    ofClass name = inside := by
  obtain ⟨inside', stem, hinside, hstem, -, rfl⟩ := className?_eq_some_iff.1 hname
  obtain rfl : inside' = inside := Except.ok.inj (hinside.symm.trans h.canonical)
  have hversions := h.unversioned
  have hdots := h.dots
  rw [← String.toList_inj, toList_ofClass]
  generalize inside'.toList = text at hstem hversions hdots ⊢
  cases hstem with
  | version => exact absurd ⟨_, (List.append_assoc _ _ _).symm⟩ hversions
  | plain =>
    have hstem : '.' ∉ stem := by
      have hsuffix : suffix.count '.' = 1 := by decide
      rw [List.count_append, hsuffix] at hdots
      exact List.count_eq_zero.1 (Nat.succ.inj hdots)
    rw [Name.toInternal, Name.toDotted, Name.substitute_substitute (by simpa using hstem),
      String.toList_ofList]

/-- A class file for a version has the name of the class that it stands in for. -/
theorem className?_of_version {rest : List Char} (hinside : canonical path = .ok inside)
    (hname : className? path = .ok (some name)) (hnumber : ∀ c ∈ number, c.isDigit)
    (htext : inside.toList = versions ++ number ++ '/' :: rest) (hrest : ¬ metaInf <+: rest) :
    className? (String.ofList rest) = .ok (some name) := by
  obtain ⟨inside', stem, hinside', hstem, hclassless, rfl⟩ := className?_eq_some_iff.1 hname
  obtain rfl : inside' = inside := Except.ok.inj (hinside'.symm.trans hinside)
  have hcanonical : IsCanonical (String.ofList rest) := by
    intro part hpart
    rw [String.toList_ofList] at hpart
    refine IsCanonical.of_canonical hinside part ?_
    rw [htext, Parts.cut_append_cons]
    exact List.mem_append_right _ hpart
  refine className?_eq_some_iff.2 ⟨_, stem, canonical_eq_self_iff.2 hcanonical, ?_, hclassless, rfl⟩
  rw [String.toList_ofList]
  obtain ⟨whole, hwhole⟩ := hstem.exists_append
  obtain ⟨more, -, rfl⟩ := Parts.exists_of_append_cons (show '/' ∉ suffix by decide)
    (htext.symm.trans hwhole)
  rw [htext, ← stem?_eq_some_iff, stem?_eq_some_iff.2 (.version hnumber), Option.some.injEq] at hstem
  subst hstem
  exact .plain fun hopens => hrest (hopens.trans (List.prefix_append _ _))

/-- The path of a class leads back to its name. -/
theorem IsDotted.className?_ofClass (h : IsDotted name)
    (hlast : ∀ last ∈ (Parts.cut '.' name.toList).getLast?, last ∉ classless)
    (hmeta : ¬ "META-INF.".toList <+: name.toList) :
    className? (ofClass name) = .ok (some name) := by
  have hback : Name.toDotted (Name.toInternal name) = name :=
    Name.substitute_substitute h.slashless
  refine className?_eq_some_iff.2 ⟨_, (Name.toInternal name).toList,
    canonical_eq_self_iff.2 h.isCanonical_ofClass, ?_, ?_, ?_⟩
  · rw [toList_ofClass]
    refine .plain fun hprefix => hmeta ?_
    have hdotted : metaInf.map (fun c => if c = '/' then '.' else c) = "META-INF.".toList := by
      decide
    rw [← hback, Name.toDotted, Name.toList_substitute, ← hdotted]
    exact hprefix.map _
  · have hparts := List.dropLast_append_getLast (Parts.cut_ne_nil '.' name.toList)
    rw [lastName_of_cut (h.cut_toInternal.trans hparts.symm)]
    exact hlast _ (List.getLast?_eq_getLast_of_ne_nil _)
  · rw [String.ofList_toList, hback]

/-- Names and paths are inverse. A plain path is that of its name, so no other plain path has that
name; the file for a version of a class has the name that the class itself has outside of
`META-INF`; and a name of proper parts is that of its path, unless its last part stands for no
class or it begins with `META-INF`. -/
theorem naming_inverse :
    (∀ path inside name, IsPlain path inside → className? path = .ok (some name) →
      ofClass name = inside) ∧
    (∀ path path' inside inside' name name', IsPlain path inside → IsPlain path' inside' →
      className? path = .ok (some name) → className? path' = .ok (some name') →
      inside ≠ inside' → name ≠ name') ∧
    (∀ path inside name number rest, canonical path = .ok inside →
      className? path = .ok (some name) → (∀ c ∈ number, c.isDigit) →
      inside.toList = versions ++ number ++ '/' :: rest → ¬ metaInf <+: rest →
      className? (String.ofList rest) = .ok (some name)) ∧
    ∀ name, IsDotted name →
      (Parts.cut '.' name.toList).getLast? ≠ some "module-info".toList →
      (Parts.cut '.' name.toList).getLast? ≠ some "package-info".toList →
      ¬ "META-INF.".toList <+: name.toList → className? (ofClass name) = .ok (some name) := by
  refine ⟨fun _ _ _ h hname => h.ofClass_eq hname, ?_,
    fun _ _ _ _ _ hinside hname hnumber htext hrest =>
      className?_of_version hinside hname hnumber htext hrest, ?_⟩
  · rintro path path' inside inside' name name' h h' hname hname' hne rfl
    exact hne ((h.ofClass_eq hname).symm.trans (h'.ofClass_eq hname'))
  · intro name h hmodule hpackage hmeta
    refine h.className?_ofClass (fun last hlast hclassless => ?_) hmeta
    have hmem : last ∈ Parts.cut '.' name.toList := List.mem_of_getLast? hlast
    rw [Option.mem_def] at hlast
    simp only [classless, List.mem_cons, List.not_mem_nil, or_false] at hclassless
    obtain rfl | rfl | rfl := hclassless
    · exact h.nonempty hmem
    · exact hmodule hlast
    · exact hpackage hlast

theorem naming_inverse_nested :
    className? ".//a/B$C.class" = .ok (some "a.B$C") ∧ ofClass "a.B$C" = "a/B$C.class" ∧
      className? "META-INF/versions/9/a/B.class" = .ok (some "a.B") ∧
      className? "a/B.class" = .ok (some "a.B") ∧ ("a.B$C" : String) ≠ "a.B" ∧
      className? (ofClass "META-INF") = .ok (some "META-INF") := by
  obtain ⟨hpath, hdistinct, hversion, hname⟩ := naming_inverse
  have hnested : className? ".//a/B$C.class" = .ok (some "a.B$C") := by decide
  have hnine : className? "META-INF/versions/9/a/B.class" = .ok (some "a.B") := by decide
  have hplain : IsPlain ".//a/B$C.class" "a/B$C.class" := ⟨by decide, by decide, by decide⟩
  have hother : IsPlain "a/B.class" "a/B.class" := ⟨by decide, by decide, by decide⟩
  have hbase : className? "a/B.class" = .ok (some "a.B") :=
    hversion _ "META-INF/versions/9/a/B.class" _ ['9'] "a/B.class".toList (by decide) hnine
      (List.forall_mem_singleton.2 rfl) (by decide) (by decide)
  exact ⟨hnested, hpath _ _ _ hplain hnested, hnine, hbase,
    hdistinct _ _ _ _ _ _ hplain hother hnested hbase (by decide),
    hname _ ⟨by decide, by decide⟩ (by decide) (by decide) (by decide)⟩

end EntryPath

end Embargo
