import Embargo.Reflection
import Mathlib.Data.List.Perm.Basic
import Mathlib.Data.String.Basic
import Mathlib.Tactic.Common

/-!
Registries. What is registered makes a registry, whatever the order in which it comes and
however often: the entries are in order of their names, and each name is there once.
-/
namespace Embargo.Reflection
variable {name : String} {entry : Entry} {entries : List Entry} {P Q : String → Prop}

/-- Entries in order of their names. -/
def Ordered (entries : List Entry) : Prop := entries.Pairwise fun a b => a.name < b.name

theorem mem_insertInto (h : ∀ entry ∈ entries, entry = Entry.whole entry.name) :
    entry ∈ insertInto name entries ↔ entry = Entry.whole name ∨ entry ∈ entries := by
  induction entries with
  | nil => simp [insertInto]
  | cons first rest ih =>
    obtain ⟨hfirst, hrest⟩ := List.forall_mem_cons.1 h
    unfold insertInto
    split
    case isTrue => exact List.mem_cons
    case isFalse =>
      split
      case isTrue hname =>
        rw [hname, ← hfirst, List.mem_cons]
        tauto
      case isFalse =>
        rw [List.mem_cons, ih hrest, List.mem_cons]
        tauto

theorem Ordered.insertInto (h : Ordered entries)
    (hwhole : ∀ entry ∈ entries, entry = Entry.whole entry.name) :
    Ordered (insertInto name entries) := by
  induction entries with
  | nil => exact List.pairwise_singleton ..
  | cons first rest ih =>
    obtain ⟨hfirst, hrest⟩ := List.pairwise_cons.1 h
    have hwholeRest := (List.forall_mem_cons.1 hwhole).2
    unfold Reflection.insertInto
    split
    case isTrue hlt =>
      refine List.pairwise_cons.2 ⟨List.forall_mem_cons.2 ⟨hlt, fun other hother => ?_⟩, h⟩
      exact String.lt_trans hlt (hfirst other hother)
    case isFalse hge =>
      split
      case isTrue => exact h
      case isFalse hne =>
        have hlt : first.name < name := lt_of_le_of_ne (String.not_lt.1 hge) (Ne.symm hne)
        refine List.pairwise_cons.2 ⟨fun other hother => ?_, ih hrest hwholeRest⟩
        rcases (mem_insertInto hwholeRest).1 hother with rfl | hother
        · exact hlt
        · exact hfirst other hother

theorem Ordered.nodup (h : Ordered entries) : entries.Nodup := by
  apply h.imp
  rintro a b hlt rfl
  exact String.lt_irrefl _ hlt

theorem length_insertInto (h : Entry.whole name ∉ entries)
    (hwhole : ∀ entry ∈ entries, entry = Entry.whole entry.name) :
    (insertInto name entries).length = entries.length + 1 := by
  induction entries with
  | nil => rfl
  | cons first rest ih =>
    obtain ⟨hfirst, hrest⟩ := List.forall_mem_cons.1 hwhole
    rw [List.mem_cons, not_or] at h
    unfold insertInto
    split
    case isTrue => rfl
    case isFalse =>
      split
      case isTrue hname => exact absurd (hname ▸ hfirst.symm) h.1
      case isFalse => rw [List.length_cons, ih h.2 hrest, List.length_cons]

namespace Registry
variable {registry other : Registry}

/-- The registry of the names with a property, each with all of its members. -/
structure Holds (P : String → Prop) (registry : Registry) : Prop where
  ordered : Ordered registry.entries
  mem_iff : ∀ entry, entry ∈ registry.entries ↔ ∃ name, P name ∧ entry = Entry.whole name

theorem holds_empty (h : ∀ name, ¬ P name) : empty.Holds P where
  ordered := .nil
  mem_iff := fun entry => by simp [empty, h]

theorem Holds.congr (h : registry.Holds P) (hPQ : ∀ name, P name ↔ Q name) :
    registry.Holds Q where
  ordered := h.ordered
  mem_iff := fun entry => by simp [h.mem_iff, hPQ]

theorem Holds.whole (h : registry.Holds P) :
    ∀ entry ∈ registry.entries, entry = Entry.whole entry.name := by
  intro entry hentry
  obtain ⟨name, -, rfl⟩ := (h.mem_iff entry).1 hentry
  rfl

theorem Holds.register (h : registry.Holds P) (name : String) :
    (registry.register name).Holds fun other => other = name ∨ P other where
  ordered := h.ordered.insertInto h.whole
  mem_iff := fun entry => by
    rw [Registry.register, mem_insertInto h.whole, h.mem_iff]
    constructor
    · rintro (rfl | ⟨other, hother, rfl⟩)
      · exact ⟨name, .inl rfl, rfl⟩
      · exact ⟨other, .inr hother, rfl⟩
    · rintro ⟨other, rfl | hother, rfl⟩
      · exact .inl rfl
      · exact .inr ⟨other, hother, rfl⟩

theorem Holds.size_register (h : registry.Holds P) (hname : ¬ P name) :
    (registry.register name).size = registry.size + 1 := by
  refine length_insertInto (fun hmem => hname ?_) h.whole
  obtain ⟨other, hother, heq⟩ := (h.mem_iff _).1 hmem
  rwa [show name = other from congrArg Entry.name heq]

/-- There is one registry of the names with a property. -/
theorem Holds.unique (h : registry.Holds P) (hother : other.Holds P) : registry = other := by
  have hperm : registry.entries.Perm other.entries :=
    (List.perm_ext_iff_of_nodup h.ordered.nodup hother.ordered.nodup).2 fun entry =>
      (h.mem_iff entry).trans (hother.mem_iff entry).symm
  have hentries := hperm.eq_of_pairwise
    (fun a b _ _ hlt hgt => absurd hgt (String.lt_asymm hlt)) h.ordered hother.ordered
  cases registry
  cases other
  rw [Registry.mk.injEq]
  exact hentries

end Registry

end Embargo.Reflection
