import Embargo.Proofs.Enforcement.Additions
import Embargo.Proofs.Enforcement.Source

/-!
The attributes of a new body. A pass goes over the old ones in order: a stack map table is replaced
or dropped, type annotations are dropped, debug tables are written for the new layout, and all else
is kept.
-/
namespace Embargo

/-- The payloads of the attributes of a name, in order. -/
def Attribute.payloads (pool : Pool) (name : String) (attributes : List Attribute) :
    List (List UInt8) :=
  attributes.filterMap fun a => if pool.utf8 a.name = .ok name then some a.payload else none

namespace Attribute
variable {pool later : Pool} {name : String}

theorem payloads_append (attributes more : List Attribute) :
    payloads pool name (attributes ++ more)
      = payloads pool name attributes ++ payloads pool name more :=
  List.filterMap_append

theorem payloads_cons {a : Attribute} {attributes : List Attribute}
    (h : pool.utf8 a.name = .ok name) :
    payloads pool name (a :: attributes) = a.payload :: payloads pool name attributes := by
  rw [payloads, List.filterMap_cons, if_pos h]
  rfl

theorem payloads_cons_of_ne {a : Attribute} {attributes : List Attribute} {found : String}
    (h : pool.utf8 a.name = .ok found) (hname : found ≠ name) :
    payloads pool name (a :: attributes) = payloads pool name attributes := by
  rw [payloads, List.filterMap_cons, if_neg fun heq => hname (Except.ok.inj (h.symm.trans heq))]
  rfl

/-- Attributes keep their names where a pool grows. -/
theorem payloads_of_growth {P : String → Prop} {attributes : List Attribute}
    (hnamed : ∀ a ∈ attributes, ∃ found, pool.utf8 a.name = .ok found)
    (h : Pool.Growth P pool later) :
    payloads later name attributes = payloads pool name attributes := by
  refine List.filterMap_congr fun a ha => ?_
  obtain ⟨found, hfound⟩ := hnamed a ha
  rw [hfound, h.utf8_eq hfound]

end Attribute

namespace Draft.Attributes
open Attribute (payloads)
open Source (stackMapTable)

def variableTables : List String := ["LocalVariableTable", "LocalVariableTypeTable"]

def typeAnnotations : List String :=
  ["RuntimeVisibleTypeAnnotations", "RuntimeInvisibleTypeAnnotations"]

theorem other_of_mem_variableTables :
    ∀ name ∈ variableTables, name ≠ stackMapTable ∧ name ∉ typeAnnotations := by
  decide

/-- What becomes of a payload that has a place in the new body, and how many slots it names. -/
inductive Follows (pool : Pool) (relocation : Relocation) :
    String → List UInt8 → List UInt8 → Nat → Prop
  | lines {table new : List UInt8} (moved : DebugTable.relocateLines relocation table = .ok new) :
      Follows pool relocation "LineNumberTable" table new 0
  | locals {name : String} {table new : List UInt8} {slots : Nat} (kind : name ∈ variableTables)
      (moved : DebugTable.relocateVariables pool relocation table = .ok (new, slots)) :
      Follows pool relocation name table new slots
  | other {name : String} (payload : List UInt8) (noLines : name ≠ "LineNumberTable")
      (noVariables : name ∉ variableTables) : Follows pool relocation name payload payload 0

theorem relocateLines_of_follows {pool : Pool} {relocation : Relocation} {table new : List UInt8}
    {slots : Nat} (h : Follows pool relocation "LineNumberTable" table new slots) :
    DebugTable.relocateLines relocation table = .ok new := by
  cases h with
  | lines hmoved => exact hmoved
  | locals hkind => exact absurd hkind (by decide)
  | other _ hno => exact absurd rfl hno

theorem relocateVariables_of_follows {pool : Pool} {relocation : Relocation} {name : String}
    {table new : List UInt8} {slots : Nat} (hname : name ∈ variableTables)
    (h : Follows pool relocation name table new slots) :
    DebugTable.relocateVariables pool relocation table = .ok (new, slots) := by
  cases h with
  | lines => exact absurd hname (by decide)
  | locals _ hmoved => exact hmoved
  | other _ _ hno => exact absurd hname hno

/-- One more attribute of a pass. -/
inductive Goes (pool : Pool) (relocation : Relocation) (state : Attributes) :
    String → Attribute → Attributes → Prop
  | placed {a : Attribute} {table : List UInt8} (pending : state.table = some table) :
      Goes pool relocation state stackMapTable a
        ⟨{ a with payload := table } :: state.done, none, state.slots⟩
  | further {a : Attribute} (placed : state.table = none) :
      Goes pool relocation state stackMapTable a state
  | annotations {name : String} {a : Attribute} (kind : name ∈ typeAnnotations) :
      Goes pool relocation state name a state
  | followed {name : String} {a : Attribute} {payload : List UInt8} {slots : Nat}
      (other : name ≠ stackMapTable) (kept : name ∉ typeAnnotations)
      (follows : Follows pool relocation name a.payload payload slots) :
      Goes pool relocation state name a
        ⟨{ a with payload } :: state.done, state.table, max state.slots slots⟩

variable {pool : Pool} {relocation : Relocation} {state next last : Attributes}

theorem goes_of_step {name : String} {a : Attribute}
    (h : state.step pool relocation name a = .ok next) :
    Goes pool relocation state name a next := by
  unfold Attributes.step at h
  split at h
  case isTrue hname =>
    subst hname
    split at h
    case h_1 table hpending =>
      cases h
      exact .placed hpending
    case h_2 hplaced =>
      cases h
      exact .further hplaced
  case isFalse hother =>
    split at h
    case isTrue hname =>
      subst hname
      obtain ⟨payload, hmoved, hpure⟩ := Except.bind_eq_ok_iff.1 h
      cases hpure
      have hgoes : Goes pool relocation state "LineNumberTable" a _ :=
        .followed hother (by decide) (.lines hmoved)
      rwa [Nat.max_eq_left (Nat.zero_le _)] at hgoes
    case isFalse hline =>
      split at h
      case isTrue hvariable =>
        obtain ⟨⟨payload, slots⟩, hmoved, hpure⟩ := Except.bind_eq_ok_iff.1 h
        cases hpure
        have hkind : name ∈ variableTables := by simpa [variableTables] using hvariable
        have hkept := (other_of_mem_variableTables name hkind).2
        exact .followed hother hkept (.locals hkind hmoved)
      case isFalse hvariable =>
        split at h
        case isTrue hannotation =>
          cases h
          exact .annotations (by simpa [typeAnnotations] using hannotation)
        case isFalse hannotation =>
          cases h
          have hkept : name ∉ typeAnnotations := by simpa [typeAnnotations] using hannotation
          have hvariable : name ∉ variableTables := by simpa [variableTables] using hvariable
          have hgoes : Goes pool relocation state name a _ :=
            .followed hother hkept (.other a.payload hline hvariable)
          rwa [Nat.max_eq_left (Nat.zero_le _)] at hgoes

theorem Goes.slots_le {name : String} {a : Attribute} (h : Goes pool relocation state name a next) :
    state.slots ≤ next.slots := by
  cases h with
  | placed | further | annotations => exact Nat.le_refl _
  | followed => exact Nat.le_max_left _ _

theorem slots_le {named : List (String × Attribute)}
    (h : Attributes.all pool relocation state named = .ok last) : state.slots ≤ last.slots :=
  Except.foldlM_invariant (I := fun next => state.slots ≤ next.slots)
    (fun _ hle _ _ _ hstep => Nat.le_trans hle (goes_of_step hstep).slots_le) (Nat.le_refl _) h

/-- What becomes of a payload in a pass that counts its slots. -/
def Following (pool : Pool) (relocation : Relocation) (name : String) (last : Attributes)
    (old new : List UInt8) : Prop :=
  ∃ slots ≤ last.slots, Follows pool relocation name old new slots

variable {name : String} {named : List (String × Attribute)}

/-- The payloads of a name follow one by one. -/
theorem forall₂_payloads (hnamed : ∀ pair ∈ named, pool.utf8 pair.2.name = .ok pair.1)
    (hother : name ≠ stackMapTable) (hkept : name ∉ typeAnnotations)
    (h : Attributes.all pool relocation state named = .ok last) : ∃ more,
      last.done.reverse = state.done.reverse ++ more ∧
        List.Forall₂ (Following pool relocation name last)
          (payloads pool name (named.map Prod.snd)) (payloads pool name more) := by
  induction named generalizing state with
  | nil =>
    cases h
    exact ⟨[], (List.append_nil _).symm, .nil⟩
  | cons pair named ih =>
    obtain ⟨found, a⟩ := pair
    obtain ⟨hhead, hrest⟩ := List.forall_mem_cons.1 hnamed
    obtain ⟨next, hstep, hall⟩ := Except.bind_eq_ok_iff.1 h
    obtain ⟨more, hdone, hfollows⟩ := ih hrest hall
    rw [List.map_cons]
    have hgoes := goes_of_step hstep
    by_cases hname : found = name
    · subst hname
      rw [Attribute.payloads_cons hhead]
      cases hgoes with
      | placed | further => exact absurd rfl hother
      | annotations hkind => exact absurd hkind hkept
      | @followed _ _ payload slots _ _ hfollow =>
        refine ⟨{ a with payload } :: more, ?_, ?_⟩
        · rw [hdone, List.reverse_cons, List.append_assoc, List.singleton_append]
        · have hslots : slots ≤ last.slots := Nat.le_trans (Nat.le_max_right _ _) (slots_le hall)
          rw [Attribute.payloads_cons (a := { a with payload }) hhead]
          exact .cons ⟨slots, hslots, hfollow⟩ hfollows
    · rw [Attribute.payloads_cons_of_ne hhead hname]
      cases hgoes with
      | further | annotations => exact ⟨more, hdone, hfollows⟩
      | @placed _ payload | @followed _ _ payload =>
        refine ⟨{ a with payload } :: more, ?_, ?_⟩
        · rw [hdone, List.reverse_cons, List.append_assoc, List.singleton_append]
        · rwa [Attribute.payloads_cons_of_ne (a := { a with payload }) hhead hname]

/-- The last attribute is the new stack map table where it has no place yet. -/
theorem finish_cases {new : Pool} {attributes : List Attribute}
    (h : (finishAttributes state).run pool = (.ok attributes, new)) :
    state.table = none ∧ attributes = state.done.reverse ∧ new = pool ∨
      ∃ payload index, state.table = some payload ∧
        (Pool.addUtf8 stackMapTable).run pool = (.ok index, new) ∧
        attributes = state.done.reverse ++ [⟨index, payload⟩] := by
  unfold finishAttributes at h
  cases hpending : state.table with
  | none =>
    rw [hpending] at h
    cases h
    exact .inl ⟨rfl, rfl, rfl⟩
  | some payload =>
    rw [hpending] at h
    obtain ⟨index, middle, hindex, hpure⟩ := Attempt.run_bind_eq_ok_iff.1 h
    cases hpure
    exact .inr ⟨payload, index, rfl, hindex, List.reverse_cons⟩

theorem payloads_of_finish {new : Pool} {attributes : List Attribute} (hpool : pool.WellFormed)
    (hnamed : ∀ a ∈ state.done.reverse, ∃ found, pool.utf8 a.name = .ok found)
    (hother : name ≠ stackMapTable)
    (h : (finishAttributes state).run pool = (.ok attributes, new)) :
    payloads new name attributes = payloads pool name state.done.reverse := by
  rcases finish_cases h with ⟨-, rfl, rfl⟩ | ⟨payload, index, -, hindex, rfl⟩
  · rfl
  · have hgrowth : Pool.Growth (fun _ => True) pool new :=
      (Pool.grows_addUtf8 trivial).growth hindex
    have hutf8 := Pool.utf8_addUtf8 hpool hindex
    rw [Attribute.payloads_append, Attribute.payloads_of_growth hnamed hgrowth,
      Attribute.payloads_cons_of_ne (a := ⟨index, payload⟩) hutf8 hother.symm]
    exact List.append_nil _

end Draft.Attributes

namespace Revision
variable {rule : Rule} {method : MethodInfo} {body new : Body} {pool newPool : Pool}
  (r : Revision rule method body pool new newPool)
include r

/-- The pool before the name of a new stack map table is added. -/
theorem growth_tablePool : Pool.Growth (fun _ => True) pool r.tablePool :=
  (r.growth_pieces r.adds_true).trans (r.growth_table r.adds_true)

theorem utf8_named : ∀ pair ∈ r.source.named, r.tablePool.utf8 pair.2.name = .ok pair.1 := by
  obtain ⟨⟨names, hnames, hnamed⟩, -, -, -⟩ := Source.of_eq_ok_iff.1 r.source_eq
  obtain ⟨-, hzip⟩ := List.forall₂_iff_zip.1 (Except.mapM_eq_ok_iff.1 hnames).flip
  rw [hnamed]
  exact fun pair hpair => r.growth_tablePool.utf8_eq (hzip hpair)

theorem map_snd_named : r.source.named.map Prod.snd = body.attributes := by
  obtain ⟨⟨names, hnames, hnamed⟩, -, -, -⟩ := Source.of_eq_ok_iff.1 r.source_eq
  rw [hnamed, List.map_snd_zip (Except.mapM_eq_ok_iff.1 hnames).length_eq.le]

/-- The names of the old attributes resolve. -/
theorem exists_name {a : Attribute} (ha : a ∈ body.attributes) :
    ∃ name, pool.utf8 a.name = .ok name := by
  obtain ⟨⟨names, hnames, -⟩, -, -, -⟩ := Source.of_eq_ok_iff.1 r.source_eq
  obtain ⟨name, -, hname⟩ := Forall₂.exists_of_mem_left (Except.mapM_eq_ok_iff.1 hnames) ha
  exact ⟨name, hname⟩

end Revision

end Embargo
