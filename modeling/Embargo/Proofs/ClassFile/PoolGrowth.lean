import Embargo.ClassFile.PoolGrowth
import Embargo.Proofs.Attempt
import Embargo.Proofs.Text.ModifiedUtf8

/-!
What adding constants does to a pool. Nothing that was in the pool changes, the layout
of its slots stays sound, and an index that comes back names what was asked for.
-/
namespace Embargo
open Text

/-- The slots that a constant fills. -/
def Constant.slots (constant : Constant) : List (Option Constant) :=
  if constant.isWide then [some constant, none] else [some constant]

theorem Constant.length_slots (constant : Constant) :
    constant.slots.length = constant.width := by
  unfold slots width
  split <;> rfl

namespace Pool
variable {α β : Type}

/-- The pools that the format can hold: slot zero is empty, then come constants in a
row, the wide ones with an empty slot behind them. -/
structure WellFormed (pool : Pool) : Prop where
  size_le : pool.slots.size ≤ capacity
  exists_constants : ∃ constants : List Constant,
    pool.slots.toList = none :: constants.flatMap Constant.slots

theorem wellFormed_empty : empty.WellFormed :=
  ⟨by decide, [], rfl⟩

theorem toList_push (pool : Pool) (constant : Constant) :
    (pool.push constant).slots.toList = pool.slots.toList ++ constant.slots := by
  unfold push Constant.slots
  split <;> simp

theorem size_push (pool : Pool) (constant : Constant) :
    (pool.push constant).slots.size = pool.slots.size + constant.width := by
  rw [← Array.length_toList, toList_push, List.length_append, Array.length_toList,
    Constant.length_slots]

theorem WellFormed.push {pool : Pool} (h : pool.WellFormed) {constant : Constant}
    (hfit : pool.slots.size + constant.width ≤ capacity) : (pool.push constant).WellFormed := by
  obtain ⟨constants, hlist⟩ := h.exists_constants
  refine ⟨by rw [size_push]; exact hfit, constants ++ [constant], ?_⟩
  rw [toList_push, hlist, List.flatMap_append, List.flatMap_singleton, List.cons_append]

theorem toList_foldl_push (constants : List Constant) (pool : Pool) :
    (constants.foldl push pool).slots.toList =
      pool.slots.toList ++ constants.flatMap Constant.slots := by
  induction constants generalizing pool with
  | nil => simp
  | cons constant constants ih => simp [ih, toList_push]

theorem get_eq_ok_iff {pool : Pool} {index : UInt16} {constant : Constant} :
    pool.get index = .ok constant ↔
      pool.slots.toList[index.toNat]? = some (some constant) := by
  rw [get, Array.getElem?_toList]
  split <;> simp_all

theorem get_of_prefix {old new : Pool} (h : old.slots.toList <+: new.slots.toList)
    {index : UInt16} {constant : Constant} (hget : old.get index = .ok constant) :
    new.get index = .ok constant := by
  rw [get_eq_ok_iff] at hget ⊢
  obtain ⟨more, hmore⟩ := h
  have hlt := (List.getElem?_eq_some_iff.1 hget).1
  rw [← hmore, List.getElem?_append_left hlt, hget]

/-- One pool comes from another by adding constants; new texts all have a property. -/
structure Growth (P : String → Prop) (old new : Pool) : Prop where
  added : ∃ constants : List Constant, new = constants.foldl push old
  wellFormed : old.WellFormed → new.WellFormed
  texts : ∀ bytes, some (.utf8 bytes) ∈ new.slots.toList →
    some (.utf8 bytes) ∈ old.slots.toList ∨ ∃ text, P text ∧ bytes = ModifiedUtf8.encode text

namespace Growth
variable {P Q : String → Prop} {old middle new : Pool}

protected theorem refl (pool : Pool) : Growth P pool pool :=
  ⟨⟨[], rfl⟩, id, fun _ h => .inl h⟩

protected theorem trans (h : Growth P old middle) (h' : Growth P middle new) :
    Growth P old new := by
  obtain ⟨constants, rfl⟩ := h.added
  obtain ⟨more, hmore⟩ := h'.added
  refine ⟨⟨constants ++ more, by rw [hmore, List.foldl_append]⟩, h'.wellFormed ∘ h.wellFormed, ?_⟩
  intro bytes hbytes
  rcases h'.texts bytes hbytes with hmiddle | hnew
  · exact h.texts bytes hmiddle
  · exact .inr hnew

theorem mono (h : Growth P old new) (hPQ : ∀ text, P text → Q text) : Growth Q old new := by
  refine ⟨h.added, h.wellFormed, fun bytes hbytes => ?_⟩
  rcases h.texts bytes hbytes with hold | ⟨text, htext, rfl⟩
  · exact .inl hold
  · exact .inr ⟨text, hPQ text htext, rfl⟩

/-- What was there stays where it was. -/
theorem isPrefix (h : Growth P old new) : old.slots.toList <+: new.slots.toList := by
  obtain ⟨constants, rfl⟩ := h.added
  rw [toList_foldl_push]
  exact List.prefix_append _ _

theorem get_eq (h : Growth P old new) {index : UInt16} {constant : Constant}
    (hget : old.get index = .ok constant) : new.get index = .ok constant :=
  get_of_prefix h.isPrefix hget

theorem utf8_eq (h : Growth P old new) {index : UInt16} {text : String}
    (htext : old.utf8 index = .ok text) : new.utf8 index = .ok text := by
  unfold utf8 at htext ⊢
  obtain ⟨constant, hget, hrole⟩ := Except.bind_eq_ok_iff.1 htext
  exact Except.bind_eq_ok_iff.2 ⟨constant, h.get_eq hget, hrole⟩

theorem className_eq (h : Growth P old new) {index : UInt16} {name : String}
    (hname : old.className index = .ok name) : new.className index = .ok name := by
  unfold className at hname ⊢
  obtain ⟨constant, hget, hrole⟩ := Except.bind_eq_ok_iff.1 hname
  refine Except.bind_eq_ok_iff.2 ⟨constant, h.get_eq hget, ?_⟩
  cases constant with
  | classRef index => exact h.utf8_eq hrole
  | _ => exact hrole

theorem nameAndType_eq (h : Growth P old new) {index : UInt16} {pair : String × String}
    (hpair : old.nameAndType index = .ok pair) : new.nameAndType index = .ok pair := by
  unfold nameAndType at hpair ⊢
  obtain ⟨constant, hget, hrole⟩ := Except.bind_eq_ok_iff.1 hpair
  refine Except.bind_eq_ok_iff.2 ⟨constant, h.get_eq hget, ?_⟩
  cases constant with
  | nameAndType name descriptor =>
    obtain ⟨first, hfirst, hrest⟩ := Except.bind_eq_ok_iff.1 hrole
    obtain ⟨second, hsecond, hpure⟩ := Except.bind_eq_ok_iff.1 hrest
    exact Except.bind_eq_ok_iff.2 ⟨first, h.utf8_eq hfirst,
      Except.bind_eq_ok_iff.2 ⟨second, h.utf8_eq hsecond, hpure⟩⟩
  | _ => exact hrole

theorem member_eq (h : Growth P old new) {index : UInt16} {member : MemberRef}
    (hmember : old.member index = .ok member) : new.member index = .ok member := by
  unfold Pool.member at hmember ⊢
  obtain ⟨constant, hget, hrole⟩ := Except.bind_eq_ok_iff.1 hmember
  refine Except.bind_eq_ok_iff.2 ⟨constant, h.get_eq hget, ?_⟩
  cases constant with
  | member kind owner nameAndType =>
    obtain ⟨pair, hpair, hrest⟩ := Except.bind_eq_ok_iff.1 hrole
    obtain ⟨name, hname, hpure⟩ := Except.bind_eq_ok_iff.1 hrest
    exact Except.bind_eq_ok_iff.2 ⟨pair, h.nameAndType_eq hpair,
      Except.bind_eq_ok_iff.2 ⟨name, h.className_eq hname, hpure⟩⟩
  | _ => exact hrole

end Growth

/-- A pool behind a step, whether the step ended well or not. -/
def Grows (P : String → Prop) (step : PoolStep α) : Prop :=
  ∀ pool, Growth P pool (step.run pool).2

namespace Grows
variable {P : String → Prop}

protected theorem pure (a : α) : Grows P (pure a) := Growth.refl

protected theorem get : Grows P (MonadState.get : PoolStep Pool) := Growth.refl

protected theorem throw (fault : Fault) : Grows P (throw fault : PoolStep α) := Growth.refl

protected theorem throw_bind (fault : Fault) (next : α → PoolStep β) :
    Grows P ((throw fault : PoolStep α) >>= next) := Growth.refl

protected theorem ofExcept (x : Except Fault α) : Grows P (Attempt.ofExcept x) := Growth.refl

protected theorem bind {step : PoolStep α} {next : α → PoolStep β} (h : Grows P step)
    (hnext : ∀ a, Grows P (next a)) : Grows P (step >>= next) := by
  intro pool
  rw [Attempt.run_bind]
  have hstep := h pool
  generalize step.run pool = outcome at hstep
  rcases outcome with ⟨fault | a, middle⟩
  · exact hstep
  · exact hstep.trans (hnext a middle)

protected theorem mapM {f : α → PoolStep β} (xs : List α) (h : ∀ x ∈ xs, Grows P (f x)) :
    Grows P (xs.mapM f) := by
  induction xs with
  | nil => exact .pure []
  | cons x xs ih =>
    rw [List.mapM_cons]
    apply (h x List.mem_cons_self).bind
    intro y
    exact (ih fun x hx => h x (List.mem_cons_of_mem _ hx)).bind fun ys => .pure (y :: ys)

/-- The pool behind a step that ended well. -/
theorem growth {step : PoolStep α} (h : Grows P step) {pool new : Pool} {a : α}
    (hrun : step.run pool = (.ok a, new)) : Growth P pool new := by
  have hpool := h pool
  rwa [hrun] at hpool

end Grows

theorem find?_eq_some {pool : Pool} {constant : Constant} {position : Nat}
    (h : pool.find? constant = some position) :
    pool.slots[position]? = some (some constant) := by
  obtain ⟨hlt, hheld, _⟩ := Array.findIdx?_eq_some_iff_getElem.1 h
  rw [Array.getElem?_eq_getElem hlt, isHeld_iff.1 hheld]

theorem grows_intern {P : String → Prop} {constant : Constant}
    (h : ∀ bytes, constant = .utf8 bytes → ∃ text, P text ∧ bytes = ModifiedUtf8.encode text) :
    Grows P (intern constant) := by
  intro pool
  change Growth P pool (intern constant pool).2
  unfold intern
  split
  case h_1 => exact .refl pool
  case h_2 =>
    split
    case isFalse => exact .refl pool
    case isTrue hfit =>
      refine ⟨⟨[constant], rfl⟩, fun hwell => hwell.push hfit, fun bytes hbytes => ?_⟩
      rw [toList_push, List.mem_append] at hbytes
      rcases hbytes with hold | hnew
      · exact .inl hold
      · refine .inr (h bytes ?_)
        unfold Constant.slots at hnew
        split at hnew <;> simp_all

theorem grows_intern_of_ne {P : String → Prop} {constant : Constant}
    (h : ∀ bytes, constant ≠ .utf8 bytes) : Grows P (intern constant) :=
  grows_intern fun bytes hbytes => absurd hbytes (h bytes)

/-- The index that comes back names the constant. -/
theorem get_intern {constant : Constant} {pool new : Pool} {index : UInt16}
    (hpool : pool.WellFormed) (h : (intern constant).run pool = (.ok index, new)) :
    new.get index = .ok constant := by
  have hsize : pool.slots.size ≤ 65535 := hpool.size_le
  change intern constant pool = _ at h
  unfold intern at h
  split at h
  case h_1 position hfind =>
    cases h
    have hslot := find?_eq_some hfind
    have hlt := (Array.getElem?_eq_some_iff.1 hslot).1
    have hindex : (UInt16.ofNat position).toNat = position :=
      UInt16.toNat_ofNat_of_lt (show position < 65536 by omega)
    rw [get, hindex, hslot]
  case h_2 =>
    split at h
    case isFalse => cases h
    case isTrue hfit =>
      cases h
      have hindex : pool.count.toNat = pool.slots.size :=
        UInt16.toNat_ofNat_of_lt (show pool.slots.size < 65536 by omega)
      have hslot : (pool.push constant).slots[pool.slots.size]? = some (some constant) := by
        rw [← Array.getElem?_toList, toList_push, ← Array.length_toList,
          List.getElem?_append_right (le_refl _), Nat.sub_self]
        unfold Constant.slots
        split <;> rfl
      rw [get, hindex, hslot]

theorem grows_addUtf8 {P : String → Prop} {text : String} (h : P text) :
    Grows P (addUtf8 text) := by
  refine grows_intern fun bytes hbytes => ⟨text, h, ?_⟩
  cases hbytes
  rfl

theorem grows_addClass {P : String → Prop} {name : String} (h : P name) :
    Grows P (addClass name) :=
  (grows_addUtf8 h).bind fun _ => grows_intern_of_ne (by simp)

theorem grows_addString {P : String → Prop} {text : String} (h : P text) :
    Grows P (addString text) :=
  (grows_addUtf8 h).bind fun _ => grows_intern_of_ne (by simp)

theorem grows_addNameAndType {P : String → Prop} {name descriptor : String} (hname : P name)
    (hdescriptor : P descriptor) : Grows P (addNameAndType name descriptor) :=
  (grows_addUtf8 hname).bind fun _ => (grows_addUtf8 hdescriptor).bind fun _ =>
    grows_intern_of_ne (by simp)

theorem grows_addMember {P : String → Prop} {kind : MemberKind} {member : MemberRef}
    (howner : P member.owner) (hname : P member.name) (hdescriptor : P member.descriptor) :
    Grows P (addMember kind member) :=
  (grows_addClass howner).bind fun _ => (grows_addNameAndType hname hdescriptor).bind fun _ =>
    grows_intern_of_ne (by simp)

section Lookup
variable {pool new : Pool} {index : UInt16}

theorem utf8_addUtf8 {text : String} (hpool : pool.WellFormed)
    (h : (addUtf8 text).run pool = (.ok index, new)) : new.utf8 index = .ok text := by
  have hget := get_intern hpool h
  exact Except.bind_eq_ok_iff.2 ⟨_, hget, ModifiedUtf8.decode_encode text⟩

theorem className_addClass {name : String} (hpool : pool.WellFormed)
    (h : (addClass name).run pool = (.ok index, new)) : new.className index = .ok name := by
  obtain ⟨utf8, middle, hutf8, hclass⟩ := Attempt.run_bind_eq_ok_iff.1 h
  have hgrowth : Growth (fun _ => True) pool middle := (grows_addUtf8 trivial).growth hutf8
  have hlast : Growth (fun _ => True) middle new :=
    (grows_intern_of_ne (by simp)).growth hclass
  have hget := get_intern (hgrowth.wellFormed hpool) hclass
  exact Except.bind_eq_ok_iff.2 ⟨_, hget, hlast.utf8_eq (utf8_addUtf8 hpool hutf8)⟩

theorem string_addString {text : String} (hpool : pool.WellFormed)
    (h : (addString text).run pool = (.ok index, new)) :
    ∃ utf8, new.get index = .ok (.string utf8) ∧ new.utf8 utf8 = .ok text := by
  obtain ⟨utf8, middle, hutf8, hstring⟩ := Attempt.run_bind_eq_ok_iff.1 h
  have hgrowth : Growth (fun _ => True) pool middle := (grows_addUtf8 trivial).growth hutf8
  have hlast : Growth (fun _ => True) middle new :=
    (grows_intern_of_ne (by simp)).growth hstring
  exact ⟨utf8, get_intern (hgrowth.wellFormed hpool) hstring,
    hlast.utf8_eq (utf8_addUtf8 hpool hutf8)⟩

theorem nameAndType_addNameAndType {name descriptor : String} (hpool : pool.WellFormed)
    (h : (addNameAndType name descriptor).run pool = (.ok index, new)) :
    new.nameAndType index = .ok (name, descriptor) := by
  obtain ⟨first, one, hfirst, hrest⟩ := Attempt.run_bind_eq_ok_iff.1 h
  obtain ⟨second, two, hsecond, hpair⟩ := Attempt.run_bind_eq_ok_iff.1 hrest
  have hone : Growth (fun _ => True) pool one := (grows_addUtf8 trivial).growth hfirst
  have htwo : Growth (fun _ => True) one two := (grows_addUtf8 trivial).growth hsecond
  have hlast : Growth (fun _ => True) two new :=
    (grows_intern_of_ne (by simp)).growth hpair
  have hwell := hone.wellFormed hpool
  have hget := get_intern (htwo.wellFormed hwell) hpair
  have hname := (htwo.trans hlast).utf8_eq (utf8_addUtf8 hpool hfirst)
  have hdescriptor := hlast.utf8_eq (utf8_addUtf8 hwell hsecond)
  exact Except.bind_eq_ok_iff.2 ⟨_, hget, Except.bind_eq_ok_iff.2 ⟨_, hname,
    Except.bind_eq_ok_iff.2 ⟨_, hdescriptor, rfl⟩⟩⟩

theorem member_addMember {kind : MemberKind} {member : MemberRef} (hpool : pool.WellFormed)
    (h : (addMember kind member).run pool = (.ok index, new)) :
    new.member index = .ok member := by
  obtain ⟨owner, one, howner, hrest⟩ := Attempt.run_bind_eq_ok_iff.1 h
  obtain ⟨pair, two, hpair, hmember⟩ := Attempt.run_bind_eq_ok_iff.1 hrest
  have hone : Growth (fun _ => True) pool one := (grows_addClass trivial).growth howner
  have htwo : Growth (fun _ => True) one two :=
    (grows_addNameAndType trivial trivial).growth hpair
  have hlast : Growth (fun _ => True) two new :=
    (grows_intern_of_ne (by simp)).growth hmember
  have hwell := hone.wellFormed hpool
  have hget := get_intern (htwo.wellFormed hwell) hmember
  have hname := (htwo.trans hlast).className_eq (className_addClass hpool howner)
  have hnameAndType := hlast.nameAndType_eq (nameAndType_addNameAndType hwell hpair)
  exact Except.bind_eq_ok_iff.2 ⟨_, hget, Except.bind_eq_ok_iff.2 ⟨_, hnameAndType,
    Except.bind_eq_ok_iff.2 ⟨_, hname, rfl⟩⟩⟩

theorem get_addMember {kind : MemberKind} {member : MemberRef} (hpool : pool.WellFormed)
    (h : (addMember kind member).run pool = (.ok index, new)) :
    ∃ owner nameAndType, new.get index = .ok (.member kind owner nameAndType) := by
  obtain ⟨owner, one, howner, hrest⟩ := Attempt.run_bind_eq_ok_iff.1 h
  obtain ⟨pair, two, hpair, hmember⟩ := Attempt.run_bind_eq_ok_iff.1 hrest
  have hone : Growth (fun _ => True) pool one := (grows_addClass trivial).growth howner
  have htwo : Growth (fun _ => True) one two :=
    (grows_addNameAndType trivial trivial).growth hpair
  exact ⟨owner, pair, get_intern (htwo.wellFormed (hone.wellFormed hpool)) hmember⟩

end Lookup

/-- The pool has a text as the writer spells it. -/
def Holds (pool : Pool) (text : String) : Prop :=
  some (.utf8 (ModifiedUtf8.encode text)) ∈ pool.slots.toList

theorem Growth.holds {P : String → Prop} {old new : Pool} {text : String}
    (h : Growth P old new) (htext : old.Holds text) : new.Holds text :=
  h.isPrefix.subset htext

theorem mem_of_get {pool : Pool} {index : UInt16} {constant : Constant}
    (h : pool.get index = .ok constant) : some constant ∈ pool.slots.toList :=
  List.mem_of_getElem? (get_eq_ok_iff.1 h)

section Holds
variable {pool new : Pool} {index : UInt16} {text : String}

theorem holds_addUtf8 (hpool : pool.WellFormed)
    (h : (addUtf8 text).run pool = (.ok index, new)) : new.Holds text :=
  mem_of_get (get_intern hpool h)

theorem holds_addClass (hpool : pool.WellFormed)
    (h : (addClass text).run pool = (.ok index, new)) : new.Holds text := by
  obtain ⟨utf8, middle, hutf8, hclass⟩ := Attempt.run_bind_eq_ok_iff.1 h
  have hlast : Growth (fun _ => True) middle new :=
    (grows_intern_of_ne (by simp)).growth hclass
  exact hlast.holds (holds_addUtf8 hpool hutf8)

theorem holds_addString (hpool : pool.WellFormed)
    (h : (addString text).run pool = (.ok index, new)) : new.Holds text := by
  obtain ⟨utf8, middle, hutf8, hstring⟩ := Attempt.run_bind_eq_ok_iff.1 h
  have hlast : Growth (fun _ => True) middle new :=
    (grows_intern_of_ne (by simp)).growth hstring
  exact hlast.holds (holds_addUtf8 hpool hutf8)

end Holds

end Pool

end Embargo
