import Embargo.Proofs.ClassFile.ReadBack

/-!
Which classes have a written form. The writer refuses a list of more than 65535 elements and
nothing else in a class, and what it does not refuse reads back as it was.
-/
namespace Embargo

/-- A step that ends well under a condition, and otherwise reports a list with too many
elements. -/
def Limited {α : Type} (condition : Prop) (x : Except Fault α) : Prop :=
  (condition ∧ ∃ a, x = .ok a) ∨
    (¬ condition ∧ ∃ what n, x = .error (.tooMany what n))

namespace Limited
variable {α β : Type} {P Q : Prop}

protected theorem pure (a : α) : Limited True (pure a : Except Fault α) :=
  .inl ⟨trivial, a, rfl⟩

protected theorem count (what : String) (n : Nat) : Limited (n ≤ 65535) (Bytes.count what n) := by
  by_cases h : n < 65536
  · exact .inl ⟨by omega, _, if_pos h⟩
  · exact .inr ⟨by omega, what, n, if_neg h⟩

/-- Both conditions are met, or the first step that fails reports its list. -/
protected theorem bind {x : Except Fault α} {f : α → Except Fault β} (h : Limited P x)
    (hf : ∀ a, Limited Q (f a)) : Limited (P ∧ Q) (x >>= f) := by
  obtain ⟨hP, a, rfl⟩ | ⟨hP, what, n, rfl⟩ := h
  · obtain ⟨hQ, hok⟩ | ⟨hQ, hfault⟩ := hf a
    · exact .inl ⟨⟨hP, hQ⟩, hok⟩
    · exact .inr ⟨fun hboth => hQ hboth.2, hfault⟩
  · exact .inr ⟨fun hboth => hP hboth.1, what, n, rfl⟩

theorem congr {x : Except Fault α} (h : Limited P x) (hPQ : P ↔ Q) : Limited Q x := by
  rwa [Limited, ← hPQ]

protected theorem map {x : Except Fault α} {f : α → β} (h : Limited P x) :
    Limited P (do return f (← x)) :=
  (h.bind fun a => .pure (f a)).congr (and_iff_left trivial)

protected theorem mapM {f : α → Except Fault β} {R : α → Prop} {xs : List α}
    (h : ∀ x ∈ xs, Limited (R x) (f x)) : Limited (∀ x ∈ xs, R x) (xs.mapM f) := by
  induction xs with
  | nil => exact .inl ⟨fun _ hx => absurd hx List.not_mem_nil, [], rfl⟩
  | cons x xs ih =>
    obtain ⟨hhead, htail⟩ := List.forall_mem_cons.1 h
    rw [List.mapM_cons]
    exact (hhead.bind fun y => (ih htail).map).congr List.forall_mem_cons.symm

theorem exists_ok_iff {x : Except Fault α} (h : Limited P x) : (∃ a, x = .ok a) ↔ P := by
  obtain ⟨hP, hok⟩ | ⟨hP, what, n, rfl⟩ := h
  · exact iff_of_true hok hP
  · exact iff_of_false (by simp) hP

theorem exists_tooMany_iff {x : Except Fault α} (h : Limited P x) :
    (∃ what n, x = .error (.tooMany what n)) ↔ ¬ P := by
  obtain ⟨hP, a, rfl⟩ | ⟨hP, hfault⟩ := h
  · exact iff_of_false (by simp) (not_not_intro hP)
  · exact iff_of_true hfault hP

end Limited

theorem Attribute.limited_listBytes (attributes : List Attribute) :
    Limited (attributes.length ≤ 65535) (listBytes attributes) :=
  (Limited.count "attributes" attributes.length).map

theorem Member.limited_toBytes (member : Member) :
    Limited (member.attributes.length ≤ 65535) member.toBytes :=
  (Attribute.limited_listBytes member.attributes).map

theorem Member.limited_listBytes (members : List Member) :
    Limited (members.length ≤ 65535 ∧ ∀ member ∈ members, member.attributes.length ≤ 65535)
      (listBytes members) :=
  (Limited.count "members" members.length).bind fun _ =>
    (Limited.mapM fun member _ => member.limited_toBytes).map

/-- No list of the class is longer than its 16-bit count can tell. -/
structure ClassFile.Countable (c : ClassFile) : Prop where
  interfaces : c.interfaces.length ≤ 65535
  fields : c.fields.length ≤ 65535
  fieldAttributes : ∀ member ∈ c.fields, member.attributes.length ≤ 65535
  methods : c.methods.length ≤ 65535
  methodAttributes : ∀ member ∈ c.methods, member.attributes.length ≤ 65535
  attributes : c.attributes.length ≤ 65535

theorem ClassFile.limited_toBytes (c : ClassFile) : Limited c.Countable c.toBytes := by
  have hlists : Limited _ c.toBytes :=
    (Limited.count "interfaces" c.interfaces.length).bind fun _ =>
      (Member.limited_listBytes c.fields).bind fun _ =>
        (Member.limited_listBytes c.methods).bind fun _ =>
          (Attribute.limited_listBytes c.attributes).map
  refine hlists.congr ⟨?_, ?_⟩
  · rintro ⟨hinterfaces, ⟨hfields, hfieldAttributes⟩, ⟨hmethods, hmethodAttributes⟩, hattributes⟩
    exact ⟨hinterfaces, hfields, hfieldAttributes, hmethods, hmethodAttributes, hattributes⟩
  · intro h
    exact ⟨h.interfaces, ⟨h.fields, h.fieldAttributes⟩, ⟨h.methods, h.methodAttributes⟩,
      h.attributes⟩

/-- No list of the body is too long, nor is its code. -/
structure Body.Countable (body : Body) : Prop where
  code : body.code.length ≤ 65535
  handlers : body.handlers.length ≤ 65535
  attributes : body.attributes.length ≤ 65535

theorem Body.exists_toBytes_iff (body : Body) :
    (∃ bytes, body.toBytes = .ok bytes) ↔ body.Countable := by
  unfold toBytes
  split
  case isTrue hlong => exact iff_of_false (by rintro ⟨_, ⟨⟩⟩) fun h => absurd h.code (by omega)
  case isFalse hshort =>
    refine (Limited.exists_ok_iff
      (P := body.handlers.length ≤ 65535 ∧ body.attributes.length ≤ 65535) ?_).trans ⟨?_, ?_⟩
    · exact (Limited.count _ _).bind fun _ => (Attribute.limited_listBytes body.attributes).map
    · rintro ⟨hhandlers, hattributes⟩
      exact ⟨Nat.not_lt.1 hshort, hhandlers, hattributes⟩
    · exact fun h => ⟨h.handlers, h.attributes⟩

/-- A class in good order has a written form exactly if its lists are not too long, and so
has a body. The written form reads back as what was written. -/
theorem written_iff_countable :
    (∀ (c : ClassFile) (name : String), c.pool.WellFormed → c.Fits → c.name = .ok name →
      ((∃ what n, c.toBytes = .error (.tooMany what n)) ↔ ¬ c.Countable) ∧
      (c.Countable → ∃ bytes, c.toBytes = .ok bytes ∧ ClassFile.parse bytes = .ok c)) ∧
    ∀ body : Body, (∀ a ∈ body.attributes, a.Fits) →
      ((∃ bytes, body.toBytes = .ok bytes) ↔ body.Countable) ∧
      ∀ bytes, body.toBytes = .ok bytes → Body.parse bytes = .ok body := by
  constructor
  · intro c name hpool hfits hname
    refine ⟨c.limited_toBytes.exists_tooMany_iff, fun hcountable => ?_⟩
    obtain ⟨bytes, hbytes⟩ := c.limited_toBytes.exists_ok_iff.2 hcountable
    exact ⟨bytes, hbytes, ClassFile.parse_toBytes hpool hfits hname hbytes⟩
  · intro body hfits
    exact ⟨body.exists_toBytes_iff, fun bytes hbytes => Body.parse_toBytes hfits hbytes⟩

/-- A name, the class of that name, and two wide constants, one of them in the last slots. -/
def wideConstants : List Constant :=
  [.utf8 [0x61, 0x2f, 0x42], .classRef 1, .long 7, .double 0x7ff8000000000000]

def widePool : Pool := wideConstants.foldl Pool.push .empty

def wideClass (interfaces : List UInt16) : ClassFile where
  minorVersion := 0
  majorVersion := 52
  pool := widePool
  flags := 1
  thisClass := 2
  superClass := 0
  interfaces
  fields := [⟨0, 1, 1, [⟨1, [0, 3]⟩]⟩]
  methods := []
  attributes := [⟨1, []⟩]

theorem wellFormed_widePool : widePool.WellFormed :=
  ⟨by decide, wideConstants, by decide⟩

theorem fits_wideClass (interfaces : List UInt16) : (wideClass interfaces).Fits where
  pool := by
    have hslots : widePool.slots.toList = [none, some (.utf8 [0x61, 0x2f, 0x42]),
        some (.classRef 1), some (.long 7), none, some (.double 0x7ff8000000000000), none] := by
      decide
    intro bytes hbytes
    change _ ∈ widePool.slots.toList at hbytes
    rw [hslots] at hbytes
    simp_all
  fields := by simp [wideClass, Member.Fits, Attribute.Fits]
  methods := by simp [wideClass]
  attributes := by simp [wideClass, Attribute.Fits]

theorem written_iff_countable_wide :
    (∃ bytes, (wideClass [2]).toBytes = .ok bytes ∧ ClassFile.parse bytes = .ok (wideClass [2])) ∧
    (∃ what n, (wideClass (List.replicate 65536 2)).toBytes = .error (.tooMany what n)) ∧
    ∃ bytes, Body.toBytes ⟨0, 1, [0xb1], [⟨0, 1, 0, 2⟩], [⟨1, [0, 0]⟩]⟩ = .ok bytes ∧
      Body.parse bytes = .ok ⟨0, 1, [0xb1], [⟨0, 1, 0, 2⟩], [⟨1, [0, 0]⟩]⟩ := by
  have hname : widePool.className 2 = .ok "a/B" := by decide
  refine ⟨?_, ?_, ?_⟩
  · exact (written_iff_countable.1 (wideClass [2]) "a/B" wellFormed_widePool (fits_wideClass _)
      hname).2 ⟨by decide, by decide, by decide, by decide, by decide, by decide⟩
  · refine (written_iff_countable.1 (wideClass (List.replicate 65536 2)) "a/B"
      wellFormed_widePool (fits_wideClass _) hname).1.2 fun h => ?_
    have hlength : (List.replicate 65536 (2 : UInt16)).length ≤ 65535 := h.interfaces
    rw [List.length_replicate] at hlength
    omega
  · have hfits : ∀ a ∈ [(⟨1, [0, 0]⟩ : Attribute)], a.Fits := by
      unfold Attribute.Fits
      decide
    obtain ⟨hwritten, hback⟩ :=
      written_iff_countable.2 ⟨0, 1, [0xb1], [⟨0, 1, 0, 2⟩], [⟨1, [0, 0]⟩]⟩ hfits
    obtain ⟨bytes, hbytes⟩ := hwritten.2 ⟨by decide, by decide, by decide⟩
    exact ⟨bytes, hbytes, hback bytes hbytes⟩

end Embargo
