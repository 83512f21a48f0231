import Embargo.Code.LocalSlots
import Embargo.Proofs.Code.SlotCounts

/-!
Slots of local variables. The limit of a method is enough for its arguments, unless these are too
many for 16 bits, and for every instruction that names a variable.
-/
namespace Embargo

/-- The greatest of some numbers is not below any of them, nor below the first bound. -/
theorem Nat.le_foldl_max {ns : List Nat} {n bound : Nat} (h : n ≤ bound ∨ n ∈ ns) :
    n ≤ ns.foldl max bound := by
  induction ns generalizing bound with
  | nil => exact h.resolve_right List.not_mem_nil
  | cons m ns ih =>
    rw [List.foldl_cons]
    rcases h with hle | hmem
    · exact ih (.inl (Nat.le_trans hle (Nat.le_max_left _ _)))
    · rcases List.mem_cons.1 hmem with rfl | hmem
      · exact ih (.inl (Nat.le_max_right _ _))
      · exact ih (.inr hmem)

/-- The loads and stores of one slot, `iinc` and `ret`. -/
def Opcode.oneSlot : List Opcode := [0x15, 0x17, 0x19, 0x36, 0x38, 0x3a, 0x84, 0xa9]

/-- The loads and stores of `long` and `double`. -/
def Opcode.twoSlots : List Opcode := [0x16, 0x18, 0x37, 0x39]

/-- The opcodes that name a variable in an operand, and the slots that the variable takes. -/
def Opcode.named : List (Opcode × Nat) := oneSlot.map (·, 1) ++ twoSlots.map (·, 2)

/-- The first short forms of the loads and the stores of each type, for the variables from 0 to
3. -/
def Opcode.shortForms : List (Opcode × Nat) :=
  [(0x1a, 1), (0x1e, 2), (0x22, 1), (0x26, 2), (0x2a, 1),
    (0x3b, 1), (0x3f, 2), (0x43, 1), (0x47, 2), (0x4b, 1)]

/-- An instruction names a variable that takes some slots. -/
inductive Instruction.Names : Instruction → Nat → Nat → Prop
  | operand {op : Opcode} {width : Nat} (h : (op, width) ∈ Opcode.named) (slot : UInt8)
      (rest : List UInt8) : Names (.plain op (slot :: rest)) slot.toNat width
  | widened {op : Opcode} {width : Nat} (h : (op, width) ∈ Opcode.named) (slot : UInt16)
      (rest : List UInt8) :
      Names (.plain Opcode.wide (op :: (Bytes.u16 slot ++ rest))) slot.toNat width
  | short {op : Opcode} {width : Nat} (h : (op, width) ∈ Opcode.shortForms) (slot : Fin 4)
      (operands : List UInt8) :
      Names (.plain (op + UInt8.ofNat slot) operands) slot width

namespace LocalSlots

/-- How the limit sees an opcode that names a variable in an operand. -/
theorem named_facts : ∀ pair ∈ Opcode.named, pair.1 ≠ Opcode.wide ∧
    (Opcode.namesLocal pair.1 || pair.1 = Opcode.iinc || pair.1 = Opcode.ret) = true ∧
    (if Opcode.isWideLocal pair.1 then 2 else 1 : UInt16).toNat = pair.2 := by
  decide

theorem shortForms_facts : ∀ pair ∈ Opcode.shortForms, ∀ slot : Fin 4,
    pair.1 + UInt8.ofNat slot ≠ Opcode.wide ∧
    (Opcode.namesLocal (pair.1 + UInt8.ofNat slot) || pair.1 + UInt8.ofNat slot = Opcode.iinc
      || pair.1 + UInt8.ofNat slot = Opcode.ret) = false ∧
    (Opcode.shortFormLocal? (pair.1 + UInt8.ofNat slot)).map UInt16.toNat = some slot.val ∧
    (if Opcode.isWideLocal (pair.1 + UInt8.ofNat slot) then 2 else 1 : UInt16).toNat = pair.2 := by
  decide

/-- An instruction needs the slots of the variable that it names. -/
theorem needed_of_names {i : Instruction} {slot width : Nat} (h : i.Names slot width) :
    needed i = slot + width := by
  suffices hslot : ∃ index taken, i.localSlot? = some (index, taken) ∧ index.toNat = slot ∧
      taken.toNat = width by
    obtain ⟨index, taken, hlocal, rfl, rfl⟩ := hslot
    rw [needed, hlocal]
  cases h with
  | operand hnamed slot rest =>
    obtain ⟨hwide, hnames, hwidth⟩ := named_facts _ hnamed
    refine ⟨slot.toUInt16, _, ?_, UInt8.toNat_toUInt16 slot, hwidth⟩
    dsimp only [Instruction.localSlot?]
    rw [if_neg hwide, if_pos hnames, List.head?_cons, Option.map_some]
  | widened hnamed slot rest =>
    obtain ⟨-, -, hwidth⟩ := named_facts _ hnamed
    refine ⟨slot, _, ?_, rfl, hwidth⟩
    dsimp only [Instruction.localSlot?, Bytes.u16, List.cons_append]
    rw [if_pos rfl, Bytes.join_u16]
  | short hshort slot operands =>
    obtain ⟨hwide, hnames, hslot, hwidth⟩ := shortForms_facts _ hshort slot
    obtain ⟨index, hindex, hvalue⟩ := Option.map_eq_some_iff.1 hslot
    refine ⟨index, _, ?_, hvalue, hwidth⟩
    dsimp only [Instruction.localSlot?]
    rw [if_neg hwide, hnames, if_neg Bool.false_ne_true, hindex, Option.map_some]

variable {code : List Located} {descriptor : String} {isStatic : Bool} {used : UInt16}

theorem limit_eq_ok (h : limit code descriptor isStatic = .ok used) :
    ∃ arguments, Descriptor.argumentSlots descriptor = .ok arguments ∧
      arguments.toNat + (if isStatic then 0 else 1) ≤ used.toNat ∧
      ∀ located ∈ code, needed located.instruction ≤ used.toNat := by
  obtain ⟨arguments, harguments, h⟩ := Except.bind_eq_ok_iff.1 h
  refine ⟨arguments, harguments, ?_⟩
  dsimp only at h
  generalize (if isStatic then 0 else 1) = receiver at h ⊢
  rw [← List.foldl_map (f := fun located : Located => needed located.instruction)] at h
  split at h
  case isFalse => cases h
  case isTrue hfits =>
    cases h
    rw [UInt16.toNat_ofNat', Nat.mod_eq_of_lt hfits]
    exact ⟨Nat.le_foldl_max (.inl (Nat.le_refl _)), fun located hlocated =>
      Nat.le_foldl_max (.inr (List.mem_map_of_mem hlocated))⟩

/-- The limit is enough for the arguments if and only if 16 bits can hold the slots of these, and it
is enough for every variable that an instruction names. -/
theorem covers_of_limit (h : limit code descriptor isStatic = .ok used) :
    ∃ arguments, Descriptor.argumentCount descriptor = .ok arguments ∧
      (arguments < 65536 → arguments + (if isStatic then 0 else 1) ≤ used.toNat) ∧
      ∀ located ∈ code, ∀ slot width, located.instruction.Names slot width →
        slot + width ≤ used.toNat := by
  obtain ⟨slots, hslots, harguments, hneeded⟩ := limit_eq_ok h
  obtain ⟨arguments, hcount, hsum⟩ := Descriptor.argumentCount_of_argumentSlots hslots
  refine ⟨arguments, hcount, fun hfits => ?_, fun located hlocated slot width hnames => ?_⟩
  · rwa [hsum, Nat.mod_eq_of_lt hfits] at harguments
  · rw [← needed_of_names hnames]
    exact hneeded located hlocated

/-- The slots of the arguments, or those that an instruction needs, are too many for 16 bits. -/
def Overflows (code : List Located) (descriptor : String) (isStatic : Bool) : Prop :=
  ∃ arguments, Descriptor.argumentSlots descriptor = .ok arguments ∧
    (65535 < arguments.toNat + (if isStatic then 0 else 1) ∨
      ∃ located ∈ code, 65535 < needed located.instruction)

theorem lt_foldl_needed_iff {n bound : Nat} :
    n < code.foldl (fun slots located => max slots (needed located.instruction)) bound ↔
      n < bound ∨ ∃ located ∈ code, n < needed located.instruction := by
  induction code generalizing bound with
  | nil => simp
  | cons first code ih =>
    have hmax : n < max bound (needed first.instruction) ↔
        n < bound ∨ n < needed first.instruction := by omega
    rw [List.foldl_cons, ih, hmax, or_assoc]
    simp

/-- Where a descriptor can be read, the limit is refused for too many slots and for nothing
else. -/
theorem limit_of_argumentSlots (code : List Located) (isStatic : Bool) {arguments : UInt16}
    (harguments : Descriptor.argumentSlots descriptor = .ok arguments) :
    (∃ used, limit code descriptor isStatic = .ok used ∧ ¬ Overflows code descriptor isStatic) ∨
    ∃ slots, 65535 < slots ∧ Overflows code descriptor isStatic ∧
      limit code descriptor isStatic = .error (.tooMany "local variable slots" slots) := by
  have hoverflows : Overflows code descriptor isStatic ↔
      65535 < code.foldl (fun slots located => max slots (needed located.instruction))
        (arguments.toNat + if isStatic then 0 else 1) := by
    rw [lt_foldl_needed_iff]
    constructor
    · rintro ⟨_, harguments', hmany⟩
      cases harguments.symm.trans harguments'
      exact hmany
    · exact fun hmany => ⟨arguments, harguments, hmany⟩
  rw [hoverflows, limit, harguments]
  by_cases hslots : code.foldl (fun slots located => max slots (needed located.instruction))
      (arguments.toNat + if isStatic then 0 else 1) < 65536
  · exact .inl ⟨_, if_pos hslots, by omega⟩
  · exact .inr ⟨_, by omega, by omega, if_neg hslots⟩

end LocalSlots

end Embargo
