import Embargo.ClassFile.PoolGrowth
import Embargo.Proofs.Code.Decoding
import Embargo.Proofs.Code.StackLimit
import Mathlib.Algebra.GroupWithZero.Nat

/-!
Slots in 16 bits. Sums of slots are kept modulo 65536, so each is the exact sum if and only if that
is less than 65536. Nothing but a call can go beyond: all other instructions take and put a few
slots.
-/
namespace Embargo

/-- A word that is a number exactly where the number fits in 16 bits. -/
def FitsExactly (word : UInt16) (n : Int) : Prop := (word.toNat : Int) = n ↔ 0 ≤ n ∧ n < 65536

theorem fitsExactly_of_emod {word : UInt16} {n : Int} (h : (word.toNat : Int) = n % 65536) :
    FitsExactly word n := by
  have hlt := word.toNat_lt
  unfold FitsExactly
  omega

theorem fitsExactly_of_mod {word : UInt16} {n : Nat} (h : word.toNat = n % 65536) :
    FitsExactly word n :=
  fitsExactly_of_emod (by omega)

/-- The slots of a value, as a number. -/
def FieldType.width : FieldType → Nat
  | long | double => 2
  | _ => 1

@[simp] theorem FieldType.toNat_slots (type : FieldType) : type.slots.toNat = type.width := by
  cases type <;> rfl

theorem FieldType.width_le (type : FieldType) : type.width ≤ 2 := by
  unfold width
  split <;> decide

namespace Descriptor

/-- The slots of parameters, however many there are. -/
def widths (parameters : List FieldType) : Nat := (parameters.map FieldType.width).sum

theorem toNat_foldl_slots (parameters : List FieldType) (slots : UInt16) :
    (parameters.foldl (fun slots type => slots + type.slots) slots).toNat
      = (slots.toNat + widths parameters) % 65536 := by
  induction parameters generalizing slots with
  | nil => simp [widths, Nat.mod_eq_of_lt slots.toNat_lt]
  | cons type parameters ih =>
    rw [List.foldl_cons, ih, UInt16.toNat_add, FieldType.toNat_slots]
    simp only [widths, List.map_cons, List.sum_cons]
    omega

/-- The slots of the arguments, however many there are. -/
def argumentCount (text : String) : Except Fault Nat :=
  (parseMethod text).map fun (parameters, _) => widths parameters

theorem argumentSlots_of_parseMethod {text : String} {parameters : List FieldType}
    {result : Option FieldType} (h : parseMethod text = .ok (parameters, result)) :
    ∃ slots, argumentSlots text = .ok slots ∧ slots.toNat = widths parameters % 65536 := by
  refine ⟨_, Except.map_eq_ok_iff.2 ⟨_, h, rfl⟩, ?_⟩
  rw [toNat_foldl_slots]
  simp

theorem argumentCount_of_argumentSlots {text : String} {slots : UInt16}
    (h : argumentSlots text = .ok slots) :
    ∃ count, argumentCount text = .ok count ∧ slots.toNat = count % 65536 := by
  obtain ⟨⟨parameters, result⟩, hparse, -⟩ := Except.map_eq_ok_iff.1 h
  obtain ⟨slots', hslots, hsum⟩ := argumentSlots_of_parseMethod hparse
  cases h.symm.trans hslots
  exact ⟨widths parameters, Except.map_eq_ok_iff.2 ⟨_, hparse, rfl⟩, hsum⟩

end Descriptor

/-- The slots that an instruction takes from the stack and then puts on it, however many there
are. -/
structure SlotCounts where
  pops : Nat
  pushes : Nat
  deriving DecidableEq, Repr

namespace StackEffect

def counts (effect : StackEffect) : SlotCounts := ⟨effect.pops.toNat, effect.pushes.toNat⟩

/-- The counts of a call by a descriptor, on top of `receivers` slots. -/
def callCounts (receivers : Nat) (descriptor : String) : Except Fault SlotCounts := do
  let arguments ← Descriptor.argumentCount descriptor
  let result ← Descriptor.resultSlots descriptor
  return ⟨arguments + receivers, result.toNat⟩

/-- The counts of an instruction. Only calls and `putfield` add any up. -/
def countsOf (pool : Pool) (i : Instruction) : Except Fault SlotCounts := do
  let op := i.opcode
  let index := i.poolIndex?.getD 0
  if op = Opcode.putField then
    return ⟨1 + (← fieldSlots pool index).toNat, 0⟩
  else if op = Opcode.invokeDynamic then
    callCounts 0 (← pool.dynamicDescriptor index)
  else if op.isMethodInvoke then
    callCounts (if op = Opcode.invokeStatic then 0 else 1) (← pool.member index).descriptor
  else
    return (← of pool i).counts

/-- An effect is the counts in 16 bits. -/
structure Truncates (effect : StackEffect) (counts : SlotCounts) : Prop where
  pops : effect.pops.toNat = counts.pops % 65536
  pushes : effect.pushes.toNat = counts.pushes

theorem truncates_counts (effect : StackEffect) : effect.Truncates effect.counts :=
  ⟨(Nat.mod_eq_of_lt effect.pops.toNat_lt).symm, rfl⟩

theorem truncates_call {receivers : UInt16} {descriptor : String} {effect : StackEffect}
    (h : call receivers descriptor = .ok effect) :
    ∃ counts, callCounts receivers.toNat descriptor = .ok counts ∧ effect.Truncates counts := by
  obtain ⟨arguments, harguments, h⟩ := Except.bind_eq_ok_iff.1 h
  obtain ⟨result, hresult, h⟩ := Except.bind_eq_ok_iff.1 h
  cases h
  obtain ⟨count, hcount, hsum⟩ := Descriptor.argumentCount_of_argumentSlots harguments
  refine ⟨⟨count + receivers.toNat, result.toNat⟩, ?_, ?_, rfl⟩
  · exact Except.bind_eq_ok_iff.2 ⟨count, hcount, Except.bind_eq_ok_iff.2 ⟨result, hresult, rfl⟩⟩
  · rw [UInt16.toNat_add, hsum]
    simp

section Opcodes
variable {pool : Pool} {i : Instruction} {effect : StackEffect}

theorem of_putField (h : i.opcode = Opcode.putField) :
    of pool i = (do return ⟨1 + (← fieldSlots pool (i.poolIndex?.getD 0)), 0⟩) := by
  rw [of, h]
  rfl

theorem of_invokeDynamic (h : i.opcode = Opcode.invokeDynamic) :
    of pool i = (do call 0 (← pool.dynamicDescriptor (i.poolIndex?.getD 0))) := by
  rw [of, h]
  rfl

/-- A call of a member, on top of its receiver if it has one. -/
theorem of_methodInvoke (h : i.opcode.isMethodInvoke = true) :
    of pool i = (do
      call (if i.opcode = Opcode.invokeStatic then 0 else 1)
        (← pool.member (i.poolIndex?.getD 0)).descriptor) := by
  have hne (op : Opcode) (hop : ¬ op.isMethodInvoke = true) : i.opcode ≠ op := by
    rintro rfl
    exact hop h
  unfold of
  dsimp only
  rw [if_neg (hne _ (by decide)), if_neg (hne _ (by decide)), if_neg (hne _ (by decide)),
    if_neg (hne _ (by decide)), if_neg (hne _ (by decide)), if_pos h]
  split
  case isTrue => rfl
  case isFalse => rfl

/-- The effect of an instruction is its counts in 16 bits. -/
theorem truncates_of (h : of pool i = .ok effect) :
    ∃ counts, countsOf pool i = .ok counts ∧ effect.Truncates counts := by
  unfold countsOf
  dsimp only
  split
  case isTrue hop =>
    rw [of_putField hop] at h
    obtain ⟨slots, hslots, h⟩ := Except.bind_eq_ok_iff.1 h
    cases h
    refine ⟨⟨1 + slots.toNat, 0⟩, Except.bind_eq_ok_iff.2 ⟨slots, hslots, rfl⟩, ?_, rfl⟩
    exact UInt16.toNat_add 1 slots
  case isFalse =>
    split
    case isTrue hop =>
      rw [of_invokeDynamic hop] at h
      obtain ⟨descriptor, hdescriptor, h⟩ := Except.bind_eq_ok_iff.1 h
      obtain ⟨counts, hcounts, htruncates⟩ := truncates_call h
      exact ⟨counts, Except.bind_eq_ok_iff.2 ⟨descriptor, hdescriptor, hcounts⟩, htruncates⟩
    case isFalse =>
      split
      case isTrue hop =>
        rw [of_methodInvoke hop] at h
        obtain ⟨member, hmember, h⟩ := Except.bind_eq_ok_iff.1 h
        obtain ⟨counts, hcounts, htruncates⟩ := truncates_call h
        rw [apply_ite UInt16.toNat] at hcounts
        exact ⟨counts, Except.bind_eq_ok_iff.2 ⟨member, hmember, hcounts⟩, htruncates⟩
      case isFalse =>
        exact ⟨effect.counts, Except.bind_eq_ok_iff.2 ⟨effect, h, rfl⟩, truncates_counts effect⟩

theorem toNat_fieldSlots_le {index slots : UInt16} (h : fieldSlots pool index = .ok slots) :
    slots.toNat ≤ 2 := by
  obtain ⟨member, -, h⟩ := Except.bind_eq_ok_iff.1 h
  obtain ⟨type, -, h⟩ := Except.bind_eq_ok_iff.1 h
  cases h
  rw [FieldType.toNat_slots]
  exact type.width_le

/-- Only a call can take more than 16 bits can hold. -/
theorem pops_lt_of_countsOf {counts : SlotCounts} (h : countsOf pool i = .ok counts)
    (hdynamic : i.opcode ≠ Opcode.invokeDynamic) (hmethod : i.opcode.isMethodInvoke = false) :
    counts.pops < 65536 := by
  unfold countsOf at h
  dsimp only at h
  rw [if_neg hdynamic, hmethod, if_neg Bool.false_ne_true] at h
  split at h
  case isTrue =>
    obtain ⟨slots, hslots, h⟩ := Except.bind_eq_ok_iff.1 h
    cases h
    have hle := toNat_fieldSlots_le hslots
    dsimp only
    omega
  case isFalse =>
    obtain ⟨effect, -, h⟩ := Except.bind_eq_ok_iff.1 h
    cases h
    exact effect.pops.toNat_lt

end Opcodes

end StackEffect

namespace StackDepth

/-- The depth behind a visited instruction, as a number. -/
def Visit.depthAfter (visit : Visit) (counts : SlotCounts) : Int :=
  visit.before.toNat - counts.pops + counts.pushes

theorem Visit.fitsExactly_after {visit : Visit} {counts : SlotCounts}
    (hpops : visit.effect.pops ≤ visit.before) (h : visit.effect.Truncates counts) :
    FitsExactly visit.after (visit.depthAfter counts) := by
  have hafter := visit.toNat_after hpops
  have htaken := h.pops
  have hle := UInt16.le_iff_toNat_le.1 hpops
  rw [StackEffect.apply, h.pushes] at hafter
  unfold Visit.depthAfter
  exact fitsExactly_of_emod (by omega)

/-- What a search counts at a visit is exact where it fits in 16 bits. -/
structure Visit.Counted (pool : Pool) (code : List Located) (deepest : UInt16) (visit : Visit)
    (located : Located) (counts : SlotCounts) : Prop where
  located_eq : code[visit.position]? = some located
  counts_eq : StackEffect.countsOf pool located.instruction = .ok counts
  pops : FitsExactly visit.effect.pops counts.pops
  pushes : visit.effect.pushes.toNat = counts.pushes
  /-- Only a call can take more than fits. -/
  fits : located.instruction.opcode ≠ Opcode.invokeDynamic →
    located.instruction.opcode.isMethodInvoke = false → counts.pops < 65536
  after : FitsExactly visit.after (visit.depthAfter counts)
  bound : visit.effect.pops ≤ visit.before ∧ visit.before ≤ deepest ∧ visit.after ≤ deepest

/-- Slots are counted exactly where they fit in 16 bits, and modulo 65536 where they do not: those
of the arguments of a method, and, in a search for the stack limit that ends well, those that each
instruction takes and puts and those behind it. -/
theorem slots_exact_iff_fit (text : String) (bytes : List UInt8) (pool : Pool)
    (handlers : List Handler) (entries : List (Nat × UInt16)) :
    (∀ parameters result, Descriptor.parseMethod text = .ok (parameters, result) →
      ∃ slots, Descriptor.argumentSlots text = .ok slots ∧
        FitsExactly slots (Descriptor.widths parameters)) ∧
    ∀ code deepest, Instruction.decode bytes = .ok code →
      limit pool code handlers entries = .ok deepest →
      code = [] ∧ deepest = 0 ∨
        ∃ first visits last,
          ((Search.blank code).reach 0 0).reachAll (OffsetIndex.ofCode code)
            (seeds handlers entries) = .ok first ∧
          Run pool code first visits last ∧ last.pending = [] ∧
          (∀ position, position ∈ visits.map Visit.position ↔
            Reachable code ((seeds handlers entries).map Prod.fst) position) ∧
          ∀ visit ∈ visits, ∃ located counts, visit.Counted pool code deepest located counts := by
  constructor
  · intro parameters result hparse
    obtain ⟨slots, hslots, hsum⟩ := Descriptor.argumentSlots_of_parseMethod hparse
    exact ⟨slots, hslots, fitsExactly_of_mod hsum⟩
  · intro code deepest hdecode hlimit
    by_cases hne : code = []
    · subst hne
      exact .inl ⟨rfl, (Except.ok.inj hlimit).symm⟩
    · have hcode : (code.map Located.offset).Nodup :=
        (Instruction.decode_eq_ok hdecode).row.nodup_start fun located _ => located.size_pos
      obtain ⟨first, visits, last, hfirst, hrun, hpending, hlast, -, hbound⟩ :=
        exists_run_of_limit hcode hne hlimit
      refine .inr ⟨first, visits, last, hfirst, hrun, hpending, fun position => ?_,
        fun visit hvisit => ?_⟩
      · rw [← hlast.mem_done_iff hpending, List.map_reverse, List.mem_reverse]
      · obtain ⟨-, located, hlocated, heffect, hpops⟩ :=
          hlast.visited visit (List.mem_reverse.2 hvisit)
        obtain ⟨counts, hcounts, htruncates⟩ := StackEffect.truncates_of heffect
        refine ⟨located, counts, hlocated, hcounts, fitsExactly_of_mod htruncates.pops,
          htruncates.pushes, StackEffect.pops_lt_of_countsOf hcounts,
          visit.fitsExactly_after hpops htruncates, hpops, ?_, ?_⟩
        · exact UInt16.le_iff_toNat_le.2 (hbound (.inr ⟨visit, hvisit, .inl rfl⟩))
        · exact UInt16.le_iff_toNat_le.2 (hbound (.inr ⟨visit, hvisit, .inr rfl⟩))

end StackDepth

namespace Descriptor

/-- The descriptor of a method with nothing but arguments of two slots. -/
def longs (n : Nat) : String := String.ofList ('(' :: (List.replicate n 'J' ++ [')', 'V']))

theorem parametersOnto_longs (n fuel : Nat) (done : List FieldType) :
    parametersOnto (n + fuel) done (List.replicate n 'J' ++ [')', 'V'])
      = some (done.reverse ++ List.replicate n .long, ['V']) := by
  induction n generalizing done with
  | zero => cases fuel <;> simp [parametersOnto]
  | succ n ih =>
    have hfield (rest : List Char) : field ('J' :: rest) = some (.long, rest) := by
      simp [field, element]
    rw [List.replicate_succ, List.cons_append, Nat.add_right_comm, parametersOnto, hfield]
    · dsimp only
      rw [ih, List.reverse_cons, List.append_assoc, List.singleton_append, List.replicate_succ]
    · exact fun _ heq => nomatch heq

theorem parseMethod_longs (n : Nat) :
    parseMethod (longs n) = .ok (List.replicate n .long, none) := by
  have hall := parametersOnto_longs n 2 []
  rw [List.reverse_nil, List.nil_append] at hall
  unfold parseMethod longs
  simp only [String.toList_ofList]
  rw [List.length_append, List.length_replicate, List.length_cons, List.length_singleton, hall]
  rfl

@[simp] theorem widths_replicate_long (n : Nat) : widths (List.replicate n .long) = n * 2 := by
  simp [widths, FieldType.width]

end Descriptor

namespace StackDepth

def callPool : Pool := ((Pool.addMember .method ⟨"a/B", "f", "(J)V"⟩).run .empty).2

/-- A call with one argument of two slots. -/
def callCode : List Located :=
  [⟨0, .plain 0x09 []⟩, ⟨1, .plain 0xb8 [0, 6]⟩, ⟨4, .plain 0xb1 []⟩]

/-- 32767 arguments of two slots fit, one more is counted as none at all, and a search goes over
the call. -/
theorem slots_exact_iff_fit_longs :
    (∃ slots, Descriptor.argumentSlots (Descriptor.longs 32767) = .ok slots ∧
      slots.toNat = 65534) ∧
    (∃ slots, Descriptor.argumentSlots (Descriptor.longs 32768) = .ok slots ∧
      slots.toNat = 0) ∧
    limit callPool callCode [] [] = .ok 2 ∧
    ∃ first visits last, Run callPool callCode first visits last ∧ last.pending = [] ∧
      ∀ visit ∈ visits, ∃ located counts, visit.Counted callPool callCode 2 located counts := by
  have hdecode : Instruction.decode [0x09, 0xb8, 0, 6, 0xb1] = .ok callCode := by decide +kernel
  have hlimit : limit callPool callCode [] [] = .ok 2 := by decide +kernel
  obtain ⟨hcount, hsearch⟩ :=
    slots_exact_iff_fit (Descriptor.longs 32767) [0x09, 0xb8, 0, 6, 0xb1] callPool [] []
  obtain ⟨few, hfew, hfits⟩ := hcount _ _ (Descriptor.parseMethod_longs 32767)
  obtain ⟨many, hmany, hwraps⟩ :=
    Descriptor.argumentSlots_of_parseMethod (Descriptor.parseMethod_longs 32768)
  rw [Descriptor.widths_replicate_long] at hfits hwraps
  refine ⟨⟨few, hfew, ?_⟩, ⟨many, hmany, hwraps⟩, hlimit, ?_⟩
  · exact Int.ofNat_inj.1 (hfits.2 (by decide))
  · obtain ⟨hnil, -⟩ | ⟨first, visits, last, -, hrun, hpending, -, hcounted⟩ :=
      hsearch _ _ hdecode hlimit
    · cases hnil
    · exact ⟨first, visits, last, hrun, hpending, hcounted⟩

end StackDepth

end Embargo
