import Embargo.Proofs.ClassFile.Parsed
import Mathlib.Order.Bounds.Basic

/-!
Additions to a pool. Whatever is asked for is found again where it was put, also by asking once
more, and an addition is refused only where the pool has no room for what it lacks.
-/
namespace Embargo.Pool
open Text

section Places
variable {pool old new : Pool} {constant : Constant} {cs : List Constant} {place : Nat}

theorem find?_eq (pool : Pool) (constant : Constant) :
    pool.find? constant = pool.slots.toList.findIdx? (isHeld constant) := by
  rw [find?, ← List.findIdx?_toArray]

theorem find?_eq_none_iff : pool.find? constant = none ↔ some constant ∉ pool.slots.toList := by
  rw [find?_eq, List.findIdx?_eq_none_iff]
  simp only [Bool.eq_false_iff, ne_eq, isHeld_iff]
  exact ⟨fun h hmem => h _ hmem rfl, fun h slot hslot heq => h (heq ▸ hslot)⟩

/-- A constant keeps its first place while the pool grows. -/
theorem find?_of_prefix (h : old.slots.toList <+: new.slots.toList)
    (hfind : old.find? constant = some place) : new.find? constant = some place := by
  rw [find?_eq] at hfind ⊢
  obtain ⟨more, hmore⟩ := h
  rw [← hmore, List.findIdx?_append, hfind]
  rfl

theorem find?_push (h : pool.find? constant = none) :
    (pool.push constant).find? constant = some pool.slots.size := by
  rw [find?_eq] at h ⊢
  have hheld : isHeld constant (some constant) = true := isHeld_iff.2 rfl
  rw [toList_push, List.findIdx?_append, h]
  unfold Constant.slots
  split <;> simp [List.findIdx?_cons, hheld]

theorem prefix_foldl_push (cs : List Constant) (pool : Pool) :
    pool.slots.toList <+: (cs.foldl push pool).slots.toList := by
  rw [toList_foldl_push]
  exact List.prefix_append _ _

theorem mem_foldl_push : some constant ∈ (cs.foldl push pool).slots.toList ↔
    some constant ∈ pool.slots.toList ∨ constant ∈ cs := by
  have hslots (c : Constant) : some constant ∈ c.slots ↔ constant = c := by
    unfold Constant.slots
    split <;> simp
  rw [toList_foldl_push, List.mem_append, List.mem_flatMap]
  simp [hslots]

theorem WellFormed.foldl_push (h : pool.WellFormed)
    (hfits : (cs.foldl Pool.push pool).slots.size ≤ capacity) :
    (cs.foldl Pool.push pool).WellFormed := by
  obtain ⟨constants, hlist⟩ := h.exists_constants
  refine ⟨hfits, constants ++ cs, ?_⟩
  rw [toList_foldl_push, hlist, List.flatMap_append, List.cons_append]

/-- Constants with a property that the pool lacks, each of them once. -/
def Missing (pool : Pool) (P : Constant → Prop) (cs : List Constant) : Prop :=
  cs.Nodup ∧ ∀ c ∈ cs, some c ∉ pool.slots.toList ∧ P c

namespace Missing
variable {P Q : Constant → Prop} {ds : List Constant}

protected theorem nil : Missing pool P [] :=
  ⟨List.nodup_nil, fun _ h => absurd h List.not_mem_nil⟩

protected theorem singleton (hfind : pool.find? constant = none) (h : P constant) :
    Missing pool P [constant] := by
  refine ⟨by simp, fun c hc => ?_⟩
  rw [List.mem_singleton.1 hc]
  exact ⟨find?_eq_none_iff.1 hfind, h⟩

theorem mono (h : Missing pool P cs) (hPQ : ∀ c, P c → Q c) : Missing pool Q cs :=
  ⟨h.1, fun c hc => ⟨(h.2 c hc).1, hPQ c (h.2 c hc).2⟩⟩

/-- What is missing, and behind it what is missing still once that was added. -/
theorem append (h : Missing pool P cs) (h' : Missing (cs.foldl push pool) P ds) :
    Missing pool P (cs ++ ds) := by
  have habsent (d : Constant) (hd : d ∈ ds) : some d ∉ pool.slots.toList ∧ d ∉ cs :=
    not_or.1 (mt mem_foldl_push.2 (h'.2 d hd).1)
  refine ⟨List.nodup_append.2 ⟨h.1, h'.1, fun c hc d hd heq => ?_⟩, fun c hc => ?_⟩
  · exact (habsent d hd).2 (heq ▸ hc)
  · rcases List.mem_append.1 hc with hc | hc
    · exact h.2 c hc
    · exact ⟨(habsent c hc).1, (h'.2 c hc).2⟩

end Missing

end Places

section Indices
variable {pool : Pool} {constant : Constant} {cs : List Constant} {k : Nat}

/-- An index of a pool is zero, or a constant fills it. -/
def HasIndex (pool : Pool) (k : Nat) : Prop :=
  k = 0 ∨ ∃ index constant, pool.get index = .ok constant ∧
    index.toNat ≤ k ∧ k < index.toNat + constant.width

theorem getElem?_slots {i : Nat} {c : Constant} (h : c.slots[i]? = some (some constant)) :
    i = 0 ∧ c = constant := by
  unfold Constant.slots at h
  split at h
  · rcases i with _ | _ | i <;> simp_all
  · rcases i with _ | i <;> simp_all

/-- A constant fills its slots to the end. -/
theorem add_width_le_length {i : Nat}
    (h : (cs.flatMap Constant.slots)[i]? = some (some constant)) :
    i + constant.width ≤ (cs.flatMap Constant.slots).length := by
  induction cs generalizing i with
  | nil => simp at h
  | cons c cs ih =>
    rw [List.flatMap_cons] at h ⊢
    rw [List.length_append, c.length_slots]
    rcases Nat.lt_or_ge i c.slots.length with hlt | hge
    · rw [List.getElem?_append_left hlt] at h
      obtain ⟨rfl, rfl⟩ := getElem?_slots h
      omega
    · rw [List.getElem?_append_right hge] at h
      have hrest := ih h
      rw [c.length_slots] at hrest hge
      omega

theorem exists_slots_of_lt (cs : List Constant) (h : k < (cs.flatMap Constant.slots).length) :
    ∃ i constant, (cs.flatMap Constant.slots)[i]? = some (some constant) ∧
      i ≤ k ∧ k < i + constant.width := by
  induction cs generalizing k with
  | nil => simp at h
  | cons c cs ih =>
    rw [List.flatMap_cons] at h ⊢
    rw [List.length_append] at h
    rcases Nat.lt_or_ge k c.slots.length with hlt | hge
    · refine ⟨0, c, ?_, Nat.zero_le _, by rw [Nat.zero_add, ← c.length_slots]; exact hlt⟩
      unfold Constant.slots
      split <;> rfl
    · obtain ⟨i, constant, hget, hle, hlt⟩ := ih (k := k - c.slots.length) (by omega)
      refine ⟨c.slots.length + i, constant, ?_, by omega, by omega⟩
      rw [List.getElem?_append_right (by omega), Nat.add_sub_cancel_left, hget]

theorem WellFormed.hasIndex_iff (h : pool.WellFormed) : pool.HasIndex k ↔ k < pool.slots.size := by
  have hle : pool.slots.size ≤ 65535 := h.size_le
  obtain ⟨constants, hlist⟩ := h.exists_constants
  have hsize : pool.slots.size = (constants.flatMap Constant.slots).length + 1 := by
    rw [← Array.length_toList, hlist, List.length_cons]
  constructor
  · rintro (rfl | ⟨index, constant, hget, -, hlt⟩)
    · omega
    · rw [get_eq_ok_iff, hlist] at hget
      rcases hi : index.toNat with _ | i
      · simp [hi] at hget
      · rw [hi, List.getElem?_cons_succ] at hget
        have := add_width_le_length hget
        omega
  · intro hk
    rcases k with _ | k
    · exact .inl rfl
    · have hlt : k < (constants.flatMap Constant.slots).length := by omega
      obtain ⟨i, constant, hget, hle, hlt⟩ := exists_slots_of_lt constants hlt
      have hindex : (UInt16.ofNat (i + 1)).toNat = i + 1 :=
        UInt16.toNat_ofNat_of_lt (show i + 1 < 65536 by omega)
      refine .inr ⟨UInt16.ofNat (i + 1), constant, ?_, by omega, by omega⟩
      rw [get_eq_ok_iff, hindex, hlist, List.getElem?_cons_succ, hget]

/-- The count of a pool is one more than its highest index. -/
theorem WellFormed.count_eq (h : pool.WellFormed) : pool.count.toNat ≤ capacity ∧
    ∃ highest, IsGreatest {k | pool.HasIndex k} highest ∧ pool.count.toNat = highest + 1 := by
  have hle : pool.slots.size ≤ 65535 := h.size_le
  have hcount : pool.count.toNat = pool.slots.size :=
    UInt16.toNat_ofNat_of_lt (show pool.slots.size < 65536 by omega)
  have hpos : 0 < pool.slots.size := h.hasIndex_iff.1 (.inl rfl)
  rw [hcount]
  refine ⟨h.size_le, pool.slots.size - 1, ⟨h.hasIndex_iff.2 (by omega), fun k hk => ?_⟩, by omega⟩
  exact Nat.le_sub_one_of_lt (h.hasIndex_iff.1 hk)

end Indices

/-- What a pool is asked for: one constant, or a part first and then the constants that refer to
its index. -/
inductive Request where
  | leaf (constant : Constant)
  | behind (part : Request) (rest : UInt16 → Request)

namespace Request

def add : Request → PoolStep UInt16
  | leaf constant => intern constant
  | behind part rest => part.add >>= fun i => (rest i).add

/-- The last constant of a request has its first place at an index, and it refers to the first
places of the parts. -/
def IsAt (pool : Pool) : Request → UInt16 → Prop
  | leaf constant, index => pool.find? constant = some index.toNat
  | behind part rest, index => ∃ i, part.IsAt pool i ∧ (rest i).IsAt pool index

/-- A constant belongs to a request, as far as the parts in front of it have their places. -/
def Needs (pool : Pool) : Request → Constant → Prop
  | leaf constant, c => c = constant
  | behind part rest, c => part.Needs pool c ∨ ∃ i, part.IsAt pool i ∧ (rest i).Needs pool c

section Prefix
variable {old new : Pool} (h : old.slots.toList <+: new.slots.toList)
include h

theorem IsAt.of_prefix {r : Request} {index : UInt16} (hat : r.IsAt old index) :
    r.IsAt new index := by
  induction r generalizing index with
  | leaf constant => exact find?_of_prefix h hat
  | behind part rest ihPart ihRest =>
    obtain ⟨i, hi, hrest⟩ := hat
    exact ⟨i, ihPart hi, ihRest i hrest⟩

theorem Needs.of_prefix {r : Request} {c : Constant} (hneeds : r.Needs old c) :
    r.Needs new c := by
  induction r with
  | leaf constant => exact hneeds
  | behind part rest ihPart ihRest =>
    rcases hneeds with hpart | ⟨i, hi, hrest⟩
    · exact .inl (ihPart hpart)
    · exact .inr ⟨i, hi.of_prefix h, ihRest i hrest⟩

end Prefix

/-- Asking for what is there already changes nothing. -/
theorem add_of_isAt {r : Request} {pool : Pool} {index : UInt16} (h : r.IsAt pool index) :
    r.add.run pool = (.ok index, pool) := by
  induction r generalizing index with
  | leaf constant =>
    change intern constant pool = _
    rw [intern, show pool.find? constant = some index.toNat from h]
    simp
  | behind part rest ihPart ihRest =>
    obtain ⟨i, hi, hrest⟩ := h
    exact Attempt.run_bind_eq_ok_iff.2 ⟨i, pool, ihPart hi, ihRest i hrest⟩

/-- How a request can end: it is met, or refused because there is no room for the last constant
that it lacks. -/
inductive Ends (r : Request) (pool : Pool) : Except Fault UInt16 → Pool → Prop
  | met (cs : List Constant) {index : UInt16}
      (fits : (cs.foldl push pool).slots.size ≤ capacity)
      (missing : Missing pool (r.Needs (cs.foldl push pool)) cs)
      (isAt : r.IsAt (cs.foldl push pool) index) : Ends r pool (.ok index) (cs.foldl push pool)
  | refused (cs : List Constant) {last : Constant}
      (fits : (cs.foldl push pool).slots.size ≤ capacity)
      (missing : Missing pool (r.Needs (cs.foldl push pool)) (cs ++ [last]))
      (full : capacity < (cs.foldl push pool).slots.size + last.width) :
      Ends r pool (.error .poolFull) (cs.foldl push pool)

section Ends
variable {pool new : Pool}

/-- However a request ends, it only adds to the pool. -/
theorem Ends.exists_added {r : Request} {result : Except Fault UInt16}
    (h : r.Ends pool result new) : ∃ added : List Constant,
      new = added.foldl push pool ∧ new.slots.size ≤ capacity := by
  cases h with
  | met cs fits _ _ => exact ⟨cs, rfl, fits⟩
  | refused cs fits _ _ => exact ⟨cs, rfl, fits⟩

theorem ends_leaf (hfits : pool.slots.size ≤ capacity) (constant : Constant) :
    (leaf constant).Ends pool (intern constant pool).1 (intern constant pool).2 := by
  have hsize : pool.slots.size < 65536 := Nat.lt_succ_of_le hfits
  unfold intern
  split
  case h_1 place hfind =>
    have hlt := (Array.getElem?_eq_some_iff.1 (find?_eq_some hfind)).1
    have hindex : (UInt16.ofNat place).toNat = place :=
      UInt16.toNat_ofNat_of_lt (show place < 65536 by omega)
    exact .met [] hfits .nil (by rw [IsAt, hindex]; exact hfind)
  case h_2 hfind =>
    split
    case isTrue hroom =>
      have hindex : pool.count.toNat = pool.slots.size := UInt16.toNat_ofNat_of_lt hsize
      refine .met [constant] ?_ (.singleton hfind rfl) ?_
      · rw [List.foldl_cons, List.foldl_nil, size_push]
        exact hroom
      · rw [IsAt, hindex]
        exact find?_push hfind
    case isFalse hroom => exact .refused [] hfits (.singleton hfind rfl) (not_le.1 hroom)

/-- Constants that one part lacks, and then those that the rest lacks. -/
theorem missing_behind {part : Request} {rest : UInt16 → Request} {i : UInt16}
    {cs ds added : List Constant}
    (hpart : Missing pool (part.Needs (cs.foldl push pool)) cs)
    (hat : part.IsAt (cs.foldl push pool) i)
    (hrest : Missing (cs.foldl push pool) ((rest i).Needs ((cs ++ ds).foldl push pool)) added) :
    Missing pool ((behind part rest).Needs ((cs ++ ds).foldl push pool)) (cs ++ added) := by
  have hgrown :
      (cs.foldl push pool).slots.toList <+: ((cs ++ ds).foldl push pool).slots.toList := by
    rw [List.foldl_append]
    exact prefix_foldl_push ds _
  exact (hpart.mono fun c hc => .inl (hc.of_prefix hgrown)).append
    (hrest.mono fun c hc => .inr ⟨i, hat.of_prefix hgrown, hc⟩)

/-- Every addition ends in one of the two ways. -/
theorem ends_add (r : Request) (hfits : pool.slots.size ≤ capacity) :
    r.Ends pool (r.add.run pool).1 (r.add.run pool).2 := by
  induction r generalizing pool with
  | leaf constant => exact ends_leaf hfits constant
  | behind part rest ihPart ihRest =>
    have hpart := ihPart hfits
    rw [add, Attempt.run_bind]
    generalize part.add.run pool = outcome at hpart
    rcases outcome with ⟨result, middle⟩
    cases hpart with
    | refused cs fits missing full => exact .refused cs fits (missing.mono fun c hc => .inl hc) full
    | @met cs i fits missing isAt =>
      -- The rest starts from the pool that its part left, so its constants come behind `cs`.
      have hrest := ihRest i fits
      dsimp only at hrest ⊢
      generalize (rest i).add.run (cs.foldl push pool) = outcome at hrest
      rcases outcome with ⟨result, new⟩
      cases hrest with
      | @met ds index fitsRest missingRest isAtRest =>
        have hat := isAt.of_prefix (prefix_foldl_push ds _)
        rw [← List.foldl_append] at fitsRest missingRest isAtRest hat ⊢
        exact .met _ fitsRest (missing_behind missing isAt missingRest) ⟨i, hat, isAtRest⟩
      | @refused ds last fitsRest missingRest full =>
        rw [← List.foldl_append] at fitsRest missingRest full ⊢
        have hall := missing_behind missing isAt missingRest
        rw [← List.append_assoc] at hall
        exact .refused _ fitsRest hall full

end Ends

end Request

/-- The ways to add to a pool. -/
inductive Addition where
  | utf8 (text : String)
  | classRef (name : String)
  | string (text : String)
  | nameAndType (name descriptor : String)
  | member (kind : MemberKind) (ref : MemberRef)

namespace Addition

def run : Addition → PoolStep UInt16
  | utf8 text => addUtf8 text
  | classRef name => addClass name
  | string text => addString text
  | nameAndType name descriptor => addNameAndType name descriptor
  | member kind ref => addMember kind ref

section Request
open Request

def textRequest (text : String) : Request := leaf (.utf8 (ModifiedUtf8.encode text))

def classRequest (name : String) : Request :=
  behind (textRequest name) fun i => leaf (.classRef i)

def pairRequest (name descriptor : String) : Request :=
  behind (textRequest name) fun i => behind (textRequest descriptor) fun j =>
    leaf (.nameAndType i j)

def request : Addition → Request
  | utf8 text => textRequest text
  | classRef name => classRequest name
  | string text => behind (textRequest text) fun i => leaf (.string i)
  | nameAndType name descriptor => pairRequest name descriptor
  | member kind ref => behind (classRequest ref.owner) fun i =>
      behind (pairRequest ref.name ref.descriptor) fun j => leaf (.member kind i j)

theorem run_eq (addition : Addition) : addition.run = addition.request.add := by
  cases addition <;> rfl

end Request

/-- Looking an index up gives back what was asked for. -/
def FoundAt (pool : Pool) (index : UInt16) : Addition → Prop
  | utf8 text => pool.utf8 index = .ok text
  | classRef name => pool.className index = .ok name
  | string text => ∃ i, pool.get index = .ok (.string i) ∧ pool.utf8 i = .ok text
  | nameAndType name descriptor => pool.nameAndType index = .ok (name, descriptor)
  | member kind ref => (∃ i j, pool.get index = .ok (.member kind i j)) ∧
      pool.member index = .ok ref

theorem foundAt_run {pool new : Pool} {addition : Addition} {index : UInt16}
    (hpool : pool.WellFormed) (h : addition.run.run pool = (.ok index, new)) :
    addition.FoundAt new index := by
  cases addition with
  | utf8 text => exact utf8_addUtf8 hpool h
  | classRef name => exact className_addClass hpool h
  | string text => exact string_addString hpool h
  | nameAndType name descriptor => exact nameAndType_addNameAndType hpool h
  | member kind ref => exact ⟨get_addMember hpool h, member_addMember hpool h⟩

/-- What can be relied on when an addition turned one pool into another. -/
structure Sound (addition : Addition) (pool new : Pool) (result : Except Fault UInt16) : Prop where
  keeps : ∀ index constant, pool.get index = .ok constant → new.get index = .ok constant
  counted : new.count.toNat ≤ capacity ∧
    ∃ highest, IsGreatest {k | new.HasIndex k} highest ∧ new.count.toNat = highest + 1
  found : ∀ index, result = .ok index → addition.FoundAt new index
  again : ∀ index, result = .ok index → addition.run.run new = (.ok index, new)
  refused : ∀ fault, result = .error fault → fault = .poolFull ∧ ∃ added last,
    new = added.foldl push pool ∧ Missing pool (addition.request.Needs new) (added ++ [last]) ∧
    capacity < new.slots.size + last.width

end Addition

/-- The pools that come up: one that is new or was read, and behind it any additions, also
refused ones. -/
inductive Reached : Pool → Prop
  | empty : Reached empty
  | read {cursor after : Cursor} {pool : Pool} (h : Pool.read.run cursor = (.ok pool, after)) :
      Reached pool
  | add {pool : Pool} (h : Reached pool) (addition : Addition) :
      Reached (addition.run.run pool).2

theorem Request.wellFormed_add (r : Request) {pool : Pool} (h : pool.WellFormed) :
    (r.add.run pool).2.WellFormed := by
  obtain ⟨added, hadded, hfits⟩ := (r.ends_add h.size_le).exists_added
  rw [hadded] at hfits ⊢
  exact h.foldl_push hfits

theorem Reached.wellFormed {pool : Pool} (h : Reached pool) : pool.WellFormed := by
  induction h with
  | empty => exact wellFormed_empty
  | read h => exact (yields_read _ _ _ h).1
  | add _ addition ih =>
    rw [addition.run_eq]
    exact addition.request.wellFormed_add ih

/-- An addition to a pool is found again where it was put, moves nothing that was there, is not
made twice, and is refused only where there is no room for what the pool lacks. -/
theorem Addition.sound (addition : Addition) {pool : Pool} (h : Reached pool) :
    addition.Sound pool (addition.run.run pool).2 (addition.run.run pool).1 := by
  have hpool := h.wellFormed
  have hnew := (h.add addition).wellFormed
  have hends := addition.request.ends_add hpool.size_le
  have hfound {new : Pool} {index : UInt16} :
      addition.run.run pool = (.ok index, new) → addition.FoundAt new index := foundAt_run hpool
  rw [← addition.run_eq] at hends
  generalize addition.run.run pool = outcome at *
  rcases outcome with ⟨result, new⟩
  refine ⟨?_, hnew.count_eq, ?_, ?_, ?_⟩
  · intro index constant hget
    obtain ⟨added, rfl, -⟩ := hends.exists_added
    exact get_of_prefix (prefix_foldl_push added pool) hget
  · rintro index rfl
    exact hfound rfl
  · rintro index rfl
    cases hends with
    | met _ _ _ isAt =>
      rw [addition.run_eq]
      exact Request.add_of_isAt isAt
  · rintro fault rfl
    cases hends with
    | @refused cs last fits missing full => exact ⟨rfl, cs, last, rfl, missing, full⟩

/-- A name, a wide constant that takes two slots, and a short name. -/
def shortPoolBytes : List UInt8 :=
  [0, 5, 1, 0, 3, 97, 47, 66, 5, 0, 0, 0, 0, 0, 0, 0, 7, 1, 0, 1, 109]

def shortPool : Pool :=
  ⟨#[none, some (.utf8 [97, 47, 66]), some (.long 7), none, some (.utf8 [109])]⟩

def shortMember : Addition := .member .method ⟨"a/B", "m", "()V"⟩

theorem Addition.sound_shortMember :
    (Pool.read.run (.start shortPoolBytes)).1 = .ok shortPool ∧
      (shortMember.run.run shortPool).1 = .ok 8 ∧
      shortMember.Sound shortPool (shortMember.run.run shortPool).2
        (shortMember.run.run shortPool).1 := by
  have hread : Pool.read.run (.start shortPoolBytes) = (.ok shortPool, ⟨21, []⟩) :=
    Prod.ext (by decide +kernel) (by decide +kernel)
  exact ⟨congrArg Prod.fst hread, by decide +kernel, shortMember.sound (.read hread)⟩

end Embargo.Pool
