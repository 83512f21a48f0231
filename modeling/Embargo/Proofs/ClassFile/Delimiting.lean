import Embargo.Proofs.Bytes.Delimiting
import Embargo.Proofs.ClassFile.Verbatim

/-!
Class files and method bodies tell where they end. A file that is cut short anywhere ends too
early, wherever in the nesting of its parts the cut lies, and a file with something behind it
has trailing bytes.
-/
namespace Embargo
open Reader

theorem Constant.delimits_pair (make : UInt16 → UInt16 → Constant) : Delimits (pair make) :=
  delimits_u16.bind fun _ => delimits_u16.map

theorem Constant.delimits_read (index : UInt16) : Delimits (read index) := by
  refine delimits_u8.bind fun tag => ?_
  split
  · exact delimits_u16.bind fun length => (delimits_bytes _).map
  · exact delimits_i32.map
  · exact delimits_u32.map
  · exact delimits_u64.map
  · exact delimits_u64.map
  · exact delimits_u16.map
  · exact delimits_u16.map
  · exact delimits_pair _
  · exact delimits_pair _
  · exact delimits_pair _
  · exact delimits_pair _
  · exact delimits_u8.bind fun kind => delimits_u16.map
  · exact delimits_u16.map
  · exact delimits_pair _
  · exact delimits_pair _
  · exact delimits_u16.map
  · exact delimits_u16.map
  · exact .throw _

/-- One constant, and then those behind it. -/
theorem Pool.readOnto_of_lt {count fuel : Nat} {pool : Pool} (h : pool.slots.size < count) :
    (readOnto count (fuel + 1) pool : Reader Pool) =
      Constant.read pool.count >>= fun constant => readOnto count fuel (pool.push constant) := by
  funext cursor
  refine Eq.trans ?_ (Attempt.run_bind _ _ cursor).symm
  rw [readOnto, if_pos h]
  rcases (Constant.read pool.count).run cursor with ⟨fault | constant, next⟩ <;> rfl

theorem Pool.delimits_readOnto (count fuel : Nat) (pool : Pool) :
    Delimits (readOnto count fuel pool) := by
  induction fuel generalizing pool with
  | zero => exact .pure pool
  | succ fuel ih =>
    by_cases h : pool.slots.size < count
    · rw [readOnto_of_lt h]
      exact (Constant.delimits_read _).bind fun constant => ih (pool.push constant)
    · have hfull : (readOnto count (fuel + 1) pool : Reader Pool) = (pure pool : Reader Pool) := by
        funext cursor
        rw [readOnto, if_neg h]
        rfl
      rw [hfull]
      exact .pure pool

theorem Pool.delimits_read : Delimits read := by
  refine delimits_u16.bind fun count => (delimits_readOnto _ _ _).bind fun pool => ?_
  split
  case isTrue => exact .throw_bind _ _
  case isFalse => exact .pure pool

theorem Attribute.delimits_read : Delimits read :=
  delimits_u16.bind fun _ => delimits_u32.bind fun _ => (delimits_bytes _).map

theorem Attribute.delimits_readList : Delimits readList := delimits_counted delimits_read

theorem Member.delimits_read : Delimits read :=
  delimits_u16.bind fun _ => delimits_u16.bind fun _ => delimits_u16.bind fun _ =>
    Attribute.delimits_readList.map

theorem Member.delimits_readList : Delimits readList := delimits_counted delimits_read

theorem Handler.delimits_read : Delimits read :=
  delimits_u16.bind fun _ => delimits_u16.bind fun _ => delimits_u16.bind fun _ =>
    delimits_u16.map

theorem Body.delimits_read : Delimits read :=
  delimits_u16.bind fun _ => delimits_u16.bind fun _ => delimits_u32.bind fun _ =>
    (delimits_bytes _).bind fun _ => (delimits_counted Handler.delimits_read).bind fun _ =>
      Attribute.delimits_readList.map

theorem ClassFile.delimits_read : Delimits read := by
  refine delimits_u32.bind fun found => ?_
  split
  case isTrue => exact .throw_bind _ _
  case isFalse =>
    exact delimits_u16.bind fun _ => delimits_u16.bind fun _ => Pool.delimits_read.bind fun _ =>
      delimits_u16.bind fun _ => delimits_u16.bind fun _ => delimits_u16.bind fun _ =>
      (delimits_counted delimits_u16).bind fun _ => Member.delimits_readList.bind fun _ =>
      Member.delimits_readList.bind fun _ => Attribute.delimits_readList.map

/-- The name of a class is looked up only where the data is right as data. -/
theorem ClassFile.parse_of_error {data : List UInt8} {fault : Fault}
    (h : Reader.parse read data = .error fault) : parse data = .error fault := by
  rw [parse, h]
  rfl

/-- Data that holds a class or a body holds none where something is missing at its end, and
none where something stands behind it. -/
theorem delimited_of_parse (data : List UInt8) :
    (∀ c, ClassFile.parse data = .ok c → Delimited ClassFile.parse data) ∧
      ∀ body, Body.parse data = .ok body → Delimited Body.parse data := by
  refine ⟨fun c h => ?_, fun body h => Body.delimits_read.delimited h⟩
  obtain ⟨read, hread, -⟩ := Except.bind_eq_ok_iff.1 h
  have hdelimited := ClassFile.delimits_read.delimited hread
  constructor
  case cut =>
    intro front hfront hne
    obtain ⟨stop, hstop, hfront⟩ := hdelimited.cut front hfront hne
    exact ⟨stop, hstop, ClassFile.parse_of_error hfront⟩
  case padded => exact fun more hmore => ClassFile.parse_of_error (hdelimited.padded more hmore)

/-- The payload of an attribute with a body that has a handler and an attribute of its own. -/
def watchedBodyBytes : List UInt8 :=
  [0, 1, 0, 0, 0, 0, 0, 1, 0xb1,
    0, 1, 0, 0, 0, 1, 0, 0, 0, 0,
    0, 1, 0, 7, 0, 0, 0, 2, 0x2a, 0x2b]

def watchedBody : Body := ⟨1, 0, [0xb1], [⟨0, 1, 0, 0⟩], [⟨7, [0x2a, 0x2b]⟩]⟩

theorem delimited_of_parse_watched :
    (∃ stop ≤ 22, ClassFile.parse (trailingWideBytes.take 22) = .error (.unexpectedEnd stop)) ∧
      ClassFile.parse (trailingWideBytes ++ [0, 0]) = .error (.trailingBytes 2) ∧
      (∃ stop ≤ 28, Body.parse (watchedBodyBytes.take 28) = .error (.unexpectedEnd stop)) ∧
      Body.parse (watchedBodyBytes ++ [0x2c]) = .error (.trailingBytes 1) := by
  have hclass := (delimited_of_parse trailingWideBytes).1 trailingWideClass (by decide +kernel)
  have hbody := (delimited_of_parse watchedBodyBytes).2 watchedBody (by decide +kernel)
  exact ⟨hclass.cut (trailingWideBytes.take 22) (List.take_prefix _ _) (by decide),
    hclass.padded [0, 0] (by decide),
    hbody.cut (watchedBodyBytes.take 28) (List.take_prefix _ _) (by decide),
    hbody.padded [0x2c] (by decide)⟩

end Embargo
