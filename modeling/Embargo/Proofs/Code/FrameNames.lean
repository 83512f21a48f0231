import Embargo.Code.FrameTable
import Embargo.Proofs.Bytes.Reading
import Embargo.Proofs.ClassFile.PoolGrowth

/-!
The classes that frames name. Writing a table adds their names to a pool, and reading one
gives names that the pool has or that the locals on entry have.
-/
namespace Embargo
open Reader

namespace ValueType
variable {P : String → Prop}

/-- Every class that the types name has a property. -/
def Names (P : String → Prop) (types : List ValueType) : Prop :=
  ∀ name, object name ∈ types → P name

theorem grows_write {type : ValueType} (h : Names P [type]) : Pool.Grows P type.write := by
  cases type with
  | object name =>
    have hname : P name := h name List.mem_cons_self
    exact (Pool.grows_addClass hname).bind fun _ => .pure _
  | uninitialized offset =>
    change Pool.Grows P (if offset < 65536 then _ else _)
    split
    · exact .pure _
    · exact .throw _
  | _ => exact .pure _

theorem grows_writeList {types : List ValueType} (h : Names P types) :
    Pool.Grows P (writeList types) := by
  unfold writeList
  refine (Pool.Grows.mapM types ?_).bind fun _ => .pure _
  intro type htype
  apply grows_write
  intro name hname
  rw [List.mem_singleton] at hname
  exact h name (hname ▸ htype)

end ValueType

/-- Every class that a frame names has a property. -/
def Frame.Names (P : String → Prop) (frame : Frame) : Prop :=
  ValueType.Names P frame.locals ∧ ValueType.Names P frame.stack

namespace FrameTable
variable {P : String → Prop} {before : List ValueType} {gap : Nat} {frame : Frame}

theorem grows_writeFull (h : frame.Names P) : Pool.Grows P (writeFull gap frame) := by
  unfold writeFull
  apply Pool.Grows.bind (.ofExcept _)
  intro localCount
  apply Pool.Grows.bind (ValueType.grows_writeList h.1)
  intro locals
  apply Pool.Grows.bind (.ofExcept _)
  intro stackCount
  apply Pool.Grows.bind (ValueType.grows_writeList h.2)
  intro stack
  exact .pure _

theorem grows_writeEntry (h : frame.Names P) : Pool.Grows P (writeEntry before gap frame) := by
  have hfull : Pool.Grows P (writeFull gap frame) := grows_writeFull h
  obtain ⟨hlocals, hstack⟩ := h
  unfold writeEntry
  dsimp only
  split
  case h_1 =>
    split
    case isTrue => exact .pure _
    case isFalse =>
      split
      case isTrue => exact .pure _
      case isFalse =>
        split
        case isTrue =>
          have hadded : ValueType.Names P (frame.locals.drop before.length) :=
            fun name hname => hlocals name (List.mem_of_mem_drop hname)
          exact (ValueType.grows_writeList hadded).bind fun _ => .pure _
        case isFalse => exact hfull
  case h_2 item hitem =>
    rw [hitem] at hstack
    split
    case isTrue => exact (ValueType.grows_write hstack).bind fun _ => .pure _
    case isFalse => exact hfull
  case h_3 => exact hfull

theorem grows_writeOnto {frames : List Frame}
    (h : ∀ frame ∈ frames, frame.Names P)
    (previous : Option Nat) (before : List ValueType) (done : List (List UInt8)) :
    Pool.Grows P (writeOnto previous before frames done) := by
  induction frames generalizing previous before done with
  | nil => exact .pure _
  | cons frame frames ih =>
    obtain ⟨hhead, hrest⟩ := List.forall_mem_cons.1 h
    intro pool
    change Pool.Growth P pool (writeOnto previous before (frame :: frames) done pool).2
    unfold writeOnto
    split
    case h_1 => exact .refl pool
    case h_2 gap _ =>
      split
      case isTrue => exact .refl pool
      case isFalse =>
        have hgrows : Pool.Grows P (writeEntry before gap frame) := grows_writeEntry hhead
        have hentry := hgrows pool
        split
        case h_1 bytes middle hrun =>
          rw [hrun] at hentry
          exact hentry.trans (ih hrest _ _ _ middle)
        case h_2 fault middle hrun =>
          rw [hrun] at hentry
          exact hentry

theorem grows_encode {initial : List ValueType} {frames : List Frame}
    (h : ∀ frame ∈ frames, frame.Names P) :
    Pool.Grows P (encode initial frames) := by
  unfold encode
  apply Pool.Grows.bind (.ofExcept _)
  intro count
  apply Pool.Grows.bind (grows_writeOnto h none initial [])
  intro parts
  exact .pure _

end FrameTable

section Names
variable {P : String → Prop} {pool : Pool} {before : List ValueType}
  (hclass : ∀ index name, pool.className index = .ok name → P name)

namespace ValueType

theorem names_of_forall {types : List ValueType} (h : ∀ type ∈ types, Names P [type]) :
    Names P types :=
  fun name hname => h _ hname name List.mem_cons_self

theorem names_append {types more : List ValueType} (h : Names P types) (hmore : Names P more) :
    Names P (types ++ more) := by
  intro name hname
  rcases List.mem_append.1 hname with hname | hname
  · exact h name hname
  · exact hmore name hname

theorem names_nil : Names P [] := fun _ hname => absurd hname List.not_mem_nil

include hclass

theorem yields_read : Yields (read pool) fun type => Names P [type] := by
  have other {type : ValueType} (h : ∀ name, type ≠ object name) : Names P [type] :=
    fun name hname => absurd (List.mem_singleton.1 hname).symm (h name)
  unfold read
  apply Yields.behind
  intro tag
  split
  case h_8 =>
    apply Yields.behind
    intro index
    refine (Yields.ofExcept fun name => hclass index name).bind fun name hname => .pure ?_
    intro other hother
    cases List.mem_singleton.1 hother
    exact hname
  case h_9 => exact .behind fun _ => .pure (other nofun)
  case h_10 => exact .throw _
  all_goals exact .pure (other nofun)

end ValueType

namespace FrameTable
include hclass

theorem yields_readEntry (hbefore : ValueType.Names P before) (index : Nat) :
    Yields (readEntry pool index before) fun entry =>
      ValueType.Names P entry.locals ∧ ValueType.Names P entry.stack := by
  have htype := ValueType.yields_read hclass
  apply Yields.behind
  intro kind
  unfold readKind
  split
  · exact .pure ⟨hbefore, ValueType.names_nil⟩
  · split
    · exact htype.bind fun _ htype => .pure ⟨hbefore, htype⟩
    · split
      · exact .throw _
      · split
        · exact .behind fun _ => htype.bind fun _ htype => .pure ⟨hbefore, htype⟩
        · split
          · apply Yields.behind
            intro gap
            dsimp only
            split
            · exact .throw_bind _ _
            · refine .pure ⟨fun name hname => ?_, ValueType.names_nil⟩
              exact hbefore name (List.mem_of_mem_take hname)
          · split
            · exact .behind fun _ => .pure ⟨hbefore, ValueType.names_nil⟩
            · split
              · apply Yields.behind
                intro gap
                refine (yields_many htype _).bind fun added hadded =>
                  .pure ⟨?_, ValueType.names_nil⟩
                exact ValueType.names_append hbefore (ValueType.names_of_forall hadded)
              · apply Yields.behind
                intro gap
                refine (yields_counted htype).bind fun locals hlocals => ?_
                refine (yields_counted htype).bind fun stack hstack => .pure ?_
                exact ⟨ValueType.names_of_forall hlocals, ValueType.names_of_forall hstack⟩

theorem yields_readOnto (hbefore : ValueType.Names P before) (n index : Nat)
    (previous : Option Nat) {done : List Frame} (hdone : ∀ frame ∈ done, frame.Names P) :
    Yields (readOnto pool index previous before n done) fun frames =>
      ∀ frame ∈ frames, frame.Names P := by
  induction n generalizing index previous before done with
  | zero =>
    intro cursor frames next hrun
    cases hrun
    intro frame hframe
    exact hdone frame (List.mem_reverse.1 hframe)
  | succ n ih =>
    intro cursor frames last hrun
    change readOnto pool index previous before (n + 1) done cursor = _ at hrun
    rw [readOnto] at hrun
    split at hrun
    case h_2 => cases hrun
    case h_1 entry middle hentry =>
      obtain ⟨hlocals, hstack⟩ := yields_readEntry hclass hbefore index _ _ _ hentry
      exact ih hlocals _ _ (List.forall_mem_cons.2 ⟨⟨hlocals, hstack⟩, hdone⟩) _ _ _ hrun

/-- The frames of a table name classes of the pool, and those of the locals on entry. -/
theorem names_of_decode {initial : List ValueType} {data : List UInt8} {frames : List Frame}
    (hinitial : ValueType.Names P initial) (h : decode pool initial data = .ok frames) :
    ∀ frame ∈ frames, frame.Names P := by
  have hread : Yields (read pool initial) fun frames => ∀ frame ∈ frames, frame.Names P :=
    .behind fun count => yields_readOnto hclass hinitial count.toNat 0 none
      fun _ hframe => absurd hframe List.not_mem_nil
  exact hread.of_parse h

end FrameTable

end Names

end Embargo
