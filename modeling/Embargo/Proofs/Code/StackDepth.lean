import Embargo.Code.StackDepth
import Embargo.Proofs.Attempt

/-!
The search for the stack limit. It ends well only if every handler is the start of an
instruction.
-/
namespace Embargo

theorem OffsetIndex.find_eq_ok {code : List Located} {offset position : Nat}
    (h : (ofCode code).find offset = .ok position) :
    ∃ located ∈ code, located.offset = offset := by
  by_contra habsent
  have hnone : (ofCode code)[offset]? = none := by
    refine Std.TreeMap.getElem?_ofList_of_contains_eq_false ?_
    rw [← Bool.not_eq_true, List.contains_iff_mem, List.map_map]
    intro hmem
    obtain ⟨⟨located, position⟩, hpair, rfl⟩ := List.mem_map.1 hmem
    exact habsent ⟨located, List.fst_mem_of_mem_zipIdx hpair, rfl⟩
  rw [find, hnone] at h
  cases h

namespace StackDepth
variable {index : OffsetIndex} {search found : Search} {entries : List (Nat × UInt16)}

theorem Search.find_of_reachAll (h : search.reachAll index entries = .ok found) :
    ∀ entry ∈ entries, ∃ position, index.find entry.1 = .ok position := by
  induction entries generalizing search with
  | nil => exact fun _ hentry => absurd hentry List.not_mem_nil
  | cons entry entries ih =>
    obtain ⟨position, hfind, hrest⟩ := Except.bind_eq_ok_iff.1 h
    exact List.forall_mem_cons.2 ⟨⟨position, hfind⟩, ih hrest⟩

section Limit
variable {pool : Pool} {code : List Located} {handlers : List Handler} {depth : UInt16}
  (hcode : code ≠ []) (h : limit pool code handlers entries = .ok depth)
include hcode h

/-- Every place where the search starts is an instruction of the code. -/
theorem exists_start_of_limit :
    ∀ entry ∈ (handlers.map fun handler => (handler.handlerPc.toNat, 1)) ++ entries,
      ∃ located ∈ code, located.offset = entry.1 := by
  intro entry hentry
  rw [limit, if_neg (by simpa using hcode)] at h
  obtain ⟨search, hsearch, -⟩ := Except.bind_eq_ok_iff.1 h
  obtain ⟨position, hfind⟩ := Search.find_of_reachAll hsearch entry hentry
  exact OffsetIndex.find_eq_ok hfind

/-- Handlers start at instructions of the code. -/
theorem exists_handler_of_limit :
    ∀ handler ∈ handlers, ∃ located ∈ code, located.offset = handler.handlerPc.toNat :=
  fun _ hhandler => exists_start_of_limit hcode h _
    (List.mem_append_left _ (List.mem_map_of_mem hhandler))

/-- Further entries are instructions of the code. -/
theorem exists_entry_of_limit :
    ∀ entry ∈ entries, ∃ located ∈ code, located.offset = entry.1 :=
  fun entry hentry => exists_start_of_limit hcode h entry (List.mem_append_right _ hentry)

end Limit

end StackDepth

end Embargo
