import Embargo.Proofs.Code.Instruction

/-!
Instructions whose targets are moved. Nothing but the targets changes.
-/
namespace Embargo.Instruction

/-- The instruction with every target moved. -/
def retarget (move : Nat → Nat) : Instruction → Instruction
  | plain op operands => plain op operands
  | branch op target => branch op (move target)
  | tableSwitch otherwise low high targets =>
    tableSwitch (move otherwise) low high (targets.map move)
  | lookupSwitch otherwise pairs =>
    lookupSwitch (move otherwise) (pairs.map fun (key, target) => (key, move target))

variable {move : Nat → Nat} {i j : Instruction}

@[simp] theorem opcode_retarget : (i.retarget move).opcode = i.opcode := by
  cases i <;> rfl

@[simp] theorem endsFlow_retarget : (i.retarget move).endsFlow = i.endsFlow := by
  simp only [endsFlow, opcode_retarget]

@[simp] theorem poolIndex?_retarget : (i.retarget move).poolIndex? = i.poolIndex? := by
  cases i <;> rfl

@[simp] theorem targets_retarget : (i.retarget move).targets = i.targets.map move := by
  cases i <;> simp [retarget, targets]

@[simp] theorem sizeAt_retarget (offset : Nat) :
    (i.retarget move).sizeAt offset = i.sizeAt offset := by
  cases i <;> simp [retarget, sizeAt]

theorem Shaped.retarget (h : i.Shaped) : (i.retarget move).Shaped := by
  cases i with
  | plain => exact h
  | branch => exact h
  | tableSwitch => exact ⟨h.1, by simpa using h.2⟩
  | lookupSwitch _ pairs =>
    have hlength : pairs.length < 2147483648 := h
    show (pairs.map _).length < _
    rwa [List.length_map]

/-- Moving the targets one by one, where none of them fails. -/
theorem mapTargets_eq_ok {f : Nat → Except Fault Nat}
    (hf : ∀ target moved, f target = .ok moved → moved = move target)
    (h : i.mapTargets f = .ok j) : j = i.retarget move := by
  cases i with
  | plain op operands =>
    cases h
    rfl
  | branch op target =>
    obtain ⟨moved, hmoved, hj⟩ := Except.bind_eq_ok_iff.1 h
    cases hj
    rw [retarget, hf _ _ hmoved]
  | tableSwitch otherwise low high targets =>
    obtain ⟨first, hfirst, h⟩ := Except.bind_eq_ok_iff.1 h
    obtain ⟨rest, hrest, hj⟩ := Except.bind_eq_ok_iff.1 h
    cases hj
    rw [retarget, hf _ _ hfirst, Except.eq_map_of_mapM hf hrest]
  | lookupSwitch otherwise pairs =>
    obtain ⟨first, hfirst, h⟩ := Except.bind_eq_ok_iff.1 h
    obtain ⟨rest, hrest, hj⟩ := Except.bind_eq_ok_iff.1 h
    cases hj
    have hrest : rest = pairs.map fun pair => (pair.1, move pair.2) := by
      refine Except.eq_map_of_mapM (fun pair moved hpair => ?_) hrest
      obtain ⟨target, htarget, hmoved⟩ := Except.bind_eq_ok_iff.1 hpair
      cases hmoved
      rw [hf _ _ htarget]
    rw [retarget, hf _ _ hfirst, hrest]

end Embargo.Instruction
