import Embargo.Proofs.Attempt

/-!
The faults that a step can end in. A composite step raises what its parts raise, each from the
state that it is reached in.
-/
namespace Embargo
variable {σ α β : Type} {P : Fault → Prop}

/-- Whatever fault it may be, it has the property. -/
def Raises (x : Except Fault α) (P : Fault → Prop) : Prop :=
  ∀ fault, x = .error fault → P fault

namespace Raises

@[simp]
protected theorem ok (a : α) : Raises (.ok a) P := fun _ h => nomatch h

@[simp]
theorem error_iff {fault : Fault} : Raises (.error fault : Except Fault α) P ↔ P fault :=
  ⟨fun h => h fault rfl, fun h _ heq => Except.error.inj heq ▸ h⟩

protected theorem error {fault : Fault} (h : P fault) : Raises (.error fault : Except Fault α) P :=
  error_iff.2 h

protected theorem bind {x : Except Fault α} {f : α → Except Fault β} (h : Raises x P)
    (hf : ∀ a, x = .ok a → Raises (f a) P) : Raises (x >>= f) P := by
  cases x with
  | error fault => exact .error (h fault rfl)
  | ok a => exact hf a rfl

protected theorem ite {c : Prop} [Decidable c] {x y : Except Fault α} (hx : Raises x P)
    (hy : Raises y P) : Raises (if c then x else y) P := by
  split
  · exact hx
  · exact hy

protected theorem map {x : Except Fault α} {f : α → β} (h : Raises x P) :
    Raises (x.map f) P := by
  cases x with
  | error fault => exact .error (h fault rfl)
  | ok a => exact .ok (f a)

protected theorem mapM {f : α → Except Fault β} {xs : List α} (h : ∀ x ∈ xs, Raises (f x) P) :
    Raises (xs.mapM f) P := by
  induction xs with
  | nil => exact .ok []
  | cons x xs ih =>
    obtain ⟨hhead, htail⟩ := List.forall_mem_cons.1 h
    rw [List.mapM_cons]
    exact hhead.bind fun y _ => (ih htail).bind fun ys _ => .ok (y :: ys)

protected theorem foldlM {f : β → α → Except Fault β} {xs : List α}
    (h : ∀ b, ∀ x ∈ xs, Raises (f b x) P) (b : β) : Raises (xs.foldlM f b) P := by
  induction xs generalizing b with
  | nil => exact .ok b
  | cons x xs ih =>
    rw [List.foldlM_cons]
    refine (h b x List.mem_cons_self).bind fun c _ => ?_
    exact ih (fun b x hx => h b x (List.mem_cons_of_mem _ hx)) c

end Raises

/-- Whatever fault the step ends in from a state, it has the property. -/
def RaisesFrom (step : Attempt σ α) (state : σ) (P : Fault → Prop) : Prop :=
  Raises (step.run state).1 P

namespace RaisesFrom
variable {state : σ}

protected theorem pure (a : α) : RaisesFrom (pure a) state P := .ok a

/-- The fault of a run. -/
theorem of_run_eq_error {step : Attempt σ α} (h : RaisesFrom step state P) {fault : Fault}
    {after : σ} (hrun : step.run state = (.error fault, after)) : P fault :=
  h fault (by rw [hrun])

protected theorem get : RaisesFrom (MonadState.get : Attempt σ σ) state P := .ok state

protected theorem throw {fault : Fault} (h : P fault) :
    RaisesFrom (throw fault : Attempt σ α) state P := .error h

protected theorem ofExcept {x : Except Fault α} (h : Raises x P) :
    RaisesFrom (Attempt.ofExcept x) state P := h

protected theorem bind {step : Attempt σ α} {next : α → Attempt σ β} (h : RaisesFrom step state P)
    (hnext : ∀ a after, step.run state = (.ok a, after) → RaisesFrom (next a) after P) :
    RaisesFrom (step >>= next) state P := by
  unfold RaisesFrom
  rw [Attempt.run_bind]
  rcases hrun : step.run state with ⟨fault | a, after⟩
  · exact .error (h.of_run_eq_error hrun)
  · exact hnext a after hrun

protected theorem throw_bind {fault : Fault} (h : P fault) (next : α → Attempt σ β) :
    RaisesFrom ((throw fault : Attempt σ α) >>= next) state P := .error h

protected theorem ite {c : Prop} [Decidable c] {step other : Attempt σ α}
    (h : RaisesFrom step state P) (hother : RaisesFrom other state P) :
    RaisesFrom (if c then step else other) state P := by
  split
  · exact h
  · exact hother

/-- A step under another name for its faults. -/
protected theorem reporting {step : Attempt σ α} {rename : Fault → Fault}
    (h : ∀ fault, P (rename fault)) : RaisesFrom (step.reporting rename) state P := by
  intro fault heq
  change (Attempt.reporting step rename state).1 = _ at heq
  unfold Attempt.reporting at heq
  split at heq
  case h_1 => cases heq
  case h_2 =>
    cases heq
    exact h _

protected theorem mapM {f : α → Attempt σ β} {xs : List α}
    (h : ∀ x ∈ xs, ∀ state, RaisesFrom (f x) state P) : RaisesFrom (xs.mapM f) state P := by
  induction xs generalizing state with
  | nil => exact .pure []
  | cons x xs ih =>
    obtain ⟨hhead, htail⟩ := List.forall_mem_cons.1 h
    rw [List.mapM_cons]
    exact (hhead state).bind fun y _ _ => (ih htail).bind fun ys _ _ => .pure (y :: ys)

end RaisesFrom

end Embargo
