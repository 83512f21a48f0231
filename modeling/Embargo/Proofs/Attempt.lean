import Embargo.Fault
import Mathlib.Data.List.Forall2

/-!
What a step that ended well went through. Composite steps are taken apart into
their parts, each with the state behind it.
-/
namespace Embargo
variable {ε σ α β : Type}

theorem Except.bind_eq_ok_iff {x : Except ε α} {f : α → Except ε β} {b : β} :
    x >>= f = .ok b ↔ ∃ a, x = .ok a ∧ f a = .ok b := by
  cases x with
  | error fault => exact ⟨fun h => (nomatch h), fun ⟨_, h, _⟩ => (nomatch h)⟩
  | ok a => exact ⟨fun h => ⟨a, rfl, h⟩, fun ⟨_, h, hf⟩ => by cases h; exact hf⟩

theorem Except.map_eq_ok_iff {x : Except ε α} {f : α → β} {b : β} :
    x.map f = .ok b ↔ ∃ a, x = .ok a ∧ f a = b := by
  cases x with
  | error fault => exact ⟨fun h => (nomatch h), fun ⟨_, h, _⟩ => (nomatch h)⟩
  | ok a => simp [Except.map]

theorem Except.mapError_eq_ok_iff {ε' : Type} {f : ε → ε'} {x : Except ε α} {a : α} :
    x.mapError f = .ok a ↔ x = .ok a := by
  cases x <;> simp [Except.mapError]

/-- The results of a list of steps, one for each element. -/
theorem Except.mapM_eq_ok_iff {f : α → Except ε β} {xs : List α} {ys : List β} :
    xs.mapM f = .ok ys ↔ List.Forall₂ (fun x y => f x = .ok y) xs ys := by
  induction xs generalizing ys with
  | nil =>
    simp only [List.mapM_nil]
    cases ys with
    | nil => exact ⟨fun _ => .nil, fun _ => rfl⟩
    | cons y ys => exact ⟨fun h => (nomatch h), fun h => (nomatch h)⟩
  | cons x xs ih =>
    simp only [List.mapM_cons, Except.bind_eq_ok_iff]
    constructor
    · rintro ⟨y, hy, ys', hys, h⟩
      cases h
      exact .cons hy (ih.1 hys)
    · intro h
      cases h with
      | cons hy hys => exact ⟨_, hy, _, ih.2 hys, rfl⟩

theorem Forall₂.exists_of_mem_left {R : α → β → Prop} {xs : List α} {ys : List β}
    (h : List.Forall₂ R xs ys) {x : α} (hx : x ∈ xs) : ∃ y ∈ ys, R x y := by
  induction h with
  | nil => exact absurd hx List.not_mem_nil
  | @cons a b _ _ head _ ih =>
    rcases List.mem_cons.1 hx with rfl | hx
    · exact ⟨b, List.mem_cons_self, head⟩
    · obtain ⟨y, hy, hxy⟩ := ih hx
      exact ⟨y, List.mem_cons_of_mem _ hy, hxy⟩

theorem Forall₂.exists_of_mem_right {R : α → β → Prop} {xs : List α} {ys : List β}
    (h : List.Forall₂ R xs ys) {y : β} (hy : y ∈ ys) : ∃ x ∈ xs, R x y :=
  Forall₂.exists_of_mem_left h.flip hy

theorem Forall₂.map_eq {γ : Type} {f : α → γ} {g : β → γ} {xs : List α} {ys : List β}
    (h : List.Forall₂ (fun x y => g y = f x) xs ys) : ys.map g = xs.map f := by
  induction h with
  | nil => rfl
  | cons head _ ih => rw [List.map_cons, List.map_cons, head, ih]

/-- Where a step can only have one result, a list of steps has the list of these. -/
theorem Except.eq_map_of_mapM {f : α → Except ε β} {g : α → β} {xs : List α} {ys : List β}
    (hf : ∀ x y, f x = .ok y → y = g x) (h : xs.mapM f = .ok ys) : ys = xs.map g := by
  have hall := (Except.mapM_eq_ok_iff.1 h).imp hf
  simpa using Forall₂.map_eq hall

/-- A list of steps that all have a result has a list of results. -/
theorem Except.exists_mapM_eq_ok {f : α → Except ε β} {xs : List α}
    (h : ∀ x ∈ xs, ∃ y, f x = .ok y) : ∃ ys, xs.mapM f = .ok ys := by
  simp only [Except.mapM_eq_ok_iff]
  induction xs with
  | nil => exact ⟨[], .nil⟩
  | cons x xs ih =>
    obtain ⟨⟨y, hy⟩, hrest⟩ := List.forall_mem_cons.1 h
    obtain ⟨ys, hys⟩ := ih hrest
    exact ⟨y :: ys, .cons hy hys⟩

/-- What every step of a fold keeps, the fold keeps. -/
theorem Except.foldlM_invariant {f : β → α → Except ε β} {I : β → Prop} {xs : List α}
    (hstep : ∀ b, I b → ∀ x ∈ xs, ∀ c, f b x = .ok c → I c) {b c : β} (hb : I b)
    (h : xs.foldlM f b = .ok c) : I c := by
  induction xs generalizing b with
  | nil =>
    cases h
    exact hb
  | cons x xs ih =>
    rw [List.foldlM_cons] at h
    obtain ⟨middle, hmiddle, hrest⟩ := Except.bind_eq_ok_iff.1 h
    refine ih (fun b hb x hx => hstep b hb x (List.mem_cons_of_mem _ hx)) ?_ hrest
    exact hstep b hb x List.mem_cons_self middle hmiddle

namespace Attempt

theorem run_bind (x : Attempt σ α) (f : α → Attempt σ β) (s : σ) :
    (x >>= f).run s = match x.run s with
      | (.ok a, t) => (f a).run t
      | (.error fault, t) => (.error fault, t) := by
  change ExceptT.bindCont f (x.run s).1 (x.run s).2 = _
  rcases x.run s with ⟨fault | a, t⟩ <;> rfl

theorem run_bind_eq_ok_iff {x : Attempt σ α} {f : α → Attempt σ β} {s t : σ} {b : β} :
    (x >>= f).run s = (.ok b, t) ↔
      ∃ a u, x.run s = (.ok a, u) ∧ (f a).run u = (.ok b, t) := by
  rw [run_bind]
  rcases x.run s with ⟨fault | a, u⟩
  · exact ⟨fun h => (nomatch h), fun ⟨_, _, h, _⟩ => (nomatch h)⟩
  · exact ⟨fun h => ⟨a, u, rfl, h⟩, fun ⟨_, _, h, hf⟩ => by cases h; exact hf⟩

theorem run_pure_eq_ok_iff {a b : α} {s t : σ} :
    (pure a : Attempt σ α).run s = (.ok b, t) ↔ a = b ∧ s = t :=
  ⟨fun h => by cases h; exact ⟨rfl, rfl⟩, fun ⟨h, h'⟩ => by rw [h, h']; rfl⟩

theorem run_ofExcept_eq_ok_iff {x : Except Fault α} {a : α} {s t : σ} :
    (ofExcept x : Attempt σ α).run s = (.ok a, t) ↔ x = .ok a ∧ s = t :=
  ⟨fun h => by cases h; exact ⟨rfl, rfl⟩, fun ⟨h, h'⟩ => by rw [h, h']; rfl⟩

/-- Steps for each element of a list in order, the state of one going into the
next. -/
inductive RunEach (f : α → Attempt σ β) : List α → σ → List β → σ → Prop
  | nil (s : σ) : RunEach f [] s [] s
  | cons {x : α} {xs : List α} {y : β} {ys : List β} {s t u : σ}
      (head : (f x).run s = (.ok y, t)) (tail : RunEach f xs t ys u) :
      RunEach f (x :: xs) s (y :: ys) u

theorem run_mapM_eq_ok_iff {f : α → Attempt σ β} {xs : List α} {ys : List β} {s t : σ} :
    (xs.mapM f).run s = (.ok ys, t) ↔ RunEach f xs s ys t := by
  induction xs generalizing ys s with
  | nil =>
    rw [List.mapM_nil, run_pure_eq_ok_iff]
    constructor
    · rintro ⟨rfl, rfl⟩
      exact .nil s
    · intro h
      cases h
      exact ⟨rfl, rfl⟩
  | cons x xs ih =>
    simp only [List.mapM_cons, run_bind_eq_ok_iff, run_pure_eq_ok_iff]
    constructor
    · rintro ⟨y, u, hy, ys', v, hys, rfl, rfl⟩
      exact .cons hy (ih.1 hys)
    · intro h
      cases h with
      | cons hy hys => exact ⟨_, _, hy, _, _, ih.2 hys, rfl, rfl⟩

/-- What every step does to the state, all of them together do, and each element has its
step on the way. -/
theorem RunEach.forall₂ {f : α → Attempt σ β} {R : σ → σ → Prop} (hrefl : ∀ s, R s s)
    (htrans : ∀ s t u, R s t → R t u → R s u)
    (hstep : ∀ x s y t, (f x).run s = (.ok y, t) → R s t) {xs : List α} {ys : List β} {s u : σ}
    (h : RunEach f xs s ys u) : R s u ∧
      List.Forall₂ (fun x y => ∃ v w, R s v ∧ (f x).run v = (.ok y, w) ∧ R w u) xs ys := by
  induction h with
  | nil s => exact ⟨hrefl s, .nil⟩
  | @cons x xs y ys s t u head _ ih =>
    obtain ⟨htail, hall⟩ := ih
    have hst := hstep x s y t head
    refine ⟨htrans s t u hst htail, .cons ⟨s, t, hrefl s, head, htail⟩ ?_⟩
    exact hall.imp fun x y ⟨v, w, hv, hrun, hw⟩ => ⟨v, w, htrans s t v hst hv, hrun, hw⟩

end Attempt

end Embargo
