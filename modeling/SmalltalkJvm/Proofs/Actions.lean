import Mathlib.Data.List.Forall2

/-! # Outcomes of actions

What a computation that succeeds has done on the way: each of its steps succeeded, and each item of
a list it went through gave a result of its own. One that fails does so at one of its steps, or at
one of the items.
-/

namespace SmalltalkJvm

/-- Inverts a step of a computation that succeeds. -/
theorem bind_ok {ε σ α β : Type} {x : EStateM ε σ α} {f : α → EStateM ε σ β} {s s' : σ} {b : β}
    (h : (x >>= f) s = .ok b s') : ∃ a s₁, x s = .ok a s₁ ∧ f a s₁ = .ok b s' := by
  change EStateM.bind x f s = .ok b s' at h
  unfold EStateM.bind at h
  split at h
  · exact ⟨_, _, ‹_›, h⟩
  · cases h

theorem bind_of_ok {ε σ α β : Type} {x : EStateM ε σ α} {s s₁ : σ} {a : α} (h : x s = .ok a s₁)
    (f : α → EStateM ε σ β) : (x >>= f) s = f a s₁ := by
  change EStateM.bind x f s = _
  simp [EStateM.bind, h]

/-- Inverts a computation that fails: one of its steps fails. -/
theorem bind_error {ε σ α β : Type} {x : EStateM ε σ α} {f : α → EStateM ε σ β} {s s' : σ} {e : ε}
    (h : (x >>= f) s = .error e s') :
    x s = .error e s' ∨ ∃ a s₁, x s = .ok a s₁ ∧ f a s₁ = .error e s' := by
  change EStateM.bind x f s = .error e s' at h
  unfold EStateM.bind at h
  split at h
  · rename_i a s₁ hx
    exact .inr ⟨a, s₁, hx, h⟩
  · rename_i e' s₁ hx
    cases h
    exact .inl hx

theorem bind_of_error {ε σ α β : Type} {x : EStateM ε σ α} {s s₁ : σ} {e : ε}
    (h : x s = .error e s₁) (f : α → EStateM ε σ β) : (x >>= f) s = .error e s₁ := by
  change EStateM.bind x f s = _
  simp [EStateM.bind, h]

theorem except_bind_ok {ε α β : Type} {x : Except ε α} {f : α → Except ε β} {b : β}
    (h : (x >>= f) = .ok b) : ∃ a, x = .ok a ∧ f a = .ok b := by
  cases x with
  | error e => cases h
  | ok a => exact ⟨a, rfl, h⟩

theorem except_bind_error {ε α β : Type} {x : Except ε α} {f : α → Except ε β} {e : ε}
    (h : (x >>= f) = .error e) : x = .error e ∨ ∃ a, x = .ok a ∧ f a = .error e := by
  cases x with
  | error e' =>
    cases h
    exact .inl rfl
  | ok a => exact .inr ⟨a, rfl, h⟩

theorem except_mapM_ok {ε α β : Type} {f : α → Except ε β} {xs : List α} {ys : List β}
    (h : xs.mapM f = .ok ys) : List.Forall₂ (fun x y => f x = .ok y) xs ys := by
  induction xs generalizing ys with
  | nil =>
    cases h
    exact .nil
  | cons x xs ih =>
    rw [List.mapM_cons] at h
    obtain ⟨y, hy, h⟩ := except_bind_ok h
    obtain ⟨rest, hrest, h⟩ := except_bind_ok h
    cases h
    exact .cons hy (ih hrest)

theorem except_mapM_error {ε α β : Type} {f : α → Except ε β} {xs : List α} {e : ε}
    (h : xs.mapM f = .error e) : ∃ x ∈ xs, f x = .error e := by
  induction xs with
  | nil => cases h
  | cons x xs ih =>
    rw [List.mapM_cons] at h
    rcases except_bind_error h with hx | ⟨y, -, h⟩
    · exact ⟨x, List.mem_cons_self, hx⟩
    · rcases except_bind_error h with hxs | ⟨ys, -, h⟩
      · obtain ⟨z, hz, hfault⟩ := ih hxs
        exact ⟨z, List.mem_cons_of_mem _ hz, hfault⟩
      · cases h

section

variable {α β : Type} {R : α → β → Prop} {first : List α} {second : List β}

theorem exists_of_mem_left (h : List.Forall₂ R first second) {x : α} (hx : x ∈ first) :
    ∃ y ∈ second, R x y := by
  induction h with
  | nil => cases hx
  | cons hxy rest ih =>
    rcases List.mem_cons.1 hx with rfl | hx
    · exact ⟨_, List.mem_cons_self, hxy⟩
    · obtain ⟨y, hy, hR⟩ := ih hx
      exact ⟨y, List.mem_cons_of_mem _ hy, hR⟩

theorem exists_of_mem_right (h : List.Forall₂ R first second) {y : β} (hy : y ∈ second) :
    ∃ x ∈ first, R x y :=
  exists_of_mem_left h.flip hy

end

end SmalltalkJvm
