/-!
Rules for programs that keep their state when they throw, and for iterating
one such program a fixed number of times.
-/

set_option autoImplicit false

namespace Exec

variable {ε σ α β : Type}

theorem bind_ok {x : EStateM ε σ α} {f : α → EStateM ε σ β} {s t : σ} {a : α}
    (h : x s = .ok a t) : (x >>= f) s = f a t := by
  simp only [bind,EStateM.bind,h]

theorem bind_error {x : EStateM ε σ α} {f : α → EStateM ε σ β} {s t : σ} {e : ε}
    (h : x s = .error e t) : (x >>= f) s = .error e t := by
  simp only [bind,EStateM.bind,h]

theorem map_ok {x : EStateM ε σ α} {f : α → β} {s t : σ} {a : α}
    (h : x s = .ok a t) : (f <$> x) s = .ok (f a) t := by
  simp only [Functor.map,EStateM.map,h]

theorem map_eq_error {x : EStateM ε σ α} {f : α → β} {s t : σ} {e : ε} :
    (f <$> x) s = .error e t ↔ x s = .error e t := by
  cases h : x s <;> simp [Functor.map,EStateM.map,h]

theorem bind_eq_ok {x : EStateM ε σ α} {f : α → EStateM ε σ β} {s t : σ} {b : β} :
    (x >>= f) s = .ok b t ↔ ∃ a u, x s = .ok a u ∧ f a u = .ok b t := by
  cases h : x s with
  | ok a u =>
    rw [bind_ok h]
    constructor
    · intro hf
      exact ⟨a,u,rfl,hf⟩
    · rintro ⟨_,_,heq,hf⟩
      cases heq
      exact hf
  | error e u =>
    rw [bind_error h]
    simp

theorem bind_eq_error {x : EStateM ε σ α} {f : α → EStateM ε σ β} {s t : σ} {e : ε} :
    (x >>= f) s = .error e t ↔
      x s = .error e t ∨ ∃ a u, x s = .ok a u ∧ f a u = .error e t := by
  cases h : x s with
  | ok a u =>
    rw [bind_ok h]
    constructor
    · intro hf
      exact .inr ⟨a,u,rfl,hf⟩
    · rintro (heq | ⟨_,_,heq,hf⟩)
      · cases heq
      · cases heq
        exact hf
  | error e u =>
    rw [bind_error h]
    simp

theorem map_eq_ok {x : EStateM ε σ α} {f : α → β} {s t : σ} {b : β} :
    (f <$> x) s = .ok b t ↔ ∃ a, x s = .ok a t ∧ f a = b := by
  cases h : x s with
  | ok a u =>
    rw [map_ok h]
    simp only [EStateM.Result.ok.injEq]
    constructor
    · rintro ⟨rfl,rfl⟩
      exact ⟨a,⟨rfl,rfl⟩,rfl⟩
    · rintro ⟨_,⟨rfl,rfl⟩,rfl⟩
      exact ⟨rfl,rfl⟩
  | error e u => simp [map_eq_error.mpr h]

@[simp] theorem pure_run (a : α) (s : σ) : (pure a : EStateM ε σ α) s = .ok a s := rfl

@[simp] theorem throw_run (e : ε) (s : σ) : (throw e : EStateM ε σ α) s = .error e s := rfl

@[simp] theorem get_run (s : σ) : (get : EStateM ε σ σ) s = .ok s s := rfl

theorem ok_bind (a : α) (f : α → Except ε β) : (Except.ok a >>= f) = f a := rfl

theorem error_bind (e : ε) (f : α → Except ε β) :
    ((Except.error e : Except ε α) >>= f) = .error e := rfl

end Exec
