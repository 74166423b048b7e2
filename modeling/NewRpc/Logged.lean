import NewRpc.Exec

/-!
Programs with a state and exceptions that also keep a log, and how a property of every
entry of the log follows the program's structure.
-/

set_option autoImplicit false

/-- A program that returns with what it has logged, also where it throws. -/
def Logged (ω ε σ α : Type) : Type := σ → EStateM.Result ε σ α × List ω

namespace Logged

variable {ω ε σ α β : Type}

def erase (x : Logged ω ε σ α) : EStateM ε σ α := fun s => (x s).1

def log (x : Logged ω ε σ α) (s : σ) : List ω := (x s).2

protected def pure (a : α) : Logged ω ε σ α := fun s => (.ok a s,[])

protected def bind (x : Logged ω ε σ α) (f : α → Logged ω ε σ β) : Logged ω ε σ β := fun s =>
  match x s with
  | (.ok a t,ws) => ((f a t).1,ws ++ (f a t).2)
  | (.error e t,ws) => (.error e t,ws)

instance : Monad (Logged ω ε σ) where
  pure := Logged.pure
  bind := Logged.bind

def lift (x : EStateM ε σ α) : Logged ω ε σ α := fun s => (x s,[])

def note (entry : σ → ω) : Logged ω ε σ Unit := fun s => (.ok () s,[entry s])

@[simp] theorem erase_pure (a : α) : (pure a : Logged ω ε σ α).erase = pure a := rfl

@[simp] theorem erase_lift (x : EStateM ε σ α) : (lift x : Logged ω ε σ α).erase = x := rfl

@[simp] theorem erase_note (entry : σ → ω) : (note entry : Logged ω ε σ Unit).erase = pure () := rfl

@[simp] theorem erase_bind (x : Logged ω ε σ α) (f : α → Logged ω ε σ β) :
    (x >>= f).erase = x.erase >>= fun a => (f a).erase := by
  funext s
  show (Logged.bind x f s).1 = _
  unfold Logged.bind
  rcases h : x s with ⟨r,ws⟩
  have hr : x.erase s = r := by rw [erase,h]
  cases r with
  | ok a t =>
    rw [Exec.bind_ok hr]
    rfl
  | error e t =>
    rw [Exec.bind_error hr]

@[simp] theorem erase_map (x : Logged ω ε σ α) (f : α → β) : (f <$> x).erase = f <$> x.erase := by
  show (x >>= fun a => pure (f a)).erase = _
  rw [erase_bind]
  rfl

@[simp] theorem erase_ite (c : Prop) [Decidable c] (x y : Logged ω ε σ α) :
    (if c then x else y).erase = if c then x.erase else y.erase := by
  split <;> rfl

def All (P : ω → Prop) (x : Logged ω ε σ α) (s : σ) : Prop := ∀ w ∈ x.log s, P w

variable {P : ω → Prop} {s : σ}

theorem all_pure (a : α) : All P (pure a : Logged ω ε σ α) s := by
  intro w hw
  cases hw

theorem all_lift (x : EStateM ε σ α) : All P (lift x) s := by
  intro w hw
  cases hw

theorem all_note_iff {entry : σ → ω} :
    All P (note entry : Logged ω ε σ Unit) s ↔ P (entry s) := by
  simp [All,log,note]

theorem all_bind_iff {x : Logged ω ε σ α} {f : α → Logged ω ε σ β} :
    All P (x >>= f) s ↔ All P x s ∧ ∀ a t, x.erase s = .ok a t → All P (f a) t := by
  have hlog : (x >>= f).log s = (Logged.bind x f s).2 := rfl
  unfold All
  rw [hlog]
  unfold Logged.bind
  rcases h : x s with ⟨r,ws⟩
  have hr : x.erase s = r := by rw [erase,h]
  have hws : x.log s = ws := by rw [log,h]
  rw [hr,hws]
  cases r with
  | ok a t =>
    simp only [List.mem_append,EStateM.Result.ok.injEq]
    constructor
    · intro hall
      refine ⟨fun w hw => hall w (.inl hw),?_⟩
      rintro _ _ ⟨rfl,rfl⟩ w hw
      exact hall w (.inr hw)
    · rintro ⟨hx,hf⟩ w (hw | hw)
      · exact hx w hw
      · exact hf a t ⟨rfl,rfl⟩ w hw
  | error e t => simp

theorem All.bind {x : Logged ω ε σ α} {f : α → Logged ω ε σ β} (hx : All P x s)
    (hf : ∀ a t, x.erase s = .ok a t → All P (f a) t) : All P (x >>= f) s :=
  all_bind_iff.mpr ⟨hx,hf⟩

theorem all_map_iff {x : Logged ω ε σ α} {f : α → β} : All P (f <$> x) s ↔ All P x s := by
  show All P (x >>= fun a => pure (f a)) s ↔ _
  rw [all_bind_iff]
  exact and_iff_left (fun a t _ => all_pure (f a))

end Logged
