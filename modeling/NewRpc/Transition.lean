import Mathlib.Logic.Relation

/-!
Systems that take labelled steps: runs whose every step meets a condition, and
the rule that an invariant of the steps is one of the runs.
-/

set_option autoImplicit false

namespace Transition

variable {σ ε : Type}

/-- One step, taken where `ok` allows it. -/
def Next (step : σ → ε → Option σ) (ok : σ → ε → Bool) (s t : σ) : Prop :=
  ∃ e, ok s e = true ∧ step s e = some t

abbrev Reaches (step : σ → ε → Option σ) (ok : σ → ε → Bool) : σ → σ → Prop :=
  Relation.ReflTransGen (Next step ok)

theorem Reaches.invariant {step : σ → ε → Option σ} {ok : σ → ε → Bool} {I : σ → Prop} {s t : σ}
    (hstep : ∀ s e t, I s → ok s e = true → step s e = some t → I t) (h : Reaches step ok s t)
    (hs : I s) : I t := by
  induction h with
  | refl => exact hs
  | tail _ hn ih =>
    obtain ⟨e,hok,he⟩ := hn
    exact hstep _ e _ ih hok he

theorem Reaches.mono {step : σ → ε → Option σ} {ok ok' : σ → ε → Bool} {s t : σ}
    (h : Reaches step ok s t) (hok : ∀ s e, ok s e = true → ok' s e = true) :
    Reaches step ok' s t := by
  induction h with
  | refl => exact .refl
  | tail _ hn ih =>
    obtain ⟨e,he,hs⟩ := hn
    exact ih.tail ⟨e,hok _ e he,hs⟩

/-- Where each step is a run of another system, so is a run, as long as an invariant holds
that the steps need. -/
theorem Reaches.simulates {τ δ : Type} {step : σ → ε → Option σ} {ok : σ → ε → Bool}
    {step' : τ → δ → Option τ} {ok' : τ → δ → Bool} {f : σ → τ} {I : σ → Prop} {s t : σ}
    (hinv : ∀ s e t, I s → ok s e = true → step s e = some t → I t)
    (hstep : ∀ s e t, I s → ok s e = true → step s e = some t → Reaches step' ok' (f s) (f t))
    (h : Reaches step ok s t) (hs : I s) : Reaches step' ok' (f s) (f t) := by
  have hboth : I t ∧ Reaches step' ok' (f s) (f t) := by
    induction h with
    | refl => exact ⟨hs,.refl⟩
    | tail _ hn ih =>
      obtain ⟨e,hok,he⟩ := hn
      exact ⟨hinv _ e _ ih.1 hok he,ih.2.trans (hstep _ e _ ih.1 hok he)⟩
  exact hboth.2

/-- A run given by its events. -/
def run (step : σ → ε → Option σ) (ok : σ → ε → Bool) : σ → List ε → Option σ
  | s, [] => some s
  | s, e :: es => if ok s e then (step s e).bind (fun t => run step ok t es) else none

theorem reaches_of_run {step : σ → ε → Option σ} {ok : σ → ε → Bool} {s t : σ} {es : List ε}
    (h : run step ok s es = some t) : Reaches step ok s t := by
  induction es generalizing s with
  | nil =>
    cases h
    exact .refl
  | cons e es ih =>
    obtain ⟨hok,hb⟩ := Option.ite_none_right_eq_some.mp h
    obtain ⟨u,he,ht⟩ := Option.bind_eq_some_iff.mp hb
    exact .head ⟨e,hok,he⟩ (ih ht)

/-- What the steps keep of the events so far and the state they lead to. -/
theorem run_invariant {step : σ → ε → Option σ} {ok : σ → ε → Bool} {I : List ε → σ → Prop}
    (hstep : ∀ past s e t, I past s → step s e = some t → I (past ++ [e]) t)
    {past es : List ε} {s t : σ} (hs : I past s) (h : run step ok s es = some t) :
    I (past ++ es) t := by
  induction es generalizing past s with
  | nil =>
    cases h
    rw [List.append_nil]
    exact hs
  | cons e es ih =>
    obtain ⟨_,hb⟩ := Option.ite_none_right_eq_some.mp h
    obtain ⟨u,he,ht⟩ := Option.bind_eq_some_iff.mp hb
    have hall := ih (hstep past s e u hs he) ht
    rw [List.append_assoc] at hall
    exact hall

end Transition
