import Mathlib.Order.WellFounded
import NewRpc.Transition

/-!
Runs without an end in which every agent that can go on does so, and the rules by which
something happens in them sooner or later.
-/

set_option autoImplicit false

namespace Transition

variable {σ ε α : Type}

/-- A run that never ends; at an instant without an event nothing changes. -/
structure Run (step : σ → ε → Option σ) (ok : σ → ε → Bool) where
  state : Nat → σ
  event : Nat → Option ε
  next : ∀ i, match event i with
    | none => state (i + 1) = state i
    | some e => ok (state i) e = true ∧ step (state i) e = some (state (i + 1))

def Enabled (step : σ → ε → Option σ) (agent : ε → Option α) (a : α) (s : σ) : Prop :=
  ∃ e, agent e = some a ∧ (step s e).isSome = true

namespace Run

variable {step : σ → ε → Option σ} {ok : σ → ε → Bool}

def Fair (r : Run step ok) (agent : ε → Option α) (a : α) : Prop :=
  ∀ i, (∀ j, i ≤ j → Enabled step agent a (r.state j)) →
    ∃ j, i ≤ j ∧ ∃ e, r.event j = some e ∧ agent e = some a

def LeadsTo (r : Run step ok) (P Q : σ → Prop) : Prop :=
  ∀ i, P (r.state i) → ∃ j, i ≤ j ∧ Q (r.state j)

variable {r : Run step ok} {I P Q S : σ → Prop}

theorem event_next {i : Nat} {e : ε} (h : r.event i = some e) :
    ok (r.state i) e = true ∧ step (r.state i) e = some (r.state (i + 1)) := by
  have hn := r.next i
  rw [h] at hn
  exact hn

theorem succ (r : Run step ok) (i : Nat) : r.state (i + 1) = r.state i ∨
    ∃ e, r.event i = some e ∧ ok (r.state i) e = true ∧
      step (r.state i) e = some (r.state (i + 1)) := by
  cases he : r.event i with
  | none =>
    have hn := r.next i
    rw [he] at hn
    exact .inl hn
  | some e => exact .inr ⟨e,rfl,event_next he⟩

/-- What holds at an instant and is kept by the events from there on. -/
theorem keeps {i j : Nat} (hij : i ≤ j) (hi : P (r.state i))
    (hstep : ∀ k e, i ≤ k → r.event k = some e → P (r.state k) →
      step (r.state k) e = some (r.state (k + 1)) → P (r.state (k + 1))) : P (r.state j) := by
  induction hij with
  | refl => exact hi
  | step hik ih =>
    rcases r.succ _ with heq | ⟨e,he,_,hs⟩
    · rw [heq]
      exact ih
    · exact hstep _ e hik he ih hs

theorem reaches (r : Run step ok) (i : Nat) : Reaches step ok (r.state 0) (r.state i) := by
  induction i with
  | zero => exact .refl
  | succ i ih =>
    rcases r.succ i with heq | ⟨e,_,hok,he⟩
    · rw [heq]
      exact ih
    · exact ih.tail ⟨e,hok,he⟩

theorem LeadsTo.trans (h : r.LeadsTo P Q) (h' : r.LeadsTo Q S) : r.LeadsTo P S := by
  intro i hi
  obtain ⟨j,hij,hj⟩ := h i hi
  obtain ⟨k,hjk,hk⟩ := h' j hj
  exact ⟨k,Nat.le_trans hij hjk,hk⟩

/-- What the events keep as long as they do not come to `Q`. -/
theorem keeps_unless {i j : Nat} (hij : i ≤ j) (hi : P (r.state i))
    (hstep : ∀ k e, i ≤ k → r.event k = some e → P (r.state k) → ok (r.state k) e = true →
      step (r.state k) e = some (r.state (k + 1)) → P (r.state (k + 1)) ∨ Q (r.state (k + 1))) :
    P (r.state j) ∨ ∃ k, i ≤ k ∧ Q (r.state k) := by
  induction hij with
  | refl => exact .inl hi
  | step hik ih =>
    rcases ih with hp | hq
    · rcases r.succ _ with heq | ⟨e,he,hok,hs⟩
      · rw [heq]
        exact .inl hp
      · rcases hstep _ e hik he hp hok hs with hp' | hq
        · exact .inl hp'
        · exact .inr ⟨_,Nat.le_succ_of_le hik,hq⟩
    · exact .inr hq

/-- What holds until `Q` does, and keeps an agent able to take a step to `Q`. -/
theorem leadsTo_of_helper {agent : ε → Option α} {a : α} (hI : ∀ i, I (r.state i))
    (hfair : r.Fair agent a) (henabled : ∀ s, I s → P s → Enabled step agent a s)
    (hstep : ∀ s e t, I s → P s → ok s e = true → step s e = some t → P t ∨ Q t)
    (hhelp : ∀ s e t, I s → P s → agent e = some a → ok s e = true → step s e = some t → Q t) :
    r.LeadsTo P Q := by
  intro i hi
  refine Classical.byContradiction fun hnever => ?_
  have hkeeps : ∀ j, i ≤ j → P (r.state j) := fun j hij =>
    (keeps_unless hij hi (fun k e _ _ hp hok he =>
      hstep _ e _ (hI k) hp hok he)).resolve_right hnever
  obtain ⟨j,hij,e,he,ha⟩ := hfair i (fun j hj => henabled _ (hI j) (hkeeps j hj))
  obtain ⟨hok,hs⟩ := event_next he
  exact hnever ⟨j + 1,by omega,hhelp _ e _ (hI j) (hkeeps j hij) ha hok hs⟩

theorem leadsTo_of_fair {agent : ε → Option α} {a : α} (hI : ∀ i, I (r.state i))
    (hfair : r.Fair agent a) (henabled : ∀ s, I s → P s → Enabled step agent a s)
    (hstep : ∀ s e t, I s → P s → step s e = some t → P t ∨ Q t)
    (hhelp : ∀ s e t, I s → P s → agent e = some a → step s e = some t → Q t) :
    r.LeadsTo P Q :=
  leadsTo_of_helper hI hfair henabled (fun s e t hi hp _ he => hstep s e t hi hp he)
    (fun s e t hi hp ha _ he => hhelp s e t hi hp ha he)

/-- Whatever is not there yet comes closer. -/
theorem leadsTo_of_descent {β : Type} [LT β] [WellFoundedLT β] {P : β → σ → Prop}
    (h : ∀ b, r.LeadsTo (P b) (fun s => Q s ∨ ∃ c, c < b ∧ P c s)) (b : β) :
    r.LeadsTo (P b) Q := by
  induction b using WellFoundedLT.induction with
  | ind b ih =>
    intro i hi
    obtain ⟨j,hij,hq | ⟨c,hlt,hp⟩⟩ := h b i hi
    · exact ⟨j,hij,hq⟩
    · obtain ⟨k,hjk,hk⟩ := ih c hlt j hp
      exact ⟨k,Nat.le_trans hij hjk,hk⟩

/-- A rank that no step raises and that a step of the helper, an agent, lowers. -/
theorem leadsTo_of_rank {agent : ε → Option α} (rank : σ → Nat) (helper : σ → α)
    (hI : ∀ i, I (r.state i)) (hfair : ∀ a, r.Fair agent a)
    (henabled : ∀ s, I s → P s → Enabled step agent (helper s) s)
    (hstep : ∀ s e t, I s → P s → step s e = some t →
      Q t ∨ P t ∧ (rank t < rank s ∨
        rank t = rank s ∧ helper t = helper s ∧ agent e ≠ some (helper s))) :
    r.LeadsTo P Q := by
  have hdown : ∀ n, r.LeadsTo (fun s => P s ∧ rank s = n) Q := by
    refine leadsTo_of_descent (fun n => ?_)
    rintro i ⟨hi,hn⟩
    have hlower : r.LeadsTo
        (fun s => P s ∧ rank s = n ∧ helper s = helper (r.state i))
        (fun s => Q s ∨ ∃ m, m < n ∧ P s ∧ rank s = m) := by
      refine leadsTo_of_fair hI (hfair (helper (r.state i))) ?_ ?_ ?_
      · rintro s hs ⟨hp,_,hh⟩
        rw [← hh]
        exact henabled s hs hp
      · rintro s e t hs ⟨hp,hr,hh⟩ he
        rcases hstep s e t hs hp he with hq | ⟨hp',hlt | ⟨heq,hsame,_⟩⟩
        · exact .inr (.inl hq)
        · exact .inr (.inr ⟨rank t,hr ▸ hlt,hp',rfl⟩)
        · exact .inl ⟨hp',heq.trans hr,hsame.trans hh⟩
      · rintro s e t hs ⟨hp,hr,hh⟩ ha he
        rcases hstep s e t hs hp he with hq | ⟨hp',hlt | ⟨_,_,hother⟩⟩
        · exact .inl hq
        · exact .inr ⟨rank t,hr ▸ hlt,hp',rfl⟩
        · exact absurd (hh ▸ ha) hother
    exact hlower i ⟨hi,hn,rfl⟩
  exact fun i hi => hdown _ i ⟨hi,rfl⟩

/-- Each of finitely many things happens and lasts, so all of them hold at once. -/
theorem eventually_all {T : Type} {K : T → σ → Prop} (l : List T) (i : Nat)
    (hlast : ∀ x j k, i ≤ j → j ≤ k → K x (r.state j) → K x (r.state k))
    (h : ∀ x, ∃ j, i ≤ j ∧ K x (r.state j)) : ∃ j, i ≤ j ∧ ∀ x ∈ l, K x (r.state j) := by
  induction l with
  | nil => exact ⟨i,Nat.le_refl i,by simp⟩
  | cons x l ih =>
    obtain ⟨j,hij,hj⟩ := ih
    obtain ⟨k,hik,hk⟩ := h x
    refine ⟨max j k,by omega,fun y hy => ?_⟩
    rcases List.mem_cons.mp hy with rfl | hy'
    · exact hlast y k _ hik (Nat.le_max_right j k) hk
    · exact hlast y j _ hij (Nat.le_max_left j k) (hj y hy')

section
variable {τ δ β : Type} {step' : τ → δ → Option τ} {ok' : τ → δ → Bool}

/-- What the events of a run do in another system: each is an event there, or nothing. -/
structure Shown (r : Run step ok) (step' : τ → δ → Option τ) (ok' : τ → δ → Bool) (f : σ → τ)
    (g : σ → ε → Option δ) : Prop where
  quiet : ∀ i e, r.event i = some e → g (r.state i) e = none →
    f (r.state (i + 1)) = f (r.state i)
  event : ∀ i e d, r.event i = some e → g (r.state i) e = some d →
    ok' (f (r.state i)) d = true ∧ step' (f (r.state i)) d = some (f (r.state (i + 1)))

def image (r : Run step ok) {f : σ → τ} {g : σ → ε → Option δ}
    (h : r.Shown step' ok' f g) : Run step' ok' where
  state i := f (r.state i)
  event i := (r.event i).bind (g (r.state i))
  next i := by
    cases he : r.event i with
    | none =>
      have hn := r.next i
      rw [he] at hn
      exact congrArg f hn
    | some e =>
      rw [Option.bind_some]
      cases hg : g (r.state i) e with
      | none => exact h.quiet i e he hg
      | some d => exact h.event i e d he hg

/-- Fairness carries over where the agent can go on in the run whenever it can in the image,
and what it does there is shown. -/
theorem image_fair {f : σ → τ} {g : σ → ε → Option δ} (h : r.Shown step' ok' f g)
    {agent : ε → Option α} {agent' : δ → Option β} {a : α} {b : β} (hfair : r.Fair agent a)
    (henabled : ∀ i, Enabled step' agent' b (f (r.state i)) → Enabled step agent a (r.state i))
    (hshown : ∀ s e, agent e = some a → ∃ d, g s e = some d ∧ agent' d = some b) :
    (r.image h).Fair agent' b := by
  intro i hi
  obtain ⟨j,hij,e,he,ha⟩ := hfair i (fun j hj => henabled j (hi j hj))
  obtain ⟨d,hg,hb⟩ := hshown (r.state j) e ha
  refine ⟨j,hij,d,?_,hb⟩
  show (r.event j).bind (g (r.state j)) = some d
  rw [he,Option.bind_some,hg]

end

def after (step : σ → ε → Option σ) (s : σ) (es : List ε) (i : Nat) : σ :=
  (es.take i).foldl (fun t e => (step t e).getD t) s

theorem after_cons {s u : σ} {e : ε} {es : List ε} (he : step s e = some u) (i : Nat) :
    after step s (e :: es) (i + 1) = after step u es i := by
  simp only [after,List.take_succ_cons,List.foldl_cons,he,Option.getD_some]

theorem after_event {s t : σ} {es : List ε} (h : run step ok s es = some t) {i : Nat} {e : ε}
    (he : es[i]? = some e) : ok (after step s es i) e = true ∧
      step (after step s es i) e = some (after step s es (i + 1)) := by
  induction es generalizing s i with
  | nil => cases he
  | cons x es ih =>
    obtain ⟨hok,hb⟩ := Option.ite_none_right_eq_some.mp h
    obtain ⟨u,hu,ht⟩ := Option.bind_eq_some_iff.mp hb
    cases i with
    | zero =>
      cases he
      rw [after_cons hu]
      exact ⟨hok,hu⟩
    | succ i =>
      rw [after_cons hu,after_cons hu]
      exact ih ht he

theorem after_end {s t : σ} {es : List ε} (h : run step ok s es = some t) {i : Nat}
    (hi : es.length ≤ i) : after step s es i = t := by
  induction es generalizing s i with
  | nil =>
    cases h
    rw [after,List.take_nil]
    rfl
  | cons x es ih =>
    obtain ⟨_,hb⟩ := Option.ite_none_right_eq_some.mp h
    obtain ⟨u,hu,ht⟩ := Option.bind_eq_some_iff.mp hb
    cases i with
    | zero => simp at hi
    | succ i =>
      rw [after_cons hu]
      exact ih ht (Nat.le_of_succ_le_succ hi)

def ofEvents {s t : σ} {es : List ε} (h : run step ok s es = some t) : Run step ok where
  state := after step s es
  event i := es[i]?
  next i := by
    cases he : es[i]? with
    | none =>
      have hlen := List.getElem?_eq_none_iff.mp he
      exact (after_end h (by omega)).trans (after_end h hlen).symm
    | some e => exact after_event h he

/-- An agent that cannot go on at the end of the events has not been held up. -/
theorem ofEvents_fair {s t : σ} {es : List ε} (h : run step ok s es = some t)
    {agent : ε → Option α} {a : α} (hend : ¬ Enabled step agent a t) :
    (ofEvents h).Fair agent a := by
  intro i hi
  have henabled := hi (max i es.length) (Nat.le_max_left ..)
  have hstate : (ofEvents h).state (max i es.length) = t := after_end h (Nat.le_max_right ..)
  rw [hstate] at henabled
  exact absurd henabled hend

end Run

end Transition
