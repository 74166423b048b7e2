import NewRpc.Fairness

/-!
Flags that are raised under a lock, and threads that wait for them on condition variables: a
thread looks at its flag under the lock, and where the flag is down it gives up the lock and
blocks in one step. It may be woken when nothing has been raised.
-/

set_option autoImplicit false

namespace Latch
open Transition

variable {K : Type}

inductive Phase where
  | entering
  | blocked
  | woken
  | through
  deriving DecidableEq, Repr

def Phase.looks : Phase → Bool
  | .entering | .woken => true
  | .blocked | .through => false

structure Waiter (K : Type) where
  key : K
  phase : Phase
  deriving DecidableEq, Repr

def Waiter.look (raised : K → Bool) (w : Waiter K) : Waiter K :=
  { w with phase := if raised w.key then .through else .blocked }

def Waiter.notified (p : K → Bool) (w : Waiter K) : Waiter K :=
  if p w.key && w.phase == .blocked then { w with phase := .woken } else w

structure State (K : Type) where
  raised : K → Bool
  waiters : List (Waiter K)

inductive Event (K : Type) where
  | call (k : K)
  | look (i : Nat)
  | wake (i : Nat)
  | raise (p : K → Bool)

def State.step (s : State K) : Event K → Option (State K)
  | .call k => some { s with waiters := s.waiters ++ [⟨k,.entering⟩] }
  | .look i => match s.waiters[i]? with
      | none => none
      | some w =>
          if w.phase.looks then some { s with waiters := s.waiters.set i (w.look s.raised) }
          else none
  | .wake i => match s.waiters[i]? with
      | none => none
      | some w =>
          if w.phase = .blocked then some { s with waiters := s.waiters.set i ⟨w.key,.woken⟩ }
          else none
  | .raise p => some ⟨fun k => s.raised k || p k,s.waiters.map (Waiter.notified p)⟩

def Event.agent : Event K → Option Nat
  | .look i => some i
  | _ => none

inductive Waiter.Goes (raised raised' : K → Bool) (w : Waiter K) : Waiter K → Prop
  | stays (h : w.phase = .blocked → raised' w.key = raised w.key) : Goes raised raised' w w
  | looked (h : w.phase.looks = true) : Goes raised raised' w (w.look raised')
  | woken (h : w.phase = .blocked) : Goes raised raised' w ⟨w.key,.woken⟩

theorem Waiter.Goes.key {raised raised' : K → Bool} {w w' : Waiter K}
    (h : w.Goes raised raised' w') : w'.key = w.key := by
  cases h <;> rfl

theorem Waiter.notified_goes (raised p : K → Bool) (w : Waiter K) :
    w.Goes raised (fun k => raised k || p k) (w.notified p) := by
  unfold notified
  split
  · rename_i h
    simp only [Bool.and_eq_true,beq_iff_eq] at h
    exact .woken h.2
  · rename_i h
    refine .stays (fun hb => ?_)
    simp only [hb,beq_self_eq_true,Bool.and_true] at h
    simp only [Bool.eq_false_iff.mpr h,Bool.or_false]

theorem State.step_raised {s t : State K} {e : Event K} (h : s.step e = some t) {k : K}
    (hk : s.raised k = true) : t.raised k = true := by
  cases e with
  | call k' =>
    cases h
    exact hk
  | look i | wake i =>
    simp only [step] at h
    split at h
    · cases h
    · obtain ⟨_,h⟩ := Option.ite_none_right_eq_some.mp h
      cases h
      exact hk
  | raise p =>
    cases h
    show (s.raised k || p k) = true
    rw [hk,Bool.true_or]

theorem State.step_goes {s t : State K} {e : Event K} (h : s.step e = some t) {i : Nat}
    {w : Waiter K} (hi : s.waiters[i]? = some w) :
    ∃ w', t.waiters[i]? = some w' ∧ w.Goes s.raised t.raised w' := by
  cases e with
  | call k =>
    cases h
    exact ⟨w,List.getElem?_append_left (List.getElem?_eq_some_iff.mp hi).1 ▸ hi,
      .stays (fun _ => rfl)⟩
  | look j =>
    simp only [step] at h
    split at h
    · cases h
    · rename_i v hv
      obtain ⟨hlooks,h⟩ := Option.ite_none_right_eq_some.mp h
      cases h
      by_cases hij : j = i
      · subst hij
        cases hi.symm.trans hv
        exact ⟨_,by simp [(List.getElem?_eq_some_iff.mp hi).1],.looked hlooks⟩
      · exact ⟨w,(List.getElem?_set_ne hij).trans hi,.stays (fun _ => rfl)⟩
  | wake j =>
    simp only [step] at h
    split at h
    · cases h
    · rename_i v hv
      obtain ⟨hblocked,h⟩ := Option.ite_none_right_eq_some.mp h
      cases h
      by_cases hij : j = i
      · subst hij
        cases hi.symm.trans hv
        exact ⟨_,by simp [(List.getElem?_eq_some_iff.mp hi).1],.woken hblocked⟩
      · exact ⟨w,(List.getElem?_set_ne hij).trans hi,.stays (fun _ => rfl)⟩
  | raise p =>
    cases h
    exact ⟨_,by rw [List.getElem?_map,hi]; rfl,w.notified_goes s.raised p⟩

theorem State.step_new {s t : State K} {e : Event K} (h : s.step e = some t) {i : Nat}
    {w : Waiter K} (hi : t.waiters[i]? = some w) :
    (∃ v, s.waiters[i]? = some v) ∨ w.phase = .entering := by
  have hlen : (∀ k, e ≠ .call k) → t.waiters.length = s.waiters.length := by
    intro hne
    cases e with
    | call k => exact absurd rfl (hne k)
    | look j | wake j =>
      simp only [step] at h
      split at h
      · cases h
      · obtain ⟨_,h⟩ := Option.ite_none_right_eq_some.mp h
        cases h
        exact List.length_set
    | raise p =>
      cases h
      exact List.length_map _
  have hlt := (List.getElem?_eq_some_iff.mp hi).1
  cases e with
  | call k =>
    cases h
    rw [List.getElem?_append] at hi
    split at hi
    · exact .inl ⟨w,hi⟩
    · rw [List.getElem?_singleton] at hi
      obtain ⟨_,hw⟩ := Option.ite_none_right_eq_some.mp hi
      cases hw
      exact .inr rfl
  | _ =>
    rw [hlen (fun _ => nofun)] at hlt
    exact .inl ⟨_,List.getElem?_eq_getElem hlt⟩

/-- A thread that is blocked waits for a flag that is down, and one that is through has found
its flag raised. -/
structure State.Sound (s : State K) : Prop where
  blocked : ∀ w ∈ s.waiters, w.phase = .blocked → s.raised w.key = false
  through : ∀ w ∈ s.waiters, w.phase = .through → s.raised w.key = true

theorem State.Sound.goes {s t : State K} (h : s.Sound) {w w' : Waiter K} (hw : w ∈ s.waiters)
    (hraised : ∀ k, s.raised k = true → t.raised k = true) (hg : w.Goes s.raised t.raised w') :
    (w'.phase = .blocked → t.raised w'.key = false) ∧
      (w'.phase = .through → t.raised w'.key = true) := by
  cases hg with
  | stays hstays =>
    exact ⟨fun hb => (hstays hb).trans (h.blocked w hw hb),
      fun ht => hraised _ (h.through w hw ht)⟩
  | looked =>
    simp only [Waiter.look]
    cases hk : t.raised w.key <;> simp
  | woken => simp

theorem State.Sound.step {s t : State K} {e : Event K} (h : s.Sound) (he : s.step e = some t) :
    t.Sound := by
  have hall : ∀ w' ∈ t.waiters, (w'.phase = .blocked → t.raised w'.key = false) ∧
      (w'.phase = .through → t.raised w'.key = true) := by
    intro w' hin
    obtain ⟨i,hi⟩ := List.mem_iff_getElem?.mp hin
    rcases step_new he hi with ⟨w,hw⟩ | hnew
    · obtain ⟨v,hv,hg⟩ := step_goes he hw
      cases hi.symm.trans hv
      exact h.goes (List.mem_of_getElem? hw) (fun k => step_raised he) hg
    · simp [hnew]
  exact ⟨fun w hw => (hall w hw).1,fun w hw => (hall w hw).2⟩

def State.Waits (i : Nat) (k : K) (s : State K) : Prop :=
  ∃ w, s.waiters[i]? = some w ∧ w.key = k ∧ w.phase.looks = true

def State.Through (i : Nat) (k : K) (s : State K) : Prop :=
  s.waiters[i]? = some ⟨k,.through⟩

theorem State.Waits.step {s t : State K} {e : Event K} (h : s.step e = some t) {i : Nat} {k : K}
    (hk : s.raised k = true) (hi : s.Waits i k) : t.Waits i k ∨ t.Through i k := by
  obtain ⟨w,hw,rfl,hlooks⟩ := hi
  obtain ⟨w',hw',hg⟩ := step_goes h hw
  cases hg with
  | stays => exact .inl ⟨w,hw',rfl,hlooks⟩
  | looked =>
    refine .inr (hw'.trans ?_)
    rw [Waiter.look,if_pos (step_raised h hk)]
  | woken => exact .inl ⟨_,hw',rfl,rfl⟩

theorem State.Waits.enabled {s : State K} {i : Nat} {k : K} (h : s.Waits i k) :
    Enabled State.step Event.agent i s := by
  obtain ⟨w,hw,_,hlooks⟩ := h
  refine ⟨.look i,rfl,?_⟩
  simp only [State.step,hw,hlooks,if_true,Option.isSome_some]

theorem State.looked_through {s t : State K} {i : Nat} {k : K} (h : s.step (.look i) = some t)
    (hk : s.raised k = true) (hi : s.Waits i k) : t.Through i k := by
  obtain ⟨w,hw,rfl,hlooks⟩ := hi
  simp only [step,hw,hlooks,if_true,Option.some.injEq] at h
  subst h
  simp [Through,Waiter.look,hk,(List.getElem?_eq_some_iff.mp hw).1]

theorem raised_leadsTo_through {ok : State K → Event K → Bool} {r : Run State.step ok}
    (hsound : (r.state 0).Sound) {i : Nat} (hfair : r.Fair Event.agent i) (k : K) :
    r.LeadsTo (fun s => s.raised k = true ∧ ∃ w, s.waiters[i]? = some w ∧ w.key = k)
      (State.Through i k) := by
  have hall : ∀ j, (r.state j).Sound := fun j =>
    (r.reaches j).invariant (fun _ _ _ hs _ he => hs.step he) hsound
  have hlooks : r.LeadsTo (fun s => s.raised k = true ∧ s.Waits i k) (State.Through i k) := by
    refine Run.leadsTo_of_fair (I := fun _ => True) (fun _ => trivial) hfair
      (fun s _ h => h.2.enabled) (fun s e t _ h he => ?_) (fun s e t _ h ha he => ?_)
    · rcases h.2.step he h.1 with hw | ht
      · exact .inl ⟨State.step_raised he h.1,hw⟩
      · exact .inr ht
    · cases e with
      | look j =>
        cases ha
        exact State.looked_through he h.1 h.2
      | _ => cases ha
  rintro j ⟨hk,w,hw,rfl⟩
  cases hp : w.phase with
  | entering => exact hlooks j ⟨hk,w,hw,rfl,by rw [hp]; rfl⟩
  | woken => exact hlooks j ⟨hk,w,hw,rfl,by rw [hp]; rfl⟩
  | blocked =>
    have hdown := (hall j).blocked w (List.mem_of_getElem? hw) hp
    cases hk.symm.trans hdown
  | through => exact ⟨j,Nat.le_refl j,by rw [State.Through,hw,← hp]⟩

end Latch
