import NewRpc.Chains
import NewRpc.Places

/-!
Every coroutine chain is in exactly one place: one of its frames, the leaf, is in a queue,
with a worker, in the timer, in the table of waiting calls or on its way between two of them.
-/

set_option autoImplicit false

namespace NewRpc.FrameWork
open NewRpc.Task Time

section
variable {V : Type}

def CoroFrameWork.Unfinished (s : CoroFrameWork V) (r : Nat) : Prop :=
  (s.coro.frames r).frameRunningCnt = true ∧ s.coro.stage r ≠ .done

structure CoroFrameWork.OnePlace (s : CoroFrameWork V) : Prop where
  leaf : ∀ r, s.Unfinished r → ∃ l f, s.coro.CallStack r (l ++ [f]) ∧
    (∃! p, f ∈ s.held p) ∧ ∀ g ∈ l, ∀ p, g ∉ s.held p
  apart : ∀ p q f, f ∈ s.held p → f ∈ s.held q → p = q
  single : ∀ p, (s.held p).Nodup
  workers : ∀ v w phase phase' f, s.workers v = .busy phase f → s.workers w = .busy phase' f →
    v = w
  once : ∀ f, s.resumptions.count f ≤ s.suspensions.count f
  /-- No assertion fails, and no frame is resumed that is not suspended. -/
  goesOn : ∀ e, s.enabled e = true → ∃ t, s.exec e = some t

structure CoroFrameWork.Kept (s : CoroFrameWork V) : Prop where
  reached : Transition.Reaches Coroutines.step (fun _ _ => true) .start s.coro
  running : s.coro.stopFlag = false
  placed : Placed s.held s.coro.stage s.timer.sleep
  keys : ∀ v f, s.waitingCoros v = some f → (s.coro.frames f).coroLocalVar = some v
  counted : Counted s.resumptions s.suspensions s.coro.stage

variable {s t : CoroFrameWork V}

theorem acts_stopFlag {c d : Coroutines V} {e : Task.Event V} (h : c.Acts e d) (he : e ≠ .stop) :
    d.stopFlag = c.stopFlag := by
  cases h with
  | stop => exact absurd rfl he
  | drop => cases ‹Option Nat› <;> rfl
  | commit _ _ hstop => simp [Coroutines.commit,hstop,Coroutines.setStage,Coroutines.setFrame,
      Coroutines.inc]
  | resume | start | await =>
    unfold Coroutines.begin
    split <;> rfl
  | complete =>
    unfold Coroutines.complete Coroutines.deleteLocal Coroutines.report Coroutines.countDown
    split <;> split <;> split <;> rfl
  | _ => rfl

theorem CoroFrameWork.Kept.next (h : s.Kept) {e : Task.Event V}
    (he : s.coro.step e = some t.coro) (hstop : e ≠ .stop)
    (hplaced : Placed t.held t.coro.stage t.timer.sleep)
    (hkeys : ∀ v f, t.waitingCoros v = some f → s.waitingCoros v = some f)
    (hcounted : Counted t.resumptions t.suspensions t.coro.stage) : t.Kept := by
  have hacts := Coroutines.step_acts he
  obtain ⟨hledger,stack,hchained⟩ := Coroutines.reaches_chained h.reached
  refine ⟨h.reached.tail ⟨e,rfl,he⟩,(acts_stopFlag hacts hstop).trans h.running,hplaced,?_,
    hcounted⟩
  intro v f hv
  have hold := hkeys v f hv
  have hin : f ∈ s.held (.waiting v) := by simp [CoroFrameWork.held,hold]
  rw [hchained.var_suspended hledger hacts (h.placed.fits _ f hin).1]
  exact h.keys v f hold

theorem CoroFrameWork.Kept.same (h : s.Kept) (hcoro : t.coro = s.coro)
    (hplaced : Placed t.held s.coro.stage t.timer.sleep)
    (hkeys : ∀ v f, t.waitingCoros v = some f → s.waitingCoros v = some f)
    (hr : t.resumptions = s.resumptions) (hs : t.suspensions = s.suspensions) : t.Kept := by
  refine ⟨?_,?_,?_,fun v f hv => ?_,?_⟩
  · rw [hcoro]
    exact h.reached
  · rw [hcoro]
    exact h.running
  · rw [hcoro]
    exact hplaced
  · rw [hcoro]
    exact h.keys v f (hkeys v f hv)
  · rw [hcoro,hr,hs]
    exact h.counted

theorem append_some {f : Nat} (h : ∀ p, f ∉ s.held p) :
    s.append f = some { s with coroutineQueue := s.coroutineQueue ++ [f] } := by
  rw [CoroFrameWork.append,linked_false h]
  rfl

/-- `m` is `s` without a frame that is suspended in an action, and the frame is committed. -/
theorem CoroFrameWork.Kept.awaken {m : CoroFrameWork V} (h : s.Kept) {f : Nat} {p : Place}
    {rest : List Nat} {τ : Sleep} (hp : (s.held p).Perm (f :: rest)) (hpq : p ≠ .queue)
    (hheld : m.held = Function.update s.held p rest) (hcoro : m.coro = s.coro)
    (hsleep : m.timer.sleep = Function.update s.timer.sleep f τ)
    (hstage : s.coro.stage f = .suspended) (hτ : τ = .awake ∨ τ = .committed)
    (hkeys : ∀ v f, m.waitingCoros v = some f → s.waitingCoros v = some f)
    (hr : m.resumptions = s.resumptions) (hs : m.suspensions = s.suspensions) :
    ∃ t, m.awaken f = some t ∧ t.Kept := by
  let u : CoroFrameWork V := { m with coro := s.coro.setStage f .queued }
  have hwake : s.coro.step (.wake f) = some (s.coro.setStage f .queued) := if_pos hstage
  have hgone : ∀ q, f ∉ u.held q := by
    intro q
    show f ∉ m.held q
    rw [hheld]
    exact h.placed.gone hp q
  refine ⟨{ u with coroutineQueue := u.coroutineQueue ++ [f] },?_,?_⟩
  · have hact : m.act (.wake f) = some u := by simp [CoroFrameWork.act,hcoro,hwake,u]
    rw [CoroFrameWork.awaken,hact]
    exact append_some hgone
  · refine h.next (e := .wake f) hwake (by simp) ?_ hkeys ?_
    · show Placed ({ u with coroutineQueue := u.coroutineQueue ++ [f] }.held)
        (Function.update s.coro.stage f .queued) m.timer.sleep
      have hu : u.held = m.held := rfl
      have hqueue : u.coroutineQueue = s.held .queue := by
        show m.held .queue = _
        rw [hheld,Function.update_of_ne (Ne.symm hpq)]
      rw [held_queue,hu,hheld,hqueue,hsleep]
      exact h.placed.move hp hpq rfl (.inr ⟨rfl,hτ⟩)
    · show Counted m.resumptions m.suspensions (Function.update s.coro.stage f .queued)
      rw [hr,hs]
      exact h.counted.keep (by rw [hstage]; rfl)

theorem CoroFrameWork.Kept.handle (h : s.Kept) {e : Task.Event V} {c : Coroutines V}
    (he : s.coro.step e = some c) (hh : handles e = true) :
    ∃ t, s.act e = some t ∧ t.Kept := by
  obtain ⟨hledger,_⟩ := Coroutines.reaches_chained h.reached
  have hstop : e ≠ .stop := by
    intro heq
    rw [heq] at hh
    cases hh
  refine ⟨{ s with coro := c },by simp [CoroFrameWork.act,he],?_⟩
  have hstage : c.stage = s.coro.stage ∨
      c.stage = Function.update s.coro.stage s.coro.count .fresh := by
    cases Coroutines.step_acts he with
    | create => exact .inr rfl
    | drop => exact .inl (s.coro.drop_stage _ _)
    | copy | move | request => exact .inl rfl
    | refused | commit | stop | resume | start | suspend | wake | run | await | back | complete
    | giveBack | release => cases hh
  have hdone := hledger.next_done
  rcases hstage with hstage | hstage
  · refine h.next he hstop ?_ (fun _ _ hv => hv) ?_
    · show Placed s.held c.stage s.timer.sleep
      rw [hstage]
      exact h.placed
    · show Counted s.resumptions s.suspensions c.stage
      rw [hstage]
      exact h.counted
  · refine h.next he hstop ?_ (fun _ _ hv => hv) ?_
    · show Placed s.held c.stage s.timer.sleep
      rw [hstage]
      exact h.placed.off (by rw [hdone]; rfl) rfl
    · show Counted s.resumptions s.suspensions c.stage
      rw [hstage]
      exact h.counted.keep (by rw [hdone]; rfl)

theorem CoroFrameWork.Kept.commit (h : s.Kept) {i f : Nat} (hi : s.coro.startable i = some f) :
    ∃ t, s.commit i = some t ∧ t.Kept := by
  have hf := (Coroutines.startable_some hi).2
  have hstep : s.coro.step (.commit i) = some (s.coro.commit f) := by
    simp [Coroutines.step,hi]
  have hstage := Coroutines.commit_stage h.running f
  refine ⟨{ s with
    coro := s.coro.commit f
    committing := s.committing ++ [f]
    suspensions := s.suspensions ++ [f] },?_,?_⟩
  · simp [CoroFrameWork.commit,CoroFrameWork.act,hi,hstep]
  · refine h.next hstep (by simp) ?_ (fun _ _ hv => hv) ?_
    · show Placed ({ s with committing := s.committing ++ [f] }.held) (s.coro.commit f).stage
        s.timer.sleep
      rw [held_committing,hstage]
      have hnot : onTop (s.coro.stage f) = false := by rw [hf]; rfl
      exact h.placed.enter hnot rfl ⟨rfl,h.placed.awake f hnot⟩
    · show Counted s.resumptions (s.suspensions ++ [f]) (s.coro.commit f).stage
      rw [hstage]
      exact h.counted.suspend (by rw [hf]; rfl) rfl

theorem CoroFrameWork.Kept.enqueue (h : s.Kept) {f : Nat} (hf : f ∈ s.committing) :
    ∃ t, { s with committing := s.committing.erase f }.append f = some t ∧ t.Kept := by
  let m : CoroFrameWork V := { s with committing := s.committing.erase f }
  have hp : (s.held .committing).Perm (f :: s.committing.erase f) := List.perm_cons_erase hf
  have hfits := h.placed.fits .committing f hf
  have hgone : ∀ q, f ∉ m.held q := by
    intro q
    rw [held_committing]
    exact h.placed.gone hp q
  refine ⟨{ m with coroutineQueue := m.coroutineQueue ++ [f] },append_some hgone,?_⟩
  refine h.same rfl ?_ (fun _ _ hv => hv) rfl rfl
  show Placed ({ m with coroutineQueue := m.coroutineQueue ++ [f] }.held) s.coro.stage
    s.timer.sleep
  have hpass := h.placed.pass (q := .queue) hp (by simp) (by rw [hfits.1]; rfl) (.inl hfits)
  rw [Function.update_eq_self] at hpass
  rw [held_queue,held_committing]
  exact hpass

theorem CoroFrameWork.Kept.fetch (h : s.Kept) {w : Nat} (hw : s.workers w = .looping) :
    ∃ t, s.fetch w = some t ∧ t.Kept := by
  cases hq : s.coroutineQueue with
  | nil => exact ⟨s,by simp [CoroFrameWork.fetch,hq],h⟩
  | cons f rest =>
    let m : CoroFrameWork V := { s with coroutineQueue := rest }
    have hp : (s.held .queue).Perm (f :: rest) := .of_eq hq
    have hfits := h.placed.fits .queue f (hp.mem_iff.mpr (by simp))
    have hlive := h.placed.places.live .queue f (hp.mem_iff.mpr (by simp))
    have hgone : ∀ q, f ∉ m.held q := by
      intro q
      rw [held_queue]
      exact h.placed.gone hp q
    have hlinked : m.linked f = false := linked_false hgone
    refine ⟨m.setWorker w (.busy .fetched f),?_,?_⟩
    · simp only [CoroFrameWork.fetch,hq]
      rw [if_neg (by simp [m,hlinked])]
    · refine h.same rfl ?_ (fun _ _ hv => hv) rfl rfl
      show Placed ((m.setWorker w (.busy .fetched f)).held) s.coro.stage s.timer.sleep
      have hpass := h.placed.pass (q := .worker w .fetched) hp (by simp) hlive hfits
      rw [Function.update_eq_self] at hpass
      have hm : m.held (.worker w .fetched) = s.held (.worker w .fetched) := rfl
      rw [held_busy (s := m) hw,hm,held_queue]
      exact hpass

theorem Placed.advance {w f : Nat} {phase phase' : Phase} {σ : Stage} {τ : Sleep}
    (h : Placed s.held s.coro.stage s.timer.sleep) (hw : s.workers w = .busy phase f)
    (hne : phase ≠ phase') (hσ : onTop σ = true) (hfit : phase'.Fits σ τ) :
    Placed (s.setWorker w (.busy phase' f)).held (Function.update s.coro.stage f σ)
      (Function.update s.timer.sleep f τ) := by
  rw [held_advance hw hne]
  exact h.move (.of_eq (held_worker hw)) (by simp [hne]) hσ hfit

theorem Placed.proceed {w f : Nat} {phase phase' : Phase} {σ : Stage}
    (h : Placed s.held s.coro.stage s.timer.sleep) (hw : s.workers w = .busy phase f)
    (hne : phase ≠ phase') (hσ : onTop σ = true) (hfit : phase'.Fits σ (s.timer.sleep f)) :
    Placed (s.setWorker w (.busy phase' f)).held (Function.update s.coro.stage f σ)
      s.timer.sleep := by
  have hadvance := Placed.advance h hw hne hσ hfit
  rw [Function.update_eq_self] at hadvance
  exact hadvance

theorem Placed.change {w f g : Nat} {phase phase' : Phase} {σ τ : Stage}
    (h : Placed s.held s.coro.stage s.timer.sleep) (hw : s.workers w = .busy phase f)
    (hgf : g ≠ f) (hf : s.timer.sleep f = .awake) (hσ : onTop σ = false)
    (hg : onTop (s.coro.stage g) = false) (hτ : onTop τ = true)
    (hfit : phase'.Fits τ .awake) :
    Placed (s.setWorker w (.busy phase' g)).held
      (Function.update (Function.update s.coro.stage f σ) g τ) s.timer.sleep := by
  rw [held_next hw]
  have hleave := h.leave (.of_eq (held_worker hw)) hσ hf
  refine hleave.enter ?_ hτ ?_
  · rw [Function.update_of_ne hgf]
    exact hg
  · rw [h.awake g hg]
    exact hfit

theorem CoroFrameWork.Kept.at_ (h : s.Kept) {w f : Nat} {phase : Phase}
    (hw : s.workers w = .busy phase f) : phase.Fits (s.coro.stage f) (s.timer.sleep f) :=
  h.placed.fits (.worker w phase) f (by simp [held_worker hw])

theorem forget_sleep {timer : ListThread} {f : Nat}
    (h : timer.sleep f = .awake ∨ timer.sleep f = .committed) :
    ((timer.step (.resume f)).getD timer).held = timer.held ∧
      ((timer.step (.resume f)).getD timer).sleep = Function.update timer.sleep f .awake := by
  rcases h with h | h
  · have hnone : timer.step (.resume f) = none := if_neg (by simp [h])
    rw [hnone]
    exact ⟨rfl,by rw [← h,Function.update_eq_self]; rfl⟩
  · have hsome : timer.step (.resume f) = some (timer.setSleep f .awake) := if_pos h
    rw [hsome]
    exact ⟨TimeThread.held_congr (fun _ => rfl) rfl,rfl⟩

theorem CoroFrameWork.Kept.resume (h : s.Kept) {w f : Nat} (hw : s.workers w = .busy .fetched f) :
    ∃ t, s.resume w f = some t ∧ t.Kept := by
  have hready : Ready (s.coro.stage f) (s.timer.sleep f) := h.at_ hw
  obtain ⟨e,c,he,hstep,hstage,hstop⟩ : ∃ (e : Task.Event V) (c : Coroutines V),
      (if s.coro.stage f = .committed then .start f else .run f) = e ∧
        s.coro.step e = some c ∧ c.stage = Function.update s.coro.stage f .running ∧
          e ≠ .stop := by
    rcases hready with ⟨hf,_⟩ | ⟨hf,_⟩
    · exact ⟨_,_,if_pos hf,if_pos hf,s.coro.begin_stage f,by simp⟩
    · exact ⟨_,_,if_neg (by simp [hf]),if_pos hf,rfl,by simp⟩
  have hup : s.timer.sleep f = .awake ∨ s.timer.sleep f = .committed := by
    rcases hready with ⟨_,ha⟩ | ⟨_,ha⟩
    · exact .inl ha
    · exact ha
  obtain ⟨hheld,hsleep⟩ := forget_sleep hup
  have hwaits : waits (s.coro.stage f) = true := by
    rcases hready with ⟨hf,_⟩ | ⟨hf,_⟩ <;> rw [hf] <;> rfl
  let m : CoroFrameWork V := { s with timer := (s.timer.step (.resume f)).getD s.timer }
  refine ⟨{ m with coro := c, resumptions := s.resumptions ++ [f] }.setWorker w
    (.busy .resumed f),?_,?_⟩
  · simp only [CoroFrameWork.resume,he,hstep]
    rfl
  · refine h.next hstep hstop ?_ (fun _ _ hv => hv) ?_
    · show Placed (m.setWorker w (.busy .resumed f)).held c.stage m.timer.sleep
      have hm : m.held = s.held := held_timer hheld
      have hmw : m.workers w = .busy .fetched f := hw
      rw [held_advance hmw (by simp),hm,hstage,hsleep]
      exact h.placed.move (.of_eq (held_worker hw)) (by simp) rfl ⟨rfl,rfl⟩
    · show Counted (s.resumptions ++ [f]) s.suspensions c.stage
      rw [hstage]
      exact h.counted.resume hwaits rfl

theorem CoroFrameWork.Kept.await (h : s.Kept) {w f i child : Nat}
    (hw : s.workers w = .busy .resumed f) (hi : s.coro.startable i = some child) :
    ∃ t, s.await w f i = some t ∧ t.Kept := by
  obtain ⟨_,stack,hchained⟩ := Coroutines.reaches_chained h.reached
  have hfit : s.coro.stage f = .running ∧ s.timer.sleep f = .awake := h.at_ hw
  have hc := (Coroutines.startable_some hi).2
  have hcf : child ≠ f := by
    intro heq
    rw [heq,hfit.1] at hc
    cases hc
  obtain ⟨c,hstep,hstage⟩ : ∃ c, s.coro.step (.await f i) = some c ∧ c.stage = Function.update
      (Function.update s.coro.stage f (.awaiting s.coro.tasks.length)) child .running := by
    obtain ⟨frames,hstep⟩ := hchained.threads.step_await hfit.1 hi
    exact ⟨_,hstep,Coroutines.begin_stage _ child⟩
  refine ⟨{ s with coro := c }.setWorker w (.busy .resumed child),?_,?_⟩
  · simp [CoroFrameWork.await,CoroFrameWork.act,hi,hstep]
  · refine h.next hstep (by simp) ?_ (fun _ _ hv => hv) ?_
    · show Placed (s.setWorker w (.busy .resumed child)).held c.stage s.timer.sleep
      rw [hstage]
      exact Placed.change h.placed hw hcf hfit.2 rfl (by rw [hc]; rfl) rfl ⟨rfl,rfl⟩
    · show Counted s.resumptions s.suspensions c.stage
      rw [hstage]
      refine (h.counted.keep (by rw [hfit.1]; rfl)).keep ?_
      rw [Function.update_of_ne hcf,hc]
      rfl

theorem CoroFrameWork.Kept.finish (h : s.Kept) {w f : Nat} (hw : s.workers w = .busy .resumed f)
    (result : Option V) : ∃ t, s.finish w f result = some t ∧ t.Kept := by
  obtain ⟨_,stack,hchained⟩ := Coroutines.reaches_chained h.reached
  have hfit : s.coro.stage f = .running ∧ s.timer.sleep f = .awake := h.at_ hw
  cases hroot : (s.coro.frames f).empty f with
  | true =>
    obtain ⟨c,hstep,hstage⟩ : ∃ c, s.coro.step (.finish f result) = some c ∧
        c.stage = Function.update s.coro.stage f .ending :=
      ⟨_,s.coro.step_complete result hfit.1 hroot,(s.coro.returning f result).complete_stage f⟩
    have hcaller : s.caller f = .busy .ending f := if_pos hroot
    refine ⟨{ s with coro := c }.setWorker w (.busy .ending f),?_,?_⟩
    · simp [CoroFrameWork.finish,CoroFrameWork.act,hstep,hcaller]
    · refine h.next hstep (by simp) ?_ (fun _ _ hv => hv) ?_
      · show Placed (s.setWorker w (.busy .ending f)).held c.stage s.timer.sleep
        rw [hstage]
        exact Placed.proceed h.placed hw (by simp) rfl ⟨rfl,hfit.2⟩
      · show Counted s.resumptions s.suspensions c.stage
        rw [hstage]
        exact h.counted.keep (by rw [hfit.1]; rfl)
  | false =>
    obtain ⟨c,p,i,hpf,hprev,hp,hstep,hstage⟩ : ∃ c p i, p ≠ f ∧
        (s.coro.frames f).prev = some p ∧ s.coro.stage p = .awaiting i ∧
          s.coro.step (.finish f result) = some c ∧ c.stage = Function.update
            (Function.update s.coro.stage f .returned) p (.back i) := by
      obtain ⟨frames,p,i,hpf,hprev,hp,_,hstep⟩ :=
        hchained.threads.step_giveBack result hfit.1 hroot
      exact ⟨_,p,i,hpf,hprev,hp,hstep,rfl⟩
    have hcaller : s.caller f = .busy .returned p := by
      simp [CoroFrameWork.caller,hroot,hprev]
    refine ⟨{ s with coro := c }.setWorker w (.busy .returned p),?_,?_⟩
    · simp [CoroFrameWork.finish,CoroFrameWork.act,hstep,hcaller]
    · refine h.next hstep (by simp) ?_ (fun _ _ hv => hv) ?_
      · show Placed (s.setWorker w (.busy .returned p)).held c.stage s.timer.sleep
        rw [hstage]
        exact Placed.change h.placed hw hpf hfit.2 rfl (by rw [hp]; rfl) rfl ⟨⟨i,rfl⟩,rfl⟩
      · show Counted s.resumptions s.suspensions c.stage
        rw [hstage]
        refine (h.counted.keep (by rw [hfit.1]; rfl)).keep ?_
        rw [Function.update_of_ne hpf,hp]
        rfl

theorem CoroFrameWork.Kept.back (h : s.Kept) {w f : Nat} (hw : s.workers w = .busy .returned f) :
    ∃ t, s.back w f = some t ∧ t.Kept := by
  obtain ⟨_,stack,hchained⟩ := Coroutines.reaches_chained h.reached
  obtain ⟨⟨i,hf⟩,hsleep⟩ : (∃ t, s.coro.stage f = .back t) ∧ s.timer.sleep f = .awake := h.at_ hw
  obtain ⟨child,hstep⟩ := hchained.threads.step_back hf
  refine ⟨{ s with coro := (s.coro.drop i (some child)).setStage f .running }.setWorker w
    (.busy .resumed f),?_,?_⟩
  · simp [CoroFrameWork.back,CoroFrameWork.act,hstep]
  · refine h.next hstep (by simp) ?_ (fun _ _ hv => hv) ?_
    · exact Placed.proceed h.placed hw (by simp) rfl ⟨rfl,hsleep⟩
    · exact h.counted.keep (by rw [hf]; rfl)

theorem CoroFrameWork.Kept.release (h : s.Kept) {w f : Nat} (hw : s.workers w = .busy .ending f) :
    ∃ t, s.release w f = some t ∧ t.Kept := by
  have hfit : s.coro.stage f = .ending ∧ s.timer.sleep f = .awake := h.at_ hw
  have hstep : s.coro.step (.release f) = some ((s.coro.release f).setStage f .done) :=
    if_pos hfit.1
  refine ⟨{ s with coro := (s.coro.release f).setStage f .done }.setWorker w .looping,?_,?_⟩
  · simp [CoroFrameWork.release,CoroFrameWork.act,hstep]
  · refine h.next hstep (by simp) ?_ (fun _ _ hv => hv) ?_
    · show Placed (s.setWorker w .looping).held (Function.update s.coro.stage f .done)
        s.timer.sleep
      rw [held_free hw]
      exact h.placed.leave (.of_eq (held_worker hw)) rfl hfit.2
    · exact h.counted.keep (by rw [hfit.1]; rfl)

theorem CoroFrameWork.Kept.suspend (h : s.Kept) {w f : Nat}
    (hw : s.workers w = .busy .resumed f) (action : Action) :
    ∃ t, s.suspend w f action = some t ∧ t.Kept := by
  have hfit : s.coro.stage f = .running ∧ s.timer.sleep f = .awake := h.at_ hw
  have hstep : s.coro.step (.suspend f) = some (s.coro.setStage f .suspended) := if_pos hfit.1
  refine ⟨{ s with
    coro := s.coro.setStage f .suspended
    suspensions := s.suspensions ++ [f] }.setWorker w
      (.busy (action.phase s.timer.clock) f),?_,?_⟩
  · simp [CoroFrameWork.suspend,CoroFrameWork.act,hstep]
  · refine h.next hstep (by simp) ?_ (fun _ _ hv => hv) ?_
    · have hphase : Phase.resumed ≠ action.phase s.timer.clock := by
        cases action <;> simp [Action.phase]
      refine Placed.proceed (σ := .suspended) h.placed hw hphase rfl ?_
      cases action <;> exact ⟨rfl,hfit.2⟩
    · exact h.counted.suspend (by rw [hfit.1]; rfl) rfl

theorem CoroFrameWork.Kept.coSuspend (h : s.Kept) {w f : Nat}
    (hw : s.workers w = .busy .coSuspend f) :
    ∃ t, (s.setWorker w .looping).awaken f = some t ∧ t.Kept := by
  have hfit : s.coro.stage f = .suspended ∧ s.timer.sleep f = .awake := h.at_ hw
  refine h.awaken (m := s.setWorker w .looping) (τ := .awake) (.of_eq (held_worker hw)) (by simp)
    (held_free hw) rfl ?_ hfit.1 (.inl rfl) (fun _ _ hv => hv) rfl rfl
  rw [← hfit.2,Function.update_eq_self]
  rfl

theorem CoroFrameWork.Kept.sleep (h : s.Kept) {w f : Nat} {wakeUpTs : Ts}
    (hw : s.workers w = .busy (.coSleep wakeUpTs) f) :
    ∃ t, s.sleep w f wakeUpTs = some t ∧ t.Kept := by
  obtain ⟨_,stack,hchained⟩ := Coroutines.reaches_chained h.reached
  have hfit : s.coro.stage f = .suspended ∧ s.timer.sleep f = .awake := h.at_ hw
  have hvar := hchained.begun f (by rw [hfit.1]; rfl)
  obtain ⟨coroId,hv⟩ := Option.ne_none_iff_exists'.mp hvar
  have hstep : s.timer.step (.enter f wakeUpTs) = some (s.timer.enter f wakeUpTs) :=
    if_pos hfit.2
  obtain ⟨τ,hsleep,hheld,hτ⟩ : ∃ τ, (s.timer.enter f wakeUpTs).sleep =
      Function.update s.timer.sleep f τ ∧ (s.timer.enter f wakeUpTs).held = s.timer.held ∧
        (τ = .missAwaken ∨ ∃ idx, τ = .entered idx) := by
    rw [TimeThread.enter_eq]
    split
    · exact ⟨_,rfl,TimeThread.held_congr (fun _ => rfl) rfl,.inl rfl⟩
    · exact ⟨_,rfl,TimeThread.held_congr (fun _ => rfl) rfl,.inr ⟨_,rfl⟩⟩
  let m : CoroFrameWork V := { s with timer := s.timer.enter f wakeUpTs }
  let phase : Phase := if m.timer.sleep f = .missAwaken then .missAwaken else .registering
  have hself : m.timer.sleep f = τ := by
    show (s.timer.enter f wakeUpTs).sleep f = τ
    rw [hsleep,Function.update_self]
  refine ⟨m.setWorker w (.busy phase f),?_,?_⟩
  · simp only [CoroFrameWork.sleep,hv,hstep]
    rfl
  · refine h.same rfl ?_ (fun _ _ hv => hv) rfl rfl
    have hm : m.held = s.held := held_timer hheld
    have hmw : m.workers w = .busy (.coSleep wakeUpTs) f := hw
    have hphase : Phase.coSleep wakeUpTs ≠ phase := by
      simp only [phase]
      split <;> simp
    have hphaseFit : phase.Fits (s.coro.stage f) τ := by
      simp only [phase,hself]
      rcases hτ with hτ | ⟨idx,hτ⟩
      · rw [if_pos hτ]
        exact ⟨hfit.1,hτ⟩
      · rw [if_neg (by simp [hτ])]
        exact ⟨hfit.1,idx,hτ⟩
    show Placed (m.setWorker w (.busy phase f)).held s.coro.stage m.timer.sleep
    have hmove := h.placed.move (q := .worker w phase) (σ := s.coro.stage f)
      (.of_eq (held_worker hw)) (by simp [hphase]) (by rw [hfit.1]; rfl) hphaseFit
    rw [Function.update_eq_self,← hsleep] at hmove
    rw [held_advance hmw hphase,hm]
    exact hmove

theorem CoroFrameWork.Kept.register (h : s.Kept) {w f : Nat}
    (hw : s.workers w = .busy .registering f) : ∃ t, s.register w f = some t ∧ t.Kept := by
  obtain ⟨hf,idx,hidx⟩ : s.coro.stage f = .suspended ∧ ∃ idx, s.timer.sleep f = .entered idx :=
    h.at_ hw
  have hstep : s.timer.step (.lock f) = s.timer.lock f idx := by
    simp only [TimeThread.step,hidx]
  rw [TimeThread.lock_eq] at hstep
  by_cases hover : (s.timer.buckets idx).scanOverTs ≥ s.timer.wakeUpTs f
  · rw [if_pos hover] at hstep
    let m : CoroFrameWork V := { s with timer := s.timer.setSleep f .missAwaken }
    have hmiss : m.timer.sleep f = .missAwaken := TimeThread.setSleep_self s.timer f .missAwaken
    refine ⟨m.setWorker w (.busy .missAwaken f),?_,?_⟩
    · simp only [CoroFrameWork.register,hstep]
      exact if_pos hmiss
    · refine h.same rfl ?_ (fun _ _ hv => hv) rfl rfl
      have hm : m.held = s.held := held_timer (TimeThread.held_congr (fun _ => rfl) rfl)
      have hmw : m.workers w = .busy .registering f := hw
      show Placed (m.setWorker w (.busy .missAwaken f)).held s.coro.stage
        (Function.update s.timer.sleep f .missAwaken)
      have hmove := h.placed.move (q := .worker w .missAwaken) (σ := s.coro.stage f)
        (.of_eq (held_worker hw)) (by simp) (by rw [hf]; rfl) ⟨hf,rfl⟩
      rw [Function.update_eq_self] at hmove
      rw [held_advance hmw (by simp),hm]
      exact hmove
  · rw [if_neg hover] at hstep
    let m : CoroFrameWork V := s.setWorker w .looping
    have hp : (s.held (.worker w .registering)).Perm [f] := .of_eq (held_worker hw)
    have hgone : ∀ q, f ∉ m.held q := by
      intro q
      rw [held_free hw]
      exact h.placed.gone hp q
    have hasleep : (s.timer.append f idx).sleep f = .asleep idx := by
      rw [TimeThread.append_sleep,Function.update_self]
    refine ⟨{ m with timer := s.timer.append f idx },?_,?_⟩
    · simp only [CoroFrameWork.register,hstep]
      rw [if_neg (by simp [hasleep])]
      exact if_neg (by rw [linked_false hgone]; simp)
    · refine h.same rfl ?_ (fun _ _ hv => hv) rfl rfl
      have hmove := h.placed.move (q := .timer (some idx)) (σ := s.coro.stage f)
        (τ := .asleep idx) hp (by simp) (by rw [hf]; rfl) ⟨hf,idx,rfl⟩
      rw [Function.update_eq_self] at hmove
      have hheld : { m with timer := s.timer.append f idx }.held = Function.update m.held
          (.timer (some idx)) (s.held (.timer (some idx)) ++ [f]) :=
        held_bucket (TimeThread.append_held s.timer f idx)
      show Placed { m with timer := s.timer.append f idx }.held s.coro.stage
        (s.timer.append f idx).sleep
      rw [hheld,held_free hw,TimeThread.append_sleep]
      exact hmove

/-- In a chain that waits for a call, no other frame can make one. -/
theorem CoroFrameWork.Kept.unregistered (h : s.Kept) {w f coroId : Nat}
    (hw : s.workers w = .busy .coRpc f) (hv : (s.coro.frames f).coroLocalVar = some coroId) :
    s.waitingCoros coroId = none := by
  obtain ⟨_,stack,hchained⟩ := Coroutines.reaches_chained h.reached
  have hfit : s.coro.stage f = .suspended ∧ s.timer.sleep f = .awake := h.at_ hw
  cases hg : s.waitingCoros coroId with
  | none => rfl
  | some g =>
    have hin : g ∈ s.held (.waiting coroId) := by simp [CoroFrameWork.held,hg]
    have hgfit := h.placed.fits (.waiting coroId) g hin
    obtain ⟨r,l,hr⟩ := hchained.threads.top (f := f) (by simp [hfit.1]) (by simp [hfit.1])
    obtain ⟨q,k,hq⟩ := hchained.threads.top (f := g) (by simp [hgfit.1]) (by simp [hgfit.1])
    have hvr := (hchained.shared r f (by simp [hr])).symm.trans hv
    have hvq := (hchained.shared q g (by simp [hq])).symm.trans (h.keys coroId g hg)
    have hrq := hchained.apart r q coroId (by simp [hr]) (by simp [hq]) hvr hvq
    have hfg : f = g := by
      rw [← hrq,hr] at hq
      exact (List.append_inj' hq rfl).2 |> List.singleton_injective
    have hplace := h.placed.places.apart (.waiting coroId) (.worker w .coRpc) f (hfg ▸ hin)
      (by simp [held_worker hw])
    cases hplace

theorem CoroFrameWork.Kept.call (h : s.Kept) {w f : Nat} (hw : s.workers w = .busy .coRpc f) :
    ∃ t, s.call w f = some t ∧ t.Kept := by
  obtain ⟨_,stack,hchained⟩ := Coroutines.reaches_chained h.reached
  have hfit : s.coro.stage f = .suspended ∧ s.timer.sleep f = .awake := h.at_ hw
  obtain ⟨coroId,hv⟩ := Option.ne_none_iff_exists'.mp (hchained.begun f (by rw [hfit.1]; rfl))
  have hnone := h.unregistered hw hv
  let m : CoroFrameWork V := s.setWorker w .looping
  let t : CoroFrameWork V := { m with
    waitingCoros := Function.update m.waitingCoros coroId (some f) }
  refine ⟨t,?_,h.reached,h.running,?_,fun v g hg => ?_,h.counted⟩
  · simp only [CoroFrameWork.call,hv,hnone]
    rfl
  · show Placed t.held s.coro.stage s.timer.sleep
    have hpass := h.placed.pass (q := .waiting coroId) (σ := s.coro.stage f)
      (.of_eq (held_worker hw)) (by simp) (by rw [hfit.1]; rfl) hfit
    rw [Function.update_eq_self] at hpass
    have hempty : s.held (.waiting coroId) = [] := by simp [CoroFrameWork.held,hnone]
    rw [hempty] at hpass
    rw [held_waiting m,held_free hw]
    exact hpass
  · change Function.update s.waitingCoros coroId (some f) v = some g at hg
    show (s.coro.frames g).coroLocalVar = some v
    by_cases hvc : v = coroId
    · rw [hvc,Function.update_self] at hg
      rw [hvc,← Option.some.inj hg]
      exact hv
    · rw [Function.update_of_ne hvc] at hg
      exact h.keys v g hg

theorem time_quiet {e : TimeEvent} {timer : ListThread} (he : s.timer.step e = some timer)
    (hfired : timer.fired = s.timer.fired) : s.time e = some { s with timer := timer } := by
  simp [CoroFrameWork.time,he,hfired]

theorem time_fired {e : TimeEvent} {timer : ListThread} {fired : Fired}
    (he : s.timer.step e = some timer) (hfired : timer.fired = s.timer.fired ++ [fired]) :
    s.time e = { s with timer := timer }.awaken fired.frame := by
  simp [CoroFrameWork.time,he,hfired]

theorem CoroFrameWork.Kept.missAwaken (h : s.Kept) {w f : Nat}
    (hw : s.workers w = .busy .missAwaken f) :
    ∃ t, (s.setWorker w .looping).time (.commit f) = some t ∧ t.Kept := by
  have hfit : s.coro.stage f = .suspended ∧ s.timer.sleep f = .missAwaken := h.at_ hw
  let m : CoroFrameWork V := s.setWorker w .looping
  have hstep : m.timer.step (.commit f) = some (s.timer.fire f) := if_pos hfit.2
  rw [time_fired (s := m) hstep rfl]
  refine h.awaken (m := { m with timer := s.timer.fire f }) (τ := .committed)
    (.of_eq (held_worker hw)) (by simp) ?_ rfl rfl hfit.1 (.inr rfl) (fun _ _ hv => hv) rfl rfl
  have hheld : { m with timer := s.timer.fire f }.held = m.held :=
    held_timer (TimeThread.held_congr (fun _ => rfl) rfl)
  exact hheld.trans (held_free hw)

theorem CoroFrameWork.Kept.ticked (h : s.Kept) {e : TimeEvent} {timer : ListThread}
    (he : s.timer.step e = some timer) (ht : Ticked s.timer timer) :
    ∃ t, s.time e = some t ∧ t.Kept := by
  cases ht with
  | idle hheld hsleep hfired =>
    refine ⟨_,time_quiet he hfired,h.same rfl ?_ (fun _ _ hv => hv) rfl rfl⟩
    show Placed { s with timer := timer }.held s.coro.stage timer.sleep
    rw [held_timer hheld,hsleep]
    exact h.placed
  | @scan idx due hempty hheld hsleep hfired =>
    refine ⟨_,time_quiet he hfired,h.same rfl ?_ (fun _ _ hv => hv) rfl rfl⟩
    show Placed { s with timer := timer }.held s.coro.stage timer.sleep
    rw [held_buckets hheld,hsleep]
    exact @Placed.scan _ _ _ h.placed idx hempty due
  | @wake fired rest htaken hheld hsleep hfired =>
    rw [time_fired he hfired]
    have hp : (s.held (.timer none)).Perm (fired.frame :: rest) := .of_eq htaken
    have hfit := h.placed.fits (.timer none) fired.frame (hp.mem_iff.mpr (by simp))
    exact h.awaken (m := { s with timer := timer }) (τ := .committed) hp (by simp)
      (held_bucket hheld) rfl hsleep hfit.1 (.inr rfl) (fun _ _ hv => hv) rfl rfl

theorem CoroFrameWork.Kept.erase (h : s.Kept) (hfree : s.needAwak = none) (coroId : Nat)
    (awakens : Bool) : (s.erase coroId awakens).Kept := by
  unfold CoroFrameWork.erase
  split
  · exact h
  · rename_i f hf
    cases awakens with
    | false => exact h
    | true =>
      let m : CoroFrameWork V := { s with
        waitingCoros := Function.update s.waitingCoros coroId none }
      have hp : (s.held (.waiting coroId)).Perm [f] := .of_eq (by simp [CoroFrameWork.held,hf])
      have hfit := h.placed.fits (.waiting coroId) f (hp.mem_iff.mpr (by simp))
      show CoroFrameWork.Kept { m with needAwak := some f }
      refine h.same rfl ?_ (fun v g hg => ?_) rfl rfl
      · have hpass := h.placed.pass (q := .needAwak) (σ := s.coro.stage f) hp (by simp)
          (by rw [hfit.1]; rfl) hfit
        rw [Function.update_eq_self] at hpass
        have hempty : s.held .needAwak = [] := by simp [CoroFrameWork.held,hfree]
        rw [hempty] at hpass
        show Placed { m with needAwak := some f }.held s.coro.stage s.timer.sleep
        rw [held_needAwak m,held_waiting s]
        exact hpass
      · change Function.update s.waitingCoros coroId none v = some g at hg
        by_cases hv : v = coroId
        · rw [hv,Function.update_self] at hg
          cases hg
        · rw [Function.update_of_ne hv] at hg
          exact hg

theorem CoroFrameWork.Kept.deliver (h : s.Kept) {f : Nat} (hf : s.needAwak = some f) :
    ∃ t, s.deliver = some t ∧ t.Kept := by
  have hp : (s.held .needAwak).Perm [f] := .of_eq (by simp [CoroFrameWork.held,hf])
  have hfit := h.placed.fits .needAwak f (hp.mem_iff.mpr (by simp))
  have hdeliver : s.deliver = { s with needAwak := none }.awaken f := by
    simp only [CoroFrameWork.deliver,hf]
  rw [hdeliver]
  refine h.awaken (m := { s with needAwak := none }) (τ := .awake) hp (by simp)
    (held_needAwak s none) rfl ?_ hfit.1 (.inl rfl) (fun _ _ hv => hv) rfl rfl
  rw [← hfit.2,Function.update_eq_self]

theorem CoroFrameWork.Kept.goOn (h : s.Kept) {w : Nat} {choice : Choice V}
    (he : s.enabled (.worker w choice) = true) : ∃ t, s.goOn w choice = some t ∧ t.Kept := by
  simp only [CoroFrameWork.enabled] at he
  unfold CoroFrameWork.goOn
  cases hw : s.workers w with
  | absent =>
    rw [hw] at he
    cases he
  | looping => exact h.fetch hw
  | busy phase f =>
    cases phase with
    | fetched => exact h.resume hw
    | resumed =>
      rw [hw] at he
      cases choice with
      | await i =>
        obtain ⟨child,hi⟩ := Option.isSome_iff_exists.mp he
        exact h.await hw hi
      | suspend action => exact h.suspend hw action
      | finish result => exact h.finish hw result
    | returned => exact h.back hw
    | ending => exact h.release hw
    | coSuspend => exact h.coSuspend hw
    | coSleep wakeUpTs => exact h.sleep hw
    | registering => exact h.register hw
    | missAwaken => exact h.missAwaken hw
    | coRpc => exact h.call hw

/-- Whoever may take a step can take it, and the invariant holds after it. -/
theorem CoroFrameWork.Kept.exec (h : s.Kept) {e : Event V} (he : s.enabled e = true) :
    ∃ t, s.exec e = some t ∧ t.Kept := by
  cases e with
  | handle e =>
    obtain ⟨hh,hsome⟩ := Bool.and_eq_true_iff.mp he
    obtain ⟨c,hc⟩ := Option.isSome_iff_exists.mp hsome
    exact h.handle hc hh
  | commit i =>
    obtain ⟨f,hf⟩ := Option.isSome_iff_exists.mp he
    exact h.commit hf
  | enqueue f => exact h.enqueue (List.contains_iff_mem.mp he)
  | worker w choice => exact h.goOn he
  | tick now =>
    obtain ⟨timer,ht⟩ := Option.isSome_iff_exists.mp he
    refine h.ticked ht ?_
    cases TimeThread.step_timed ht with
    | tick => exact .idle (TimeThread.held_congr (fun _ => rfl) rfl) rfl rfl
  | timer =>
    obtain ⟨timer,ht⟩ := Option.isSome_iff_exists.mp he
    exact h.ticked ht (TimeThread.step_timed ht).ticked
  | receive coroId awakens => exact ⟨_,rfl,h.erase (Option.isNone_iff_eq_none.mp he) coroId awakens⟩
  | timeout coroId => exact ⟨_,rfl,h.erase (Option.isNone_iff_eq_none.mp he) coroId true⟩
  | deliver =>
    obtain ⟨f,hf⟩ := Option.isSome_iff_exists.mp he
    exact h.deliver hf

theorem CoroFrameWork.Kept.step (h : s.Kept) {e : Event V} (he : s.step e = some t) :
    t.Kept := by
  obtain ⟨henabled,hexec⟩ := Option.ite_none_right_eq_some.mp he
  obtain ⟨u,hu,hkept⟩ := h.exec henabled
  rw [hexec] at hu
  cases hu
  exact hkept

theorem CoroFrameWork.start_held (workerThreadNum : Nat) (precision : Ts)
    (precise : precision ≠ 0) (now : Ts) (p : Place) :
    (start workerThreadNum precision precise now : CoroFrameWork V).held p = [] := by
  cases p with
  | worker w phase =>
    by_cases hw : w < workerThreadNum
    · simp [held,start,Worker.held,hw]
    · simp [held,start,Worker.held,hw]
  | timer o => cases o <;> rfl
  | _ => rfl

theorem CoroFrameWork.start_kept (workerThreadNum : Nat) (precision : Ts)
    (precise : precision ≠ 0) (now : Ts) :
    (start workerThreadNum precision precise now : CoroFrameWork V).Kept := by
  have hnone := start_held (V := V) workerThreadNum precision precise now
  refine ⟨.refl,rfl,⟨Custody.exclusive_empty ?_ hnone,fun p f hf => ?_,fun _ _ => rfl⟩,?_,
    fun f => rfl⟩
  · simp [start,Coroutines.start,onTop]
  · rw [hnone] at hf
    cases hf
  · simp [start]

/-- The leaf of an unfinished chain is in a place, and the frames below it are in none. -/
theorem CoroFrameWork.Kept.leaf (h : s.Kept) {r : Nat} (hr : s.Unfinished r) :
    ∃ l f, s.coro.CallStack r (l ++ [f]) ∧ (∃! p, f ∈ s.held p) ∧
      ∀ g ∈ l, ∀ p, g ∉ s.held p := by
  obtain ⟨hledger,stack,hchained⟩ := Coroutines.reaches_chained h.reached
  obtain ⟨hcnt,hdone⟩ := hr
  have hactive : s.coro.stage r ≠ .returned := by
    intro hret
    rw [hchained.left r hret] at hcnt
    cases hcnt
  obtain ⟨q,hq⟩ := (hchained.threads.active r).mp hactive
  have hroot : r ∈ stack r := by
    rw [← hchained.heads q r hq hcnt] at hq
    exact hq
  have hstack := hchained.threads.callStack (List.ne_nil_of_mem hroot)
  rcases List.eq_nil_or_concat (stack r) with hnil | ⟨l,f,hl⟩
  · rw [hnil] at hroot
    cases hroot
  · rw [List.concat_eq_append] at hl
    have hin : f ∈ stack r := by simp [hl]
    have hcallee := hchained.threads.leaf r f (by simp [hl])
    have hreturned := (hchained.threads.active f).mpr ⟨r,hin⟩
    have hidle : (s.coro.stage f).idle = true → f = r := by
      intro hi
      exact (hchained.threads.alone (hchained.threads.idle f hi) hin).symm
    have hlive : onTop (s.coro.stage f) = true := by
      cases hf : s.coro.stage f with
      | fresh =>
        have hfr := hidle (by rw [hf]; rfl)
        rw [← hfr,hledger.fresh f hf] at hcnt
        cases hcnt
      | done =>
        have hfr := hidle (by rw [hf]; rfl)
        exact absurd (hfr ▸ hf) hdone
      | awaiting i =>
        obtain ⟨c,hc⟩ := hchained.threads.kept f i (by rw [hf]; rfl)
        rw [Coroutines.callee_awaiting hf hc] at hcallee
        cases hcallee
      | returned => exact absurd hf hreturned
      | _ => rfl
    refine ⟨l,f,hl ▸ hstack,h.placed.places.unique hlive,fun g hg p hp => ?_⟩
    -- a frame below the leaf awaits the next one
    obtain ⟨a,b,hab⟩ := List.append_of_mem hg
    have hchain := hchained.threads.calls r
    rw [hl,hab,List.append_assoc,List.cons_append] at hchain
    have hcall : ∃ c, s.coro.callee g = some c := by
      cases b with
      | nil => exact ⟨_,(List.isChain_cons_cons.mp hchain.right_of_append).1⟩
      | cons c b => exact ⟨_,(List.isChain_cons_cons.mp hchain.right_of_append).1⟩
    obtain ⟨c,hc⟩ := hcall
    obtain ⟨i,hg',_⟩ := Coroutines.callee_some hc
    have hnot := h.placed.places.live p g hp
    rw [hg'] at hnot
    cases hnot

theorem CoroFrameWork.Kept.onePlace (h : s.Kept) : s.OnePlace := by
  refine ⟨fun r hr => h.leaf hr,h.placed.places.apart,h.placed.places.once,
    fun v w phase phase' f hv hw => ?_,h.counted.le,fun e he => ?_⟩
  · have hplace := h.placed.places.apart (.worker v phase) (.worker w phase') f
      (by simp [held_worker hv]) (by simp [held_worker hw])
    simp only [Place.worker.injEq] at hplace
    exact hplace.1
  · obtain ⟨t,ht,_⟩ := h.exec he
    exact ⟨t,ht⟩

end

theorem chains_in_one_place {V : Type} (workerThreadNum : Nat) (precision : Ts)
    (precise : precision ≠ 0) (now : Ts) (s : CoroFrameWork V)
    (h : Transition.Reaches CoroFrameWork.step (fun _ _ => true)
      (.start workerThreadNum precision precise now) s) : s.OnePlace := by
  have hkept := h.invariant (I := CoroFrameWork.Kept)
    (fun s e t hs _ he => CoroFrameWork.Kept.step hs he) (CoroFrameWork.start_kept _ _ _ _)
  exact hkept.onePlace

def sleepsAndCalls : List (Event Int) :=
  [.handle .create,.commit 0,.enqueue 0,.worker 0 (.finish none),.worker 0 (.finish none),
    .handle .create,.worker 0 (.await 1),.worker 0 (.suspend (.coSleep 5000000)),
    .worker 0 (.finish none),.handle .create,.commit 3,.enqueue 2,.worker 1 (.finish none),
    .worker 1 (.finish none),.worker 1 (.suspend .coRpc),.worker 1 (.finish none),
    .receive 1 true,.worker 0 (.finish none),.deliver,.worker 0 (.finish none),
    .worker 0 (.finish none)]

theorem sleepsAndCalls_one_place : ∃ s : CoroFrameWork Int, s.held (.timer (some 5)) = [1] ∧
    s.workers 0 = .busy .resumed 2 ∧ s.coro.callee 0 = some 1 ∧ s.resumptions = [0,2,2] ∧
      s.OnePlace := by
  have hrun : (Transition.run CoroFrameWork.step (fun _ _ => true)
      (.start 2 1000000 (by decide) 0) sleepsAndCalls).map (fun s =>
        (s.held (.timer (some 5)),s.workers 0,s.coro.callee 0,s.resumptions)) =
      some ([1],.busy .resumed 2,some 1,[0,2,2]) := by decide +kernel
  obtain ⟨s,hs,heq⟩ := Option.map_eq_some_iff.mp hrun
  simp only [Prod.mk.injEq] at heq
  obtain ⟨h1,h2,h3,h4⟩ := heq
  exact ⟨s,h1,h2,h3,h4,chains_in_one_place 2 1000000 (by decide) 0 s (Transition.reaches_of_run hs)⟩

end NewRpc.FrameWork
