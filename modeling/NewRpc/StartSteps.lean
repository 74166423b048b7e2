import NewRpc.StartUp

/-!
What each step of the start of a scheduler leaves alone, and what holds in every state of it.
-/

set_option autoImplicit false

namespace NewRpc.Sched
open Transition

variable {n : Nat} {ndebug : Bool} {s t : StartUp}

theorem StartUp.step_alive {e : StartEvent} (he : s.step n ndebug e = some t) :
    s.aborted = false := by
  unfold step at he
  split at he
  · cases he
  · rename_i h
    exact Bool.eq_false_iff.mpr h

theorem StartEvent.agent_main {e : StartEvent} (h : e.agent = some .main) :
    e = .main ∨ e = .fails := by
  cases e with
  | main => exact .inl rfl
  | fails => exact .inr rfl
  | pool e => cases e <;> cases h
  | timer | opens | openFails | acceptFails | request c | serve | runReturns => cases h

def StartUp.Did (n : Nat) (ndebug : Bool) (s t : StartUp) : StartEvent → Prop
  | .main => s.proceed n = some t
  | .fails => s.fail n = some t
  | .timer => s.turnTimer = some t
  | .opens => s.polls ∧ s.listener = .opening ∧
      t = { s with listener := .accepting, promise := true }
  | .openFails => s.polls ∧ s.listener = .opening ∧ t = { s with listener := .ended }
  | .acceptFails => s.polls ∧ s.listener = .accepting ∧ t = { s with listener := .ended }
  | .request c => s.polls ∧ s.promise = true ∧ s.pool.commits c = .idle ∧ t = s.request ndebug c
  | .serve => s.net = .running ∧ s.serve = some t
  | .runReturns => s.net = .running ∧ s.serving = none ∧
      (s.ioStopped = true ∨ s.listener = .ended) ∧ t = { s with net := .returned }
  | .pool e => s.allows e = true ∧ ∃ pool, s.pool.step e = some pool ∧ t = { s with pool := pool }

theorem StartUp.did {e : StartEvent} (he : s.step n ndebug e = some t) : s.Did n ndebug t e := by
  have halive := step_alive he
  unfold step at he
  rw [if_neg (by simp [halive])] at he
  cases e with
  | main | fails | timer => exact he
  | serve => exact Option.ite_none_right_eq_some.mp he
  | opens | openFails | acceptFails =>
    obtain ⟨⟨hpolls,hlistener⟩,heq⟩ := Option.ite_none_right_eq_some.mp he
    exact ⟨hpolls,hlistener,(Option.some.inj heq).symm⟩
  | request c =>
    obtain ⟨⟨hpolls,hpromise,hidle⟩,heq⟩ := Option.ite_none_right_eq_some.mp he
    exact ⟨hpolls,hpromise,hidle,(Option.some.inj heq).symm⟩
  | runReturns =>
    obtain ⟨⟨hnet,hserving,hdone⟩,heq⟩ := Option.ite_none_right_eq_some.mp he
    exact ⟨hnet,hserving,hdone,(Option.some.inj heq).symm⟩
  | pool e =>
    obtain ⟨hallow,heq⟩ := Option.ite_none_right_eq_some.mp he
    obtain ⟨pool,hpool,ht⟩ := Option.map_eq_some_iff.mp heq
    exact ⟨hallow,pool,hpool,ht.symm⟩

structure StartUp.Apart (s t : StartUp) : Prop where
  main : t.main = s.main
  tlsScheduler : t.tlsScheduler = s.tlsScheduler
  tlsFramework : t.tlsFramework = s.tlsFramework
  stopFlag : t.pool.stopFlag = s.pool.stopFlag
  timeStopFlag : t.timeStopFlag = s.timeStopFlag
  ioStopped : t.ioStopped = s.ioStopped
  workers : t.workers = s.workers
  joined : t.joined = s.joined
  timer : s.timer = .absent ∨ s.timer = .joined → t.timer = s.timer
  timerJoined : t.timer = .joined → s.timer = .joined
  net : s.net = .absent ∨ s.net = .joined → t.net = s.net
  netJoined : t.net = .joined → s.net = .joined

theorem StartUp.fail_eq (h : s.fail n = some t) :
    (s.main = .startTimer ∨ s.main = .startNet ∨ ∃ idx, s.main = .startWorker idx) ∧
      ∃ flag, t = { s with timeStopFlag := flag, main := .stopWorkers } := by
  unfold fail at h
  split at h
  · rename_i hm
    cases h
    exact ⟨.inl hm,_,rfl⟩
  · rename_i hm
    cases h
    exact ⟨.inr (.inl hm),_,rfl⟩
  · rename_i idx hm
    obtain ⟨_,heq⟩ := Option.ite_none_right_eq_some.mp h
    cases heq
    exact ⟨.inr (.inr ⟨idx,hm⟩),_,rfl⟩
  · cases h

theorem StartUp.turnTimer_eq (h : s.turnTimer = some t) : ∃ timer, t = { s with timer := timer } ∧
    timer ≠ .joined ∧ s.timer ≠ .absent ∧ s.timer ≠ .joined := by
  unfold turnTimer at h
  split at h
  · rename_i hs
    cases h
    exact ⟨_,rfl,by simp,by simp [hs],by simp [hs]⟩
  · rename_i hs
    cases h
    refine ⟨_,rfl,?_,by simp [hs],by simp [hs]⟩
    split <;> simp
  · rename_i hs
    cases h
    refine ⟨_,rfl,?_,by simp [hs],by simp [hs]⟩
    split <;> simp
  · cases h

theorem StartUp.serve_eq (h : s.serve = some t) : ∃ c, s.serving = some c ∧
    (s.pool.commits c = .loaded ∧ t = { s with pool := s.pool.count c } ∨
      s.pool.commits c = .counted ∧ t = { s with pool := s.pool.enqueue c, serving := none }) := by
  unfold serve at h
  split at h
  · cases h
  · rename_i c hc
    split at h
    · rename_i hl
      cases h
      exact ⟨c,hc,.inl ⟨hl,rfl⟩⟩
    · rename_i hl
      cases h
      exact ⟨c,hc,.inr ⟨hl,rfl⟩⟩
    · cases h

theorem StartUp.allows_ne_stop {e : Event} (h : s.allows e = true) : e ≠ .stop := by
  rintro rfl
  cases h

theorem StartUp.apart {e : StartEvent} (he : s.step n ndebug e = some t)
    (hagent : e.agent ≠ some .main) : s.Apart t := by
  have hdid := did he
  cases e with
  | main | fails => exact absurd rfl hagent
  | timer =>
    obtain ⟨timer,rfl,hj,hs1,hs2⟩ := turnTimer_eq hdid
    exact ⟨rfl,rfl,rfl,rfl,rfl,rfl,rfl,rfl,fun h => absurd h (by simp [hs1,hs2]),
      fun h => absurd h hj,fun _ => rfl,id⟩
  | opens | openFails | acceptFails =>
    obtain ⟨_,_,rfl⟩ := hdid
    exact ⟨rfl,rfl,rfl,rfl,rfl,rfl,rfl,rfl,fun _ => rfl,id,fun _ => rfl,id⟩
  | request c =>
    obtain ⟨_,_,_,rfl⟩ := hdid
    exact ⟨rfl,rfl,rfl,rfl,rfl,rfl,rfl,rfl,fun _ => rfl,id,fun _ => rfl,id⟩
  | serve =>
    obtain ⟨c,_,⟨_,rfl⟩ | ⟨_,rfl⟩⟩ := serve_eq hdid.2
    · exact ⟨rfl,rfl,rfl,rfl,rfl,rfl,rfl,rfl,fun _ => rfl,id,fun _ => rfl,id⟩
    · exact ⟨rfl,rfl,rfl,rfl,rfl,rfl,rfl,rfl,fun _ => rfl,id,fun _ => rfl,id⟩
  | runReturns =>
    obtain ⟨hnet,_,_,rfl⟩ := hdid
    exact ⟨rfl,rfl,rfl,rfl,rfl,rfl,rfl,rfl,fun _ => rfl,id,fun h => absurd h (by simp [hnet]),
      fun h => by cases h⟩
  | pool e =>
    obtain ⟨hallow,pool,hpool,rfl⟩ := hdid
    exact ⟨rfl,rfl,rfl,(Pool.frame hpool).stopFlag (allows_ne_stop hallow),rfl,rfl,rfl,rfl,
      fun _ => rfl,id,fun _ => rfl,id⟩

def StartEvent.aboutListener : StartEvent → Bool
  | .main | .fails | .opens | .openFails | .acceptFails => true
  | _ => false

theorem StartUp.listener_frame {e : StartEvent} (h : e.aboutListener = false)
    (he : s.step n ndebug e = some t) :
    t.main = s.main ∧ t.listener = s.listener ∧ t.promise = s.promise := by
  have hdid := did he
  cases e with
  | main | fails | opens | openFails | acceptFails => cases h
  | timer =>
    obtain ⟨timer,rfl,_⟩ := turnTimer_eq hdid
    exact ⟨rfl,rfl,rfl⟩
  | request c | runReturns =>
    obtain ⟨_,_,_,rfl⟩ := hdid
    exact ⟨rfl,rfl,rfl⟩
  | serve =>
    obtain ⟨c,_,⟨_,rfl⟩ | ⟨_,rfl⟩⟩ := serve_eq hdid.2
    · exact ⟨rfl,rfl,rfl⟩
    · exact ⟨rfl,rfl,rfl⟩
  | pool e =>
    obtain ⟨_,pool,_,rfl⟩ := hdid
    exact ⟨rfl,rfl,rfl⟩

/-- The promise is fulfilled by the listener alone, and `start` waits for it. -/
structure StartUp.Listening (s : StartUp) : Prop where
  unspawned : s.main = .entry ∨ s.main = .startTimer ∨ s.main = .startNet → s.listener = .absent
  opening : s.listener = .opening → s.main = .awaitFuture
  promise : s.promise = true → s.listener = .accepting ∨ s.listener = .ended
  accepting : s.listener = .accepting → s.promise = true

/-- A step that is not about the listener, and not from where `start` waits for it. -/
theorem StartUp.Listening.moves (h : s.Listening) (hl : t.listener = s.listener)
    (hp : t.promise = s.promise) (hmain : s.main ≠ .awaitFuture)
    (hunspawned : t.main = .entry ∨ t.main = .startTimer ∨ t.main = .startNet →
      s.main = .entry ∨ s.main = .startTimer) : t.Listening := by
  refine ⟨fun hm => ?_,fun ho => ?_,fun hpt => ?_,fun ha => ?_⟩
  · rw [hl]
    exact h.unspawned ((hunspawned hm).imp_right .inl)
  · rw [hl] at ho
    exact absurd (h.opening ho) hmain
  · rw [hl]
    exact h.promise (hp ▸ hpt)
  · rw [hp]
    exact h.accepting (hl ▸ ha)

theorem StartUp.Listening.proceed (h : s.Listening) (he : s.proceed n = some t) :
    t.Listening := by
  cases hm : s.main with
  | entry | startTimer | clearStop | stopWorkers | stopTimer | stopNet =>
    simp only [StartUp.proceed,hm,Option.some.injEq] at he
    rw [← he]
    exact h.moves rfl rfl (by simp [hm]) (by simp [goto,hm])
  | startNet =>
    simp only [StartUp.proceed,hm,Option.some.injEq] at he
    rw [← he]
    have habsent := h.unspawned (.inr (.inr hm))
    exact ⟨by simp,fun _ => rfl,fun hp => by simpa [habsent] using h.promise hp,by simp⟩
  | awaitFuture =>
    simp only [StartUp.proceed,hm] at he
    obtain ⟨hp,heq⟩ := Option.ite_none_right_eq_some.mp he
    cases heq
    refine ⟨by simp [goto],fun ho => ?_,h.promise,h.accepting⟩
    simpa [show s.listener = .opening from ho] using h.promise hp
  | startWorker idx =>
    simp only [StartUp.proceed,hm] at he
    split at he
    · cases he
      exact h.moves rfl rfl (by simp [hm]) (by simp [goto])
    · cases he
      exact h.moves rfl rfl (by simp [hm]) (by simp [goto])
  | joinTimer | joinNet =>
    simp only [StartUp.proceed,hm] at he
    split at he
    · cases he
      exact h.moves rfl rfl (by simp [hm]) (by simp [goto])
    · cases he
      exact h.moves rfl rfl (by simp [hm]) (by simp)
    · cases he
  | joinWorkers =>
    simp only [StartUp.proceed,hm] at he
    split at he
    · obtain ⟨_,heq⟩ := Option.ite_none_right_eq_some.mp he
      cases heq
      exact h.moves rfl rfl (by simp [hm]) (by simp [hm])
    · cases he
      exact h.moves rfl rfl (by simp [hm]) (by simp [goto])
  | started | threw =>
    simp only [StartUp.proceed,hm] at he
    cases he

theorem StartUp.Listening.step {e : StartEvent} (h : s.Listening)
    (he : s.step n ndebug e = some t) : t.Listening := by
  have hdid := did he
  cases e with
  | main => exact h.proceed hdid
  | fails =>
    obtain ⟨hm,flag,rfl⟩ := fail_eq hdid
    refine h.moves rfl rfl ?_ (by simp)
    rcases hm with hm | hm | ⟨idx,hm⟩
    all_goals simp [hm]
  | opens =>
    obtain ⟨_,hl,rfl⟩ := hdid
    exact ⟨fun hm => by simpa [hl] using h.unspawned hm,by simp,by simp,by simp⟩
  | openFails =>
    obtain ⟨_,hl,rfl⟩ := hdid
    exact ⟨fun hm => by simpa [hl] using h.unspawned hm,by simp,by simp,by simp⟩
  | acceptFails =>
    obtain ⟨_,hl,rfl⟩ := hdid
    exact ⟨fun hm => by simpa [hl] using h.unspawned hm,by simp,by simp,by simp⟩
  | _ =>
    obtain ⟨hm,hl,hp⟩ := listener_frame rfl he
    refine ⟨?_,?_,?_,?_⟩
    · rw [hm,hl]
      exact h.unspawned
    · rw [hm,hl]
      exact h.opening
    · rw [hl,hp]
      exact h.promise
    · rw [hl,hp]
      exact h.accepting

def Main.phase : Main → Nat
  | .stopWorkers => 1
  | .stopTimer => 2
  | .stopNet => 3
  | .joinTimer => 4
  | .joinNet => 5
  | .joinWorkers => 6
  | .threw => 7
  | _ => 0

theorem StartUp.fail_phase (he : s.fail n = some t) :
    s.main.phase = 0 ∧ t.main = .stopWorkers := by
  obtain ⟨hm,flag,rfl⟩ := fail_eq he
  refine ⟨?_,rfl⟩
  rcases hm with hm | hm | ⟨idx,hm⟩
  all_goals simp [hm,Main.phase]

structure StartUp.Caught (s : StartUp) : Prop where
  stopFlag : 2 ≤ s.main.phase → s.pool.stopFlag = true
  timeStopFlag : 3 ≤ s.main.phase → s.timeStopFlag = true
  ioStopped : 4 ≤ s.main.phase → s.ioStopped = true
  timer : 5 ≤ s.main.phase → s.timer = .absent ∨ s.timer = .joined
  timerJoined : s.timer = .joined → 5 ≤ s.main.phase
  net : 6 ≤ s.main.phase → s.net = .absent ∨ s.net = .joined
  netJoined : s.net = .joined → 6 ≤ s.main.phase
  threw : 7 ≤ s.main.phase →
    s.workers ≤ s.joined ∧ s.tlsScheduler = false ∧ s.tlsFramework = false

theorem StartUp.Caught.apart (h : s.Caught) (ha : s.Apart t) : t.Caught := by
  refine ⟨fun hp => ?_,fun hp => ?_,fun hp => ?_,fun hp => ?_,fun hj => ?_,fun hp => ?_,
    fun hj => ?_,fun hp => ?_⟩
  · rw [ha.stopFlag]
    exact h.stopFlag (ha.main ▸ hp)
  · rw [ha.timeStopFlag]
    exact h.timeStopFlag (ha.main ▸ hp)
  · rw [ha.ioStopped]
    exact h.ioStopped (ha.main ▸ hp)
  · have htimer := h.timer (ha.main ▸ hp)
    rw [ha.timer htimer]
    exact htimer
  · rw [ha.main]
    exact h.timerJoined (ha.timerJoined hj)
  · have hnet := h.net (ha.main ▸ hp)
    rw [ha.net hnet]
    exact hnet
  · rw [ha.main]
    exact h.netJoined (ha.netJoined hj)
  · rw [ha.workers,ha.joined,ha.tlsScheduler,ha.tlsFramework]
    exact h.threw (ha.main ▸ hp)

/-- Nothing has been stopped or joined on the way into the `catch` block. -/
theorem StartUp.Caught.outside (hphase : t.main.phase ≤ 1) (htimer : t.timer ≠ .joined)
    (hnet : t.net ≠ .joined) : t.Caught :=
  ⟨fun hp => by omega,fun hp => by omega,fun hp => by omega,fun hp => by omega,
    fun hj => absurd hj htimer,fun hp => by omega,fun hj => absurd hj hnet,fun hp => by omega⟩

theorem StartUp.Caught.timer_ne (h : s.Caught) (hp : s.main.phase < 5) : s.timer ≠ .joined :=
  fun hj => absurd (h.timerJoined hj) (by omega)

theorem StartUp.Caught.net_ne (h : s.Caught) (hp : s.main.phase < 6) : s.net ≠ .joined :=
  fun hj => absurd (h.netJoined hj) (by omega)

theorem StartUp.Caught.proceed (h : s.Caught) (he : s.proceed n = some t) : t.Caught := by
  have htimer := h.timer_ne
  have hnet := h.net_ne
  cases hm : s.main with
  | entry | clearStop =>
    simp only [StartUp.proceed,hm,Option.some.injEq] at he
    rw [hm] at htimer hnet
    rw [← he]
    exact .outside (by simp [goto,Main.phase]) (htimer (by simp [Main.phase]))
      (hnet (by simp [Main.phase]))
  | startTimer =>
    simp only [StartUp.proceed,hm,Option.some.injEq] at he
    rw [hm] at hnet
    rw [← he]
    exact .outside (by simp [Main.phase]) (by simp) (hnet (by simp [Main.phase]))
  | startNet =>
    simp only [StartUp.proceed,hm,Option.some.injEq] at he
    rw [hm] at htimer
    rw [← he]
    exact .outside (by simp [Main.phase]) (htimer (by simp [Main.phase])) (by simp)
  | awaitFuture =>
    simp only [StartUp.proceed,hm] at he
    obtain ⟨_,heq⟩ := Option.ite_none_right_eq_some.mp he
    cases heq
    rw [hm] at htimer hnet
    exact .outside (by simp [goto,Main.phase]) (htimer (by simp [Main.phase]))
      (hnet (by simp [Main.phase]))
  | startWorker idx =>
    simp only [StartUp.proceed,hm] at he
    rw [hm] at htimer hnet
    split at he
    · cases he
      exact .outside (by simp [goto,Main.phase]) (htimer (by simp [Main.phase]))
        (hnet (by simp [Main.phase]))
    · cases he
      exact .outside (by simp [goto,Main.phase]) (htimer (by simp [Main.phase]))
        (hnet (by simp [Main.phase]))
  | stopWorkers =>
    simp only [StartUp.proceed,hm,Option.some.injEq] at he
    rw [hm] at htimer hnet
    rw [← he]
    exact ⟨by simp,by simp [Main.phase],by simp [Main.phase],by simp [Main.phase],
      fun hj => absurd hj (htimer (by simp [Main.phase])),by simp [Main.phase],
      fun hj => absurd hj (hnet (by simp [Main.phase])),by simp [Main.phase]⟩
  | stopTimer =>
    simp only [StartUp.proceed,hm,Option.some.injEq] at he
    have hstop := h.stopFlag (by simp [hm,Main.phase])
    rw [hm] at htimer hnet
    rw [← he]
    exact ⟨fun _ => hstop,by simp,by simp [Main.phase],by simp [Main.phase],
      fun hj => absurd hj (htimer (by simp [Main.phase])),by simp [Main.phase],
      fun hj => absurd hj (hnet (by simp [Main.phase])),by simp [Main.phase]⟩
  | stopNet =>
    simp only [StartUp.proceed,hm,Option.some.injEq] at he
    have hstop := h.stopFlag (by simp [hm,Main.phase])
    have htime := h.timeStopFlag (by simp [hm,Main.phase])
    rw [hm] at htimer hnet
    rw [← he]
    exact ⟨fun _ => hstop,fun _ => htime,by simp,by simp [Main.phase],
      fun hj => absurd hj (htimer (by simp [Main.phase])),by simp [Main.phase],
      fun hj => absurd hj (hnet (by simp [Main.phase])),by simp [Main.phase]⟩
  | joinTimer =>
    simp only [StartUp.proceed,hm] at he
    have hstop := h.stopFlag (by simp [hm,Main.phase])
    have htime := h.timeStopFlag (by simp [hm,Main.phase])
    have hio := h.ioStopped (by simp [hm,Main.phase])
    rw [hm] at hnet
    split at he
    · rename_i habsent
      cases he
      exact ⟨fun _ => hstop,fun _ => htime,fun _ => hio,fun _ => .inl habsent,
        by simp [goto,Main.phase],by simp [goto,Main.phase],
        fun hj => absurd hj (hnet (by simp [Main.phase])),by simp [goto,Main.phase]⟩
    · cases he
      exact ⟨fun _ => hstop,fun _ => htime,fun _ => hio,fun _ => .inr rfl,by simp [Main.phase],
        by simp [Main.phase],fun hj => absurd hj (hnet (by simp [Main.phase])),
        by simp [Main.phase]⟩
    · cases he
  | joinNet =>
    simp only [StartUp.proceed,hm] at he
    have hstop := h.stopFlag (by simp [hm,Main.phase])
    have htime := h.timeStopFlag (by simp [hm,Main.phase])
    have hio := h.ioStopped (by simp [hm,Main.phase])
    have hquiet := h.timer (by simp [hm,Main.phase])
    split at he
    · rename_i habsent
      cases he
      exact ⟨fun _ => hstop,fun _ => htime,fun _ => hio,fun _ => hquiet,
        by simp [goto,Main.phase],fun _ => .inl habsent,by simp [goto,Main.phase],
        by simp [goto,Main.phase]⟩
    · cases he
      exact ⟨fun _ => hstop,fun _ => htime,fun _ => hio,fun _ => hquiet,by simp [Main.phase],
        fun _ => .inr rfl,by simp [Main.phase],by simp [Main.phase]⟩
    · cases he
  | joinWorkers =>
    simp only [StartUp.proceed,hm] at he
    have hstop := h.stopFlag (by simp [hm,Main.phase])
    have htime := h.timeStopFlag (by simp [hm,Main.phase])
    have hio := h.ioStopped (by simp [hm,Main.phase])
    have hquiet := h.timer (by simp [hm,Main.phase])
    have hio' := h.net (by simp [hm,Main.phase])
    split at he
    · obtain ⟨_,heq⟩ := Option.ite_none_right_eq_some.mp he
      cases heq
      exact ⟨fun _ => hstop,fun _ => htime,fun _ => hio,fun _ => hquiet,
        by simp [Main.phase],fun _ => hio',by simp [Main.phase],by simp [Main.phase]⟩
    · rename_i hall
      cases he
      exact ⟨fun _ => hstop,fun _ => htime,fun _ => hio,fun _ => hquiet,
        by simp [goto,Main.phase],fun _ => hio',by simp [goto,Main.phase],
        fun _ => ⟨Nat.le_of_not_lt hall,rfl,rfl⟩⟩
  | started | threw =>
    simp only [StartUp.proceed,hm] at he
    cases he

theorem StartUp.Caught.fail (h : s.Caught) (he : s.fail n = some t) : t.Caught := by
  have hphase := (fail_phase he).1
  obtain ⟨_,flag,rfl⟩ := fail_eq he
  exact .outside (by simp [Main.phase]) (h.timer_ne (by omega)) (h.net_ne (by omega))

theorem StartUp.Caught.step {e : StartEvent} (h : s.Caught) (he : s.step n ndebug e = some t) :
    t.Caught := by
  by_cases hagent : e.agent = some .main
  · rcases StartEvent.agent_main hagent with rfl | rfl
    · exact h.proceed (did he)
    · exact h.fail (did he)
  · exact h.apart (StartUp.apart he hagent)

structure StartUp.Pooled (s : StartUp) : Prop where
  counted : s.pool.Counted
  unstarted : ∀ w, s.workers ≤ w → s.pool.workers w = .left
  joined : ∀ w, w < s.joined → s.pool.workers w = .left
  joined_le : s.joined ≤ s.workers
  finite : ∃ l : List Nat, ∀ c, s.pool.commits c ≠ .idle → c ∈ l
  serving : ∀ c, s.serving = some c →
    s.pool.commits c = .loaded ∨ s.pool.commits c = .counted

theorem StartUp.Pooled.of_pool (h : s.Pooled)
    (hpool : t.pool = { s.pool with stopFlag := t.pool.stopFlag })
    (hworkers : t.workers = s.workers) (hjoined : t.joined = s.joined)
    (hserving : t.serving = s.serving) : t.Pooled := by
  have hcommits : t.pool.commits = s.pool.commits := by rw [hpool]
  have hplaces : t.pool.workers = s.pool.workers := by rw [hpool]
  refine ⟨?_,?_,?_,?_,?_,?_⟩
  · rw [hpool]
    exact h.counted.of_live h.counted.places (fun _ => Iff.rfl) rfl h.counted.finished
  · rw [hplaces,hworkers]
    exact h.unstarted
  · rw [hplaces,hjoined]
    exact h.joined
  · rw [hjoined,hworkers]
    exact h.joined_le
  · rw [hcommits]
    exact h.finite
  · rw [hcommits,hserving]
    exact h.serving

theorem StartUp.Pooled.pool (h : s.Pooled) {e : Event} (he : s.pool.step e = some t.pool)
    (hworkers : t.workers = s.workers) (hjoined : t.joined = s.joined)
    (hserving : ∀ c, t.serving = some c →
      t.pool.commits c = .loaded ∨ t.pool.commits c = .counted) : t.Pooled := by
  refine ⟨h.counted.step he,fun w hw => ?_,fun w hw => ?_,?_,?_,hserving⟩
  · exact Pool.left_of_step (h.unstarted w (hworkers ▸ hw)) he
  · exact Pool.left_of_step (h.joined w (hjoined ▸ hw)) he
  · rw [hjoined,hworkers]
    exact h.joined_le
  · obtain ⟨l,hl⟩ := h.finite
    refine ⟨e.commit.toList ++ l,fun c hc => ?_⟩
    by_cases hec : e.commit = some c
    · simp [hec]
    · rw [(Pool.frame he).commits c hec] at hc
      exact List.mem_append_right _ (hl c hc)

theorem StartUp.Pooled.addWorker (h : s.Pooled) : s.addWorker.Pooled := by
  have hleft := h.unstarted s.workers (Nat.le_refl _)
  refine ⟨?_,fun w hw => ?_,fun w hw => ?_,Nat.le_succ_of_le h.joined_le,h.finite,h.serving⟩
  · exact h.counted.setWorker (by rw [hleft]; rfl)
  · have hne : w ≠ s.workers := Nat.ne_of_gt hw
    exact (Pool.setWorker_ne _ _ hne).trans (h.unstarted w (Nat.le_of_succ_le hw))
  · have hne : w ≠ s.workers := Nat.ne_of_lt (Nat.lt_of_lt_of_le hw h.joined_le)
    exact (Pool.setWorker_ne _ _ hne).trans (h.joined w hw)

theorem StartUp.Pooled.proceed (h : s.Pooled) (he : s.proceed n = some t) : t.Pooled := by
  cases hm : s.main with
  | entry | startTimer | startNet | clearStop | stopWorkers | stopTimer | stopNet =>
    simp only [StartUp.proceed,hm,Option.some.injEq] at he
    rw [← he]
    exact h.of_pool rfl rfl rfl rfl
  | awaitFuture =>
    simp only [StartUp.proceed,hm] at he
    obtain ⟨_,heq⟩ := Option.ite_none_right_eq_some.mp he
    cases heq
    exact h.of_pool rfl rfl rfl rfl
  | startWorker idx =>
    simp only [StartUp.proceed,hm] at he
    split at he
    · cases he
      exact h.addWorker.of_pool rfl rfl rfl rfl
    · cases he
      exact h.of_pool rfl rfl rfl rfl
  | joinTimer | joinNet =>
    simp only [StartUp.proceed,hm] at he
    split at he
    · cases he
      exact h.of_pool rfl rfl rfl rfl
    · cases he
      exact h.of_pool rfl rfl rfl rfl
    · cases he
  | joinWorkers =>
    simp only [StartUp.proceed,hm] at he
    split at he
    · rename_i hlt
      obtain ⟨hleft,heq⟩ := Option.ite_none_right_eq_some.mp he
      cases heq
      refine ⟨h.counted,h.unstarted,fun w hw => ?_,hlt,h.finite,h.serving⟩
      rcases Nat.lt_succ_iff_lt_or_eq.mp hw with hw' | rfl
      · exact h.joined w hw'
      · exact hleft
    · cases he
      exact h.of_pool rfl rfl rfl rfl
  | started | threw =>
    simp only [StartUp.proceed,hm] at he
    cases he

theorem StartUp.Pooled.commit_ne (h : s.Pooled) {c : Nat} (hc : s.serving = some c) {e : Event}
    (hallow : s.allows e = true) {pool : Pool} (he : s.pool.step e = some pool) :
    e.commit ≠ some c := by
  intro hcommit
  cases e with
  | load d =>
    cases hcommit
    obtain ⟨hidle,_⟩ := Option.ite_none_right_eq_some.mp he
    rcases h.serving c hc with hl | hl
    · rw [hidle] at hl
      cases hl
    · rw [hidle] at hl
      cases hl
  | count d | enqueue d =>
    cases hcommit
    simp [allows,hc] at hallow
  | _ => cases hcommit

theorem StartUp.Pooled.step {e : StartEvent} (h : s.Pooled) (he : s.step n ndebug e = some t) :
    t.Pooled := by
  have hdid := did he
  cases e with
  | main => exact h.proceed hdid
  | fails =>
    obtain ⟨_,flag,rfl⟩ := fail_eq hdid
    exact h.of_pool rfl rfl rfl rfl
  | timer =>
    obtain ⟨timer,rfl,_⟩ := turnTimer_eq hdid
    exact h.of_pool rfl rfl rfl rfl
  | opens | openFails | acceptFails =>
    obtain ⟨_,_,rfl⟩ := hdid
    exact h.of_pool rfl rfl rfl rfl
  | runReturns =>
    obtain ⟨_,_,_,rfl⟩ := hdid
    exact h.of_pool rfl rfl rfl rfl
  | request c =>
    obtain ⟨_,_,hidle,rfl⟩ := hdid
    refine h.pool (e := .load c) (if_pos hidle) rfl rfl fun d hd => ?_
    simp only [request] at hd
    split at hd
    · cases hd
    · rename_i hstop
      cases hd
      simp [request,Pool.load,hstop]
  | serve =>
    obtain ⟨c,hc,⟨hl,rfl⟩ | ⟨hl,rfl⟩⟩ := serve_eq hdid.2
    · refine h.pool (e := .count c) (if_pos hl) rfl rfl fun d hd => ?_
      obtain rfl : c = d := Option.some.inj (hc.symm.trans hd)
      exact .inr (Pool.setCommit_self ..)
    · exact h.pool (e := .enqueue c) (if_pos hl) rfl rfl fun d hd => by cases hd
  | pool e =>
    obtain ⟨hallow,pool,hpool,rfl⟩ := hdid
    refine h.pool hpool rfl rfl fun c hc => ?_
    rw [(Pool.frame hpool).commits c (h.commit_ne hc hallow hpool)]
    exact h.serving c hc

structure StartUp.Sound (s : StartUp) : Prop where
  aborted : s.aborted = false
  listening : s.Listening
  caught : s.Caught
  pooled : s.Pooled

theorem StartUp.proceed_aborted (he : s.proceed n = some t) : t.aborted = s.aborted := by
  unfold proceed at he
  repeat' split at he
  all_goals cases he
  all_goals rfl

theorem StartUp.aborted_step {e : StartEvent} (hok : s.unrefused ndebug e = true)
    (he : s.step n ndebug e = some t) : t.aborted = false := by
  have halive := step_alive he
  have hdid := did he
  cases e with
  | main => exact (proceed_aborted hdid).trans halive
  | fails =>
    obtain ⟨_,flag,rfl⟩ := fail_eq hdid
    exact halive
  | timer =>
    obtain ⟨timer,rfl,_⟩ := turnTimer_eq hdid
    exact halive
  | opens | openFails | acceptFails =>
    obtain ⟨_,_,rfl⟩ := hdid
    exact halive
  | runReturns =>
    obtain ⟨_,_,_,rfl⟩ := hdid
    exact halive
  | request c =>
    obtain ⟨_,_,_,rfl⟩ := hdid
    cases hs : s.pool.stopFlag with
    | false => simp [request,hs]
    | true => simpa [request,unrefused,hs] using hok
  | serve =>
    obtain ⟨c,_,⟨_,rfl⟩ | ⟨_,rfl⟩⟩ := serve_eq hdid.2
    · exact halive
    · exact halive
  | pool e =>
    obtain ⟨_,pool,_,rfl⟩ := hdid
    exact halive

theorem StartUp.Sound.step {e : StartEvent} (h : s.Sound) (hok : s.unrefused ndebug e = true)
    (he : s.step n ndebug e = some t) : t.Sound :=
  ⟨aborted_step hok he,h.listening.step he,h.caught.step he,h.pooled.step he⟩

theorem StartUp.init_sound : init.Sound := by
  refine ⟨rfl,⟨fun _ => rfl,by simp [init],by simp [init],by simp [init]⟩,
    .outside (by simp [init,Main.phase]) (by simp [init]) (by simp [init]),
    ⟨?_,fun w _ => by simp [init,Pool.start],fun w hw => by simp [init] at hw,Nat.le_refl _,
      ⟨[],by simp [init,Pool.start]⟩,by simp [init]⟩⟩
  have hcounted := (Pool.start_kept 0).counted
  exact hcounted.of_live hcounted.places (fun _ => Iff.rfl) rfl hcounted.finished

theorem sound_of_run (r : StartRun n ndebug) (hstart : r.state 0 = .init) (i : Nat) :
    (r.state i).Sound := by
  refine (r.reaches i).invariant (I := StartUp.Sound)
    (fun _ _ _ hs hok he => hs.step hok he) ?_
  rw [hstart]
  exact StartUp.init_sound

end NewRpc.Sched
