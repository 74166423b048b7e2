import NewRpc.StartSteps

/-!
A failed start of a scheduler: the threads it had started come to their end, one after the
other, and `start` throws.
-/

set_option autoImplicit false

namespace NewRpc.Sched
open Transition
open NewRpc.Time (bucketNum)

def Pool.Settled (s : Pool) : Prop := ∀ c, s.Accepted c → c ∈ s.finished

theorem Pool.accepted_of_step {s t : Pool} {e : Event} {c : Nat} (hstop : s.stopFlag = true)
    (he : s.step e = some t) (h : t.Accepted c) : s.Accepted c := by
  by_cases hc : e.commit = some c
  · cases e with
    | load d =>
      cases hc
      obtain ⟨_,heq⟩ := Option.ite_none_right_eq_some.mp he
      cases heq
      simp [Accepted,Pool.load,hstop] at h
    | count d =>
      cases hc
      exact .inl (Option.ite_none_right_eq_some.mp he).1
    | enqueue d =>
      cases hc
      exact .inr (.inl (Option.ite_none_right_eq_some.mp he).1)
    | _ => cases hc
  · unfold Accepted at h
    rw [(frame he).commits c hc] at h
    exact h

theorem Pool.Settled.step {s t : Pool} {e : Event} (h : s.Settled) (hstop : s.stopFlag = true)
    (he : s.step e = some t) : t.Settled :=
  fun c hc => (frame he).finished c (h c (accepted_of_step hstop he hc))

theorem Pool.Settled.not_live {s : Pool} (h : s.Settled) (c : Nat) : ¬ s.Live c :=
  fun hl => hl.2 (h c (.inr hl.1))

theorem Pool.Settled.held {s : Pool} (h : s.Settled) (hc : s.Counted) (p : Place) :
    s.held p = [] :=
  List.eq_nil_iff_forall_not_mem.mpr fun c hin => h.not_live c (hc.places.live p c hin)

theorem Pool.Settled.runningCoroCnt {s : Pool} (h : s.Settled) (hc : s.Counted) :
    s.runningCoroCnt = 0 := hc.counts.eq_zero h.not_live

def Worker.toGo : Worker → Nat
  | .left => 0
  | .counting => 1
  | .testing => 2
  | .locking => 3
  | .fetched _ | .resumed _ => 4

theorem Pool.Settled.worker_step {s t : Pool} {e : Event} {w : Nat} (h : s.Settled)
    (hc : s.Counted) (hstop : s.stopFlag = true) (he : s.step e = some t)
    (hw : e.worker = some w) : (t.workers w).toGo < (s.workers w).toGo := by
  have hnone : (s.workers w).held = [] := h.held hc (.worker w)
  cases e with
  | test v =>
    cases hw
    obtain ⟨hv,heq⟩ := Option.ite_none_right_eq_some.mp he
    cases heq
    simp [Pool.test,hstop,hv,Worker.toGo]
  | read v =>
    cases hw
    obtain ⟨hv,heq⟩ := Option.ite_none_right_eq_some.mp he
    cases heq
    simp [Pool.read,h.runningCoroCnt hc,hv,Worker.toGo]
  | dequeue v =>
    cases hw
    obtain ⟨hv,heq⟩ := Option.ite_none_right_eq_some.mp he
    cases heq
    have hqueue : s.coroutineQueue = [] := h.held hc .queue
    simp [Pool.dequeue,hqueue,hv,Worker.toGo]
  | resume v =>
    cases hw
    simp only [Pool.step] at he
    split at he
    · rename_i coro hv
      simp [hv,Worker.held] at hnone
    · cases he
  | finish v | suspend v | leave v =>
    cases hw
    obtain ⟨coro,hv,_⟩ := resumedBy_eq he
    simp [hv,Worker.held] at hnone
  | _ => cases hw

theorem Pool.Settled.worker_next {s : Pool} {w : Nat} (h : s.Settled) (hc : s.Counted)
    (hw : s.workers w ≠ .left) : ∃ e t, (StartEvent.pool e).agent = some (.worker w) ∧
      e.commit = none ∧ e ≠ .stop ∧ s.step e = some t := by
  have hnone : (s.workers w).held = [] := h.held hc (.worker w)
  cases hp : s.workers w with
  | testing => exact ⟨.test w,_,rfl,rfl,by simp,if_pos hp⟩
  | counting => exact ⟨.read w,_,rfl,rfl,by simp,if_pos hp⟩
  | locking => exact ⟨.dequeue w,_,rfl,rfl,by simp,if_pos hp⟩
  | fetched coro => simp [hp,Worker.held] at hnone
  | resumed coro => simp [hp,Worker.held] at hnone
  | left => exact absurd hp hw

section
variable {n : Nat} {ndebug : Bool} {s t : StartUp}

theorem StartUp.pool_cases {e : StartEvent} (he : s.step n ndebug e = some t)
    (hagent : e.agent ≠ some .main) :
    t.pool = s.pool ∨ ∃ e', s.pool.step e' = some t.pool := by
  have hdid := did he
  cases e with
  | main | fails => exact absurd rfl hagent
  | timer =>
    obtain ⟨timer,rfl,_⟩ := turnTimer_eq hdid
    exact .inl rfl
  | opens | openFails | acceptFails =>
    obtain ⟨_,_,rfl⟩ := hdid
    exact .inl rfl
  | runReturns =>
    obtain ⟨_,_,_,rfl⟩ := hdid
    exact .inl rfl
  | request c =>
    obtain ⟨_,_,hidle,rfl⟩ := hdid
    exact .inr ⟨.load c,if_pos hidle⟩
  | serve =>
    obtain ⟨c,_,⟨hl,rfl⟩ | ⟨hl,rfl⟩⟩ := serve_eq hdid.2
    · exact .inr ⟨.count c,if_pos hl⟩
    · exact .inr ⟨.enqueue c,if_pos hl⟩
  | pool e =>
    obtain ⟨_,pool,hpool,rfl⟩ := hdid
    exact .inr ⟨e,hpool⟩

/-- Once `stop_flag_` is set for good, `start` leaves the pool alone. -/
theorem StartUp.proceed_late (hp : 2 ≤ s.main.phase) (he : s.proceed n = some t) :
    t.pool = s.pool ∧ s.main.phase ≤ t.main.phase := by
  cases hm : s.main with
  | stopTimer | stopNet =>
    simp only [StartUp.proceed,hm,Option.some.injEq] at he
    rw [← he]
    exact ⟨rfl,by simp [Main.phase]⟩
  | joinTimer | joinNet =>
    simp only [StartUp.proceed,hm] at he
    split at he
    · cases he
      exact ⟨rfl,by simp [goto,Main.phase]⟩
    · cases he
      exact ⟨rfl,by simp [Main.phase]⟩
    · cases he
  | joinWorkers =>
    simp only [StartUp.proceed,hm] at he
    split at he
    · obtain ⟨_,heq⟩ := Option.ite_none_right_eq_some.mp he
      cases heq
      exact ⟨rfl,Nat.le_refl _⟩
    · cases he
      exact ⟨rfl,by simp [goto,Main.phase]⟩
  | threw =>
    simp only [StartUp.proceed,hm] at he
    cases he
  | _ => simp [hm,Main.phase] at hp

theorem StartUp.late_step {e : StartEvent} (hp : 2 ≤ s.main.phase)
    (he : s.step n ndebug e = some t) : s.main.phase ≤ t.main.phase ∧
      (t.pool = s.pool ∨ ∃ e', s.pool.step e' = some t.pool) := by
  by_cases hagent : e.agent = some .main
  · rcases StartEvent.agent_main hagent with rfl | rfl
    · obtain ⟨hpool,hle⟩ := proceed_late hp (did he)
      exact ⟨hle,.inl hpool⟩
    · have hzero := (fail_phase (did he)).1
      omega
  · exact ⟨Nat.le_of_eq (congrArg Main.phase (apart he hagent).main).symm,
      pool_cases he hagent⟩

theorem StartUp.lasts {P : Pool → Prop} {r : StartRun n ndebug} (hsound : ∀ i, (r.state i).Sound)
    (hP : ∀ (p q : Pool) e, p.stopFlag = true → p.step e = some q → P p → P q) {i j : Nat}
    (hij : i ≤ j) (hphase : 2 ≤ (r.state i).main.phase) (hi : P (r.state i).pool) :
    2 ≤ (r.state j).main.phase ∧ P (r.state j).pool := by
  refine Run.keeps (P := fun s : StartUp => 2 ≤ s.main.phase ∧ P s.pool) hij ⟨hphase,hi⟩ ?_
  rintro k e _ _ ⟨hp,hPk⟩ he
  obtain ⟨hle,heq | ⟨e',he'⟩⟩ := late_step hp he
  · exact ⟨Nat.le_trans hp hle,heq ▸ hPk⟩
  · exact ⟨Nat.le_trans hp hle,hP _ _ e' ((hsound k).caught.stopFlag hp) he' hPk⟩

/-- A root that has been accepted comes to its end, or nobody is there to run it. -/
def Pool.Ends (c : Nat) (s : Pool) : Prop := s.Accepted c → c ∈ s.finished ∨ s.Left

theorem Pool.Ends.step {c : Nat} {p q : Pool} {e : Event} (hstop : p.stopFlag = true)
    (he : p.step e = some q) (h : p.Ends c) : q.Ends c := by
  intro hq
  rcases h (accepted_of_step hstop he hq) with hfin | hleft
  · exact .inl ((frame he).finished c hfin)
  · exact .inr fun w => left_of_step (hleft w) he

/-- In the end no accepted root is left, or no worker. -/
theorem StartUp.settles {r : StartRun n ndebug} (hsound : ∀ i, (r.state i).Sound)
    (hfinishing : Finishing r) {i : Nat} (hphase : 2 ≤ (r.state i).main.phase) :
    ∃ j, i ≤ j ∧ ((r.state j).pool.Settled ∨ (r.state j).pool.Left) := by
  obtain ⟨l,hl⟩ := (hsound i).pooled.finite
  have hlate : ∀ j, i ≤ j → 2 ≤ (r.state j).main.phase := fun j hij =>
    (lasts (P := fun _ => True) hsound (fun _ _ _ _ _ _ => trivial) hij hphase trivial).1
  obtain ⟨j,hij,hall⟩ := Run.eventually_all (K := fun c (s : StartUp) => s.pool.Ends c) l i
    (fun c j k hij hjk hj =>
      (lasts hsound (fun _ _ _ hs he hp => hp.step hs he) hjk (hlate j hij) hj).2)
    (fun c => by
      by_cases hacc : (r.state i).pool.Accepted c
      · obtain ⟨j,hij,hend⟩ := hfinishing i c hacc
        exact ⟨j,hij,fun _ => hend⟩
      · exact ⟨i,Nat.le_refl i,fun h => absurd h hacc⟩)
  refine ⟨j,hij,?_⟩
  by_cases hleft : (r.state j).pool.Left
  · exact .inr hleft
  · refine .inl fun c hc => ?_
    have hacc : (r.state i).pool.Accepted c := by
      refine Classical.byContradiction fun hnot => ?_
      exact (lasts (P := fun p => ¬ p.Accepted c) hsound
        (fun _ _ _ hs he hp hq => hp (Pool.accepted_of_step hs he hq)) hij hphase hnot).2 hc
    have hmem : c ∈ l := hl c (by rcases hacc with h | h | h <;> simp [h])
    exact (hall c hmem hc).resolve_right hleft

def TimerThread.toGo : TimerThread → Nat
  | .turn => bucketNum + 3
  | .test => bucketNum + 2
  | .sweep idx => bucketNum - idx + 1
  | .absent | .returned | .joined => 0

theorem StartUp.timer_step (hstop : s.timeStopFlag = true) (he : s.turnTimer = some t) :
    t.timer.toGo < s.timer.toGo := by
  unfold turnTimer at he
  split at he
  · rename_i hs
    cases he
    simp [hs,TimerThread.toGo]
  · rename_i hs
    cases he
    simp [hs,hstop,TimerThread.toGo]
  · rename_i idx hs
    cases he
    simp only [hs]
    split
    · simp only [TimerThread.toGo]
      omega
    · simp [TimerThread.toGo]
  · cases he

theorem StartUp.timer_enabled (h : s.timer.toGo ≠ 0) : (s.turnTimer).isSome = true := by
  unfold turnTimer
  cases hs : s.timer with
  | turn | test | sweep idx => rfl
  | absent | returned | joined => simp [hs,TimerThread.toGo] at h

theorem StartEvent.agent_timer {e : StartEvent} (h : e.agent = some .timer) : e = .timer := by
  cases e with
  | timer => rfl
  | pool e => cases e <;> cases h
  | main | fails | opens | openFails | acceptFails | request c | serve | runReturns => cases h

theorem StartUp.timer_frame {e : StartEvent} (he : s.step n ndebug e = some t)
    (hmain : e.agent ≠ some .main) (htimer : e.agent ≠ some .timer) : t.timer = s.timer := by
  have hdid := did he
  cases e with
  | main | fails => exact absurd rfl hmain
  | timer => exact absurd rfl htimer
  | opens | openFails | acceptFails =>
    obtain ⟨_,_,rfl⟩ := hdid
    rfl
  | request c | runReturns =>
    obtain ⟨_,_,_,rfl⟩ := hdid
    rfl
  | serve =>
    obtain ⟨c,_,⟨_,rfl⟩ | ⟨_,rfl⟩⟩ := serve_eq hdid.2
    · rfl
    · rfl
  | pool e =>
    obtain ⟨_,pool,_,rfl⟩ := hdid
    rfl

def StartUp.netToGo (s : StartUp) : Nat :=
  match s.net with
  | .running => match s.serving with
      | none => 1
      | some c => if s.pool.commits c = .loaded then 3 else 2
  | .absent | .returned | .joined => 0

theorem StartUp.netToGo_running (h : s.netToGo ≠ 0) : s.net = .running := by
  cases hs : s.net with
  | running => rfl
  | absent | returned | joined => simp [netToGo,hs] at h

theorem StartUp.netToGo_of_eq (hnet : t.net = s.net) (hserving : t.serving = s.serving)
    (hcommits : ∀ c, s.serving = some c → t.pool.commits c = s.pool.commits c) :
    t.netToGo = s.netToGo := by
  unfold netToGo
  rw [hnet,hserving]
  cases hs : s.serving with
  | none => rfl
  | some c => simp only [hcommits c hs]

theorem StartUp.net_enabled (h : s.Pooled) (halive : s.aborted = false)
    (hio : s.ioStopped = true) (hgo : s.netToGo ≠ 0) :
    Enabled (StartUp.step n ndebug) StartEvent.agent .net s := by
  have hnet := netToGo_running hgo
  cases hs : s.serving with
  | none =>
    refine ⟨.runReturns,rfl,?_⟩
    simp [step,halive,hnet,hs,hio]
  | some c =>
    refine ⟨.serve,rfl,?_⟩
    rcases h.serving c hs with hc | hc
    · simp [step,halive,hnet,serve,hs,hc]
    · simp [step,halive,hnet,serve,hs,hc]

theorem StartUp.net_step {e : StartEvent} (hio : s.ioStopped = true)
    (he : s.step n ndebug e = some t) (hagent : e.agent = some .net) :
    t.netToGo < s.netToGo := by
  have hdid := did he
  cases e with
  | opens | openFails =>
    obtain ⟨⟨_,hpolls,_⟩,_⟩ := hdid
    simp [hio] at hpolls
  | runReturns =>
    obtain ⟨hnet,hserving,_,rfl⟩ := hdid
    simp [netToGo,hnet,hserving]
  | serve =>
    have hnet := hdid.1
    obtain ⟨c,hc,⟨hl,rfl⟩ | ⟨hl,rfl⟩⟩ := serve_eq hdid.2
    · simp [netToGo,hnet,hc,hl,Pool.count]
    · simp [netToGo,hnet,hc,hl]
  | pool e => cases e <;> cases hagent
  | main | fails | timer | acceptFails | request c => cases hagent

theorem StartUp.net_frame {e : StartEvent} (h : s.Pooled) (hio : s.ioStopped = true)
    (he : s.step n ndebug e = some t) (hmain : e.agent ≠ some .main)
    (hagent : e.agent ≠ some .net) : t.netToGo = s.netToGo := by
  have hdid := did he
  cases e with
  | main | fails => exact absurd rfl hmain
  | opens | openFails | serve | runReturns => exact absurd rfl hagent
  | timer =>
    obtain ⟨timer,rfl,_⟩ := turnTimer_eq hdid
    rfl
  | acceptFails | request c =>
    obtain ⟨⟨_,hpolls,_⟩,_⟩ := hdid
    simp [hio] at hpolls
  | pool e =>
    obtain ⟨hallow,pool,hpool,rfl⟩ := hdid
    exact netToGo_of_eq rfl rfl fun c hc =>
      (Pool.frame hpool).commits c (h.commit_ne hc hallow hpool)

def StartUp.stopRank (s : StartUp) : Nat :=
  match s.main with
  | .stopWorkers => bucketNum + 11
  | .stopTimer => bucketNum + 10
  | .stopNet => bucketNum + 9
  | .joinTimer => s.timer.toGo + 5
  | .joinNet => s.netToGo + 1
  | _ => 0

def StartUp.stopHelper (s : StartUp) : Agent :=
  match s.main with
  | .joinTimer => if s.timer.toGo = 0 then .main else .timer
  | .joinNet => if s.netToGo = 0 then .main else .net
  | _ => .main

theorem StartUp.netToGo_le : s.netToGo ≤ 3 := by
  unfold netToGo
  split
  · split
    · omega
    · split <;> omega
  all_goals omega

theorem TimerThread.toGo_le (timer : TimerThread) : timer.toGo ≤ bucketNum + 3 := by
  cases timer <;> simp only [toGo] <;> omega

theorem StartUp.main_enabled (halive : s.aborted = false) (h : (s.proceed n).isSome = true) :
    Enabled (StartUp.step n ndebug) StartEvent.agent .main s :=
  ⟨.main,rfl,by simpa [step,halive] using h⟩

theorem StartUp.stop_enabled (h : s.Sound) (hlo : 1 ≤ s.main.phase) (hhi : s.main.phase ≤ 5) :
    Enabled (StartUp.step n ndebug) StartEvent.agent s.stopHelper s := by
  cases hm : s.main with
  | stopWorkers | stopTimer | stopNet =>
    simp only [stopHelper,hm]
    exact main_enabled h.aborted (by simp [proceed,hm])
  | joinTimer =>
    simp only [stopHelper,hm]
    split
    · rename_i hzero
      refine main_enabled h.aborted ?_
      have hne := h.caught.timer_ne (by simp [hm,Main.phase])
      cases ht : s.timer with
      | absent | returned => simp [proceed,hm,ht]
      | joined => exact absurd ht hne
      | turn | test | sweep idx => simp [ht,TimerThread.toGo] at hzero
    · rename_i hgo
      exact ⟨.timer,rfl,by simpa [step,h.aborted] using timer_enabled hgo⟩
  | joinNet =>
    simp only [stopHelper,hm]
    split
    · rename_i hzero
      refine main_enabled h.aborted ?_
      have hne := h.caught.net_ne (by simp [hm,Main.phase])
      cases ht : s.net with
      | absent | returned => simp [proceed,hm,ht]
      | joined => exact absurd ht hne
      | running =>
        simp only [netToGo,ht] at hzero
        split at hzero
        · cases hzero
        · split at hzero <;> cases hzero
    · rename_i hgo
      exact net_enabled h.pooled h.aborted (h.caught.ioStopped (by simp [hm,Main.phase])) hgo
  | _ => simp [hm,Main.phase] at hlo hhi

theorem StartUp.stop_proceed (hlo : 1 ≤ s.main.phase) (hhi : s.main.phase ≤ 5)
    (he : s.proceed n = some t) : t.main = .joinWorkers ∨
      (1 ≤ t.main.phase ∧ t.main.phase ≤ 5) ∧ t.stopRank < s.stopRank := by
  cases hm : s.main with
  | stopWorkers | stopTimer =>
    simp only [StartUp.proceed,hm,Option.some.injEq] at he
    rw [← he]
    exact .inr ⟨by simp [Main.phase],by simp [stopRank,hm]⟩
  | stopNet =>
    simp only [StartUp.proceed,hm,Option.some.injEq] at he
    rw [← he]
    refine .inr ⟨by simp [Main.phase],?_⟩
    have hle := s.timer.toGo_le
    simp only [stopRank,hm]
    omega
  | joinTimer =>
    simp only [StartUp.proceed,hm] at he
    have hrank : ∀ u : StartUp, u.main = .joinNet → u.stopRank < s.stopRank := by
      intro u hu
      have hle := u.netToGo_le
      simp only [stopRank,hu,hm]
      omega
    split at he
    · cases he
      exact .inr ⟨by simp [goto,Main.phase],hrank _ rfl⟩
    · cases he
      exact .inr ⟨by simp [Main.phase],hrank _ rfl⟩
    · cases he
  | joinNet =>
    simp only [StartUp.proceed,hm] at he
    split at he
    · cases he
      exact .inl rfl
    · cases he
      exact .inl rfl
    · cases he
  | _ => simp [hm,Main.phase] at hlo hhi

theorem StartUp.stop_step {e : StartEvent} (h : s.Sound) (hlo : 1 ≤ s.main.phase)
    (hhi : s.main.phase ≤ 5) (he : s.step n ndebug e = some t) :
    t.main = .joinWorkers ∨ (1 ≤ t.main.phase ∧ t.main.phase ≤ 5) ∧
      (t.stopRank < s.stopRank ∨ t.stopRank = s.stopRank ∧ t.stopHelper = s.stopHelper ∧
        e.agent ≠ some s.stopHelper) := by
  by_cases hagent : e.agent = some .main
  · rcases StartEvent.agent_main hagent with rfl | rfl
    · exact (stop_proceed hlo hhi (did he)).imp_right fun ⟨hp,hlt⟩ => ⟨hp,.inl hlt⟩
    · have hzero := (fail_phase (did he)).1
      omega
  · have hmain := (apart he hagent).main
    refine .inr ⟨by rw [hmain]; exact ⟨hlo,hhi⟩,?_⟩
    cases hm : s.main with
    | stopWorkers | stopTimer | stopNet =>
      exact .inr ⟨by simp [stopRank,hmain,hm],by simp [stopHelper,hmain,hm],
        by simpa [stopHelper,hm] using hagent⟩
    | joinTimer =>
      simp only [stopRank,stopHelper,hmain,hm]
      by_cases htimer : e.agent = some .timer
      · obtain rfl := StartEvent.agent_timer htimer
        have hlt := timer_step (h.caught.timeStopFlag (by simp [hm,Main.phase])) (did he)
        exact .inl (by omega)
      · rw [timer_frame he hagent htimer]
        refine .inr ⟨rfl,rfl,?_⟩
        split
        · exact hagent
        · exact htimer
    | joinNet =>
      simp only [stopRank,stopHelper,hmain,hm]
      have hio := h.caught.ioStopped (by simp [hm,Main.phase])
      by_cases hnet : e.agent = some .net
      · have hlt := net_step hio he hnet
        exact .inl (by omega)
      · rw [net_frame h.pooled hio he hagent hnet]
        refine .inr ⟨rfl,rfl,?_⟩
        split
        · exact hagent
        · exact hnet
    | _ => simp [hm,Main.phase] at hlo hhi

def StartUp.joinRank (s : StartUp) : Nat :=
  (s.workers - s.joined) * 5 + (s.pool.workers s.joined).toGo

def StartUp.joinHelper (s : StartUp) : Agent :=
  if s.pool.workers s.joined = .left then .main else .worker s.joined

theorem StartEvent.agent_worker {e : StartEvent} {w : Nat} (h : e.agent = some (.worker w)) :
    ∃ e', e = .pool e' ∧ e'.worker = some w := by
  cases e with
  | pool e =>
    refine ⟨e,rfl,?_⟩
    cases e <;> cases h
    all_goals rfl
  | main | fails | timer | opens | openFails | acceptFails | request c | serve | runReturns =>
    cases h

theorem StartUp.allows_of_commit {e : Event} (hcommit : e.commit = none) (hstop : e ≠ .stop) :
    s.allows e = true := by
  cases e with
  | stop => exact absurd rfl hstop
  | load c | count c | enqueue c => cases hcommit
  | _ => rfl

theorem StartUp.join_enabled (h : s.Sound) (hm : s.main = .joinWorkers)
    (hend : s.pool.Settled ∨ s.pool.Left) :
    Enabled (StartUp.step n ndebug) StartEvent.agent s.joinHelper s := by
  unfold joinHelper
  split
  · rename_i hleft
    refine main_enabled h.aborted ?_
    simp only [proceed,hm,hleft]
    split <;> rfl
  · rename_i hne
    have hsettled := hend.resolve_right fun hl => hne (hl s.joined)
    obtain ⟨e,pool,hagent,hcommit,hstop,he⟩ := hsettled.worker_next h.pooled.counted hne
    refine ⟨.pool e,hagent,?_⟩
    simp [step,h.aborted,allows_of_commit hcommit hstop,he]

/-- A worker's step with nothing left to do takes it nearer to its end. -/
theorem StartUp.join_worker (h : s.Sound) (hm : s.main = .joinWorkers)
    (hend : s.pool.Settled ∨ s.pool.Left) {e : Event} {pool : Pool}
    (he : s.pool.step e = some pool) (hw : e.worker = some s.joined) :
    (pool.workers s.joined).toGo < (s.pool.workers s.joined).toGo := by
  have hne := Pool.not_left_of_worker hw he
  have hsettled := hend.resolve_right fun hl => hne (hl s.joined)
  exact hsettled.worker_step h.pooled.counted
    (h.caught.stopFlag (by simp [hm,Main.phase])) he hw

theorem StartUp.join_proceed (hm : s.main = .joinWorkers)
    (hend : s.pool.Settled ∨ s.pool.Left) (he : s.proceed n = some t) : t.main = .threw ∨
      (t.main = .joinWorkers ∧ (t.pool.Settled ∨ t.pool.Left)) ∧ t.joinRank < s.joinRank := by
  simp only [StartUp.proceed,hm] at he
  split at he
  · rename_i hlt
    obtain ⟨hleft,heq⟩ := Option.ite_none_right_eq_some.mp he
    cases heq
    refine .inr ⟨⟨rfl,hend⟩,?_⟩
    have hnext : (s.pool.workers (s.joined + 1)).toGo ≤ 4 := by
      cases s.pool.workers (s.joined + 1) <;> simp [Worker.toGo]
    simp only [joinRank]
    omega
  · cases he
    exact .inl rfl

theorem StartUp.join_step {e : StartEvent} (h : s.Sound) (hm : s.main = .joinWorkers)
    (hend : s.pool.Settled ∨ s.pool.Left) (he : s.step n ndebug e = some t) :
    t.main = .threw ∨ (t.main = .joinWorkers ∧ (t.pool.Settled ∨ t.pool.Left)) ∧
      (t.joinRank < s.joinRank ∨ t.joinRank = s.joinRank ∧ t.joinHelper = s.joinHelper ∧
        e.agent ≠ some s.joinHelper) := by
  by_cases hagent : e.agent = some .main
  · rcases StartEvent.agent_main hagent with rfl | rfl
    · exact (join_proceed hm hend (did he)).imp_right fun ⟨hp,hlt⟩ => ⟨hp,.inl hlt⟩
    · have hzero := (fail_phase (did he)).1
      simp [hm,Main.phase] at hzero
  · have ha := apart he hagent
    have hstop := h.caught.stopFlag (by simp [hm,Main.phase])
    have hcases := pool_cases he hagent
    refine .inr ⟨⟨ha.main.trans hm,?_⟩,?_⟩
    · rcases hcases with heq | ⟨e',he'⟩
      · exact heq ▸ hend
      · exact hend.imp (fun hs => hs.step hstop he') fun hl w => Pool.left_of_step (hl w) he'
    by_cases hsame : t.pool.workers s.joined = s.pool.workers s.joined
    · refine .inr ⟨?_,?_,?_⟩
      · simp only [joinRank,ha.workers,ha.joined,hsame]
      · simp only [joinHelper,ha.joined,hsame]
      · unfold joinHelper
        split
        · exact hagent
        · intro hworker
          obtain ⟨e',rfl,hw⟩ := StartEvent.agent_worker hworker
          obtain ⟨_,pool,hpool,rfl⟩ := did he
          have hlt := join_worker h hm hend hpool hw
          rw [hsame] at hlt
          exact Nat.lt_irrefl _ hlt
    · rcases hcases with heq | ⟨e',he'⟩
      · exact absurd (by rw [heq]) hsame
      · have hw : e'.worker = some s.joined :=
          Classical.byContradiction fun hne => hsame ((Pool.frame he').workers _ hne)
        have hlt := join_worker h hm hend he' hw
        simp only [joinRank,ha.workers,ha.joined]
        exact .inl (by omega)

theorem StartUp.Sound.undone (h : s.Sound) (hm : s.main = .threw) : s.Undone := by
  obtain ⟨hall,htls,htls'⟩ := h.caught.threw (by simp [hm,Main.phase])
  refine ⟨hm,h.caught.timer (by simp [hm,Main.phase]),h.caught.net (by simp [hm,Main.phase]),
    ⟨Nat.le_antisymm h.pooled.joined_le hall,fun w => ?_⟩,htls,htls'⟩
  by_cases hw : w < s.joined
  · exact h.pooled.joined w hw
  · exact h.pooled.unstarted w (by omega)

theorem catch_leadsTo {r : StartRun n ndebug} (hsound : ∀ i, (r.state i).Sound)
    (hfair : ∀ a, r.Fair StartEvent.agent a) :
    r.LeadsTo (fun s => 1 ≤ s.main.phase ∧ s.main.phase ≤ 5) (fun s => s.main = .joinWorkers) :=
  Run.leadsTo_of_rank (I := StartUp.Sound) StartUp.stopRank StartUp.stopHelper hsound hfair
    (fun _ hs hp => StartUp.stop_enabled hs hp.1 hp.2)
    (fun _ _ _ hs hp he => StartUp.stop_step hs hp.1 hp.2 he)

theorem join_leadsTo {r : StartRun n ndebug} (hsound : ∀ i, (r.state i).Sound)
    (hfair : ∀ a, r.Fair StartEvent.agent a) :
    r.LeadsTo (fun s => s.main = .joinWorkers ∧ (s.pool.Settled ∨ s.pool.Left))
      (fun s => s.main = .threw) :=
  Run.leadsTo_of_rank (I := StartUp.Sound) StartUp.joinRank StartUp.joinHelper hsound hfair
    (fun _ hs hp => StartUp.join_enabled hs hp.1 hp.2)
    (fun _ _ _ hs hp he => StartUp.join_step hs hp.1 hp.2 he)

theorem Main.phase_late {main : Main} (h : 6 ≤ main.phase) :
    main = .joinWorkers ∨ main = .threw := by
  cases main with
  | joinWorkers => exact .inl rfl
  | threw => exact .inr rfl
  | _ => simp [phase] at h

theorem joinWorkers_leadsTo {r : StartRun n ndebug} (hsound : ∀ i, (r.state i).Sound)
    (hfair : ∀ a, r.Fair StartEvent.agent a) (hfinishing : Finishing r) :
    r.LeadsTo (fun s => s.main = .joinWorkers) (fun s => s.main = .threw) := by
  intro i hi
  have hphase : 6 ≤ (r.state i).main.phase := by simp [hi,Main.phase]
  obtain ⟨j,hij,hend⟩ := StartUp.settles (i := i) hsound hfinishing (by omega)
  have hlate : 6 ≤ (r.state j).main.phase :=
    Run.keeps (P := fun s : StartUp => 6 ≤ s.main.phase) hij hphase fun k e _ _ hp he =>
      Nat.le_trans hp (StartUp.late_step (by omega) he).1
  rcases Main.phase_late hlate with hjoin | hthrew
  · obtain ⟨k,hjk,hk⟩ := join_leadsTo hsound hfair j ⟨hjoin,hend⟩
    exact ⟨k,Nat.le_trans hij hjk,hk⟩
  · exact ⟨j,hij,hthrew⟩

theorem StartUp.proceed_listener (he : s.proceed n = some t) :
    t.listener = .opening ∨ t.listener = s.listener ∧ t.promise = s.promise := by
  unfold proceed at he
  repeat' split at he
  all_goals cases he
  all_goals first | exact .inr ⟨rfl,rfl⟩ | exact .inl rfl

/-- Without a failure to open the port, the listener ends only after its promise. -/
theorem StartUp.promise_step {e : StartEvent} (h : s.Listening) (hne : e ≠ .openFails)
    (hs : s.listener = .ended → s.promise = true) (he : s.step n ndebug e = some t) :
    t.listener = .ended → t.promise = true := by
  have hdid := did he
  cases e with
  | main =>
    rcases proceed_listener hdid with hl | ⟨hl,hp⟩
    · exact fun hended => by rw [hl] at hended; cases hended
    · rw [hl,hp]
      exact hs
  | fails =>
    obtain ⟨_,flag,rfl⟩ := fail_eq hdid
    exact hs
  | openFails => exact absurd rfl hne
  | opens =>
    obtain ⟨_,_,rfl⟩ := hdid
    exact fun _ => rfl
  | acceptFails =>
    obtain ⟨_,hl,rfl⟩ := hdid
    exact fun _ => h.accepting hl
  | _ =>
    obtain ⟨_,hl,hp⟩ := listener_frame rfl he
    rw [hl,hp]
    exact hs

theorem StartUp.blocked_of_openFails (h : s.Listening)
    (he : s.step n ndebug .openFails = some t) : t.Blocked := by
  obtain ⟨_,hl,rfl⟩ := did he
  refine ⟨h.opening hl,?_,rfl⟩
  refine Bool.eq_false_iff.mpr fun hp => ?_
  simpa [hl] using h.promise hp

theorem not_blocked_of_opens {r : StartRun n ndebug} (hstart : r.state 0 = .init)
    (hsound : ∀ i, (r.state i).Sound) (hopens : Opens r) (i : Nat) : ¬ (r.state i).Blocked := by
  rintro ⟨_,hpromise,hended⟩
  have hkept : (r.state i).listener = .ended → (r.state i).promise = true := by
    refine Run.keeps (P := fun s : StartUp => s.listener = .ended → s.promise = true)
      (Nat.zero_le i) (by rw [hstart]; simp [StartUp.init]) fun k e _ hk hp he => ?_
    exact StartUp.promise_step (hsound k).listening (fun heq => hopens k (heq ▸ hk)) hp he
  rw [hkept hended] at hpromise
  cases hpromise

theorem finishing_of_left {r : StartRun n ndebug} {i : Nat}
    (hleft : ∀ j, i ≤ j → (r.state j).pool.Left) : Finishing r :=
  fun k _ _ => ⟨max k i,Nat.le_max_left k i,.inr (hleft _ (Nat.le_max_right k i))⟩

theorem StartUp.Undone.lasts {r : StartRun n ndebug} (hsound : ∀ i, (r.state i).Sound) {i j : Nat}
    (hij : i ≤ j) (h : (r.state i).Undone) : (r.state j).pool.Left :=
  (StartUp.lasts hsound (fun _ _ _ _ he hl w => Pool.left_of_step (hl w) he) hij
    (by simp [h.threw,Main.phase]) h.workers.2).2

end

/-- In a fair run the failures of `start` are undone, and it never waits in vain, if and
only if the port can be opened and the roots accepted before a failure come to their end. -/
theorem undoes_iff (workerThreadNum : Nat) (ndebug : Bool) (r : StartRun workerThreadNum ndebug)
    (hstart : r.state 0 = .init) (hfair : ∀ a, r.Fair StartEvent.agent a) :
    Undoes r ↔ Opens r ∧ ((∃ i, r.event i = some .fails) → Finishing r) := by
  have hsound := sound_of_run r hstart
  constructor
  · rintro ⟨hnever,hundone⟩
    refine ⟨fun i hi => ?_,?_⟩
    · exact hnever (i + 1)
        (StartUp.blocked_of_openFails (hsound i).listening (Run.event_next hi).2)
    · rintro ⟨i,hi⟩
      obtain ⟨j,_,hj⟩ := hundone i .fails hi rfl
      exact finishing_of_left fun k hjk => hj.lasts hsound hjk
  · rintro ⟨hopens,hfinishing⟩
    refine ⟨not_blocked_of_opens hstart hsound hopens,fun i e hi hfailure => ?_⟩
    have hfails : e = .fails := by
      cases e with
      | fails => rfl
      | openFails => exact absurd hi (hopens i)
      | _ => cases hfailure
    subst hfails
    have hmain := (StartUp.fail_phase (StartUp.did (Run.event_next hi).2)).2
    obtain ⟨j,hij,hj⟩ := ((catch_leadsTo hsound hfair).trans
      (joinWorkers_leadsTo hsound hfair (hfinishing ⟨i,hi⟩))) (i + 1)
      (by simp [hmain,Main.phase])
    exact ⟨j,hij,(hsound j).undone hj⟩

theorem StartUp.Undone.quiet {n : Nat} {ndebug : Bool} {s : StartUp} (h : s.Undone) (a : Agent) :
    ¬ Enabled (StartUp.step n ndebug) StartEvent.agent a s := by
  rintro ⟨e,hagent,henabled⟩
  obtain ⟨t,he⟩ := Option.isSome_iff_exists.mp henabled
  have hdid := did he
  have hnet : s.net ≠ .running := by
    rcases h.net with hn | hn
    · simp [hn]
    · simp [hn]
  cases e with
  | main => simp [Did,proceed,h.threw] at hdid
  | fails => simp [Did,fail,h.threw] at hdid
  | timer =>
    obtain ⟨_,_,_,h1,h2⟩ := turnTimer_eq hdid
    rcases h.timer with ht | ht
    · exact h1 ht
    · exact h2 ht
  | opens | openFails => exact hnet hdid.1.1
  | serve | runReturns => exact hnet hdid.1
  | pool e =>
    obtain ⟨_,pool,hpool,_⟩ := hdid
    cases e with
    | test w | read w | dequeue w | resume w =>
      exact Pool.not_left_of_worker rfl hpool (h.workers.2 w)
    | _ => cases hagent
  | _ => cases hagent

def secondWorkerFails : List StartEvent :=
  [.main,.main,.main,.opens,.main,.main,.main,.request 0,.serve,.serve,.fails,.main,.main,.main,
    .pool (.test 0),.pool (.read 0),.pool (.dequeue 0),.pool (.resume 0),.pool (.finish 0),
    .pool (.test 0),.pool (.read 0),.runReturns] ++ List.replicate (bucketNum + 2) .timer ++
    [.main,.main,.main,.main]

theorem secondWorkerFails_undone : ∃ r : StartRun 2 false,
    (∃ i, r.event i = some .fails) ∧ ∃ j, (r.state j).Undone := by
  have hrun : ((Transition.run (StartUp.step 2 false) (StartUp.unrefused false) .init
      secondWorkerFails).map (fun s => s.main)) = some .threw := by decide +kernel
  obtain ⟨s,hs,hthrew⟩ := Option.map_eq_some_iff.mp hrun
  have hsound : ∀ i, ((Run.ofEvents hs).state i).Sound := sound_of_run _ rfl
  have hend : ∀ i, secondWorkerFails.length ≤ i → (Run.ofEvents hs).state i = s :=
    fun i hi => Run.after_end hs hi
  have hundone : s.Undone := by
    rw [← hend _ (Nat.le_refl _)]
    exact (hsound _).undone (by rw [hend _ (Nat.le_refl _)]; exact hthrew)
  have hundoes := (undoes_iff 2 false (Run.ofEvents hs) rfl
    (fun a => Run.ofEvents_fair hs (hundone.quiet a))).mpr ⟨?_,fun _ => ?_⟩
  · have hfails : (Run.ofEvents hs).event 10 = some .fails := rfl
    obtain ⟨j,_,hj⟩ := hundoes.2 10 .fails hfails rfl
    exact ⟨_,⟨10,hfails⟩,j,hj⟩
  · intro i hi
    have hmem := List.mem_of_getElem? hi
    simp [secondWorkerFails] at hmem
  · refine finishing_of_left (i := secondWorkerFails.length) fun j hj => ?_
    rw [hend j hj]
    exact hundone.workers.2

theorem StartUp.Blocked.step {n : Nat} {ndebug : Bool} {s t : StartUp} {e : StartEvent}
    (h : s.Blocked) (he : s.step n ndebug e = some t) : t.Blocked := by
  obtain ⟨hmain,hpromise,hended⟩ := h
  have hdid := did he
  cases e with
  | main => simp [Did,proceed,hmain,hpromise] at hdid
  | fails => simp [Did,fail,hmain] at hdid
  | opens | openFails | acceptFails => simp [Did,hended] at hdid
  | request c => simp [Did,hpromise] at hdid
  | timer =>
    obtain ⟨timer,rfl,_⟩ := turnTimer_eq hdid
    exact ⟨hmain,hpromise,hended⟩
  | runReturns =>
    obtain ⟨_,_,_,rfl⟩ := hdid
    exact ⟨hmain,hpromise,hended⟩
  | serve =>
    obtain ⟨c,_,⟨_,rfl⟩ | ⟨_,rfl⟩⟩ := serve_eq hdid.2
    · exact ⟨hmain,hpromise,hended⟩
    · exact ⟨hmain,hpromise,hended⟩
  | pool e =>
    obtain ⟨_,pool,_,rfl⟩ := hdid
    exact ⟨hmain,hpromise,hended⟩

def portTaken : List StartEvent := [.main,.main,.main,.openFails]

theorem portTaken_blocks : ∃ s : StartUp,
    Transition.run (StartUp.step 1 true) (fun _ _ => true) .init portTaken = some s ∧
    s.Blocked ∧ ∀ t, Reaches (StartUp.step 1 true) (fun _ _ => true) s t → t.Blocked := by
  have hrun : ((Transition.run (StartUp.step 1 true) (fun _ _ => true) .init portTaken).map
      (fun s => (s.main,s.promise,s.listener))) = some (.awaitFuture,false,.ended) := by decide
  obtain ⟨s,hs,heq⟩ := Option.map_eq_some_iff.mp hrun
  simp only [Prod.mk.injEq] at heq
  refine ⟨s,hs,heq,fun t ht => ?_⟩
  exact ht.invariant (I := StartUp.Blocked) (fun _ _ _ hb _ he => hb.step he) heq

end NewRpc.Sched
