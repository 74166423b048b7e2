import NewRpc.CallSteps
import NewRpc.Fairness

/-!
A call comes back. Whatever its peers do, its own timer sees to it that the coroutine
goes on, as long as the clock, the timers and the workers do.
-/

set_option autoImplicit false

namespace NewRpc.Net
open Codec Transition

section
variable {R : Reflection} {D : Defaults R} {p : Platform} {s t : World R} {e : Event R}

inductive CallAgent where
  | timer (c : Nat)
  | chain (coroId : Word .w64)

def Event.agent : Event R → Option CallAgent
  | .arm c | .expire c => some (.timer c)
  | .resume coroId => some (.chain coroId)
  | _ => none

/-- The peers answer what they were asked, or send a message that answers nothing. -/
inductive OpenEvent (R : Reflection) where
  | own (e : Event R)
  | message (remote : Address) (header : PackageHeader) (payload : List UInt8)

def OpenEvent.agent : OpenEvent R → Option CallAgent
  | .own e => e.agent
  | .message _ _ _ => none

def World.openStep (D : Defaults R) (p : Platform) (ndebug : Bool) (s : World R) :
    OpenEvent R → Option (World R)
  | .own e => s.step D p ndebug e
  | .message remote header payload => s.deliver D p ⟨0,0,remote,header,payload⟩

/-- A call that has not been resumed is the one its chain waits in; one whose timer has ended
is no longer in the table. -/
structure World.Live (s : World R) : Prop where
  suspended : ∀ c < s.count, (s.tasks c).resumed = false →
    s.chains (s.tasks c).coroId = some c
  ended : ∀ c < s.count, (s.tasks c).timer = .ended →
    ∀ info, s.net.waitingCoros (s.tasks c).coroId = some info → info.coroRpcCallback ≠ c

theorem World.Live.of_same (h : s.Live) (hcount : t.count = s.count)
    (hchains : t.chains = s.chains) (hwaiting : ∀ id info, t.net.waitingCoros id = some info →
      s.net.waitingCoros id = some info)
    (htasks : ∀ c < s.count, (t.tasks c).coroId = (s.tasks c).coroId ∧
      (t.tasks c).resumed = (s.tasks c).resumed ∧ ((t.tasks c).timer = (s.tasks c).timer ∨
        (t.tasks c).timer ≠ .ended)) : t.Live := by
  refine ⟨fun c hc hr => ?_,fun c hc he info hw => ?_⟩
  · rw [hcount] at hc
    obtain ⟨hid,hres,_⟩ := htasks c hc
    rw [hchains,hid]
    exact h.suspended c hc (hres ▸ hr)
  · rw [hcount] at hc
    obtain ⟨hid,_,htimer⟩ := htasks c hc
    rw [hid] at hw
    exact h.ended c hc ((htimer.resolve_right (not_not_intro he)) ▸ he) info (hwaiting _ _ hw)

theorem World.Live.setTask (h : s.Live) {c : Nat} {task : CallTask}
    (hid : task.coroId = (s.tasks c).coroId) (hres : task.resumed = (s.tasks c).resumed)
    (htimer : task.timer = (s.tasks c).timer ∨ task.timer ≠ .ended) : (s.setTask c task).Live := by
  refine h.of_same rfl rfl (fun _ _ hw => hw) fun c' _ => ?_
  by_cases hc : c' = c
  · subst hc
    simp only [World.setTask,Function.update_self]
    exact ⟨hid,hres,htimer⟩
  · simp only [World.setTask,Function.update_of_ne hc]
    exact ⟨trivial,trivial,.inl trivial⟩

/-- The end of a timer, with the call of its chain out of the table. -/
theorem World.Live.expire (h : s.Live) {c : Nat} (hcount : t.count = s.count)
    (hchains : t.chains = s.chains)
    (htasks : t.tasks = Function.update s.tasks c { s.tasks c with timer := .ended })
    (hwaiting : t.net.waitingCoros =
      Function.update s.net.waitingCoros (s.tasks c).coroId none) : t.Live := by
  have hid : ∀ c', (t.tasks c').coroId = (s.tasks c').coroId ∧
      (t.tasks c').resumed = (s.tasks c').resumed := by
    intro c'
    rw [htasks]
    by_cases hc : c' = c
    · subst hc
      rw [Function.update_self]
      exact ⟨rfl,rfl⟩
    · rw [Function.update_of_ne hc]
      exact ⟨rfl,rfl⟩
  refine ⟨fun c' hc' hr => ?_,fun c' hc' he info hw => ?_⟩
  · rw [hcount] at hc'
    rw [hchains,(hid c').1]
    exact h.suspended c' hc' ((hid c').2 ▸ hr)
  · rw [hcount] at hc'
    rw [(hid c').1,hwaiting] at hw
    by_cases hc : (s.tasks c').coroId = (s.tasks c).coroId
    · rw [hc,Function.update_self] at hw
      cases hw
    · rw [Function.update_of_ne hc] at hw
      have hne : c' ≠ c := fun heq => hc (by rw [heq])
      rw [htasks,Function.update_of_ne hne] at he
      exact h.ended c' hc' he info hw

theorem World.Live.register (h : s.Live) (hs : s.Sound) {coroId : Word .w64} (rpc : Awaited R)
    (hfree : s.chains coroId = none) : (s.register coroId rpc).Live := by
  have hnone : s.net.waitingCoros coroId = none := by
    cases hw : s.net.waitingCoros coroId with
    | none => rfl
    | some info =>
      rw [(hs.waiting coroId info hw).1] at hfree
      cases hfree
  have hwaiting := World.register_waitingCoros rpc hnone
  refine ⟨fun c hc hr => ?_,fun c hc he info hw => ?_⟩
  · by_cases hnew : c = s.count
    · subst hnew
      simp [World.register]
    · have hlt : c < s.count := Nat.lt_of_le_of_ne (Nat.le_of_lt_succ hc) hnew
      simp only [World.register,Function.update_of_ne hnew] at hr ⊢
      have hchain := h.suspended c hlt hr
      have hid : (s.tasks c).coroId ≠ coroId := by
        intro heq
        rw [heq,hfree] at hchain
        cases hchain
      rw [Function.update_of_ne hid]
      exact hchain
  · by_cases hnew : c = s.count
    · subst hnew
      simp [World.register] at he
    · have hlt : c < s.count := Nat.lt_of_le_of_ne (Nat.le_of_lt_succ hc) hnew
      rw [hwaiting] at hw
      simp only [World.register,Function.update_of_ne hnew] at he hw
      by_cases hid : (s.tasks c).coroId = coroId
      · rw [hid,Function.update_self] at hw
        cases hw
        exact fun heq => hnew heq.symm
      · rw [Function.update_of_ne hid] at hw
        exact h.ended c hlt he info hw

theorem World.Live.resume (h : s.Live) {coroId : Word .w64} {c : Nat}
    (hc : s.chains coroId = some c) : (s.resume coroId c).Live := by
  have htask : ∀ c', ((s.resume coroId c).tasks c').coroId = (s.tasks c').coroId ∧
      ((s.resume coroId c).tasks c').timer = (s.tasks c').timer := by
    intro c'
    simp only [World.resume]
    by_cases hcc : c' = c
    · subst hcc
      rw [Function.update_self]
      exact ⟨rfl,rfl⟩
    · rw [Function.update_of_ne hcc]
      exact ⟨rfl,rfl⟩
  refine ⟨fun c' hlt hr => ?_,fun c' hlt he info hw => ?_⟩
  · have hcc : c' ≠ c := by
      intro heq
      subst heq
      simp [World.resume] at hr
    simp only [World.resume,Function.update_of_ne hcc] at hr ⊢
    have hchain := h.suspended c' hlt hr
    have hid : (s.tasks c').coroId ≠ coroId := by
      intro heq
      rw [heq,hc] at hchain
      exact hcc (Option.some.inj hchain).symm
    rw [Function.update_of_ne hid]
    exact hchain
  · rw [(htask c').1] at hw
    rw [(htask c').2] at he
    exact h.ended c' hlt he info hw

theorem Stepped.live (h : Stepped D p s e t) (hs : s.Sound) (hl : s.Live) : t.Live := by
  have hsame : ∀ c < s.count, (s.tasks c).coroId = (s.tasks c).coroId ∧
      (s.tasks c).resumed = (s.tasks c).resumed ∧ ((s.tasks c).timer = (s.tasks c).timer ∨
        (s.tasks c).timer ≠ .ended) := fun _ _ => ⟨rfl,rfl,.inl rfl⟩
  cases h with
  | call coroId rpc hfree => exact hl.register hs rpc hfree
  | enter c hc ha => exact hl.setTask rfl rfl (.inl rfl)
  | spawn c k hc ha => exact hl.setTask rfl rfl (.inl rfl)
  | arm c hc ha => exact hl.setTask rfl rfl (.inr nofun)
  | sent c i written hc hp => exact hl.setTask rfl rfl (.inl rfl)
  | finish k m info value frame hm hw hd =>
    refine hl.of_same rfl rfl (fun id info' hw' => ?_) hsame
    simp only [World.complete,NetService.erase] at hw'
    by_cases hid : id = m.header.rpcId
    · rw [hid,Function.update_self] at hw'
      cases hw'
    · rwa [Function.update_of_ne hid] at hw'
  | lapse c deadline hc ha hd hw =>
    refine hl.expire (c := c) rfl rfl rfl ?_
    rw [← hw,Function.update_eq_self]
    rfl
  | timeOut c deadline info hc ha hd hw => exact hl.expire (c := c) rfl rfl rfl rfl
  | resume coroId c hc hr => exact hl.resume hc
  | _ => exact hl.of_same rfl rfl (fun _ _ hw => hw) hsame

theorem Stepped.count_le (h : Stepped D p s e t) : s.count ≤ t.count := h.kept.count

theorem Stepped.coroId (h : Stepped D p s e t) {c : Nat} (hc : c < s.count) :
    (t.tasks c).coroId = (s.tasks c).coroId := (h.kept.tasks c hc).coroId

theorem Stepped.now_le (h : Stepped D p s e t) : s.now ≤ t.now := by
  cases h with
  | tick ns =>
    show s.now ≤ s.now + ns
    omega
  | _ => exact Int.le_refl _

structure CallTask.Steps (a b : CallTask) (e : Event R) (c : Nat) : Prop where
  spawned : a.timer = .spawned → b.timer = .spawned ∧ e ≠ .arm c ∨ ∃ d, b.timer = .armed d
  armed : ∀ d, a.timer = .armed d → b.timer = .armed d ∧ e ≠ .expire c ∨ b.timer = .ended
  ended : a.timer = .ended → b.timer = .ended
  resumed : a.resumed = true → b.resumed = true

theorem CallTask.Steps.of_same {a b : CallTask} {c : Nat} (ht : b.timer = a.timer)
    (hr : b.resumed = a.resumed) (harm : e ≠ .arm c) (hexpire : e ≠ .expire c) :
    a.Steps b e c := by
  refine ⟨fun h => .inl ⟨ht.trans h,harm⟩,fun d h => .inl ⟨ht.trans h,hexpire⟩,
    fun h => ht.trans h,fun h => hr.trans h⟩

theorem CallTask.Steps.setTask {c c' : Nat} {task : CallTask}
    (h : (s.tasks c).Steps task e c) (hc : c' ≠ c → e ≠ .arm c' ∧ e ≠ .expire c') :
    (s.tasks c').Steps (Function.update s.tasks c task c') e c' := by
  by_cases heq : c' = c
  · subst heq
    rw [Function.update_self]
    exact h
  · rw [Function.update_of_ne heq]
    exact .of_same rfl rfl (hc heq).1 (hc heq).2

theorem CallTask.Steps.setTask_same {c c' : Nat} {task : CallTask}
    (ht : task.timer = (s.tasks c).timer) (hr : task.resumed = (s.tasks c).resumed)
    (harm : ∀ c, e ≠ .arm c) (hexpire : ∀ c, e ≠ .expire c) :
    (s.tasks c').Steps (Function.update s.tasks c task c') e c' :=
  .setTask (.of_same ht hr (harm c) (hexpire c)) (fun _ => ⟨harm c',hexpire c'⟩)

theorem Stepped.steps (h : Stepped D p s e t) {c : Nat} (hc : c < s.count) :
    (s.tasks c).Steps (t.tasks c) e c := by
  cases h with
  | call coroId rpc =>
    have hne : c ≠ s.count := Nat.ne_of_lt hc
    simp only [World.register,Function.update_of_ne hne]
    exact .of_same rfl rfl (by simp) (by simp)
  | enter c' hc' ha => exact .setTask_same rfl rfl (by simp) (by simp)
  | spawn c' k hc' ha => exact .setTask_same rfl rfl (by simp) (by simp)
  | arm c' hc' ha =>
    refine .setTask ⟨fun _ => .inr ⟨_,rfl⟩,fun d hd => ?_,fun he => ?_,fun hr => hr⟩
      fun hne => ⟨fun heq => ?_,(by simp)⟩
    · rw [ha] at hd
      cases hd
    · rw [ha] at he
      cases he
    · cases heq
      exact hne rfl
  | sent c' i written hc' hp => exact .setTask_same rfl rfl (by simp) (by simp)
  | lapse c' deadline hc' ha hd hw =>
    refine .setTask ⟨fun hs => ?_,fun d _ => .inr rfl,fun _ => rfl,fun hr => hr⟩
      fun hne => ⟨(by simp),fun heq => ?_⟩
    · rw [ha] at hs
      cases hs
    · cases heq
      exact hne rfl
  | timeOut c' deadline info hc' ha hd hw =>
    refine .setTask ⟨fun hs => ?_,fun d _ => .inr rfl,fun _ => rfl,fun hr => hr⟩
      fun hne => ⟨(by simp),fun heq => ?_⟩
    · rw [ha] at hs
      cases hs
    · cases heq
      exact hne rfl
  | resume coroId c' hc' hr =>
    refine .setTask ⟨fun h => .inl ⟨h,?_⟩,fun d h => .inl ⟨h,?_⟩,fun h => h,fun _ => rfl⟩
      (fun _ => ⟨?_,?_⟩)
    all_goals simp
  | _ => exact .of_same rfl rfl (by simp) (by simp)

def World.posted (s : World R) : OpenEvent R → World R
  | .own _ => s
  | .message remote header payload =>
      { s with network := s.network ++ [⟨0,0,remote,header,payload⟩] }

def OpenEvent.shown (s : World R) : OpenEvent R → Event R
  | .own e => e
  | .message _ _ _ => .deliver s.network.length

section
variable {e : OpenEvent R} {ndebug : Bool}

@[simp] theorem World.posted_count : (s.posted e).count = s.count := by cases e <;> rfl

@[simp] theorem World.posted_tasks : (s.posted e).tasks = s.tasks := by cases e <;> rfl

@[simp] theorem World.posted_now : (s.posted e).now = s.now := by cases e <;> rfl

theorem World.openStep_own {e : Event R} (he : s.openStep D p ndebug (.own e) = some t) :
    Stepped D p s e t := World.step_stepped he

theorem World.openStep_stepped (he : s.openStep D p ndebug e = some t) :
    Stepped D p (s.posted e) (e.shown s) t := by
  cases e with
  | own e => exact World.openStep_own he
  | message remote header payload =>
    refine World.deliver_stepped (m := ⟨0,0,remote,header,payload⟩) ?_ ?_
    · exact List.getElem?_concat_length
    · have htake : World.take (s.posted (.message remote header payload)) s.network.length = s := by
        simp [World.take,posted,List.eraseIdx_append_of_length_le]
      rw [htake]
      exact he

theorem World.openStep_count_le (he : s.openStep D p ndebug e = some t) : s.count ≤ t.count := by
  simpa using (World.openStep_stepped he).count_le

theorem World.openStep_now_le (he : s.openStep D p ndebug e = some t) : s.now ≤ t.now := by
  simpa using (World.openStep_stepped he).now_le

theorem World.openStep_coroId (he : s.openStep D p ndebug e = some t) {c : Nat}
    (hc : c < s.count) : (t.tasks c).coroId = (s.tasks c).coroId := by
  simpa using (World.openStep_stepped he).coroId (by simpa using hc)

theorem World.openStep_steps (he : s.openStep D p ndebug e = some t) {c : Nat}
    (hc : c < s.count) : (s.tasks c).Steps (t.tasks c) (e.shown s) c := by
  simpa using (World.openStep_stepped he).steps (by simpa using hc)

theorem World.openStep_sound (hs : s.Sound) (hl : s.Live)
    (he : s.openStep D p ndebug e = some t) : t.Sound ∧ t.Live := by
  have hst := World.openStep_stepped he
  have hs' : (s.posted e).Sound := by
    cases e with
    | own e => exact hs
    | message => exact ⟨hs.pending,hs.latest,hs.waiting,hs.suspended,hs.ready,hs.nodup⟩
  have hl' : (s.posted e).Live := by
    cases e with
    | own e => exact hl
    | message => exact ⟨hl.suspended,hl.ended⟩
  exact ⟨hst.sound hs',hst.live hs' hl'⟩

theorem OpenEvent.agent_timer {c : Nat} (h : e.agent = some (.timer c)) :
    e = .own (.arm c) ∨ e = .own (.expire c) := by
  cases e with
  | own e =>
    cases e with
    | arm c' =>
      cases h
      exact .inl rfl
    | expire c' =>
      cases h
      exact .inr rfl
    | _ => cases h
  | message => cases h

theorem OpenEvent.agent_chain {coroId : Word .w64} (h : e.agent = some (.chain coroId)) :
    e = .own (.resume coroId) := by
  cases e with
  | own e =>
    cases e with
    | resume =>
      cases h
      rfl
    | _ => cases h
  | message => cases h

end

abbrev CallRun (D : Defaults R) (p : Platform) :=
  Run (World.openStep D p true) (fun _ _ => true)

theorem World.arm_enabled {c : Nat} (hc : c < s.count) (ht : (s.tasks c).timer = .spawned) :
    Enabled (World.openStep D p true) OpenEvent.agent (.timer c) s := by
  refine ⟨.own (.arm c),rfl,?_⟩
  simp [World.openStep,World.step,World.arm,hc,ht]

theorem World.expire_enabled {c : Nat} {d : Int} (hc : c < s.count)
    (ht : (s.tasks c).timer = .armed d) (hd : d ≤ s.now) :
    Enabled (World.openStep D p true) OpenEvent.agent (.timer c) s := by
  refine ⟨.own (.expire c),rfl,?_⟩
  cases hw : s.net.waitingCoros (s.tasks c).coroId with
  | none => simp [World.openStep,World.step,World.expire,NetService.timeout,hc,ht,hd,hw]
  | some info =>
    have hck : check true .resultsComplete
        (s.net.calls info.coroRpcCallback).timeoutAssertion = .ok () := check_pos (.inl rfl)
    simp [World.openStep,World.step,World.expire,NetService.timeout,hc,ht,hd,hw,hck,Exec.ok_bind]

variable {r : CallRun D p}

theorem timer_armed (hfair : ∀ c, r.Fair OpenEvent.agent (.timer c)) (c : Nat) :
    r.LeadsTo (fun s => c < s.count ∧ (s.tasks c).timer = .spawned)
      (fun s => c < s.count ∧ ∃ d, (s.tasks c).timer = .armed d) := by
  refine Run.leadsTo_of_fair (I := fun _ => True) (fun _ => trivial) (hfair c)
    (fun s _ hp => World.arm_enabled hp.1 hp.2) (fun s e t _ hp he => ?_)
    (fun s e t _ hp ha he => ?_)
  · have hlt := Nat.lt_of_lt_of_le hp.1 (World.openStep_count_le he)
    rcases (World.openStep_steps he hp.1).spawned hp.2 with ⟨hsame,_⟩ | harmed
    · exact .inl ⟨hlt,hsame⟩
    · exact .inr ⟨hlt,harmed⟩
  · have hlt := Nat.lt_of_lt_of_le hp.1 (World.openStep_count_le he)
    rcases (World.openStep_steps he hp.1).spawned hp.2 with ⟨_,hne⟩ | harmed
    · rcases OpenEvent.agent_timer ha with rfl | rfl
      · exact absurd rfl hne
      · cases World.openStep_own he with
        | lapse _ d _ hd => simp [hp.2] at hd
        | timeOut _ d _ _ hd => simp [hp.2] at hd
    · exact ⟨hlt,harmed⟩

/-- The deadline of a timer is waited for: it passes, or the timer has ended before. -/
theorem deadline_passes (hclock : ∀ (i c : Nat) (d : Int), c < (r.state i).count →
      ((r.state i).tasks c).timer = .armed d → ∃ j, i ≤ j ∧ d ≤ (r.state j).now) (c : Nat) :
    r.LeadsTo (fun s => c < s.count ∧ ∃ d, (s.tasks c).timer = .armed d)
      (fun s => c < s.count ∧ ((s.tasks c).timer = .ended ∨
        ∃ d, (s.tasks c).timer = .armed d ∧ d ≤ s.now)) := by
  rintro i ⟨hc,d,hd⟩
  obtain ⟨j,hij,hnow⟩ := hclock i c d hc hd
  have hkeeps : c < (r.state j).count ∧ (((r.state j).tasks c).timer = .armed d ∨
      ((r.state j).tasks c).timer = .ended) := by
    refine Run.keeps (P := fun s : World R => c < s.count ∧ ((s.tasks c).timer = .armed d ∨
      (s.tasks c).timer = .ended)) hij ⟨hc,.inl hd⟩ ?_
    rintro k e _ _ ⟨hlt,ht⟩ he
    refine ⟨Nat.lt_of_lt_of_le hlt (World.openStep_count_le he),?_⟩
    rcases ht with ht | ht
    · rcases (World.openStep_steps he hlt).armed d ht with ⟨hsame,_⟩ | hended
      · exact .inl hsame
      · exact .inr hended
    · exact .inr ((World.openStep_steps he hlt).ended ht)
  refine ⟨j,hij,hkeeps.1,?_⟩
  rcases hkeeps.2 with ht | ht
  · exact .inr ⟨d,ht,hnow⟩
  · exact .inl ht

theorem timer_ends (hfair : ∀ c, r.Fair OpenEvent.agent (.timer c)) (c : Nat) :
    r.LeadsTo (fun s => c < s.count ∧ ((s.tasks c).timer = .ended ∨
        ∃ d, (s.tasks c).timer = .armed d ∧ d ≤ s.now))
      (fun s => c < s.count ∧ (s.tasks c).timer = .ended) := by
  rintro i ⟨hc,ht | ⟨d,ht,hd⟩⟩
  · exact ⟨i,Nat.le_refl i,hc,ht⟩
  · have hlead : r.LeadsTo (fun s => c < s.count ∧ (s.tasks c).timer = .armed d ∧ d ≤ s.now)
        (fun s => c < s.count ∧ (s.tasks c).timer = .ended) := ?_
    · exact hlead i ⟨hc,ht,hd⟩
    refine Run.leadsTo_of_fair (I := fun _ => True) (fun _ => trivial) (hfair c)
      (fun s _ hp => World.expire_enabled hp.1 hp.2.1 hp.2.2) (fun s e t _ hp he => ?_)
      (fun s e t _ hp ha he => ?_)
    · have hlt := Nat.lt_of_lt_of_le hp.1 (World.openStep_count_le he)
      rcases (World.openStep_steps he hp.1).armed d hp.2.1 with ⟨hsame,_⟩ | hended
      · exact .inl ⟨hlt,hsame,Int.le_trans hp.2.2 (World.openStep_now_le he)⟩
      · exact .inr ⟨hlt,hended⟩
    · have hlt := Nat.lt_of_lt_of_le hp.1 (World.openStep_count_le he)
      rcases (World.openStep_steps he hp.1).armed d hp.2.1 with ⟨_,hne⟩ | hended
      · rcases OpenEvent.agent_timer ha with rfl | rfl
        · cases World.openStep_own he with
          | arm _ _ hs => simp [hp.2.1] at hs
        · exact absurd rfl hne
      · exact ⟨hlt,hended⟩

/-- A call whose timer has ended is ready, so a worker resumes it. -/
theorem ended_resumed (hsound : ∀ i, (r.state i).Sound ∧ (r.state i).Live)
    (hfair : ∀ id, r.Fair OpenEvent.agent (.chain id)) (c : Nat) :
    r.LeadsTo (fun s => c < s.count ∧ (s.tasks c).timer = .ended)
      (fun s => (s.tasks c).resumed = true) := by
  rintro i ⟨hc,ht⟩
  by_cases hres : ((r.state i).tasks c).resumed = true
  · exact ⟨i,Nat.le_refl i,hres⟩
  have hready : ∀ s : World R, s.Sound ∧ s.Live → c < s.count → (s.tasks c).timer = .ended →
      (s.tasks c).resumed = false → s.chains (s.tasks c).coroId = some c ∧
        (s.tasks c).coroId.toNat ∈ s.ready := by
    intro s ⟨hs,hl⟩ hlt hended hfalse
    have hchain := hl.suspended c hlt hfalse
    refine ⟨hchain,(hs.suspended _ c hchain).mp ?_⟩
    cases hw : s.net.waitingCoros (s.tasks c).coroId with
    | none => rfl
    | some info =>
      have heq := (hs.waiting _ info hw).1.symm.trans hchain
      exact absurd (Option.some.inj heq) (hl.ended c hlt hended info hw)
  have hlead : r.LeadsTo (fun s => c < s.count ∧ (s.tasks c).timer = .ended ∧
      (s.tasks c).resumed = false ∧ (s.tasks c).coroId = ((r.state i).tasks c).coroId)
      (fun s => (s.tasks c).resumed = true) := ?_
  · exact hlead i ⟨hc,ht,by simpa using hres,rfl⟩
  refine Run.leadsTo_of_fair (I := fun s => s.Sound ∧ s.Live) hsound
    (hfair ((r.state i).tasks c).coroId) (fun s hi hp => ?_) (fun s e t hi hp he => ?_)
    (fun s e t hi hp ha he => ?_)
  · obtain ⟨hchain,hin⟩ := hready s hi hp.1 hp.2.1 hp.2.2.1
    rw [hp.2.2.2] at hchain hin
    exact ⟨.own (.resume _),rfl,by simp [World.openStep,World.step,hchain,hin]⟩
  · have hsteps := World.openStep_steps he hp.1
    cases hr : (t.tasks c).resumed with
    | true => exact .inr rfl
    | false =>
      exact .inl ⟨Nat.lt_of_lt_of_le hp.1 (World.openStep_count_le he),hsteps.ended hp.2.1,rfl,
        (World.openStep_coroId he hp.1).trans hp.2.2.2⟩
  · obtain ⟨hchain,_⟩ := hready s hi hp.1 hp.2.1 hp.2.2.1
    rw [hp.2.2.2] at hchain
    obtain rfl := OpenEvent.agent_chain ha
    cases World.openStep_own he with
    | resume coroId c' hc' hin =>
      have heq : c' = c := Option.some.inj (hc'.symm.trans hchain)
      subst heq
      simp [World.resume]

/-- Whatever messages come: where the clock passes every deadline that is set, and the timers and
the workers go on, every call that is made is resumed. -/
theorem calls_resumed {R : Reflection} (D : Defaults R) (p : Platform) (net : NetService R)
    (now : Int) (r : Run (World.openStep D p true) (fun _ _ => true))
    (hstart : r.state 0 = .start net now) (hfair : ∀ a, r.Fair OpenEvent.agent a)
    (hclock : ∀ (i c : Nat) (d : Int), c < (r.state i).count →
      ((r.state i).tasks c).timer = .armed d → ∃ j, i ≤ j ∧ d ≤ (r.state j).now) (c : Nat) :
    r.LeadsTo (fun s => c < s.count) (fun s => (s.tasks c).resumed = true) := by
  have hsound : ∀ i, (r.state i).Sound ∧ (r.state i).Live := by
    intro i
    have hreach := r.reaches i
    rw [hstart] at hreach
    refine hreach.invariant (I := fun s => s.Sound ∧ s.Live) (fun s e t hi _ he => ?_)
      ⟨World.start_sound net now,fun _ h => absurd h (Nat.not_lt_zero _),
        fun _ h => absurd h (Nat.not_lt_zero _)⟩
    exact World.openStep_sound hi.1 hi.2 he
  have hends := timer_ends (fun c => hfair (.timer c)) c
  have harmed : r.LeadsTo (fun s => c < s.count ∧ ∃ d, (s.tasks c).timer = .armed d)
      (fun s => (s.tasks c).resumed = true) :=
    ((deadline_passes hclock c).trans hends).trans
      (ended_resumed hsound (fun id => hfair (.chain id)) c)
  intro i hc
  cases ht : ((r.state i).tasks c).timer with
  | spawned => exact ((timer_armed (fun c => hfair (.timer c)) c).trans harmed) i ⟨hc,ht⟩
  | armed d => exact harmed i ⟨hc,d,ht⟩
  | ended => exact ended_resumed hsound (fun id => hfair (.chain id)) c i ⟨hc,ht⟩

end

def neverAnswered : List (OpenEvent personReflection) :=
  [.own (.call 1 (askBoth 1000)),.own (.arm 0),
    .message (3,4) (responseHeader ⟨peerAt (3,4),9,0⟩ 7 1) [1],.own (.tick 1000),
    .own (.expire 0),.own (.resume 1)]

def Timer.byThousand : Timer → Bool
  | .armed d => d ≤ 1000
  | _ => true

theorem neverAnswered_states : ∀ i < 7, ∀ s,
    s = Run.after (World.openStep personDefaults .small true) quiet neverAnswered i →
      s.count ≤ 1 ∧ (s.tasks 0).timer.byThousand = true := by
  simp only [forall_eq]
  decide +kernel

theorem neverAnswered_resumed :
    ∃ r : Run (World.openStep personDefaults .small true) (fun _ _ => true),
      0 < (r.state 1).count ∧ ∃ j, 1 ≤ j ∧ ((r.state j).tasks 0).resumed = true := by
  have hrun : (Transition.run (World.openStep personDefaults .small true) (fun _ _ => true) quiet
      neverAnswered).map (fun s => (s.count,(s.tasks 0).timer,s.ready,s.now)) =
        some (1,.ended,[],1000) := by decide +kernel
  obtain ⟨t,ht,heq⟩ := Option.map_eq_some_iff.mp hrun
  simp only [Prod.mk.injEq] at heq
  obtain ⟨hcount,htimer,hready,hnow⟩ := heq
  have hone : 0 < ((Run.ofEvents ht).state 1).count := by
    show 0 < (Run.after (World.openStep personDefaults .small true) quiet neverAnswered 1).count
    decide +kernel
  refine ⟨Run.ofEvents ht,hone,calls_resumed personDefaults .small _ 0 (Run.ofEvents ht) rfl
    (fun a => Run.ofEvents_fair ht ?_) (fun i c d hc hd => ⟨max i 6,Nat.le_max_left ..,?_⟩) 0 1
    hone⟩
  · rintro ⟨e,ha,he⟩
    obtain ⟨u,hu⟩ := Option.isSome_iff_exists.mp he
    cases e with
    | message => cases ha
    | own e => cases World.openStep_own hu with
      | arm c hc hs =>
        rw [hcount,Nat.lt_one_iff] at hc
        simp [hc,htimer] at hs
      | lapse c d hc hs =>
        rw [hcount,Nat.lt_one_iff] at hc
        simp [hc,htimer] at hs
      | timeOut c d info hc hs =>
        rw [hcount,Nat.lt_one_iff] at hc
        simp [hc,htimer] at hs
      | resume coroId c hc hin => simp [hready] at hin
      | _ => cases ha
  · have hend : (Run.ofEvents ht).state (max i 6) = t := Run.after_end ht (Nat.le_max_right i 6)
    rw [hend,hnow]
    have hi : ∃ k < 7, (Run.ofEvents ht).state i =
        Run.after (World.openStep personDefaults .small true) quiet neverAnswered k := by
      by_cases hlt : i < 7
      · exact ⟨i,hlt,rfl⟩
      · refine ⟨6,by decide,?_⟩
        exact (Run.after_end ht (show 6 ≤ i by omega)).trans
          (Run.after_end ht (Nat.le_refl 6)).symm
    obtain ⟨k,hk,hstate⟩ := hi
    obtain ⟨hle,hby⟩ := neverAnswered_states k hk _ hstate
    have hzero : c = 0 := by omega
    rw [hzero] at hd
    simpa [Timer.byThousand,hd] using hby

end NewRpc.Net
