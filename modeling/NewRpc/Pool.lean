import NewRpc.Custody
import NewRpc.Transition

/-!
The scheduler's own threads: the steps of `commit`, of `stop` and of the workers'
`loop_`, and when the workers leave nothing behind.
-/

set_option autoImplicit false

namespace NewRpc.Sched

/-- How far a call of `commit` is: not made, after the load of `stop_flag_`, after
`running_coro_cnt_++`, or returned. The root that it commits is named by the call. -/
inductive Commit where
  | idle
  | loaded
  | counted
  | returned
  | hasBeenStopped
  deriving DecidableEq, Repr

/-- Where a worker is: at the exit test, between its two loads, before the lock, with a
coroutine that was popped, in a coroutine, or out of `loop_`. -/
inductive Worker where
  | testing
  | counting
  | locking
  | fetched (coro : Nat)
  | resumed (coro : Nat)
  | left
  deriving DecidableEq, Repr

/-- `away` lists the coroutines that wait for a timer or for a response, and `finished`
those at their final suspension. -/
structure Pool where
  stopFlag : Bool
  runningCoroCnt : Int
  coroutineQueue : List Nat
  commits : Nat → Commit
  workers : Nat → Worker
  away : List Nat
  finished : List Nat

def Pool.setCommit (s : Pool) (c : Nat) (commit : Commit) : Pool :=
  { s with commits := Function.update s.commits c commit }

def Pool.setWorker (s : Pool) (w : Nat) (worker : Worker) : Pool :=
  { s with workers := Function.update s.workers w worker }

inductive Event where
  | load (c : Nat)
  | count (c : Nat)
  | enqueue (c : Nat)
  | stop
  | test (w : Nat)
  | read (w : Nat)
  | dequeue (w : Nat)
  | resume (w : Nat)
  | finish (w : Nat)
  | suspend (w : Nat)
  | leave (w : Nat)
  | wake (c : Nat)

def Pool.load (s : Pool) (c : Nat) : Pool :=
  s.setCommit c (if s.stopFlag then .hasBeenStopped else .loaded)

def Pool.count (s : Pool) (c : Nat) : Pool :=
  { s with runningCoroCnt := s.runningCoroCnt + 1 }.setCommit c .counted

def Pool.enqueue (s : Pool) (c : Nat) : Pool :=
  { s with coroutineQueue := s.coroutineQueue ++ [c] }.setCommit c .returned

def Pool.test (s : Pool) (w : Nat) : Pool :=
  s.setWorker w (if s.stopFlag then .counting else .locking)

def Pool.read (s : Pool) (w : Nat) : Pool :=
  s.setWorker w (if s.runningCoroCnt = 0 then .left else .locking)

/-- The wait for the queue ends with a coroutine, with the stop or with the time. -/
def Pool.dequeue (s : Pool) (w : Nat) : Pool :=
  match s.coroutineQueue with
  | [] => s.setWorker w .testing
  | coro :: rest => { s with coroutineQueue := rest }.setWorker w (.fetched coro)

def Pool.finish (s : Pool) (w coro : Nat) : Pool :=
  { s with
    runningCoroCnt := s.runningCoroCnt - 1
    finished := s.finished ++ [coro] }.setWorker w .testing

def Pool.suspend (s : Pool) (w coro : Nat) : Pool :=
  { s with coroutineQueue := s.coroutineQueue ++ [coro] }.setWorker w .testing

def Pool.leave (s : Pool) (w coro : Nat) : Pool :=
  { s with away := s.away ++ [coro] }.setWorker w .testing

def Pool.wake (s : Pool) (coro : Nat) : Pool :=
  { s with
    coroutineQueue := s.coroutineQueue ++ [coro]
    away := s.away.erase coro }

def Pool.resumedBy (s : Pool) (w : Nat) (next : Nat → Pool) : Option Pool :=
  match s.workers w with
  | .resumed coro => some (next coro)
  | _ => none

def Pool.step (s : Pool) : Event → Option Pool
  | .load c => if s.commits c = .idle then some (s.load c) else none
  | .count c => if s.commits c = .loaded then some (s.count c) else none
  | .enqueue c => if s.commits c = .counted then some (s.enqueue c) else none
  | .stop => some { s with stopFlag := true }
  | .test w => if s.workers w = .testing then some (s.test w) else none
  | .read w => if s.workers w = .counting then some (s.read w) else none
  | .dequeue w => if s.workers w = .locking then some (s.dequeue w) else none
  | .resume w => match s.workers w with
      | .fetched coro => some (s.setWorker w (.resumed coro))
      | _ => none
  | .finish w => s.resumedBy w (s.finish w)
  | .suspend w => s.resumedBy w (s.suspend w)
  | .leave w => s.resumedBy w (s.leave w)
  | .wake coro => if s.away.contains coro then some (s.wake coro) else none

def Pool.start (workerThreadNum : Nat) : Pool where
  stopFlag := false
  runningCoroCnt := 0
  coroutineQueue := []
  commits := fun _ => .idle
  workers := fun w => if w < workerThreadNum then .testing else .left
  away := []
  finished := []

/-- `running_coro_cnt_` is raised while some worker has not left. -/
def Pool.countsInTime (workerThreadNum : Nat) (s : Pool) : Event → Bool
  | .count _ => (List.range workerThreadNum).any (fun w => s.workers w != .left)
  | _ => true

def Pool.Left (s : Pool) : Prop := ∀ w, s.workers w = .left

def Pool.Drained (s : Pool) : Prop :=
  (∀ c, s.commits c = .returned → c ∈ s.finished) ∧ s.coroutineQueue = []

inductive Place where
  | commit (c : Nat)
  | queue
  | worker (w : Nat)
  | away
  deriving DecidableEq, Repr

def Worker.held : Worker → List Nat
  | .fetched coro | .resumed coro => [coro]
  | _ => []

def Pool.held (s : Pool) : Place → List Nat
  | .commit c => if s.commits c = .counted then [c] else []
  | .queue => s.coroutineQueue
  | .worker w => (s.workers w).held
  | .away => s.away

def Pool.Live (s : Pool) (c : Nat) : Prop :=
  (s.commits c = .counted ∨ s.commits c = .returned) ∧ c ∉ s.finished

structure Pool.Counted (s : Pool) : Prop where
  places : Custody.Exclusive s.held s.Live
  counts : Custody.Numbers s.Live s.runningCoroCnt
  finished : ∀ c ∈ s.finished, s.commits c = .counted ∨ s.commits c = .returned

structure Pool.Kept (s : Pool) : Prop where
  places : Custody.Exclusive s.held s.Live
  counts : Custody.Numbers s.Live s.runningCoroCnt
  finished : ∀ c ∈ s.finished, s.commits c = .counted ∨ s.commits c = .returned
  left : s.Left → ∀ c, ¬ s.Live c

@[simp] theorem Pool.setWorker_self (s : Pool) (w : Nat) (worker : Worker) :
    (s.setWorker w worker).workers w = worker := Function.update_self ..

theorem Pool.setWorker_ne (s : Pool) {w v : Nat} (worker : Worker) (h : v ≠ w) :
    (s.setWorker w worker).workers v = s.workers v := Function.update_of_ne h _ _

@[simp] theorem Pool.setCommit_self (s : Pool) (c : Nat) (commit : Commit) :
    (s.setCommit c commit).commits c = commit := Function.update_self ..

theorem Pool.setCommit_ne (s : Pool) {c d : Nat} (commit : Commit) (h : d ≠ c) :
    (s.setCommit c commit).commits d = s.commits d := Function.update_of_ne h _ _

theorem Pool.Counted.of_live {s t : Pool} (h : s.Counted) (hp : Custody.Exclusive t.held t.Live)
    (hl : ∀ c, t.Live c ↔ s.Live c) (hn : t.runningCoroCnt = s.runningCoroCnt)
    (hf : ∀ c ∈ t.finished, t.commits c = .counted ∨ t.commits c = .returned) : t.Counted := by
  refine ⟨hp,?_,hf⟩
  rw [hn]
  exact h.counts.congr hl

theorem Pool.Counted.setWorker {s : Pool} (h : s.Counted) {w : Nat} {worker : Worker}
    (hheld : worker.held = (s.workers w).held) : (s.setWorker w worker).Counted := by
  have hsame : (s.setWorker w worker).held = s.held := by
    funext r
    cases r with
    | worker v =>
      show ((s.setWorker w worker).workers v).held = (s.workers v).held
      by_cases hv : v = w
      · rw [hv,setWorker_self,hheld]
      · rw [setWorker_ne s worker hv]
    | _ => rfl
  refine h.of_live ?_ (fun c => Iff.rfl) rfl h.finished
  rw [hsame]
  exact h.places

theorem Pool.Counted.moves {s t : Pool} (h : s.Counted) {x : Nat} {p q : Place} (hx : x ∈ s.held p)
    (hpq : p ≠ q) (hp : t.held p = (s.held p).erase x) (hq : t.held q = s.held q ++ [x])
    (hr : ∀ r, r ≠ p → r ≠ q → t.held r = s.held r) (hl : ∀ c, t.Live c ↔ s.Live c)
    (hn : t.runningCoroCnt = s.runningCoroCnt)
    (hf : ∀ c ∈ t.finished, t.commits c = .counted ∨ t.commits c = .returned) : t.Counted := by
  have hplaces := h.places.move hx hpq (.of_eq hp) (.of_eq hq) hr hl
  exact h.of_live hplaces hl hn hf

theorem Pool.load_live {s : Pool} {c : Nat} (hc : s.commits c = .idle) (d : Nat) :
    (s.load c).Live d ↔ s.Live d := by
  unfold Pool.load
  by_cases hd : d = c
  · split <;> simp [Live,hd,hc]
  · simp [Live,Pool.setCommit,hd]

theorem Pool.Counted.load {s : Pool} (h : s.Counted) {c : Nat} (hc : s.commits c = .idle) :
    (s.load c).Counted := by
  have hcommit : (s.load c).commits c ≠ .counted := by
    unfold Pool.load
    split <;> simp
  have hother : ∀ d, d ≠ c → (s.load c).commits d = s.commits d :=
    fun d hd => setCommit_ne s _ hd
  have hheld : (s.load c).held = s.held := by
    funext r
    cases r with
    | commit d =>
      by_cases hd : d = c
      · simp [held,hd,hc,hcommit]
      · simp [held,hother d hd]
    | _ => rfl
  refine h.of_live ?_ (load_live hc) rfl ?_
  · rw [hheld]
    exact h.places.perm (fun _ => .refl _) (load_live hc)
  · intro d hd
    have hd' := h.finished d hd
    have hne : d ≠ c := by
      intro heq
      simp [heq,hc] at hd'
    rw [hother d hne]
    exact hd'

theorem Pool.Counted.count {s : Pool} (h : s.Counted) {c : Nat} (hc : s.commits c = .loaded) :
    (s.count c).Counted := by
  have hnew : ¬ s.Live c := by simp [Live,hc]
  have hfin : c ∉ s.finished := by
    intro hin
    have := h.finished c hin
    simp [hc] at this
  have hlive : ∀ d, (s.count c).Live d ↔ s.Live d ∨ d = c := by
    intro d
    by_cases hd : d = c
    · subst hd
      simp [Live,Pool.count,hfin,Pool.setCommit]
    · simp [Live,Pool.count,hd,Pool.setCommit]
  refine ⟨h.places.insert (q := .commit c) hnew ?_ ?_ hlive,h.counts.insert hnew hlive,?_⟩
  · simp [held,Pool.count,hc]
  · intro r hr
    cases r with
    | commit d =>
      have hd : d ≠ c := fun heq => hr (by rw [heq])
      simp [held,Pool.count,Pool.setCommit,hd]
    | _ => rfl
  · intro d hd
    have hd' := h.finished d hd
    have hne : d ≠ c := fun heq => hfin (heq ▸ hd)
    simpa [Pool.count,Pool.setCommit,hne] using hd'

theorem Pool.enqueue_live {s : Pool} {c : Nat} (hc : s.commits c = .counted) (d : Nat) :
    (s.enqueue c).Live d ↔ s.Live d := by
  by_cases hd : d = c
  · simp [Live,Pool.enqueue,hd,hc,Pool.setCommit]
  · simp [Live,Pool.enqueue,hd,Pool.setCommit]

theorem Pool.Counted.enqueue {s : Pool} (h : s.Counted) {c : Nat} (hc : s.commits c = .counted) :
    (s.enqueue c).Counted := by
  refine h.moves (x := c) (p := .commit c) (q := .queue) (by simp [held,hc]) (by simp) ?_ rfl ?_
    (enqueue_live hc) rfl ?_
  · simp [held,Pool.enqueue,hc]
  · intro r hr hrq
    cases r with
    | commit d =>
      have hd : d ≠ c := fun heq => hr (by rw [heq])
      simp [held,Pool.enqueue,Pool.setCommit,hd]
    | queue => contradiction
    | _ => rfl
  · intro d hd
    by_cases hdc : d = c
    · simp [Pool.enqueue,hdc]
    · simpa [Pool.enqueue,Pool.setCommit,hdc] using h.finished d hd

/-- The places of a step by one worker, which are its own and the one it gives to or
takes from. -/
theorem Pool.held_worker_ne (s : Pool) {t : Pool} {w : Nat} (worker : Worker) {q : Place}
    (ht : t.workers = Function.update s.workers w worker) (hc : t.commits = s.commits)
    (hq : q ≠ .queue → t.coroutineQueue = s.coroutineQueue) (ha : q ≠ .away → t.away = s.away) :
    ∀ r, r ≠ .worker w → r ≠ q → t.held r = s.held r := by
  intro r hr hrq
  cases r with
  | commit d => simp [held,hc]
  | queue => exact hq (Ne.symm hrq)
  | worker v =>
    have hv : v ≠ w := fun heq => hr (by rw [heq])
    simp [held,ht,hv]
  | away => exact ha (Ne.symm hrq)

theorem Pool.Counted.dequeue {s : Pool} (h : s.Counted) {w : Nat} (hw : s.workers w = .locking) :
    (s.dequeue w).Counted := by
  unfold Pool.dequeue
  split
  · exact h.setWorker (by rw [hw]; rfl)
  · rename_i coro rest hq
    refine h.moves (x := coro) (p := .queue) (q := .worker w) (by simp [held,hq]) (by simp) ?_ ?_
      ?_ (fun _ => Iff.rfl) rfl h.finished
    · simp [held,hq,Pool.setWorker]
    · simp [held,hw,Worker.held]
    · intro r hr hrw
      exact held_worker_ne s (t := { s with coroutineQueue := rest }.setWorker w (.fetched coro))
        (.fetched coro) rfl rfl (q := .queue) (by simp) (fun _ => rfl) r hrw hr

theorem Pool.Counted.gives {s t : Pool} (h : s.Counted) {w coro : Nat} {q : Place}
    (hw : s.workers w = .resumed coro) (hq : t.held q = s.held q ++ [coro])
    (hne : .worker w ≠ q) (ht : t.workers = Function.update s.workers w .testing)
    (hr : ∀ r, r ≠ .worker w → r ≠ q → t.held r = s.held r)
    (hl : ∀ c, t.Live c ↔ s.Live c) (hn : t.runningCoroCnt = s.runningCoroCnt)
    (hf : ∀ c ∈ t.finished, t.commits c = .counted ∨ t.commits c = .returned) : t.Counted := by
  refine h.moves (x := coro) (p := .worker w) (by simp [held,hw,Worker.held]) hne ?_ hq hr hl hn
    hf
  simp [held,ht,hw,Worker.held]

theorem Pool.Counted.suspend {s : Pool} (h : s.Counted) {w coro : Nat}
    (hw : s.workers w = .resumed coro) : (s.suspend w coro).Counted :=
  h.gives (q := .queue) hw rfl (by simp) rfl
    (held_worker_ne s .testing rfl rfl (by simp) (fun _ => rfl)) (fun _ => Iff.rfl) rfl h.finished

theorem Pool.Counted.leave {s : Pool} (h : s.Counted) {w coro : Nat}
    (hw : s.workers w = .resumed coro) : (s.leave w coro).Counted :=
  h.gives (q := .away) hw rfl (by simp) rfl
    (held_worker_ne s .testing rfl rfl (fun _ => rfl) (by simp)) (fun _ => Iff.rfl) rfl h.finished

theorem Pool.Counted.wake {s : Pool} (h : s.Counted) {coro : Nat} (hin : coro ∈ s.away) :
    (s.wake coro).Counted := by
  refine h.moves (p := .away) (q := .queue) hin (by simp) rfl rfl ?_ (fun _ => Iff.rfl) rfl
    h.finished
  intro r hr hrq
  cases r with
  | queue => exact absurd rfl hrq
  | away => exact absurd rfl hr
  | _ => rfl

theorem Pool.Counted.finish {s : Pool} (h : s.Counted) {w coro : Nat}
    (hw : s.workers w = .resumed coro) : (s.finish w coro).Counted := by
  have hin : coro ∈ s.held (.worker w) := by simp [held,hw,Worker.held]
  have hlive := h.places.live _ _ hin
  have hmem : ∀ c, (s.finish w coro).Live c ↔ s.Live c ∧ c ≠ coro := by
    intro c
    simp [Live,Pool.finish,Pool.setWorker,and_assoc]
  refine ⟨h.places.remove hin ?_ ?_ hmem,h.counts.remove hlive hmem,?_⟩
  · simp [held,Pool.finish,hw,Worker.held]
  · intro r hr
    by_cases hq : r = .queue
    · rw [hq]
      rfl
    · exact held_worker_ne s (t := s.finish w coro) .testing rfl rfl (q := .queue) (by simp)
        (fun _ => rfl) r hr hq
  · intro c hc
    rcases List.mem_append.mp hc with hin' | heq
    · exact h.finished c hin'
    · rw [List.mem_singleton.mp heq]
      exact hlive.1

theorem Pool.resumedBy_eq {s t : Pool} {w : Nat} {next : Nat → Pool}
    (h : s.resumedBy w next = some t) : ∃ coro, s.workers w = .resumed coro ∧ t = next coro := by
  unfold resumedBy at h
  split at h
  · rename_i coro hw
    exact ⟨coro,hw,(Option.some.inj h).symm⟩
  · cases h

theorem Pool.Counted.step {s t : Pool} {e : Event} (h : s.Counted) (he : s.step e = some t) :
    t.Counted := by
  cases e with
  | load c =>
    obtain ⟨hc,heq⟩ := Option.ite_none_right_eq_some.mp he
    cases heq
    exact h.load hc
  | count c =>
    obtain ⟨hc,heq⟩ := Option.ite_none_right_eq_some.mp he
    cases heq
    exact h.count hc
  | enqueue c =>
    obtain ⟨hc,heq⟩ := Option.ite_none_right_eq_some.mp he
    cases heq
    exact h.enqueue hc
  | stop =>
    cases he
    exact h.of_live h.places (fun _ => Iff.rfl) rfl h.finished
  | test w | read w =>
    obtain ⟨hw,heq⟩ := Option.ite_none_right_eq_some.mp he
    cases heq
    refine h.setWorker ?_
    rw [hw]
    split <;> rfl
  | dequeue w =>
    obtain ⟨hw,heq⟩ := Option.ite_none_right_eq_some.mp he
    cases heq
    exact h.dequeue hw
  | resume w =>
    simp only [Pool.step] at he
    split at he
    · rename_i coro hw
      cases he
      exact h.setWorker (by rw [hw]; rfl)
    · cases he
  | finish w =>
    obtain ⟨coro,hw,heq⟩ := resumedBy_eq he
    rw [heq]
    exact h.finish hw
  | suspend w =>
    obtain ⟨coro,hw,heq⟩ := resumedBy_eq he
    rw [heq]
    exact h.suspend hw
  | leave w =>
    obtain ⟨coro,hw,heq⟩ := resumedBy_eq he
    rw [heq]
    exact h.leave hw
  | wake coro =>
    obtain ⟨hin,heq⟩ := Option.ite_none_right_eq_some.mp he
    cases heq
    exact h.wake (List.contains_iff_mem.mp hin)

theorem Pool.Kept.counted {s : Pool} (h : s.Kept) : s.Counted := ⟨h.places,h.counts,h.finished⟩

/-- The last worker leaves only where nothing counts, and nothing is counted after it. -/
theorem Pool.Kept.left_step {n : Nat} {s t : Pool} {e : Event} (h : s.Kept)
    (hok : s.countsInTime n e = true) (he : s.step e = some t) (hleft : t.Left) (c : Nat) :
    ¬ t.Live c := by
  cases e with
  | load d =>
    obtain ⟨hd,heq⟩ := Option.ite_none_right_eq_some.mp he
    cases heq
    rw [load_live hd]
    exact h.left hleft c
  | count d =>
    obtain ⟨_,heq⟩ := Option.ite_none_right_eq_some.mp he
    cases heq
    obtain ⟨w,_,hw⟩ := List.any_eq_true.mp hok
    exact absurd (hleft w) (by simpa [Pool.count,Pool.setCommit] using hw)
  | enqueue d =>
    obtain ⟨hd,heq⟩ := Option.ite_none_right_eq_some.mp he
    cases heq
    rw [enqueue_live hd]
    exact h.left hleft c
  | stop =>
    cases he
    exact h.left hleft c
  | test w =>
    obtain ⟨_,heq⟩ := Option.ite_none_right_eq_some.mp he
    cases heq
    refine absurd (hleft w) ?_
    rw [Pool.test,setWorker_self]
    split <;> simp
  | read w =>
    obtain ⟨_,heq⟩ := Option.ite_none_right_eq_some.mp he
    cases heq
    by_cases hzero : s.runningCoroCnt = 0
    · have hcounts := h.counts
      rw [hzero] at hcounts
      exact hcounts.none c
    · have hw := hleft w
      rw [Pool.read,setWorker_self,if_neg hzero] at hw
      cases hw
  | dequeue w =>
    obtain ⟨_,heq⟩ := Option.ite_none_right_eq_some.mp he
    cases heq
    refine absurd (hleft w) ?_
    unfold Pool.dequeue
    split <;> simp
  | resume w =>
    simp only [Pool.step] at he
    split at he
    · cases he
      exact absurd (hleft w) (by simp)
    · cases he
  | finish w | suspend w | leave w =>
    obtain ⟨coro,_,heq⟩ := resumedBy_eq he
    rw [heq] at hleft
    exact absurd (hleft w) (by simp [Pool.finish,Pool.suspend,Pool.leave])
  | wake coro =>
    obtain ⟨_,heq⟩ := Option.ite_none_right_eq_some.mp he
    cases heq
    exact h.left hleft c

theorem Pool.Kept.step {n : Nat} {s t : Pool} {e : Event} (h : s.Kept)
    (hok : s.countsInTime n e = true) (he : s.step e = some t) : t.Kept := by
  have hcounted := h.counted.step he
  exact ⟨hcounted.places,hcounted.counts,hcounted.finished,h.left_step hok he⟩

theorem Pool.start_kept (n : Nat) : (start n).Kept := by
  have hnone : ∀ c, ¬ (start n).Live c := by simp [Live,start]
  refine ⟨Custody.exclusive_empty hnone ?_,Custody.numbers_none hnone,by simp [start],
    fun _ => hnone⟩
  intro p
  cases p with
  | commit c => rfl
  | queue => rfl
  | worker w =>
    simp only [held,start]
    split
    · rfl
    · rfl
  | away => rfl

theorem Pool.Kept.drained {s : Pool} (h : s.Kept) (hleft : s.Left) : s.Drained := by
  refine ⟨fun c hc => ?_,List.eq_nil_iff_forall_not_mem.mpr (fun c hc => ?_)⟩
  · by_contra hnot
    exact h.left hleft c ⟨.inr hc,hnot⟩
  · exact h.left hleft c (h.places.live .queue c hc)

/-- No coroutine that was accepted is dropped, as long as the counter is raised before the
last worker has left. -/
theorem drained_of_countsInTime (workerThreadNum : Nat) (s : Pool)
    (h : Transition.Reaches Pool.step (Pool.countsInTime workerThreadNum)
      (.start workerThreadNum) s) (hleft : s.Left) : s.Drained := by
  have hkept : s.Kept := h.invariant (I := Pool.Kept) (fun _ _ _ hs hok he => hs.step hok he)
    (Pool.start_kept workerThreadNum)
  exact hkept.drained hleft

def Event.commit : Event → Option Nat
  | .load c | .count c | .enqueue c => some c
  | _ => none

def Event.worker : Event → Option Nat
  | .test w | .read w | .dequeue w | .resume w | .finish w | .suspend w | .leave w => some w
  | _ => none

structure Pool.Frame (s : Pool) (e : Event) (t : Pool) : Prop where
  stopFlag : e ≠ .stop → t.stopFlag = s.stopFlag
  commits : ∀ c, e.commit ≠ some c → t.commits c = s.commits c
  workers : ∀ w, e.worker ≠ some w → t.workers w = s.workers w
  finished : ∀ c ∈ s.finished, c ∈ t.finished

theorem Pool.frame_setCommit {s u : Pool} {e : Event} {c : Nat} {commit : Commit}
    (he : e.commit = some c) (hc : u.commits = s.commits) (hw : u.workers = s.workers)
    (hs : u.stopFlag = s.stopFlag) (hf : u.finished = s.finished) :
    s.Frame e (u.setCommit c commit) := by
  refine ⟨fun _ => hs,fun d hd => ?_,fun w _ => congrFun hw w,fun d hd => hf ▸ hd⟩
  have hne : d ≠ c := fun heq => hd (heq ▸ he)
  rw [setCommit_ne u commit hne,hc]

theorem Pool.frame_setWorker {s u : Pool} {e : Event} {w : Nat} {worker : Worker}
    (he : e.worker = some w) (hc : u.commits = s.commits) (hw : u.workers = s.workers)
    (hs : u.stopFlag = s.stopFlag) (hf : ∀ c ∈ s.finished, c ∈ u.finished) :
    s.Frame e (u.setWorker w worker) := by
  refine ⟨fun _ => hs,fun d _ => congrFun hc d,fun v hv => ?_,hf⟩
  have hne : v ≠ w := fun heq => hv (heq ▸ he)
  rw [setWorker_ne u worker hne,hw]

theorem Pool.frame {s t : Pool} {e : Event} (he : s.step e = some t) : s.Frame e t := by
  cases e with
  | load c | count c | enqueue c =>
    obtain ⟨_,heq⟩ := Option.ite_none_right_eq_some.mp he
    cases heq
    exact frame_setCommit rfl rfl rfl rfl rfl
  | stop =>
    cases he
    exact ⟨fun h => absurd rfl h,fun _ _ => rfl,fun _ _ => rfl,fun _ h => h⟩
  | test w | read w =>
    obtain ⟨_,heq⟩ := Option.ite_none_right_eq_some.mp he
    cases heq
    exact frame_setWorker rfl rfl rfl rfl (fun _ h => h)
  | dequeue w =>
    obtain ⟨_,heq⟩ := Option.ite_none_right_eq_some.mp he
    cases heq
    unfold Pool.dequeue
    split
    · exact frame_setWorker rfl rfl rfl rfl (fun _ h => h)
    · exact frame_setWorker rfl rfl rfl rfl (fun _ h => h)
  | resume w =>
    simp only [Pool.step] at he
    split at he
    · cases he
      exact frame_setWorker rfl rfl rfl rfl (fun _ h => h)
    · cases he
  | finish w =>
    obtain ⟨coro,_,heq⟩ := resumedBy_eq he
    rw [heq]
    exact frame_setWorker rfl rfl rfl rfl (fun _ h => List.mem_append_left _ h)
  | suspend w | leave w =>
    obtain ⟨coro,_,heq⟩ := resumedBy_eq he
    rw [heq]
    exact frame_setWorker rfl rfl rfl rfl (fun _ h => h)
  | wake coro =>
    obtain ⟨_,heq⟩ := Option.ite_none_right_eq_some.mp he
    cases heq
    exact ⟨fun _ => rfl,fun _ _ => rfl,fun _ _ => rfl,fun _ h => h⟩

theorem Pool.not_left_of_worker {s t : Pool} {e : Event} {w : Nat} (hw : e.worker = some w)
    (he : s.step e = some t) : s.workers w ≠ .left := by
  cases e with
  | test v | read v | dequeue v =>
    cases hw
    obtain ⟨hv,_⟩ := Option.ite_none_right_eq_some.mp he
    simp [hv]
  | resume v =>
    cases hw
    simp only [Pool.step] at he
    split at he
    · rename_i hv
      simp [hv]
    · cases he
  | finish v | suspend v | leave v =>
    cases hw
    obtain ⟨coro,hv,_⟩ := resumedBy_eq he
    simp [hv]
  | load c | count c | enqueue c | stop | wake c => cases hw

/-- A worker that has left does not come back. -/
theorem Pool.left_of_step {s t : Pool} {e : Event} {w : Nat} (h : s.workers w = .left)
    (he : s.step e = some t) : t.workers w = .left := by
  rw [(frame he).workers w (fun hw => not_left_of_worker hw he h),h]

theorem Pool.left_of_workers {n : Nat} {s : Pool} {ok : Pool → Event → Bool}
    (h : Transition.Reaches Pool.step ok (.start n) s) (hn : ∀ w < n, s.workers w = .left) :
    s.Left := by
  intro w
  by_cases hw : w < n
  · exact hn w hw
  · refine h.invariant (I := fun s => s.workers w = .left) ?_ (if_neg hw)
    exact fun _ _ _ hs _ he => left_of_step hs he

def acceptedOne : List Event :=
  [.load 0,.count 0,.stop,.test 0,.read 0,.enqueue 0,.dequeue 0,.resume 0,.finish 0,.test 0,
    .read 0]

theorem acceptedOne_drained : ∃ s : Pool, s.commits 0 = .returned ∧ s.Drained := by
  have hrun : ((Transition.run Pool.step (Pool.countsInTime 1) (.start 1) acceptedOne).map
      (fun s => (s.workers 0,s.commits 0))) = some (.left,.returned) := by decide
  obtain ⟨s,hs,heq⟩ := Option.map_eq_some_iff.mp hrun
  obtain ⟨hw,hc⟩ := Prod.mk.inj heq
  have hreach := Transition.reaches_of_run hs
  have hleft := Pool.left_of_workers hreach (fun w hlt => by rw [Nat.lt_one_iff.mp hlt,hw])
  exact ⟨s,hc,drained_of_countsInTime 1 s hreach hleft⟩

def droppedOne : List Event := [.load 0,.stop,.test 0,.read 0,.count 0,.enqueue 0]

theorem droppedOne_not_drained : ∃ s : Pool,
    Transition.Reaches Pool.step (fun _ _ => true) (.start 1) s ∧ s.Left ∧
      s.commits 0 = .returned ∧ s.coroutineQueue = [0] ∧ s.finished = [] ∧ ¬ s.Drained := by
  have hrun : ((Transition.run Pool.step (fun _ _ => true) (.start 1) droppedOne).map
      (fun s => (s.workers 0,s.commits 0,s.coroutineQueue,s.finished))) =
      some (.left,.returned,[0],[]) := by decide
  obtain ⟨s,hs,heq⟩ := Option.map_eq_some_iff.mp hrun
  simp only [Prod.mk.injEq] at heq
  obtain ⟨hw,hc,hq,hf⟩ := heq
  have hreach := Transition.reaches_of_run hs
  have hleft := Pool.left_of_workers hreach (fun w hlt => by rw [Nat.lt_one_iff.mp hlt,hw])
  refine ⟨s,hreach,hleft,hc,hq,hf,fun hd => ?_⟩
  have hin := hd.1 0 hc
  rw [hf] at hin
  cases hin

end NewRpc.Sched
