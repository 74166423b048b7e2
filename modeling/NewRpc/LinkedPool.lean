import NewRpc.CoroutineQueues
import NewRpc.Starvation

/-!
The scheduler's threads over the queues as they are linked: `coroutine_queue_`, and the
`ready_coroutine_queue` of every worker.
-/

set_option autoImplicit false

namespace NewRpc.Sched
open Transition

/-- `coroutine_queue_` is queue 0, so that the list in `threads` stays empty, and
`ready_coroutine_queue` of worker `w` is queue `w + 1`. -/
structure LinkedPool where
  threads : Pool
  queues : CoroutineQueues

def LinkedPool.start (workerThreadNum : Nat) : LinkedPool := ⟨.start workerThreadNum,.start⟩

def LinkedPool.commit (ndebug : Bool) (s : LinkedPool) (coroFrame : Nat) (threads : Pool) :
    Option LinkedPool :=
  (s.queues.call ndebug (.appendToTail 0 coroFrame)).map (fun r => ⟨threads,r.1⟩)

def LinkedPool.dequeue (ndebug : Bool) (s : LinkedPool) (w : Nat) : Option LinkedPool :=
  if (s.queues.queue 0).size = 0 then some ⟨s.threads.setWorker w .testing,s.queues⟩
  else match s.queues.call ndebug (.popFromHead 0) with
    | some (queues,some coro) => (queues.call ndebug (.appendToTail (w + 1) coro)).map
        (fun r => ⟨s.threads.setWorker w (.fetched coro),r.1⟩)
    | _ => none

def LinkedPool.resume (ndebug : Bool) (s : LinkedPool) (w : Nat) : Option LinkedPool :=
  match s.queues.call ndebug (.popFromHead (w + 1)) with
  | some (queues,some fetchedReadyCoro) =>
      some ⟨s.threads.setWorker w (.resumed fetchedReadyCoro),queues⟩
  | _ => none

/-- A step that the threads are not ready for is none, and neither is one at which the
process ends. -/
def LinkedPool.step (ndebug : Bool) (s : LinkedPool) : Event → Option LinkedPool
  | .enqueue c =>
      if s.threads.commits c = .counted then
        s.commit ndebug c (s.threads.setCommit c .returned)
      else none
  | .dequeue w => if s.threads.workers w = .locking then s.dequeue ndebug w else none
  | .resume w => match s.threads.workers w with
      | .fetched _ => s.resume ndebug w
      | _ => none
  | .suspend w => match s.threads.workers w with
      | .resumed coro => s.commit ndebug coro (s.threads.setWorker w .testing)
      | _ => none
  | .wake coro =>
      if s.threads.away.contains coro then
        s.commit ndebug coro { s.threads with away := s.threads.away.erase coro }
      else none
  | e => (s.threads.step e).map (fun threads => ⟨threads,s.queues⟩)

def LinkedPool.takes (ndebug : Bool) (s : LinkedPool) : Event → Option Nat
  | .dequeue _ =>
      if (s.queues.queue 0).size = 0 then none
      else (s.queues.call ndebug (.popFromHead 0)).bind Prod.snd
  | _ => none

def Worker.ready : Worker → List Nat
  | .fetched coro => [coro]
  | _ => []

def Pool.queued (p : Pool) : QueueLists
  | 0 => p.coroutineQueue
  | w + 1 => (p.workers w).ready

/-- The linked queues in place of a list and of the coroutines that workers have fetched. -/
structure LinkedPool.Stands (s : LinkedPool) (p : Pool) : Prop where
  threads : s.threads = { p with coroutineQueue := [] }
  queues : s.queues.Records p.queued

theorem Worker.ready_held (worker : Worker) {c : Nat} (hc : c ∈ worker.ready) :
    c ∈ worker.held := by
  cases worker with
  | fetched coro => exact hc
  | _ => simp [ready] at hc

theorem Pool.Counted.unqueued {p : Pool} (h : p.Counted) {c : Nat} {r : Place}
    (hc : c ∈ p.held r) (hr : r ≠ .queue) (hw : ∀ w, r = .worker w → (p.workers w).ready = []) :
    ∀ i, c ∉ p.queued i := by
  intro i hi
  cases i with
  | zero => exact hr (h.places.apart r .queue c hc hi)
  | succ w =>
    have hplace := h.places.apart r (.worker w) c hc (Worker.ready_held _ hi)
    simp [queued,hw w hplace] at hi

theorem Pool.queued_append {p q : Pool} {c : Nat} (hq : q.coroutineQueue = p.coroutineQueue ++ [c])
    (hw : ∀ w, (q.workers w).ready = (p.workers w).ready) :
    q.queued = p.queued.after (.appendToTail 0 c) := by
  funext i
  cases i with
  | zero => simpa [queued,QueueLists.after] using hq
  | succ w => simpa [queued,QueueLists.after] using hw w

theorem Pool.queued_same {p q : Pool} (hq : q.coroutineQueue = p.coroutineQueue)
    (hw : ∀ w, (q.workers w).ready = (p.workers w).ready) : q.queued = p.queued := by
  funext i
  cases i with
  | zero => exact hq
  | succ w => exact hw w

theorem Pool.setWorker_ready (p : Pool) {w : Nat} {worker : Worker}
    (h : worker.ready = (p.workers w).ready) (v : Nat) :
    ((p.setWorker w worker).workers v).ready = (p.workers v).ready := by
  by_cases hv : v = w
  · rw [hv,setWorker_self,h]
  · rw [setWorker_ne p worker hv]

variable {s t : LinkedPool} {p q : Pool}

theorem LinkedPool.Stands.commits (h : s.Stands p) (c : Nat) :
    s.threads.commits c = p.commits c := by rw [h.threads]

theorem LinkedPool.Stands.workers (h : s.Stands p) (w : Nat) :
    s.threads.workers w = p.workers w := by rw [h.threads]

theorem LinkedPool.Stands.away (h : s.Stands p) : s.threads.away = p.away := by rw [h.threads]

theorem LinkedPool.Stands.size (h : s.Stands p) :
    (s.queues.queue 0).size = p.coroutineQueue.length := (h.queues.queues 0).size

theorem LinkedPool.Stands.commit (h : s.Stands p) (ndebug : Bool) {c : Nat} {threads : Pool}
    (hfree : ∀ i, c ∉ p.queued i) (ht : threads = { q with coroutineQueue := [] })
    (hq : q.coroutineQueue = p.coroutineQueue ++ [c])
    (hw : ∀ w, (q.workers w).ready = (p.workers w).ready) :
    ∃ t, s.commit ndebug c threads = some t ∧ t.Stands q := by
  obtain ⟨queues,hcall,hrec⟩ := h.queues.appendToTail ndebug (q := 0) hfree
  refine ⟨⟨threads,queues⟩,by simp [LinkedPool.commit,hcall],ht,?_⟩
  rw [Pool.queued_append hq hw]
  exact hrec

theorem LinkedPool.Stands.stays (h : s.Stands p) {ndebug : Bool} {e : Event} {threads : Pool}
    (hs : s.step ndebug e = (s.threads.step e).map (fun threads => ⟨threads,s.queues⟩))
    (he : s.threads.step e = some threads) (ht : threads = { q with coroutineQueue := [] })
    (hq : q.coroutineQueue = p.coroutineQueue)
    (hw : ∀ w, (q.workers w).ready = (p.workers w).ready) :
    ∃ t, s.step ndebug e = some t ∧ t.Stands q := by
  refine ⟨⟨threads,s.queues⟩,by rw [hs,he]; rfl,ht,?_⟩
  rw [Pool.queued_same hq hw]
  exact h.queues

theorem LinkedPool.Stands.dequeue (h : s.Stands p) (hp : p.Counted) (ndebug : Bool) {w : Nat}
    (hw : p.workers w = .locking) : ∃ t, s.dequeue ndebug w = some t ∧ t.Stands (p.dequeue w) := by
  have hsize := h.size
  cases hq : p.coroutineQueue with
  | nil =>
    have hzero : (s.queues.queue 0).size = 0 := by rw [hsize,hq]; rfl
    refine ⟨⟨s.threads.setWorker w .testing,s.queues⟩,by simp [LinkedPool.dequeue,hzero],?_⟩
    have hrests : Worker.testing.ready = (p.workers w).ready := by rw [hw]; rfl
    have hready := p.setWorker_ready hrests
    simp only [Pool.dequeue,hq]
    refine ⟨by rw [h.threads]; rfl,?_⟩
    have hqueued := Pool.queued_same (p := p) (q := p.setWorker w .testing) rfl hready
    rw [hqueued]
    exact h.queues
  | cons coro rest =>
    have hne : (s.queues.queue 0).size ≠ 0 := by rw [hsize,hq]; simp
    obtain ⟨popped,hpop,hrec⟩ := h.queues.popFromHead ndebug (q := 0) hq
    have hnodup := hp.places.once .queue
    have hin : coro ∈ p.held .queue := by simp [Pool.held,hq]
    have hfree : ∀ i, coro ∉ p.queued.after (.popFromHead 0) i := by
      intro i hi
      cases i with
      | zero =>
        simp only [QueueLists.after,Function.update_self,Pool.queued,hq,List.tail_cons] at hi
        simp only [Pool.held,hq] at hnodup
        exact (List.nodup_cons.mp hnodup).1 hi
      | succ v =>
        have hv : coro ∈ (p.workers v).ready := by simpa [QueueLists.after,Pool.queued] using hi
        exact hp.places.elsewhere hin (q := .worker v) (by simp) (Worker.ready_held _ hv)
    obtain ⟨queues,hcall,hboth⟩ := hrec.appendToTail ndebug (q := w + 1) hfree
    refine ⟨⟨s.threads.setWorker w (.fetched coro),queues⟩,?_,?_,?_⟩
    · simp [LinkedPool.dequeue,hne,hpop,hcall]
    · simp only [Pool.dequeue,hq,h.threads]
      rfl
    · have hqueued : (p.dequeue w).queued =
          (p.queued.after (.popFromHead 0)).after (.appendToTail (w + 1) coro) := by
        funext i
        cases i with
        | zero => simp [Pool.queued,Pool.dequeue,QueueLists.after,hq,Pool.setWorker]
        | succ v =>
          by_cases hv : v = w
          · subst hv
            simp [Pool.queued,Pool.dequeue,QueueLists.after,hq,hw,Worker.ready]
          · simp [Pool.queued,Pool.dequeue,QueueLists.after,hq,Pool.setWorker,hv]
      rw [hqueued]
      exact hboth

theorem LinkedPool.Stands.resume (h : s.Stands p) (ndebug : Bool) {w coro : Nat}
    (hw : p.workers w = .fetched coro) :
    ∃ t, s.resume ndebug w = some t ∧ t.Stands (p.setWorker w (.resumed coro)) := by
  have hq : p.queued (w + 1) = [coro] := by simp [Pool.queued,hw,Worker.ready]
  obtain ⟨queues,hpop,hrec⟩ := h.queues.popFromHead ndebug hq
  refine ⟨⟨s.threads.setWorker w (.resumed coro),queues⟩,by simp [LinkedPool.resume,hpop],?_,?_⟩
  · rw [h.threads]
    rfl
  · have hqueued : (p.setWorker w (.resumed coro)).queued =
        p.queued.after (.popFromHead (w + 1)) := by
      funext i
      cases i with
      | zero => simp [Pool.queued,QueueLists.after,Pool.setWorker]
      | succ v =>
        by_cases hv : v = w
        · subst hv
          simp [Pool.queued,QueueLists.after,hw,Worker.ready]
        · simp [Pool.queued,QueueLists.after,Pool.setWorker,hv]
    rw [hqueued]
    exact hrec

/-- Where the list has a step, the linked queues have it too, and neither an assertion nor a
null pointer ends it. -/
theorem LinkedPool.Stands.step (h : s.Stands p) (hp : p.Counted) (ndebug : Bool) {e : Event}
    (he : p.step e = some q) : ∃ t, s.step ndebug e = some t ∧ t.Stands q := by
  cases e with
  | enqueue c =>
    obtain ⟨hc,heq⟩ := Option.ite_none_right_eq_some.mp he
    cases heq
    have hfree := hp.unqueued (c := c) (r := .commit c) (by simp [Pool.held,hc]) (by simp) (by simp)
    simp only [step,h.commits,hc,if_true]
    exact h.commit ndebug hfree (by rw [h.threads]; rfl) rfl (fun _ => rfl)
  | dequeue w =>
    obtain ⟨hw,heq⟩ := Option.ite_none_right_eq_some.mp he
    cases heq
    simp only [step,h.workers,hw,if_true]
    exact h.dequeue hp ndebug hw
  | resume w =>
    simp only [Pool.step] at he
    cases hw : p.workers w with
    | fetched coro =>
      simp only [hw,Option.some.injEq] at he
      subst he
      simp only [step,h.workers,hw]
      exact h.resume ndebug hw
    | _ => simp [hw] at he
  | suspend w =>
    obtain ⟨coro,hw,heq⟩ := Pool.resumedBy_eq he
    subst heq
    have hfree := hp.unqueued (c := coro) (r := .worker w) (by simp [Pool.held,hw,Worker.held])
      (by simp) (fun v hv => by cases hv; rw [hw]; rfl)
    simp only [step,h.workers,hw]
    have hrests : Worker.testing.ready = (p.workers w).ready := by rw [hw]; rfl
    exact h.commit ndebug hfree (by rw [h.threads]; rfl) rfl (p.setWorker_ready hrests)
  | wake coro =>
    obtain ⟨hin,heq⟩ := Option.ite_none_right_eq_some.mp he
    cases heq
    have hfree := hp.unqueued (c := coro) (r := .away) (by simpa [Pool.held] using hin) (by simp)
      (by simp)
    simp only [step,h.away,hin,if_true]
    exact h.commit ndebug hfree (by rw [h.threads]; rfl) rfl (fun _ => rfl)
  | load c =>
    obtain ⟨hc,heq⟩ := Option.ite_none_right_eq_some.mp he
    cases heq
    have hs : s.threads.step (.load c) = some (s.threads.load c) := by simp [Pool.step,h.commits,hc]
    exact h.stays rfl hs (by rw [h.threads]; rfl) rfl (fun _ => rfl)
  | count c =>
    obtain ⟨hc,heq⟩ := Option.ite_none_right_eq_some.mp he
    cases heq
    have hs : s.threads.step (.count c) = some (s.threads.count c) := by
      simp [Pool.step,h.commits,hc]
    exact h.stays rfl hs (by rw [h.threads]; rfl) rfl (fun _ => rfl)
  | stop =>
    cases he
    exact h.stays rfl rfl (by rw [h.threads]) rfl (fun _ => rfl)
  | test w =>
    obtain ⟨hw,heq⟩ := Option.ite_none_right_eq_some.mp he
    cases heq
    have hs : s.threads.step (.test w) = some (s.threads.test w) := by simp [Pool.step,h.workers,hw]
    refine h.stays rfl hs (by rw [h.threads]; rfl) rfl (p.setWorker_ready ?_)
    rw [hw]
    split <;> rfl
  | read w =>
    obtain ⟨hw,heq⟩ := Option.ite_none_right_eq_some.mp he
    cases heq
    have hs : s.threads.step (.read w) = some (s.threads.read w) := by simp [Pool.step,h.workers,hw]
    refine h.stays rfl hs (by rw [h.threads]; rfl) rfl (p.setWorker_ready ?_)
    rw [hw]
    split <;> rfl
  | finish w =>
    obtain ⟨coro,hw,heq⟩ := Pool.resumedBy_eq he
    subst heq
    have hs : s.threads.step (.finish w) = some (s.threads.finish w coro) := by
      simp [Pool.step,Pool.resumedBy,h.workers,hw]
    exact h.stays rfl hs (by rw [h.threads]; rfl) rfl (p.setWorker_ready (by rw [hw]; rfl))
  | leave w =>
    obtain ⟨coro,hw,heq⟩ := Pool.resumedBy_eq he
    subst heq
    have hs : s.threads.step (.leave w) = some (s.threads.leave w coro) := by
      simp [Pool.step,Pool.resumedBy,h.workers,hw]
    exact h.stays rfl hs (by rw [h.threads]; rfl) rfl (p.setWorker_ready (by rw [hw]; rfl))

end NewRpc.Sched
