import NewRpc.Fairness
import NewRpc.Pool

/-!
The queue of the scheduler: a coroutine in it moves to the front with every pop, and is
resumed as long as a worker is left.
-/

set_option autoImplicit false

namespace NewRpc.Sched
open Transition

def Pool.takes (s : Pool) : Event → Option Nat
  | .dequeue _ => s.coroutineQueue.head?
  | _ => none

abbrev PoolRun := Run Pool.step (fun _ _ => true)

/-- A worker stays while something is in the queue. -/
theorem Pool.Counted.stays {s t : Pool} {e : Event} {c w : Nat} (h : s.Counted)
    (hc : c ∈ s.coroutineQueue) (hw : s.workers w ≠ .left) (he : s.step e = some t) :
    t.workers w ≠ .left := by
  by_cases hagent : e.worker = some w
  · cases e with
    | read v =>
      cases hagent
      obtain ⟨_,heq⟩ := Option.ite_none_right_eq_some.mp he
      cases heq
      have hne : s.runningCoroCnt ≠ 0 := by
        intro hzero
        have hcounts := h.counts
        rw [hzero] at hcounts
        exact hcounts.none c (h.places.live .queue c hc)
      simp [Pool.read,hne]
    | test v =>
      cases hagent
      obtain ⟨_,heq⟩ := Option.ite_none_right_eq_some.mp he
      cases heq
      rw [Pool.test,setWorker_self]
      split <;> simp
    | dequeue v =>
      cases hagent
      obtain ⟨_,heq⟩ := Option.ite_none_right_eq_some.mp he
      cases heq
      unfold Pool.dequeue
      split <;> simp
    | resume v =>
      cases hagent
      simp only [Pool.step] at he
      split at he
      · cases he
        simp
      · cases he
    | finish v | suspend v | leave v =>
      cases hagent
      obtain ⟨coro,_,heq⟩ := resumedBy_eq he
      rw [heq]
      simp [Pool.finish,Pool.suspend,Pool.leave]
    | load d | count d | enqueue d | stop | wake d => cases hagent
  · rw [(frame he).workers w hagent]
    exact hw

variable {r : PoolRun}

end NewRpc.Sched
