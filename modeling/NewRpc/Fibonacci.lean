import Mathlib.Data.Nat.Fib.Basic
import NewRpc.Termination

/-!
`coro_fibo`, the coroutine that `main` runs: two calls of itself, one after the other.
-/

set_option autoImplicit false

namespace NewRpc.Task
open Codec Resumable Transition

inductive FiboFrame where
  | start (idx : Int)
  | first (idx : Int) (ret1 : Word .w64)
  | second (ret1 ret2 : Word .w64)
  deriving DecidableEq

/-- `ret = ret1 + ret2` wraps around from `coro_fibo(92)` on, where C++ leaves the overflow
of `int64_t` undefined. -/
def coroFibo : Program FiboFrame (Option (Word .w64)) Unit
  | .start idx =>
      if idx = 0 then .ret (some 1)
      else if idx = 1 then .ret (some 1)
      else .call (.start (idx - 1)) (fun ret1 => .first idx (ret1.getD 0))
  | .first idx ret1 => .call (.start (idx - 2)) (fun ret2 => .second ret1 (ret2.getD 0))
  | .second ret1 ret2 => .ret (some (ret1 + ret2))

theorem coroFibo_start (n : Nat) : coroFibo (.start (n + 2 : Nat)) =
    .call (.start (n + 1 : Nat)) (fun ret1 => .first (n + 2 : Nat) (ret1.getD 0)) := by
  have h0 : ¬ ((n + 2 : Nat) : Int) = 0 := by omega
  have h1 : ¬ ((n + 2 : Nat) : Int) = 1 := by omega
  have hpred : ((n + 2 : Nat) : Int) - 1 = (n + 1 : Nat) := by omega
  simp only [coroFibo,if_neg h0,if_neg h1,hpred]

theorem coroFibo_first (n : Nat) (ret1 : Word .w64) : coroFibo (.first (n + 2 : Nat) ret1) =
    .call (.start n) (fun ret2 => .second ret1 (ret2.getD 0)) := by
  have hpred : ((n + 2 : Nat) : Int) - 2 = n := by omega
  simp only [coroFibo,hpred]

theorem coroFibo_computes (n : Nat) :
    Computes coroFibo (.start n) [] (some (BitVec.ofNat 64 (Nat.fib (n + 1)))) := by
  induction n using Nat.twoStepInduction with
  | zero => exact .ret rfl
  | one => exact .ret rfl
  | more n ih0 ih1 =>
    have hsum : BitVec.ofNat 64 (Nat.fib (n + 2 + 1)) =
        BitVec.ofNat 64 (Nat.fib (n + 1 + 1)) + BitVec.ofNat 64 (Nat.fib (n + 1)) := by
      have hfib : Nat.fib (n + 2 + 1) = Nat.fib (n + 1) + Nat.fib (n + 1 + 1) := Nat.fib_add_two
      rw [← BitVec.ofNat_add,hfib,Nat.add_comm]
    rw [hsum]
    exact .call (coroFibo_start n) ih1 (.call (coroFibo_first n _) ih0 (.ret rfl))

theorem coroFibo_terminates (n : Nat) : Terminates coroFibo (.start n) := by
  induction n using Nat.twoStepInduction with
  | zero | one =>
    refine .intro _ (fun m hm => ?_)
    cases hm with
    | callee h | value h | answer h => cases h
  | more n ih0 ih1 =>
    have hsecond : ∀ ret1 ret2, Terminates coroFibo (.second ret1 ret2) := by
      refine fun _ _ => .intro _ (fun m hm => ?_)
      cases hm with
      | callee h | value h | answer h => cases h
    have hfirst : ∀ ret1, Terminates coroFibo (.first (n + 2 : Nat) ret1) := by
      refine fun ret1 => .intro _ (fun m hm => ?_)
      cases hm with
      | callee h =>
        cases (coroFibo_first n ret1).symm.trans h
        exact ih0
      | value h =>
        cases (coroFibo_first n ret1).symm.trans h
        exact hsecond _ _
      | answer h => cases (coroFibo_first n ret1).symm.trans h
    refine .intro _ (fun m hm => ?_)
    cases hm with
    | callee h =>
      cases (coroFibo_start n).symm.trans h
      exact ih1
    | value h =>
      cases (coroFibo_start n).symm.trans h
      exact hfirst _
    | answer h => cases (coroFibo_start n).symm.trans h

/-- Whatever runs beside it, a `coro_fibo(n)` that was started ends, when every frame that can
go on does so, and has the Fibonacci number from then on. -/
theorem fibonacci_ends (ok : Programs FiboFrame (Word .w64) Unit →
    Action FiboFrame (Word .w64) Unit → Bool) (r : Run (Programs.step coroFibo) ok)
    (hstart : r.state 0 = .start) (hfair : ∀ f, r.Fair Action.agent f) (i f n : Nat)
    (hlt : f < (r.state i).coro.count) (hentry : (r.state i).entry f = some (.start n))
    (hstarted : (r.state i).coro.stage f ≠ .fresh) :
    ∃ j, i ≤ j ∧ ∀ k, j ≤ k → ((r.state k).coro.stage f).over = true ∧
      (r.state k).coro.result f = some (BitVec.ofNat 64 (Nat.fib (n + 1))) := by
  have hsound : ∀ i, (r.state i).Sound coroFibo :=
    fun i => Programs.reaches_sound (hstart ▸ r.reaches i)
  obtain ⟨j,hij,hover,hcalled⟩ :=
    Programs.started_ends hsound hfair ⟨hlt,hentry⟩ (coroFibo_terminates n) hstarted
  refine ⟨j,hij,fun k hjk => ?_⟩
  obtain ⟨hover',hcalled'⟩ := Programs.over_kept hsound hjk hover hcalled
  obtain ⟨l,hl,hcomputes⟩ := (hsound k).faithful.computes hcalled'.born hover'
  cases hcalled'.entry.symm.trans hl
  exact ⟨hover',((coroFibo_computes n).value hcomputes).symm⟩

def fiboOfTwo : List (Action FiboFrame (Word .w64) Unit) :=
  [.create (.start 2),.other (.resume 0),.call 0,.create (.start 1),.other (.commit 3),.finish 1,
    .back 0,.other (.start 2),.call 0,.finish 2,.finish 3,.back 0,.finish 0,.other (.release 2),
    .other (.release 0)]

theorem fiboOfTwo_ends : ∃ (r : Run (Programs.step coroFibo) (fun _ _ => true)) (j : Nat),
    (r.state 2).coro.stage 0 = .running ∧ ((r.state j).coro.stage 0).over = true ∧
      (r.state j).coro.result 0 = some (BitVec.ofNat 64 (Nat.fib 3)) := by
  have hrun : (Transition.run (Programs.step coroFibo) (fun _ _ => true) .start fiboOfTwo).map
      (fun s => decide (∀ f < s.coro.count, (s.coro.stage f).rests = true)) = some true := by
    decide
  obtain ⟨s,hs,hrests⟩ := Option.map_eq_some_iff.mp hrun
  have hrunning : (Run.after (Programs.step coroFibo) .start fiboOfTwo 2).coro.stage 0 =
      .running := by decide
  have hborn : 0 < (Run.after (Programs.step coroFibo) .start fiboOfTwo 2).coro.count := by decide
  have hentry : (Run.after (Programs.step coroFibo) .start fiboOfTwo 2).entry 0 =
      some (.start (2 : Nat)) := by decide
  obtain ⟨j,_,hj⟩ := fibonacci_ends _ (Run.ofEvents hs) rfl
    (Programs.rested_fair hs (of_decide_eq_true hrests)) 2 0 2 hborn hentry
    (fun hfresh => by cases hrunning.symm.trans hfresh)
  exact ⟨Run.ofEvents hs,j,hrunning,hj j (Nat.le_refl j)⟩

end NewRpc.Task
