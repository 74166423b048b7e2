import NewRpc.CallSteps

/-!
The loop over the endpoints and the `send_` tasks use memory of the call, which is gone
once its coroutine is resumed. Runs in which no coroutine is resumed before its
requests have been answered or given up, and one in which a send is overtaken.
-/

set_option autoImplicit false

namespace NewRpc.Net
open Codec

def CallTask.Safe (task : CallTask) : Prop :=
  task.loop ≠ .left ∨ .pending ∈ task.sends → task.resumed = false

def Event.reads {R : Reflection} : Event R → Option Nat
  | .loop c | .send c _ | .sent c _ _ => some c
  | _ => none

/-- No task outlives the call it borrows from, and no step reads a call that is gone. -/
structure World.Outlived {R : Reflection} (D : Defaults R) (p : Platform) (ndebug : Bool)
    (s : World R) : Prop where
  safe : ∀ c < s.count, (s.tasks c).Safe
  reads : ∀ e t c, e.reads = some c → s.step D p ndebug e = some t → (s.tasks c).resumed = false

def CallTask.ended (task : CallTask) (i : Nat) : Bool :=
  match task.sends[i]? with
  | some (.finished _) => true
  | _ => false

/-- A coroutine is resumed from a call when each of its requests has been answered or its
sending has ended; where there is none, when the loop over the endpoints has. -/
def resumedLate {R : Reflection} (s : World R) : Event R → Bool
  | .resume coroId => (s.chains coroId).all (fun c =>
      (!(s.net.calls c).endpoints.isEmpty || (s.tasks c).loop == .left) &&
        (List.range (s.net.calls c).endpoints.length).all
          (fun i => s.answered.contains (c,i) || (s.tasks c).ended i))
  | _ => true

def CallTask.Counted (task : CallTask) (n : Nat) : Prop :=
  match task.loop with
  | .entering => task.sends = []
  | .next k => task.sends.length = k ∧ k < n
  | .left => task.sends.length = n

theorem CallTask.Counted.at_ {task : CallTask} {k n : Nat} (h : task.sends.length = k)
    (hk : k ≤ n) : ({ task with loop := Loop.at_ k n } : CallTask).Counted n := by
  by_cases hlt : k < n
  · simp only [Loop.at_,if_pos hlt,Counted]
    exact ⟨h,hlt⟩
  · simp only [Loop.at_,if_neg hlt,Counted]
    omega

/-- A loop that has reached the last endpoint is over. -/
theorem CallTask.Counted.left {task : CallTask} {n i : Nat} (h : task.Counted n)
    (hi : i + 1 = n) (hs : i < task.sends.length) :
    task.loop = .left ∧ task.sends.length = n := by
  cases hl : task.loop with
  | entering =>
    simp only [Counted,hl] at h
    simp [h] at hs
  | next k =>
    simp only [Counted,hl] at h
    omega
  | left =>
    simp only [Counted,hl] at h
    exact ⟨rfl,h⟩

theorem CallTask.Counted.resumed {task : CallTask} {n : Nat} (h : task.Counted n) :
    ({ task with resumed := true } : CallTask).Counted n := h

structure World.Sending {R : Reflection} (s : World R) : Prop where
  counted : ∀ c < s.count, (s.tasks c).Counted (s.net.calls c).endpoints.length
  safe : ∀ c < s.count, (s.tasks c).Safe

theorem CallTask.ended_iff {task : CallTask} {i : Nat} (h : task.ended i = true) :
    ∃ written, task.sends[i]? = some (.finished written) := by
  unfold ended at h
  split at h
  · exact ⟨_,by assumption⟩
  · cases h

/-- What the condition on `resume` gives: the loop is over, and so is every send. -/
theorem World.Sending.finished {R : Reflection} {s : World R} (h : s.Sending) (hp : s.Posted)
    {c : Nat} (hc : c < s.count)
    (hempty : (s.net.calls c).endpoints.length = 0 → (s.tasks c).loop = .left)
    (hall : ∀ i < (s.net.calls c).endpoints.length, (c,i) ∈ s.answered ∨ (s.tasks c).ended i = true) :
    (s.tasks c).loop = .left ∧ .pending ∉ (s.tasks c).sends := by
  have hfin : ∀ i < (s.net.calls c).endpoints.length,
      ∃ written, (s.tasks c).sends[i]? = some (.finished written) := by
    intro i hi
    rcases hall i hi with ha | he
    · exact ⟨true,(hp.answered _ ha).2⟩
    · exact CallTask.ended_iff he
  have hcount := h.counted c hc
  have hleft : (s.tasks c).loop = .left := by
    cases hn : (s.net.calls c).endpoints.length with
    | zero => exact hempty hn
    | succ n =>
      obtain ⟨written,hw⟩ := hfin n (by omega)
      obtain ⟨hlt,_⟩ := List.getElem?_eq_some_iff.mp hw
      rw [hn] at hcount
      exact (hcount.left rfl hlt).1
  refine ⟨hleft,fun hin => ?_⟩
  simp only [CallTask.Counted,hleft] at hcount
  obtain ⟨i,hi,hget⟩ := List.mem_iff_getElem.mp hin
  obtain ⟨written,hw⟩ := hfin i (by omega)
  rw [List.getElem?_eq_getElem hi,hget] at hw
  cases hw

structure CallTask.Same (a b : CallTask) : Prop where
  loop : b.loop = a.loop
  sends : b.sends = a.sends
  resumed : b.resumed = a.resumed

theorem World.Sending.of_same {R : Reflection} {s t : World R} (h : s.Sending) (hk : s.Kept t)
    (hcount : t.count = s.count) (htasks : ∀ c, (s.tasks c).Same (t.tasks c)) : t.Sending := by
  refine ⟨fun c hc => ?_,fun c hc => ?_⟩
  · rw [hcount] at hc
    have hold := h.counted c hc
    rw [(hk.calls c hc).endpoints]
    simp only [CallTask.Counted,(htasks c).loop,(htasks c).sends]
    exact hold
  · rw [hcount] at hc
    have hold := h.safe c hc
    rw [CallTask.Safe,(htasks c).loop,(htasks c).sends,(htasks c).resumed]
    exact hold

theorem World.Sending.setTask {R : Reflection} {s : World R} (h : s.Sending) {c : Nat}
    {task : CallTask} (hcounted : task.Counted (s.net.calls c).endpoints.length)
    (hsafe : task.Safe) : (s.setTask c task).Sending := by
  refine ⟨fun c' hc' => ?_,fun c' hc' => ?_⟩
  · by_cases heq : c' = c
    · subst heq
      simp only [World.setTask,Function.update_self]
      exact hcounted
    · simp only [World.setTask,Function.update_of_ne heq]
      exact h.counted c' hc'
  · by_cases heq : c' = c
    · subst heq
      simp only [World.setTask,Function.update_self]
      exact hsafe
    · simp only [World.setTask,Function.update_of_ne heq]
      exact h.safe c' hc'

theorem same_update (tasks : Nat → CallTask) (c : Nat) (task : CallTask)
    (h : (tasks c).Same task) (c' : Nat) : (tasks c').Same (Function.update tasks c task c') :=
  rel_update (fun _ => ⟨rfl,rfl,rfl⟩) tasks c task h c'

theorem Stepped.sending {R : Reflection} {D : Defaults R} {p : Platform} {s t : World R}
    {e : Event R} (h : Stepped D p s e t) (hok : resumedLate s e = true) (hs : s.Sound)
    (hp : s.Posted) (hx : s.Sending) : t.Sending := by
  have hk := h.kept
  cases h with
  | call coroId rpc =>
    refine ⟨fun c hc => ?_,fun c hc => ?_⟩
    · by_cases hnew : c = s.count
      · subst hnew
        simp [World.register,CallTask.Counted]
      · have hlt := Nat.lt_of_le_of_ne (Nat.le_of_lt_succ hc) hnew
        rw [(hk.calls c hlt).endpoints]
        simp only [World.register,Function.update_of_ne hnew]
        exact hx.counted c hlt
    · by_cases hnew : c = s.count
      · subst hnew
        simp [World.register,CallTask.Safe]
      · simp only [World.register,Function.update_of_ne hnew]
        exact hx.safe c (Nat.lt_of_le_of_ne (Nat.le_of_lt_succ hc) hnew)
  | enter c hc hl =>
    have hcount := hx.counted c hc
    simp only [CallTask.Counted,hl] at hcount
    have halive := hx.safe c hc (.inl (by simp [hl]))
    exact hx.setTask (CallTask.Counted.at_ (by rw [hcount]; rfl) (Nat.zero_le _))
      (fun _ => halive)
  | spawn c k hc hl =>
    have hcount := hx.counted c hc
    simp only [CallTask.Counted,hl] at hcount
    have halive := hx.safe c hc (.inl (by simp [hl]))
    have hlen : ((s.tasks c).sends ++ [Sending.pending]).length = k + 1 := by simp [hcount.1]
    exact hx.setTask
      (@CallTask.Counted.at_ { s.tasks c with sends := (s.tasks c).sends ++ [.pending] } _ _ hlen
        hcount.2) (fun _ => halive)
  | sent c i written hc hi =>
    have hcount := hx.counted c hc
    have halive := hx.safe c hc (.inr (List.mem_of_getElem? hi))
    refine hx.setTask ?_ (fun _ => halive)
    simp only [CallTask.Counted,List.length_set] at hcount ⊢
    cases hl : (s.tasks c).loop with
    | entering =>
      simp only [hl] at hcount
      simp [hcount]
    | next k =>
      simp only [hl] at hcount
      exact hcount
    | left =>
      simp only [hl] at hcount
      exact hcount
  | arm c => exact hx.of_same hk rfl (same_update s.tasks c _ ⟨rfl,rfl,rfl⟩)
  | lapse c deadline => exact hx.of_same hk rfl (same_update s.tasks c _ ⟨rfl,rfl,rfl⟩)
  | timeOut c deadline info => exact hx.of_same hk rfl (same_update s.tasks c _ ⟨rfl,rfl,rfl⟩)
  | resume coroId c hc hr =>
    have hlt := (hs.pending coroId c hc).1
    simp only [resumedLate,hc,Option.all_some,Bool.and_eq_true,Bool.or_eq_true,beq_iff_eq,
      List.all_eq_true,List.mem_range,List.contains_iff_mem] at hok
    obtain ⟨hempty,hall⟩ := hok
    obtain ⟨hleft,hnone⟩ := hx.finished hp hlt (fun hn => by
      rw [List.length_eq_zero_iff] at hn
      simpa [hn] using hempty) hall
    have ht := hx.setTask (@CallTask.Counted.resumed (s.tasks c) _ (hx.counted c hlt))
      (fun ha => absurd ha (by simp [hleft,hnone]))
    exact ⟨ht.counted,ht.safe⟩
  | _ => exact hx.of_same hk rfl (fun _ => ⟨rfl,rfl,rfl⟩)

theorem outlived_of_resumedLate {R : Reflection} (D : Defaults R) (p : Platform) (ndebug : Bool)
    (net : NetService R) (now : Int) (s : World R)
    (h : Transition.Reaches (World.step D p ndebug) resumedLate (World.start net now) s) :
    s.Outlived D p ndebug := by
  have hinv : (s.Sound ∧ s.Posted) ∧ s.Sending := by
    refine h.invariant (I := fun s => (s.Sound ∧ s.Posted) ∧ s.Sending) ?_ ?_
    · intro s e t hi hok he
      obtain ⟨⟨hs,hp⟩,hx⟩ := hi
      have hst := World.step_stepped he
      exact ⟨⟨hst.sound hs,hst.posted hp⟩,hst.sending hok hs hp hx⟩
    · exact ⟨⟨World.start_sound net now,World.start_posted net now⟩,
        ⟨fun _ h => absurd h (Nat.not_lt_zero _),fun _ h => absurd h (Nat.not_lt_zero _)⟩⟩
  refine ⟨hinv.2.safe,?_⟩
  intro e t c hc he
  cases World.step_stepped he with
  | enter c' hlt hl =>
    cases hc
    exact hinv.2.safe c hlt (.inl (by simp [hl]))
  | spawn c' k hlt hl =>
    cases hc
    exact hinv.2.safe c hlt (.inl (by simp [hl]))
  | send c' i hlt hi =>
    cases hc
    exact hinv.2.safe c hlt (.inr (List.mem_of_getElem? hi))
  | sent c' i written hlt hi =>
    cases hc
    exact hinv.2.safe c hlt (.inr (List.mem_of_getElem? hi))
  | _ => cases hc

def oneRefuses : List (Event personReflection) :=
  [.call 1 (askBoth 1000),.loop 0,.loop 0,.sent 0 0 true,.answer 0 0 (1,50000) 7 [1],.loop 0,
    .deliver 0,.sent 0 1 false,.resume 1]

theorem oneRefuses_outlived : ∃ s, (s.tasks 0).resumed = true ∧
    World.Outlived personDefaults .small true s := by
  have hrun : (Transition.run (World.step personDefaults .small true) resumedLate quiet
      oneRefuses).map (fun s => (s.tasks 0).resumed) = some true := by decide
  obtain ⟨s,hs,hres⟩ := Option.map_eq_some_iff.mp hrun
  exact ⟨s,hres,outlived_of_resumedLate personDefaults .small true _ 0 s
    (Transition.reaches_of_run hs)⟩

def oneIsSlow : List (Event personReflection) :=
  [.call 1 (askBoth 1000),.loop 0,.loop 0,.loop 0,.sent 0 0 true,.answer 0 0 (1,50000) 7 [1],
    .deliver 0,.resume 1]

/-- The send to the slow endpoint then reads the buffer of a call that is gone. -/
theorem oneIsSlow_not_outlived : ∃ s,
    Transition.run (World.step personDefaults .small true) (fun _ _ => true) quiet oneIsSlow =
      some s ∧ (s.tasks 0).resumed = true ∧ (s.tasks 0).sends = [.finished true,.pending] ∧
      ¬ s.Outlived personDefaults .small true := by
  have hrun : (Transition.run (World.step personDefaults .small true) (fun _ _ => true) quiet
      oneIsSlow).map (fun s => (s.count,(s.tasks 0).resumed,(s.tasks 0).sends)) =
      some (1,true,[.finished true,.pending]) := by decide
  obtain ⟨s,hs,heq⟩ := Option.map_eq_some_iff.mp hrun
  simp only [Prod.mk.injEq] at heq
  obtain ⟨hcount,hres,hsends⟩ := heq
  refine ⟨s,hs,hres,hsends,fun ho => ?_⟩
  have hsafe := ho.safe 0 (by omega) (.inr (by simp [hsends]))
  rw [hres] at hsafe
  cases hsafe

end NewRpc.Net
