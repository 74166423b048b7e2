import NewRpc.CallSteps

/-!
A timer finds its call by the id of the coroutine alone and is never cancelled. Runs
in which no timer expires while its coroutine waits in a later call, and one that
ends a later call early.
-/

set_option autoImplicit false

namespace NewRpc.Net
open Codec

def World.Punctual {R : Reflection} (s : World R) (x : Expiry) : Prop :=
  x.victim = x.timer ∧
    (s.tasks x.victim).registeredAt + (s.net.calls x.victim).timeout.toNat ≤ x.time

def RpcBase.HasError {R : Reflection} (rpc : RpcBase R) : Prop :=
  ∃ r ∈ rpc.receivedResults, ∃ e, r.2 = .error e

structure World.Timely {R : Reflection} (s : World R) : Prop where
  punctual : ∀ x ∈ s.expiries, s.Punctual x
  reported : ∀ c < s.count, (s.net.calls c).HasError → ∃ x ∈ s.expiries, x.victim = c

/-- No timer expires while its coroutine waits in a later call, and the timeout of a call
that still waits does not turn negative as an `int64_t`. -/
def expiryInTime {R : Reflection} (s : World R) : Event R → Bool
  | .expire c => (s.waits (s.tasks c).coroId).all
      (fun c' => decide (c' ≤ c ∧ (s.net.calls c).timeout.toNat < 2 ^ 63))
  | _ => true

structure World.Clocked {R : Reflection} (s : World R) : Prop where
  now : s.now < endOfTime
  registered : ∀ c < s.count, (s.tasks c).registeredAt ≤ s.now
  armed : ∀ c < s.count, ∀ deadline, (s.tasks c).timer = .armed deadline →
    (s.net.calls c).timeout.toNat < 2 ^ 63 →
    min ((s.tasks c).registeredAt + (s.net.calls c).timeout.toNat) endOfTime ≤ deadline

theorem expiresAfter_eq {now : Int} {timeout : Word .w64} (h : timeout.toNat < 2 ^ 63) :
    expiresAfter now timeout = min (now + timeout.toNat) endOfTime := by
  have hint : timeout.toInt = timeout.toNat := by
    have hpow : 2 ^ (8 * Width.w64.sizeof) = 2 * 2 ^ 63 := rfl
    exact BitVec.toInt_eq_toNat_of_lt (by omega)
  rw [expiresAfter,hint]

theorem World.Clocked.of_kept {R : Reflection} {s t : World R} (h : s.Clocked) (hk : s.Kept t)
    (hnow : t.now = s.now) (hcount : t.count = s.count)
    (htimer : ∀ c d, (t.tasks c).timer = .armed d → (s.tasks c).timer = .armed d) :
    t.Clocked := by
  refine ⟨?_,?_,?_⟩
  · rw [hnow]
    exact h.now
  · intro c hc
    rw [hcount] at hc
    rw [(hk.tasks c hc).registeredAt,hnow]
    exact h.registered c hc
  · intro c hc d hd hlt
    rw [hcount] at hc
    rw [(hk.calls c hc).timeout] at hlt ⊢
    rw [(hk.tasks c hc).registeredAt]
    exact h.armed c hc d (htimer c d hd) hlt

theorem armed_update (tasks : Nat → CallTask) (c : Nat) (task : CallTask)
    (h : ∀ d, task.timer = .armed d → (tasks c).timer = .armed d) (c' : Nat) (d : Int)
    (hd : (Function.update tasks c task c').timer = .armed d) : (tasks c').timer = .armed d :=
  rel_update (r := fun a b => ∀ d, b.timer = .armed d → a.timer = .armed d)
    (fun _ _ h => h) tasks c task h c' d hd

theorem Stepped.clocked {R : Reflection} {D : Defaults R} {p : Platform} {s t : World R}
    {e : Event R} (h : Stepped D p s e t) (hs : s.Clocked) : t.Clocked := by
  have hk := h.kept
  cases h with
  | tick ns hns =>
    refine ⟨hns,fun c hc => ?_,hs.armed⟩
    have hr := hs.registered c hc
    show (s.tasks c).registeredAt ≤ s.now + ns
    omega
  | call coroId rpc =>
    have hnew : ∀ c < s.count + 1, c ≠ s.count → c < s.count := fun c h1 h2 => by omega
    refine ⟨hs.now,?_,?_⟩
    · intro c hc
      by_cases heq : c = s.count
      · subst heq
        simp [World.register]
      · have hlt := hnew c hc heq
        rw [(hk.tasks c hlt).registeredAt]
        exact hs.registered c hlt
    · intro c hc d hd hto
      by_cases heq : c = s.count
      · subst heq
        simp [World.register] at hd
      · have hlt := hnew c hc heq
        simp only [World.register,Function.update_of_ne heq] at hd
        rw [(hk.calls c hlt).timeout] at hto ⊢
        rw [(hk.tasks c hlt).registeredAt]
        exact hs.armed c hlt d hd hto
  | arm c hc hsp =>
    refine ⟨hs.now,?_,?_⟩
    · intro c' hc'
      rw [(hk.tasks c' hc').registeredAt]
      exact hs.registered c' hc'
    · intro c' hc' d hd hto
      by_cases heq : c' = c
      · subst heq
        simp only [World.setTask,Function.update_self,Timer.armed.injEq] at hd
        have hr := hs.registered c' hc'
        have hd' : min (s.now + (s.net.calls c').timeout.toNat) endOfTime = d :=
          (expiresAfter_eq hto).symm.trans hd
        rw [(hk.tasks c' hc').registeredAt]
        show min ((s.tasks c').registeredAt + (s.net.calls c').timeout.toNat) _ ≤ d
        omega
      · rw [(hk.tasks c' hc').registeredAt]
        simp only [World.setTask,Function.update_of_ne heq] at hd
        exact hs.armed c' hc' d hd hto
  | enter c => exact hs.of_kept hk rfl rfl (armed_update s.tasks c _ (fun _ h => h))
  | spawn c k => exact hs.of_kept hk rfl rfl (armed_update s.tasks c _ (fun _ h => h))
  | sent c i written => exact hs.of_kept hk rfl rfl (armed_update s.tasks c _ (fun _ h => h))
  | lapse c deadline => exact hs.of_kept hk rfl rfl (armed_update s.tasks c _ (fun _ h => by cases h))
  | timeOut c deadline info =>
    exact hs.of_kept hk rfl rfl (armed_update s.tasks c _ (fun _ h => by cases h))
  | resume coroId c => exact hs.of_kept hk rfl rfl (armed_update s.tasks c _ (fun _ h => h))
  | _ => exact hs.of_kept hk rfl rfl (fun _ _ h => h)

theorem RpcBase.hasError_of_record {R : Reflection} {rpc : RpcBase R} {peer : EndPoint}
    {value : Val R rpc.sig.ret} (h : (rpc.record peer value).HasError) : rpc.HasError := by
  obtain ⟨r,hr,e,he⟩ := h
  rcases List.mem_append.mp hr with hold | hnew
  · exact ⟨r,hold,e,he⟩
  · rw [List.mem_singleton.mp hnew] at he
    cases he

theorem Awaited.not_hasError {R : Reflection} (rpc : Awaited R) : ¬ rpc.toRpcBase.HasError := by
  intro ⟨r,hr,_⟩
  rw [rpc.noResults] at hr
  cases hr

structure World.Expired {R : Reflection} (s : World R) : Prop extends s.Timely where
  victims : ∀ x ∈ s.expiries, x.victim < s.count

theorem World.Punctual.kept {R : Reflection} {s t : World R} {x : Expiry} (h : s.Punctual x)
    (hk : s.Kept t) (hx : x.victim < s.count) : t.Punctual x := by
  obtain ⟨hown,hlate⟩ := h
  refine ⟨hown,?_⟩
  rw [(hk.tasks _ hx).registeredAt,(hk.calls _ hx).timeout]
  exact hlate

theorem World.Expired.of_kept {R : Reflection} {s t : World R} (h : s.Expired) (hk : s.Kept t)
    (hexpiries : t.expiries = s.expiries)
    (herror : ∀ c < t.count, (t.net.calls c).HasError → c < s.count ∧ (s.net.calls c).HasError) :
    t.Expired := by
  refine ⟨⟨?_,?_⟩,?_⟩
  · intro x hx
    rw [hexpiries] at hx
    exact (h.punctual x hx).kept hk (h.victims x hx)
  · intro c hc he
    rw [hexpiries]
    obtain ⟨hlt,hs⟩ := herror c hc he
    exact h.reported c hlt hs
  · intro x hx
    rw [hexpiries] at hx
    exact Nat.lt_of_lt_of_le (h.victims x hx) hk.count

theorem World.Expired.record {R : Reflection} {s t : World R} (h : s.Expired) (hk : s.Kept t)
    (hexpiries : t.expiries = s.expiries) (hcount : t.count = s.count) {c : Nat} {peer : EndPoint}
    {value : Val R (s.net.calls c).sig.ret}
    (hcalls : t.net.calls = Function.update s.net.calls c ((s.net.calls c).record peer value)) :
    t.Expired := by
  refine h.of_kept hk hexpiries (fun c' hc' he => ⟨by omega,?_⟩)
  rw [hcalls] at he
  exact rel_update (r := fun a b => b.HasError → a.HasError) (fun _ h => h) s.net.calls c _
    RpcBase.hasError_of_record c' he

/-- The timer that ends a call is the last of its coroutine, and its deadline has passed. -/
theorem World.Expired.timeOut {R : Reflection} {s : World R} (h : s.Expired) (hs : s.Sound)
    (hclock : s.Clocked) {c : Nat} {deadline : Int} {info : MaintainInfo} (hc : c < s.count)
    (ha : (s.tasks c).timer = .armed deadline) (hd : deadline ≤ s.now)
    (hw : s.net.waitingCoros (s.tasks c).coroId = some info)
    (hok : expiryInTime s (.expire c) = true) : (s.timeOut info.coroRpcCallback c).Expired := by
  have hk := World.Kept.timeOut s info.coroRpcCallback c
  have hguard := Option.all_eq_true _ _ |>.mp hok
  simp only [decide_eq_true_eq] at hguard
  have heq := hs.waiting_own hw hc rfl (fun c' hc' => (hguard c' hc').1)
  have hto := (hguard _ (hs.waits_eq hw)).2
  have harm := hclock.armed c hc deadline ha hto
  have hnow := hclock.now
  have hpunctual : s.Punctual ⟨info.coroRpcCallback,c,s.now⟩ := by
    refine ⟨heq,?_⟩
    show (s.tasks info.coroRpcCallback).registeredAt +
      (s.net.calls info.coroRpcCallback).timeout.toNat ≤ s.now
    rw [heq]
    omega
  refine ⟨⟨?_,?_⟩,?_⟩
  · intro x hx
    rcases List.mem_append.mp hx with hold | hnew
    · exact (h.punctual x hold).kept hk (h.victims x hold)
    · rw [List.mem_singleton.mp hnew]
      exact hpunctual.kept hk (heq ▸ hc)
  · intro c' hc' he
    by_cases hv : c' = info.coroRpcCallback
    · exact ⟨_,List.mem_append_right _ (List.mem_singleton_self _),hv.symm⟩
    · simp only [World.timeOut,NetService.setCall_calls,Function.update_of_ne hv] at he
      obtain ⟨x,hx,hxc⟩ := h.reported c' hc' he
      exact ⟨x,List.mem_append_left _ hx,hxc⟩
  · intro x hx
    rcases List.mem_append.mp hx with hold | hnew
    · exact h.victims x hold
    · rw [List.mem_singleton.mp hnew]
      exact heq ▸ hc

theorem Stepped.expired {R : Reflection} {D : Defaults R} {p : Platform} {s t : World R}
    {e : Event R} (h : Stepped D p s e t) (hok : expiryInTime s e = true) (hs : s.Sound)
    (hclock : s.Clocked) (hx : s.Expired) : t.Expired := by
  have hk := h.kept
  cases h with
  | call coroId rpc =>
    refine hx.of_kept hk rfl (fun c hc he => ?_)
    simp only [World.register,NetService.insert_calls,NetService.setCall_calls] at he
    by_cases hnew : c = s.count
    · rw [hnew,Function.update_self] at he
      exact absurd he rpc.not_hasError
    · rw [Function.update_of_ne hnew] at he
      exact ⟨Nat.lt_of_le_of_ne (Nat.le_of_lt_succ hc) hnew,he⟩
  | record k m info value => exact hx.record hk rfl rfl rfl
  | finish k m info value frame => exact hx.record hk rfl rfl rfl
  | timeOut c deadline info hc ha hd hw =>
    have ht := hx.timeOut hs hclock hc ha hd hw hok
    exact ⟨⟨ht.punctual,ht.reported⟩,ht.victims⟩
  | _ => exact hx.of_kept hk rfl (fun c hc he => ⟨hc,he⟩)

theorem timely_of_inTime {R : Reflection} (D : Defaults R) (p : Platform) (ndebug : Bool)
    (net : NetService R) (now : Int) (hnow : now < endOfTime) (s : World R)
    (h : Transition.Reaches (World.step D p ndebug) expiryInTime (World.start net now) s) :
    s.Timely := by
  have hinv : s.Sound ∧ s.Clocked ∧ s.Expired := by
    refine h.invariant (I := fun s => s.Sound ∧ s.Clocked ∧ s.Expired) ?_ ?_
    · intro s e t hi hok he
      obtain ⟨hs,hc,hx⟩ := hi
      have hst := World.step_stepped he
      exact ⟨hst.sound hs,hst.clocked hc,hst.expired hok hs hc hx⟩
    · refine ⟨World.start_sound net now,⟨hnow,?_,?_⟩,⟨⟨?_,?_⟩,?_⟩⟩ <;> simp [World.start]
  exact hinv.2.2.toTimely

def unanswered : List (Event personReflection) :=
  [.call 1 (askBoth 1000),.loop 0,.arm 0,.loop 0,.loop 0,.sent 0 0 true,.sent 0 1 false,
    .tick 1000,.expire 0]

theorem unanswered_timely : ∃ s, s.expiries.map Expiry.victim = [0] ∧
    @World.Timely personReflection s := by
  have hrun : (Transition.run (World.step personDefaults .small false) expiryInTime quiet
      unanswered).map (fun s => s.expiries.map Expiry.victim) = some [0] := by decide
  obtain ⟨s,hs,hlog⟩ := Option.map_eq_some_iff.mp hrun
  exact ⟨s,hlog,timely_of_inTime personDefaults .small false _ 0 (by decide) s
    (Transition.reaches_of_run hs)⟩

def leftoverTimer : List (Event personReflection) :=
  [.call 1 (askBoth 1000),.loop 0,.arm 0,.loop 0,.loop 0,.sent 0 0 true,
    .answer 0 0 (1,50000) 7 [1],.deliver 0,.resume 1,.call 1 (askBoth 5000),.tick 1000,.expire 0]

/-- The timer of call 0 ends call 1 after 1000 ns. -/
theorem leftoverTimer_not_timely : ∃ s,
    Transition.run (World.step personDefaults .small false) (fun _ _ => true) quiet
      leftoverTimer = some s ∧
      s.expiries.map (fun x => (x.victim,x.timer,x.time)) = [(1,0,1000)] ∧
      (s.tasks 1).registeredAt = 0 ∧ (s.net.calls 1).timeout = 5000 ∧ ¬ s.Timely := by
  have hrun : (Transition.run (World.step personDefaults .small false) (fun _ _ => true) quiet
      leftoverTimer).map (fun s => (s.expiries.map (fun x => (x.victim,x.timer,x.time)),
        (s.tasks 1).registeredAt,(s.net.calls 1).timeout)) = some ([(1,0,1000)],0,5000) := by
    decide
  obtain ⟨s,hs,heq⟩ := Option.map_eq_some_iff.mp hrun
  simp only [Prod.mk.injEq] at heq
  obtain ⟨hx,hreg,hto⟩ := heq
  refine ⟨s,hs,hx,hreg,hto,fun ht => ?_⟩
  obtain ⟨x,hmem,hxe⟩ := List.mem_map.mp (hx ▸ List.mem_singleton_self (1,0,(1000 : Int)))
  simp only [Prod.mk.injEq] at hxe
  have hown := (ht.punctual x hmem).1
  omega

end NewRpc.Net
