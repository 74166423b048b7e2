import NewRpc.Matching
import NewRpc.Resumption

/-!
What `await_resume` finds when a call goes on. For a call to a single endpoint it reads the
first result without asking whether there is one.
-/

set_option autoImplicit false

namespace NewRpc.Net
open Codec

section
variable {R : Reflection} {D : Defaults R} {p : Platform}

/-- `received_results_[0].second`; `none` is a read past the end of the vector. -/
def RpcBase.awaitResume (rpc : RpcBase R) : Option (Except Error (Val R rpc.sig.ret)) :=
  rpc.receivedResults.head?.map Prod.snd

theorem RpcBase.awaitResume_eq_none {rpc : RpcBase R} :
    rpc.awaitResume = none ↔ rpc.receivedResults = [] := by
  simp [awaitResume]

structure RpcBase.Accounted (rpc : RpcBase R) (ms : List Response) : Prop where
  flagged : ∀ e ∈ rpc.endpoints, e.2 = true → ms ≠ []
  taken : ms.length ≤ rpc.receivedResults.length
  unasked : rpc.endpoints = [] → rpc.receivedResults.length = ms.length

theorem RpcBase.Accounted.start (rpc : Awaited R) : rpc.toRpcBase.Accounted [] := by
  refine ⟨fun e he hf => ?_,Nat.zero_le _,fun _ => by rw [rpc.noResults]; rfl⟩
  rw [rpc.unanswered e he] at hf
  cases hf

theorem RpcBase.Accounted.record {rpc : RpcBase R} {ms : List Response}
    (h : rpc.Accounted ms) (peer : EndPoint) (value : Val R rpc.sig.ret) (m : Response) :
    (rpc.record peer value).Accounted (ms ++ [m]) := by
  refine ⟨fun _ _ _ => by simp,?_,fun he => ?_⟩
  · simpa [RpcBase.record] using h.taken
  · have hempty : rpc.endpoints = [] := by
      have hlen := markAnswered_length peer rpc.endpoints
      rw [show markAnswered peer rpc.endpoints = [] from he] at hlen
      exact List.length_eq_zero_iff.mp hlen.symm
    simpa [RpcBase.record] using h.unasked hempty

theorem RpcBase.Accounted.timeoutCb {rpc : RpcBase R} {ms : List Response}
    (h : rpc.Accounted ms) : rpc.timeoutCb.Accounted ms := by
  refine ⟨h.flagged,?_,fun he => ?_⟩
  · have ht := h.taken
    simp only [RpcBase.timeoutCb,List.length_append]
    omega
  · have hnone : rpc.endpoints = [] := he
    simpa [RpcBase.timeoutCb,hnone] using h.unasked hnone

/-- A call that times out has a result for an endpoint that has answered or one that has not. -/
theorem RpcBase.Accounted.timedOut {rpc : RpcBase R} {ms : List Response}
    (h : rpc.Accounted ms) (hne : rpc.endpoints ≠ []) : rpc.timeoutCb.receivedResults ≠ [] := by
  intro hnone
  obtain ⟨e,es,heq⟩ := List.exists_cons_of_ne_nil hne
  have hin : e ∈ rpc.endpoints := by simp [heq]
  simp only [RpcBase.timeoutCb,List.append_eq_nil_iff,List.map_eq_nil_iff] at hnone
  cases hf : e.2 with
  | true =>
    have hlen := h.taken
    rw [hnone.1] at hlen
    exact h.flagged e hin hf (List.length_eq_zero_iff.mp (Nat.le_zero.mp hlen))
  | false =>
    have hmem : e ∈ rpc.endpoints.filter (fun e => !e.2) := by simp [hin,hf]
    rw [hnone.2] at hmem
    cases hmem

/-- A call whose coroutine is to go on has a result, unless it asked nobody. -/
structure World.Resulted (s : World R) : Prop where
  fresh : ∀ c, s.count ≤ c → s.log c = []
  accounted : ∀ c < s.count, (s.net.calls c).Accounted (s.log c)
  completed : ∀ id c, s.chains id = some c → s.net.waitingCoros id = none →
    (s.net.calls c).endpoints ≠ [] → (s.net.calls c).receivedResults ≠ []

theorem World.Resulted.of_same {s t : World R} (h : s.Resulted) (hcount : t.count = s.count)
    (hlog : t.log = s.log) (hnet : t.net = s.net)
    (hchains : ∀ id c, t.chains id = some c → s.chains id = some c) : t.Resulted := by
  refine ⟨?_,?_,?_⟩
  · rw [hcount,hlog]
    exact h.fresh
  · rw [hcount,hlog,hnet]
    exact h.accounted
  · rw [hnet]
    exact fun id c hc => h.completed id c (hchains id c hc)

theorem World.record_results (s : World R) {c : Nat} (m : Response)
    (value : Val R (s.net.calls c).sig.ret) :
    ((s.record c m value).net.calls c).receivedResults ≠ [] := by
  have hcall : (s.record c m value).net.calls c = (s.net.calls c).record m.peer value :=
    Function.update_self _ _ _
  rw [hcall]
  simp [RpcBase.record]

theorem World.Resulted.record {s : World R} (h : s.Resulted) {c : Nat} (hc : c < s.count)
    (m : Response) (value : Val R (s.net.calls c).sig.ret) : (s.record c m value).Resulted := by
  refine ⟨fun c' hc' => ?_,fun c' hc' => ?_,fun id c' hchain hw hne => ?_⟩
  · have hcc : c' ≠ c := Nat.ne_of_gt (Nat.lt_of_lt_of_le hc hc')
    simp only [World.record,Function.update_of_ne hcc]
    exact h.fresh c' hc'
  · by_cases hcc : c' = c
    · subst hcc
      simp only [World.record,NetService.setCall_calls]
      rw [Function.update_self,Function.update_self]
      exact (h.accounted c' hc').record m.peer value m
    · simp only [World.record,NetService.setCall_calls]
      rw [Function.update_of_ne hcc,Function.update_of_ne hcc]
      exact h.accounted c' hc'
  · by_cases hcc : c' = c
    · subst hcc
      exact World.record_results s m value
    · have hcall : (s.record c m value).net.calls c' = s.net.calls c' :=
        Function.update_of_ne hcc _ _
      rw [hcall] at hne ⊢
      exact h.completed id c' hchain hw hne

theorem World.Resulted.timeOut {s : World R} (h : s.Resulted) (victim c : Nat) :
    (s.timeOut victim c).Resulted := by
  refine ⟨h.fresh,fun c' hc' => ?_,fun id c' hchain hw hne => ?_⟩
  · simp only [World.timeOut,NetService.setCall_calls]
    by_cases hcc : c' = victim
    · subst hcc
      rw [Function.update_self]
      exact (h.accounted c' hc').timeoutCb
    · rw [Function.update_of_ne hcc]
      exact h.accounted c' hc'
  · by_cases hcc : c' = victim
    · subst hcc
      have hcall : (s.timeOut c' c).net.calls c' = (s.net.calls c').timeoutCb :=
        Function.update_self _ _ _
      rw [hcall] at hne ⊢
      have hr := h.completed id c' hchain hw hne
      simp [RpcBase.timeoutCb,hr]
    · have hcall : (s.timeOut victim c).net.calls c' = s.net.calls c' :=
        Function.update_of_ne hcc _ _
      rw [hcall] at hne ⊢
      exact h.completed id c' hchain hw hne

theorem World.Resulted.complete {s : World R} (h : s.Resulted) {coroId : Word .w64} {c : Nat}
    (frame : Nat) (hc : s.chains coroId = some c)
    (hr : (s.net.calls c).endpoints ≠ [] → (s.net.calls c).receivedResults ≠ []) :
    (s.complete coroId frame).Resulted := by
  refine ⟨h.fresh,h.accounted,fun id c' hchain hw hne => ?_⟩
  by_cases hid : id = coroId
  · subst hid
    have heq : c' = c := Option.some.inj (hchain.symm.trans hc)
    subst heq
    exact hr hne
  · simp only [World.complete,NetService.erase,Function.update_of_ne hid] at hw
    exact h.completed id c' hchain hw hne

theorem World.Resulted.register {s : World R} (h : s.Resulted) (hs : s.Sound)
    {coroId : Word .w64} (rpc : Awaited R) (hfree : s.chains coroId = none) :
    (s.register coroId rpc).Resulted := by
  have hnone : s.net.waitingCoros coroId = none := by
    cases hw : s.net.waitingCoros coroId with
    | none => rfl
    | some info =>
      rw [(hs.waiting coroId info hw).1] at hfree
      cases hfree
  have hwaiting := World.register_waitingCoros rpc hnone
  refine ⟨fun c hc => h.fresh c (Nat.le_of_succ_le hc),fun c hc => ?_,fun id c hchain hw hne => ?_⟩
  · simp only [World.register,NetService.insert_calls,NetService.setCall_calls]
    by_cases hnew : c = s.count
    · subst hnew
      rw [Function.update_self,h.fresh _ (Nat.le_refl _)]
      exact .start rpc
    · rw [Function.update_of_ne hnew]
      exact h.accounted c (Nat.lt_of_le_of_ne (Nat.le_of_lt_succ hc) hnew)
  · rw [hwaiting] at hw
    by_cases hid : id = coroId
    · subst hid
      simp at hw
    · rw [Function.update_of_ne hid] at hw
      simp only [World.register,Function.update_of_ne hid] at hchain
      have hne' : c ≠ s.count := Nat.ne_of_lt (hs.pending id c hchain).1
      have hcall : (s.register coroId rpc).net.calls c = s.net.calls c := by
        simp only [World.register,NetService.insert_calls,NetService.setCall_calls]
        exact Function.update_of_ne hne' _ _
      rw [hcall] at hne ⊢
      exact h.completed id c hchain hw hne

theorem Stepped.resulted {s t : World R} {e : Event R} (h : Stepped D p s e t) (hs : s.Sound)
    (hr : s.Resulted) : t.Resulted := by
  cases h with
  | call coroId rpc hfree => exact hr.register hs rpc hfree
  | record k m info value hm hw =>
    have hlt := (hs.pending _ _ (hs.waiting _ _ hw).1).1
    exact (hr.of_same rfl rfl rfl (fun _ _ h => h) : (s.take k).Resulted).record hlt m value
  | finish k m info value frame hm hw =>
    have hlt := (hs.pending _ _ (hs.waiting _ _ hw).1).1
    have hrec := (hr.of_same rfl rfl rfl (fun _ _ h => h) : (s.take k).Resulted).record hlt m value
    exact hrec.complete frame (hs.waiting _ _ hw).1 fun _ => World.record_results (s.take k) m value
  | timeOut c deadline info hc ha hd hw =>
    refine (hr.timeOut info.coroRpcCallback c).complete _ (hs.waiting _ _ hw).1 fun hne => ?_
    have hlt := (hs.pending _ _ (hs.waiting _ _ hw).1).1
    have hcall : (s.timeOut info.coroRpcCallback c).net.calls info.coroRpcCallback =
        (s.net.calls info.coroRpcCallback).timeoutCb := Function.update_self _ _ _
    rw [hcall] at hne ⊢
    exact (hr.accounted _ hlt).timedOut hne
  | resume coroId c hc hready =>
    refine hr.of_same rfl rfl rfl fun id c' hchain => ?_
    by_cases hid : id = coroId
    · subst hid
      simp [World.resume] at hchain
    · simpa [World.resume,Function.update_of_ne hid] using hchain
  | _ => exact hr.of_same rfl rfl rfl (fun _ _ h => h)

/-- When the coroutine of a call goes on there is a first result to read, unless the call was
given no endpoint and nothing came for it by mistake. -/
theorem first_result_missing_iff {R : Reflection} (D : Defaults R) (p : Platform) (ndebug : Bool)
    (net : NetService R) (now : Int) (s : World R)
    (h : Transition.Reaches (World.step D p ndebug) (fun _ _ => true) (.start net now) s)
    (coroId : Word .w64) (c : Nat) (hc : s.chains coroId = some c)
    (hready : coroId.toNat ∈ s.ready) : (s.net.calls c).awaitResume = none ↔
      (s.net.calls c).endpoints = [] ∧ s.log c = [] := by
  have hinv : s.Sound ∧ s.Resulted := by
    refine h.invariant (I := fun s => s.Sound ∧ s.Resulted) (fun s e t hi _ he => ?_)
      ⟨World.start_sound net now,fun _ _ => rfl,fun _ h => absurd h (Nat.not_lt_zero _),?_⟩
    · have hst := World.step_stepped he
      exact ⟨hst.sound hi.1,hst.resulted hi.1 hi.2⟩
    · intro id c hc
      cases hc
  obtain ⟨hs,hr⟩ := hinv
  have hacc := hr.accounted c (hs.pending _ _ hc).1
  rw [RpcBase.awaitResume_eq_none]
  constructor
  · intro hnone
    have htaken := hacc.taken
    rw [hnone] at htaken
    refine ⟨?_,List.length_eq_zero_iff.mp (Nat.le_zero.mp htaken)⟩
    by_contra hne
    exact hr.completed coroId c hc ((hs.suspended coroId c hc).mpr hready) hne hnone
  · intro ⟨hnone,hlog⟩
    have hlen := hacc.unasked hnone
    rw [hlog] at hlen
    exact List.length_eq_zero_iff.mp hlen

end

def askNobody : Awaited personReflection :=
  Awaited.build ⟨[],.bool⟩ 2 [] .whenAll FinishCondition.whenAll_valid 1000 none 1

/-- Nobody is asked, nothing comes, and the coroutine reads a result that is not there. -/
theorem askNobody_missing : ∃ s, Transition.Reaches (World.step personDefaults .small false)
    (fun _ _ => true) quiet s ∧ s.ready = [1] ∧ (s.net.calls 0).awaitResume = none := by
  have hrun : (Transition.run (World.step personDefaults .small false) (fun _ _ => true) quiet
      [.call 1 askNobody,.arm 0,.tick 1000,.expire 0]).map
      (fun s => (s.chains 1,s.ready,(s.net.calls 0).endpoints.length,(s.log 0).length)) =
        some (some 0,[1],0,0) := by decide +kernel
  obtain ⟨s,hs,heq⟩ := Option.map_eq_some_iff.mp hrun
  simp only [Prod.mk.injEq,List.length_eq_zero_iff] at heq
  obtain ⟨hchain,hready,hnobody,hnothing⟩ := heq
  have hreached := Transition.reaches_of_run hs
  exact ⟨s,hreached,hready,(first_result_missing_iff personDefaults .small false _ 0 s hreached 1 0
    hchain (by rw [hready]; decide)).mpr ⟨hnobody,hnothing⟩⟩

end NewRpc.Net
