import NewRpc.Completion

/-!
The end of the network thread, which nothing completes a call after.
-/

set_option autoImplicit false

namespace NewRpc.Net
open Codec

def RpcBase.decodes {R : Reflection} (D : Defaults R) (p : Platform) (rpc : RpcBase R)
    (payload : List UInt8) : Bool :=
  (decodeResult D p rpc.sig.ret payload).isOk

/-- How many responses a call of `coroId` has after an event, of `n` before it; `none` where
the event completes it: its timer, or the response that meets the condition. -/
def Awaited.after {R : Reflection} (D : Defaults R) (p : Platform) (rpc : Awaited R)
    (coroId : Word .w64) (n : Nat) : NetEvent R → Option Nat
  | .expire id => if id = coroId then none else some n
  | .receive header _ payload =>
      if header.rpcId = coroId ∧ rpc.decodes D p payload then
        if rpc.finishCondition.met (n + 1) rpc.endpoints.length = some true then none
        else some (n + 1)
      else some n
  | _ => some n

/-- Each call is completed by an event that comes after it. -/
def allCompleted {R : Reflection} (D : Defaults R) (p : Platform) : List (NetEvent R) → Bool
  | [] => true
  | .call coroId rpc :: later =>
      (later.foldlM (rpc.after D p coroId) 0).isNone && allCompleted D p later
  | _ :: later => allCompleted D p later

structure NetThread.Served {R : Reflection} (s : NetThread R) : Prop where
  waitingCoros : ∀ id, s.net.waitingCoros id = none
  calls : ∀ c < s.count, ∃ f, .commit f (some c) ∈ s.history

structure RpcBase.Holds {R : Reflection} (call rpc : RpcBase R) (n : Nat) : Prop where
  sig : call.sig = rpc.sig
  endpoints : call.endpoints.length = rpc.endpoints.length
  finishCondition : call.finishCondition = rpc.finishCondition
  results : call.receivedResults.length = n

section
variable {R : Reflection} {owner : Nat → Word .w64} {D : Defaults R} {p : Platform}
  {s t : NetThread R}

theorem RpcBase.Holds.finishes_iff {call rpc : RpcBase R} {n : Nat} (h : call.Holds rpc n) :
    call.finishes = true ↔ rpc.finishCondition.met (n + 1) rpc.endpoints.length = some true := by
  rw [RpcBase.finishes,h.results,h.endpoints,h.finishCondition]
  cases rpc.finishCondition.met (n + 1) rpc.endpoints.length <;> simp

theorem RpcBase.Holds.record {call rpc : RpcBase R} {n : Nat} (h : call.Holds rpc n)
    (peer : EndPoint) (value : Val R call.sig.ret) :
    (call.record peer value).Holds rpc (n + 1) := by
  refine ⟨h.sig,?_,h.finishCondition,?_⟩
  · rw [RpcBase.record,markAnswered_length]
    exact h.endpoints
  · simp [RpcBase.record,h.results]

theorem RpcBase.Holds.decodes {call rpc : RpcBase R} {n : Nat} (h : call.Holds rpc n)
    (D : Defaults R) (p : Platform) (payload : List UInt8) :
    call.decodes D p payload = rpc.decodes D p payload := by
  rw [RpcBase.decodes,RpcBase.decodes,h.sig]

theorem NetService.erase_if_other (net : NetService R) (c : Prop) [Decidable c]
    {id id' : Word .w64} (hid : id' ≠ id) :
    (if c then net.erase id' else net).waitingCoros id = net.waitingCoros id ∧
      (if c then net.erase id' else net).calls = net.calls := by
  split
  · exact ⟨Function.update_of_ne (Ne.symm hid) _ _,rfl⟩
  · exact ⟨rfl,rfl⟩

/-- A response touches no entry but its own, and no call but that of its entry. -/
theorem NetService.respond_other {net net' : NetService R} {header : PackageHeader}
    {peer : EndPoint} {payload : List UInt8} {needAwak : Option Nat}
    (hr : net.respond D p header peer payload = .ok (net',needAwak)) {id : Word .w64}
    (hid : header.rpcId ≠ id) : net'.waitingCoros id = net.waitingCoros id ∧
      ∀ c, (∀ info, net.waitingCoros header.rpcId = some info → c ≠ info.coroRpcCallback) →
        net'.calls c = net.calls c := by
  cases hw : net.waitingCoros header.rpcId with
  | none =>
    rw [respond_none hw] at hr
    cases hr
    exact ⟨rfl,fun _ _ => rfl⟩
  | some info =>
    rw [respond_some hw] at hr
    cases hd : decodeResult D p (net.calls info.coroRpcCallback).sig.ret payload with
    | error e =>
      rw [hd] at hr
      cases hr
    | ok value =>
      simp only [hd] at hr
      cases hr
      refine ⟨(erase_if_other _ _ hid).1,fun c hc => ?_⟩
      rw [(erase_if_other _ _ hid).2]
      exact Function.update_of_ne (hc info rfl) _ _

theorem NetService.timeout_waits {net net' : NetService R} {ndebug : Bool} {coroId : Word .w64}
    {needAwak : Option Nat} {info : MaintainInfo}
    (hr : net.timeout ndebug coroId = .ok (net',needAwak))
    (hw : net.waitingCoros coroId = some info) : net' = (net.setCall info.coroRpcCallback
      (net.calls info.coroRpcCallback).timeoutCb).erase coroId := by
  simp only [timeout,hw] at hr
  cases hc : check ndebug .resultsComplete (net.calls info.coroRpcCallback).timeoutAssertion with
  | error e =>
    rw [hc] at hr
    cases hr
  | ok u =>
    rw [hc] at hr
    cases hr
    rfl

theorem NetService.timeout_other {net net' : NetService R} {ndebug : Bool} {coroId id : Word .w64}
    {needAwak : Option Nat} (hr : net.timeout ndebug coroId = .ok (net',needAwak))
    (hid : coroId ≠ id) : net'.waitingCoros id = net.waitingCoros id ∧
      ∀ c, (∀ info, net.waitingCoros coroId = some info → c ≠ info.coroRpcCallback) →
        net'.calls c = net.calls c := by
  cases hw : net.waitingCoros coroId with
  | none =>
    rw [timeout,hw] at hr
    cases hr
    exact ⟨rfl,fun _ _ => rfl⟩
  | some info =>
    rw [timeout_waits hr hw]
    exact ⟨Function.update_of_ne (Ne.symm hid) _ _,
      fun c hc => Function.update_of_ne (hc info rfl) _ _⟩

theorem NetService.timeout_own {net net' : NetService R} {ndebug : Bool} {coroId : Word .w64}
    {needAwak : Option Nat} (hr : net.timeout ndebug coroId = .ok (net',needAwak)) :
    net'.waitingCoros coroId = none := by
  cases hw : net.waitingCoros coroId with
  | none =>
    rw [timeout,hw] at hr
    cases hr
    exact hw
  | some info =>
    rw [timeout_waits hr hw]
    exact Function.update_self ..

theorem NetThread.Sound.call_apart (h : s.Sound owner) {id id' : Word .w64}
    {info info' : MaintainInfo} (hw : s.net.waitingCoros id = some info)
    (hw' : s.net.waitingCoros id' = some info') (hne : id' ≠ id) :
    info.coroRpcCallback ≠ info'.coroRpcCallback := by
  intro heq
  have hcaller := (h.entries id info hw).caller
  rw [heq,(h.entries id' info' hw').caller] at hcaller
  exact hne hcaller

structure NetThread.Follows (t : NetThread R) (D : Defaults R) (p : Platform) (rpc : Awaited R)
    (id : Word .w64) (info : MaintainInfo) (m : Nat) (e : NetEvent R) : Prop where
  waits : ∀ n, rpc.after D p id m e = some n → t.net.waitingCoros id = some info ∧
    (t.net.calls info.coroRpcCallback).Holds rpc.toRpcBase n
  completed : rpc.after D p id m e = none → t.net.waitingCoros id = none

theorem NetThread.Follows.of_some {rpc : Awaited R} {id : Word .w64} {info : MaintainInfo}
    {m n : Nat} {e : NetEvent R} (hafter : rpc.after D p id m e = some n)
    (hw : t.net.waitingCoros id = some info)
    (hc : (t.net.calls info.coroRpcCallback).Holds rpc.toRpcBase n) :
    t.Follows D p rpc id info m e := by
  refine ⟨fun n' hn => ?_,fun hn => ?_⟩
  · rw [hafter] at hn
    cases hn
    exact ⟨hw,hc⟩
  · rw [hafter] at hn
    cases hn

theorem NetThread.Follows.of_none {rpc : Awaited R} {id : Word .w64} {info : MaintainInfo}
    {m : Nat} {e : NetEvent R} (hafter : rpc.after D p id m e = none)
    (hw : t.net.waitingCoros id = none) : t.Follows D p rpc id info m e := by
  refine ⟨fun n hn => ?_,fun _ => hw⟩
  rw [hafter] at hn
  cases hn

section
variable {id : Word .w64} {info : MaintainInfo} {rpc : Awaited R} {m : Nat}

theorem NetThread.Sound.receive_own (h : s.Sound owner) {header : PackageHeader}
    {peer : EndPoint} {payload : List UInt8} (he : s.receive D p header peer payload = some t)
    (hw : s.net.waitingCoros header.rpcId = some info)
    (hc : (s.net.calls info.coroRpcCallback).Holds rpc.toRpcBase m) :
    t.Follows D p rpc header.rpcId info m (.receive header peer payload) := by
  have hdecodes := hc.decodes D p payload
  have hawaits := (h.entries _ _ hw).awaits
  unfold receive at he
  rw [NetService.respond_some hw] at he
  cases hd : decodeResult D p (s.net.calls info.coroRpcCallback).sig.ret payload with
  | error e =>
    simp only [hd] at he
    obtain ⟨_,heq⟩ := Option.ite_none_right_eq_some.mp he
    cases heq
    refine .of_some ?_ hw hc
    rw [RpcBase.decodes,hd] at hdecodes
    simp [Awaited.after,← hdecodes,Except.isOk,Except.toBool]
  | ok value =>
    have hrecord := hc.record (peer.setPort header.serverPort) value
    have hafter : rpc.after D p header.rpcId m (.receive header peer payload) =
        if (s.net.calls info.coroRpcCallback).finishes = true then none else some (m + 1) := by
      rw [RpcBase.decodes,hd] at hdecodes
      simp only [Awaited.after,← hdecodes,Except.isOk,Except.toBool,and_true,if_true,
        ← hc.finishes_iff]
    simp only [hd,Option.some.injEq] at he
    subst he
    rw [hawaits]
    cases hf : (s.net.calls info.coroRpcCallback).finishes with
    | true =>
      rw [hf,if_pos rfl] at hafter
      exact .of_none hafter (Function.update_self ..)
    | false =>
      rw [hf,if_neg Bool.false_ne_true] at hafter
      exact .of_some hafter hw (by simpa using hrecord)

theorem NetThread.Sound.receive_other (h : s.Sound owner) {header : PackageHeader}
    {peer : EndPoint} {payload : List UInt8} (he : s.receive D p header peer payload = some t)
    (hid : header.rpcId ≠ id) (hw : s.net.waitingCoros id = some info)
    (hc : (s.net.calls info.coroRpcCallback).Holds rpc.toRpcBase m) :
    t.Follows D p rpc id info m (.receive header peer payload) := by
  have hafter : rpc.after D p id m (.receive header peer payload) = some m := by
    simp [Awaited.after,hid]
  unfold receive at he
  cases hr : s.net.respond D p header peer payload with
  | error e =>
    simp only [hr] at he
    obtain ⟨_,heq⟩ := Option.ite_none_right_eq_some.mp he
    cases heq
    exact .of_some hafter hw hc
  | ok r =>
    obtain ⟨net,needAwak⟩ := r
    simp only [hr] at he
    cases he
    obtain ⟨htable,hcalls⟩ := NetService.respond_other hr hid
    refine .of_some hafter (htable.trans hw) ?_
    rw [hcalls _ (fun info' hw' => h.call_apart hw hw' hid)]
    exact hc

theorem NetThread.Sound.expire_own {ndebug : Bool} (he : s.expire ndebug id = some t) :
    t.Follows D p rpc id info m (.expire id) := by
  have hafter : rpc.after D p id m (.expire id) = none := if_pos rfl
  unfold expire at he
  cases hr : s.net.timeout ndebug id with
  | error e =>
    rw [hr] at he
    cases he
  | ok r =>
    obtain ⟨net,needAwak⟩ := r
    simp only [hr] at he
    cases he
    exact .of_none hafter (NetService.timeout_own hr)

theorem NetThread.Sound.expire_other (h : s.Sound owner) {ndebug : Bool} {id' : Word .w64}
    (he : s.expire ndebug id' = some t) (hid : id' ≠ id) (hw : s.net.waitingCoros id = some info)
    (hc : (s.net.calls info.coroRpcCallback).Holds rpc.toRpcBase m) :
    t.Follows D p rpc id info m (.expire id') := by
  have hafter : rpc.after D p id m (.expire id') = some m := if_neg hid
  unfold expire at he
  cases hr : s.net.timeout ndebug id' with
  | error e =>
    rw [hr] at he
    cases he
  | ok r =>
    obtain ⟨net,needAwak⟩ := r
    simp only [hr] at he
    cases he
    obtain ⟨htable,hcalls⟩ := NetService.timeout_other hr hid
    refine .of_some hafter (htable.trans hw) ?_
    rw [hcalls _ (fun info' hw' => h.call_apart hw hw' hid)]
    exact hc

theorem NetThread.Sound.follows (h : s.Sound owner) {ndebug : Bool} {e : NetEvent R}
    (he : s.step owner D p ndebug e = some t) (hw : s.net.waitingCoros id = some info)
    (hc : (s.net.calls info.coroRpcCallback).Holds rpc.toRpcBase m) :
    t.Follows D p rpc id info m e := by
  cases e with
  | call coroId rpc' =>
    obtain ⟨⟨hfree,_⟩,heq⟩ := Option.ite_none_right_eq_some.mp he
    cases heq
    have hnone := h.unregistered hfree
    have hid : id ≠ coroId := fun heq => by rw [heq,hnone] at hw; cases hw
    have hcall := (h.entries id info hw).suspended.made
    refine .of_some rfl ?_ ?_
    · rw [s.call_waitingCoros hnone,Function.update_of_ne hid]
      exact hw
    · rw [s.call_calls,Function.update_of_ne (Nat.ne_of_lt hcall)]
      exact hc
  | receive header peer payload =>
    obtain ⟨_,heq⟩ := Option.ite_none_right_eq_some.mp he
    by_cases hid : header.rpcId = id
    · subst hid
      exact h.receive_own heq hw hc
    · exact h.receive_other heq hid hw hc
  | expire coroId =>
    obtain ⟨_,heq⟩ := Option.ite_none_right_eq_some.mp he
    by_cases hid : coroId = id
    · subst hid
      exact expire_own heq
    · exact h.expire_other heq hid hw hc
  | commit =>
    obtain ⟨f,_,heq⟩ := Option.map_eq_some_iff.mp he
    cases heq
    exact .of_some rfl hw hc
  | resume | stop | finish =>
    obtain ⟨_,heq⟩ := Option.ite_none_right_eq_some.mp he
    cases heq
    exact .of_some rfl hw hc

/-- An entry was there before the step, or its call has just been made. -/
theorem NetThread.Sound.entry_old (h : s.Sound owner) {ndebug : Bool} {e : NetEvent R}
    (he : s.step owner D p ndebug e = some t) (hw : t.net.waitingCoros id = some info) :
    s.net.waitingCoros id = some info ∨ ∃ rpc, e = .call id rpc := by
  cases e with
  | call coroId rpc =>
    obtain ⟨⟨hfree,_⟩,heq⟩ := Option.ite_none_right_eq_some.mp he
    cases heq
    by_cases hid : id = coroId
    · exact .inr ⟨rpc,by rw [hid]⟩
    · rw [s.call_waitingCoros (h.unregistered hfree),Function.update_of_ne hid] at hw
      exact .inl hw
  | receive header peer payload =>
    obtain ⟨hfree,heq⟩ := Option.ite_none_right_eq_some.mp he
    rcases h.receive_cases hfree.2 heq with heq | ⟨info',awak,hc⟩
    · exact .inl (heq ▸ hw)
    · exact .inl (hc.table hw)
  | expire coroId =>
    obtain ⟨⟨hfree,_⟩,heq⟩ := Option.ite_none_right_eq_some.mp he
    rcases h.expire_cases hfree.2 heq with heq | ⟨info',hc⟩
    · exact .inl (by rw [heq] at hw; exact hw)
    · exact .inl (hc.table hw)
  | commit =>
    obtain ⟨f,_,heq⟩ := Option.map_eq_some_iff.mp he
    cases heq
    exact .inl hw
  | resume | stop | finish =>
    obtain ⟨_,heq⟩ := Option.ite_none_right_eq_some.mp he
    cases heq
    exact .inl hw

theorem NetThread.Sound.call_entry (h : s.Sound owner) {ndebug : Bool}
    (he : s.step owner D p ndebug (.call id rpc) = some t) :
    ∃ info, t.net.waitingCoros id = some info ∧
      (t.net.calls info.coroRpcCallback).Holds rpc.toRpcBase 0 := by
  obtain ⟨⟨hfree,_⟩,heq⟩ := Option.ite_none_right_eq_some.mp he
  cases heq
  refine ⟨⟨rpc.frame,s.count⟩,?_,?_⟩
  · rw [s.call_waitingCoros (h.unregistered hfree),Function.update_self]
  · rw [s.call_calls,Function.update_self]
    exact ⟨rfl,rfl,rfl,by rw [rpc.noResults]; rfl⟩

end

theorem append_singleton_eq {α : Type} {past before later : List α} {e x : α}
    (h : past ++ [e] = before ++ x :: later) : later = [] ∧ past = before ∧ e = x ∨
      ∃ later', later = later' ++ [e] ∧ past = before ++ x :: later' := by
  rcases List.eq_nil_or_concat later with rfl | ⟨later',y,rfl⟩
  · obtain ⟨hp,he⟩ := List.append_inj' h rfl
    exact .inl ⟨rfl,hp,List.singleton_inj.mp he⟩
  · rw [List.concat_eq_append,← List.cons_append,← List.append_assoc] at h
    obtain ⟨hp,he⟩ := List.append_inj' h rfl
    exact .inr ⟨later',by rw [List.concat_eq_append,List.singleton_inj.mp he],hp⟩

theorem allCompleted_iff {es : List (NetEvent R)} : allCompleted D p es = true ↔
    ∀ before coroId rpc later, es = before ++ .call coroId rpc :: later →
      later.foldlM (rpc.after D p coroId) 0 = none := by
  induction es with
  | nil => simp [allCompleted]
  | cons e es ih =>
    have hcons : (∀ before coroId rpc later, e :: es = before ++ .call coroId rpc :: later →
        later.foldlM (rpc.after D p coroId) 0 = none) ↔
          (∀ coroId rpc, e = .call coroId rpc → es.foldlM (rpc.after D p coroId) 0 = none) ∧
            ∀ before coroId rpc later, es = before ++ .call coroId rpc :: later →
              later.foldlM (rpc.after D p coroId) 0 = none := by
      constructor
      · intro h
        exact ⟨fun coroId rpc he => h [] coroId rpc es (by rw [he]; rfl),
          fun before coroId rpc later hes => h (e :: before) coroId rpc later (by rw [hes]; rfl)⟩
      · rintro ⟨hfirst,hrest⟩ before coroId rpc later heq
        cases before with
        | nil =>
          obtain ⟨he,hes⟩ := List.cons.inj heq
          rw [← hes]
          exact hfirst coroId rpc he
        | cons _ before => exact hrest before coroId rpc later (List.cons.inj heq).2
    rw [hcons,← ih]
    cases e with
    | call coroId rpc =>
      rw [allCompleted,Bool.and_eq_true,Option.isNone_iff_eq_none]
      refine and_congr_left' ⟨fun h _ _ heq => ?_,fun h => h coroId rpc rfl⟩
      cases heq
      exact h
    | _ => simp [allCompleted]

/-- The calls that wait are those that no event has completed since. -/
structure NetThread.Traces (owner : Nat → Word .w64) (D : Defaults R) (p : Platform)
    (past : List (NetEvent R)) (s : NetThread R) : Prop where
  sound : s.Sound owner
  open_ : ∀ before id rpc later n, past = before ++ .call id rpc :: later →
    later.foldlM (rpc.after D p id) 0 = some n → ∃ info, s.net.waitingCoros id = some info ∧
      (s.net.calls info.coroRpcCallback).Holds rpc.toRpcBase n
  entries : ∀ id info, s.net.waitingCoros id = some info → ∃ before rpc later n,
    past = before ++ .call id rpc :: later ∧ later.foldlM (rpc.after D p id) 0 = some n ∧
      (s.net.calls info.coroRpcCallback).Holds rpc.toRpcBase n

theorem foldlM_snoc {α β : Type} (f : β → α → Option β) (b : β) (as : List α) (a : α) :
    (as ++ [a]).foldlM f b = (as.foldlM f b).bind (fun c => f c a) := by
  rw [List.foldlM_append]
  refine congrArg _ (funext fun c => ?_)
  show (f c a).bind some = f c a
  cases f c a <;> rfl

theorem NetThread.Traces.step {past : List (NetEvent R)} {ndebug : Bool} {e : NetEvent R}
    (h : s.Traces owner D p past) (he : s.step owner D p ndebug e = some t) :
    t.Traces owner D p (past ++ [e]) := by
  have hnew : ∀ id rpc, e = .call id rpc → ∃ info, t.net.waitingCoros id = some info ∧
      (t.net.calls info.coroRpcCallback).Holds rpc.toRpcBase 0 := by
    rintro id rpc rfl
    exact h.sound.call_entry he
  refine ⟨h.sound.step he,?_,?_⟩
  · intro before id rpc later n hpast hn
    rcases append_singleton_eq hpast with ⟨rfl,_,hcall⟩ | ⟨later',rfl,hpast'⟩
    · cases hn
      exact hnew id rpc hcall
    · rw [foldlM_snoc] at hn
      obtain ⟨m,hm,hafter⟩ := Option.bind_eq_some_iff.mp hn
      obtain ⟨info,hw,hc⟩ := h.open_ before id rpc later' m hpast' hm
      exact ⟨info,(h.sound.follows he hw hc).waits n hafter⟩
  · intro id info hw
    rcases h.sound.entry_old he hw with hold | ⟨rpc,hcall⟩
    · obtain ⟨before,rpc,later,m,hpast,hm,hc⟩ := h.entries id info hold
      have hfollows := h.sound.follows he hold hc
      cases hafter : rpc.after D p id m e with
      | none =>
        have hnone := hfollows.completed hafter
        rw [hw] at hnone
        cases hnone
      | some n =>
        refine ⟨before,rpc,later ++ [e],n,by rw [hpast]; simp,?_,(hfollows.waits n hafter).2⟩
        rw [foldlM_snoc,hm]
        exact hafter
    · obtain ⟨info',hw',hc⟩ := hnew id rpc hcall
      cases hw.symm.trans hw'
      exact ⟨past,rpc,[],0,by rw [hcall],rfl,hc⟩

theorem NetThread.start_traces (net : NetService R) :
    (start net).Traces owner D p [] := by
  refine ⟨start_sound net,fun before id rpc later n hpast => ?_,fun id info hw => by cases hw⟩
  simp at hpast

theorem NetThread.Traces.completed_iff {past : List (NetEvent R)} (h : s.Traces owner D p past) :
    allCompleted D p past = true ↔ ∀ id, s.net.waitingCoros id = none := by
  rw [allCompleted_iff]
  constructor
  · intro hall id
    cases hw : s.net.waitingCoros id with
    | none => rfl
    | some info =>
      obtain ⟨before,rpc,later,n,hpast,hn,_⟩ := h.entries id info hw
      rw [hall before id rpc later hpast] at hn
      cases hn
  · intro hnone before id rpc later hpast
    cases hn : later.foldlM (rpc.after D p id) 0 with
    | none => rfl
    | some n =>
      obtain ⟨info,hw,_⟩ := h.open_ before id rpc later n hpast hn
      rw [hnone id] at hw
      cases hw

def NetThread.Quit (s : NetThread R) : Prop := s.phase = .ended → s.needAwak = none

theorem NetThread.Quit.step (hq : s.Quit) (h : s.Sound owner) {ndebug : Bool} {e : NetEvent R}
    (he : s.step owner D p ndebug e = some t) : t.Quit := by
  cases e with
  | receive header peer payload =>
    obtain ⟨hfree,heq⟩ := Option.ite_none_right_eq_some.mp he
    rcases h.receive_cases hfree.2 heq with heq | ⟨info,awak,hc⟩
    · rw [heq]
      exact hq
    · exact fun hend => absurd (hc.phase ▸ hend) hfree.1
  | expire coroId =>
    obtain ⟨⟨hfree,_⟩,heq⟩ := Option.ite_none_right_eq_some.mp he
    rcases h.expire_cases hfree.2 heq with heq | ⟨info,hc⟩
    · rw [heq]
      exact hq
    · exact fun hend => absurd (hc.phase ▸ hend) hfree.1
  | commit =>
    obtain ⟨f,_,heq⟩ := Option.map_eq_some_iff.mp he
    cases heq
    exact fun _ => rfl
  | call | resume =>
    obtain ⟨_,heq⟩ := Option.ite_none_right_eq_some.mp he
    cases heq
    exact hq
  | stop =>
    obtain ⟨_,heq⟩ := Option.ite_none_right_eq_some.mp he
    cases heq
    exact fun hend => by cases hend
  | finish =>
    obtain ⟨⟨_,hnone⟩,heq⟩ := Option.ite_none_right_eq_some.mp he
    cases heq
    exact fun _ => hnone

end

/-- Where the thread has ended no call is left waiting exactly if each call of the run, before
the stop or after it, is followed by its timer or by the response that meets its condition. -/
theorem served_iff_completed {R : Reflection} (owner : Nat → Word .w64) (D : Defaults R)
    (p : Platform) (ndebug : Bool) (net : NetService R) (es : List (NetEvent R)) (s : NetThread R)
    (h : Transition.run (NetThread.step owner D p ndebug) (fun _ _ => true) (.start net) es =
      some s)
    (hend : s.phase = .ended) : s.Served ↔ allCompleted D p es = true := by
  obtain ⟨htraces,hquit⟩ : s.Traces owner D p ([] ++ es) ∧ s.Quit :=
    Transition.run_invariant (I := fun past s => s.Traces owner D p past ∧ s.Quit)
      (fun _ _ _ _ hi he => ⟨hi.1.step he,hi.2.step hi.1.sound he⟩)
      ⟨NetThread.start_traces net,fun hend => by cases hend⟩ h
  rw [List.nil_append] at htraces
  rw [htraces.completed_iff]
  refine ⟨fun hserved => hserved.waitingCoros,fun hnone => ⟨hnone,fun c hc => ?_⟩⟩
  rcases htraces.sound.served c hc with ⟨info,hi,_⟩ | ⟨f,hf,_⟩ | hcom
  · rw [hnone] at hi
    cases hi
  · rw [hquit hend] at hf
    cases hf
  · exact hcom

def answeredFirst : List (NetEvent personReflection) :=
  [.call 1 (askBoth 1000),.stop,yes,.commit,.finish]

theorem answeredFirst_served : ∃ s : NetThread personReflection, s.phase = .ended ∧
    s.count = 1 ∧ s.Served := by
  have hrun : (Transition.run (NetThread.step ownFrame personDefaults .small true)
      (fun _ _ => true) idleThread answeredFirst).map (fun s => (s.phase,s.count)) =
        some (.ended,1) := by decide
  obtain ⟨s,hs,heq⟩ := Option.map_eq_some_iff.mp hrun
  obtain ⟨hend,hcount⟩ := Prod.mk.inj heq
  exact ⟨s,hend,hcount,(served_iff_completed ownFrame personDefaults .small true _ answeredFirst s
    hs hend).mpr (by decide)⟩

def stoppedFirst : List (NetEvent personReflection) :=
  [.call 1 (askBoth 1000),.stop,.finish]

theorem stoppedFirst_not_served : ∃ s : NetThread personReflection,
    Transition.run (NetThread.step ownFrame personDefaults .small true) (fun _ _ => true)
      idleThread stoppedFirst = some s ∧ s.phase = .ended ∧
      s.net.waitingCoros 1 = some ⟨1,0⟩ ∧ s.history = [.insert 0 false] ∧ ¬ s.Served := by
  have hrun : (Transition.run (NetThread.step ownFrame personDefaults .small true)
      (fun _ _ => true) idleThread stoppedFirst).map
      (fun s => (s.phase,s.net.waitingCoros 1,s.history)) =
      some (.ended,some ⟨1,0⟩,[.insert 0 false]) := by decide
  obtain ⟨s,hs,heq⟩ := Option.map_eq_some_iff.mp hrun
  simp only [Prod.mk.injEq] at heq
  obtain ⟨hend,htable,hhist⟩ := heq
  refine ⟨s,hs,hend,htable,hhist,fun hserved => ?_⟩
  have hnone := hserved.waitingCoros 1
  rw [htable] at hnone
  cases hnone

end NewRpc.Net
