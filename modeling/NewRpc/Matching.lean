import Mathlib.Data.List.Forall2
import NewRpc.CallSteps

/-!
A response finds its call by the id of the coroutine alone. Runs in which the
coroutine waits in no later call when one comes, and a run in which it does.
-/

set_option autoImplicit false

namespace NewRpc.Net
open Codec

def received {α : Type} (r : EndPoint × Except Error α) : Option (EndPoint × α) :=
  match r.2 with
  | .ok value => some (r.1,value)
  | .error _ => none

def RpcBase.values {R : Reflection} (rpc : RpcBase R) : List (EndPoint × Val R rpc.sig.ret) :=
  rpc.receivedResults.filterMap received

def StemsFrom {R : Reflection} (D : Defaults R) (p : Platform) (rpc : RpcBase R) (m : Response)
    (result : EndPoint × Val R rpc.sig.ret) : Prop :=
  ∃ value, decodeResult D p rpc.sig.ret m.payload = .ok value ∧
    result = (m.peer,rpc.shown m.peer value)

def Explained {R : Reflection} (D : Defaults R) (p : Platform) (rpc : RpcBase R)
    (ms : List Response) : Prop :=
  List.Forall₂ (StemsFrom D p rpc) ms rpc.values

def World.Own {R : Reflection} (s : World R) : Prop :=
  ∀ c < s.count, ∀ m ∈ s.log c, m.call = c ∧ m.header.rpcId = (s.tasks c).coroId ∧
    (s.tasks c).sends[m.occurrence]? = some (.finished true)

structure World.Matched {R : Reflection} (D : Defaults R) (p : Platform) (s : World R) : Prop where
  values : ∀ c < s.count, Explained D p (s.net.calls c) (s.log c)
  own : s.Own

/-- No response comes while its coroutine waits in a later call. -/
def responseInTime {R : Reflection} (s : World R) : Event R → Bool
  | .deliver k => (s.network[k]?).all (fun m => (s.waits m.header.rpcId).all (fun c' => c' ≤ m.call))
  | _ => true

theorem Explained.start {R : Reflection} (D : Defaults R) (p : Platform) (rpc : Awaited R) :
    Explained D p rpc.toRpcBase [] := by
  have hnil : rpc.toRpcBase.values = [] := by
    rw [RpcBase.values,rpc.noResults]
    rfl
  rw [Explained,hnil]
  exact .nil

theorem RpcBase.shown_record {R : Reflection} (rpc : RpcBase R) (peer peer' : EndPoint)
    (value value' : Val R rpc.sig.ret) :
    (rpc.record peer value).shown peer' value' = rpc.shown peer' value' := by
  cases rpc with
  | mk _ _ _ _ _ _ _ _ _ onEach _ => cases onEach <;> rfl

theorem RpcBase.shown_timeoutCb {R : Reflection} (rpc : RpcBase R) (peer : EndPoint)
    (value : Val R rpc.sig.ret) : rpc.timeoutCb.shown peer value = rpc.shown peer value := by
  cases rpc with
  | mk _ _ _ _ _ _ _ _ _ onEach _ => cases onEach <;> rfl

theorem StemsFrom.record {R : Reflection} {D : Defaults R} {p : Platform} {rpc : RpcBase R}
    {m : Response} {result : EndPoint × Val R rpc.sig.ret} (h : StemsFrom D p rpc m result)
    (peer : EndPoint) (value : Val R rpc.sig.ret) :
    StemsFrom D p (rpc.record peer value) m result := by
  obtain ⟨v,hd,rfl⟩ := h
  exact ⟨v,hd,congrArg (Prod.mk m.peer) (rpc.shown_record peer m.peer value v).symm⟩

theorem StemsFrom.timeoutCb {R : Reflection} {D : Defaults R} {p : Platform} {rpc : RpcBase R}
    {m : Response} {result : EndPoint × Val R rpc.sig.ret} (h : StemsFrom D p rpc m result) :
    StemsFrom D p rpc.timeoutCb m result := by
  obtain ⟨v,hd,rfl⟩ := h
  exact ⟨v,hd,congrArg (Prod.mk m.peer) (rpc.shown_timeoutCb m.peer v).symm⟩

theorem Explained.record {R : Reflection} {D : Defaults R} {p : Platform} {rpc : RpcBase R}
    {ms : List Response} (h : Explained D p rpc ms) {m : Response} {value : Val R rpc.sig.ret}
    (hd : decodeResult D p rpc.sig.ret m.payload = .ok value) :
    Explained D p (rpc.record m.peer value) (ms ++ [m]) := by
  have hv : (rpc.record m.peer value).values = rpc.values ++ [(m.peer,rpc.shown m.peer value)] :=
    List.filterMap_append
  have hlast : List.Forall₂ (StemsFrom D p rpc) [m] [(m.peer,rpc.shown m.peer value)] :=
    .cons ⟨value,hd,rfl⟩ .nil
  rw [Explained,hv]
  exact (List.rel_append h hlast).imp (fun _ _ hs => hs.record m.peer value)

theorem Explained.timeoutCb {R : Reflection} {D : Defaults R} {p : Platform} {rpc : RpcBase R}
    {ms : List Response} (h : Explained D p rpc ms) : Explained D p rpc.timeoutCb ms := by
  have hv : rpc.timeoutCb.values = rpc.values := by
    unfold RpcBase.values RpcBase.timeoutCb
    rw [List.filterMap_append,List.filterMap_map]
    exact (congrArg _ (List.filterMap_eq_nil_iff.mpr (fun _ _ => rfl))).trans
      (List.append_nil _)
  rw [Explained,hv]
  exact h.imp (fun _ _ hs => hs.timeoutCb)

structure World.Logged {R : Reflection} (D : Defaults R) (p : Platform) (s : World R) : Prop where
  fresh : ∀ c, s.count ≤ c → s.log c = []
  values : ∀ c < s.count, Explained D p (s.net.calls c) (s.log c)

theorem World.Logged.of_same {R : Reflection} {D : Defaults R} {p : Platform} {s t : World R}
    (h : s.Logged D p) (hcount : t.count = s.count) (hlog : t.log = s.log)
    (hcalls : t.net.calls = s.net.calls) : t.Logged D p := by
  refine ⟨?_,?_⟩
  · rw [hcount,hlog]
    exact h.fresh
  · rw [hcount,hlog,hcalls]
    exact h.values

theorem World.Logged.record {R : Reflection} {D : Defaults R} {p : Platform} {s : World R}
    (h : s.Logged D p) {c : Nat} (hc : c < s.count) {m : Response}
    {value : Val R (s.net.calls c).sig.ret}
    (hd : decodeResult D p (s.net.calls c).sig.ret m.payload = .ok value) :
    (s.record c m value).Logged D p := by
  refine ⟨?_,?_⟩
  · intro c' hc'
    have hne : c' ≠ c := Nat.ne_of_gt (Nat.lt_of_lt_of_le hc hc')
    simp only [World.record,Function.update_of_ne hne]
    exact h.fresh c' hc'
  · intro c' hc'
    by_cases hcc : c' = c
    · subst hcc
      simp only [World.record,NetService.setCall_calls]
      rw [Function.update_self,Function.update_self]
      exact (h.values c' hc').record hd
    · simp only [World.record,NetService.setCall_calls]
      rw [Function.update_of_ne hcc,Function.update_of_ne hcc]
      exact h.values c' hc'

theorem World.Logged.timeOut {R : Reflection} {D : Defaults R} {p : Platform} {s : World R}
    (h : s.Logged D p) (victim c : Nat) : (s.timeOut victim c).Logged D p := by
  refine ⟨h.fresh,?_⟩
  intro c' hc'
  simp only [World.timeOut,NetService.setCall_calls]
  by_cases hcc : c' = victim
  · subst hcc
    rw [Function.update_self]
    exact (h.values c' hc').timeoutCb
  · rw [Function.update_of_ne hcc]
    exact h.values c' hc'

theorem World.Logged.register {R : Reflection} {D : Defaults R} {p : Platform} {s : World R}
    (h : s.Logged D p) (coroId : Word .w64) (rpc : Awaited R) :
    (s.register coroId rpc).Logged D p := by
  refine ⟨fun c hc => h.fresh c (Nat.le_of_succ_le hc),?_⟩
  intro c hc
  simp only [World.register,NetService.insert_calls,NetService.setCall_calls]
  by_cases hnew : c = s.count
  · subst hnew
    rw [Function.update_self,h.fresh _ (Nat.le_refl _)]
    exact .start D p rpc
  · rw [Function.update_of_ne hnew]
    exact h.values c (Nat.lt_of_le_of_ne (Nat.le_of_lt_succ hc) hnew)

theorem Stepped.logged {R : Reflection} {D : Defaults R} {p : Platform} {s t : World R}
    {e : Event R} (h : Stepped D p s e t) (hs : s.Sound) (hl : s.Logged D p) : t.Logged D p := by
  cases h with
  | call coroId rpc => exact hl.register coroId rpc
  | record k m info value hm hw hd =>
    have hlt := (hs.pending _ _ (hs.waiting _ _ hw).1).1
    exact (hl.of_same rfl rfl rfl : (s.take k).Logged D p).record hlt hd
  | finish k m info value frame hm hw hd =>
    have hlt := (hs.pending _ _ (hs.waiting _ _ hw).1).1
    exact ((hl.of_same rfl rfl rfl : (s.take k).Logged D p).record hlt hd).of_same rfl rfl rfl
  | timeOut c deadline info => exact (hl.timeOut info.coroRpcCallback c).of_same rfl rfl rfl
  | _ => exact hl.of_same rfl rfl rfl

theorem World.Own.of_kept {R : Reflection} {D : Defaults R} {p : Platform} {s t : World R}
    (h : s.Own) (hl : s.Logged D p) (hk : s.Kept t) (hlog : t.log = s.log) : t.Own := by
  intro c _ m hm
  rw [hlog] at hm
  by_cases hlt : c < s.count
  · obtain ⟨hcall,hid,hw⟩ := h c hlt m hm
    rw [(hk.tasks c hlt).coroId]
    exact ⟨hcall,hid,(hk.tasks c hlt).finished _ _ hw⟩
  · rw [hl.fresh c (Nat.le_of_not_lt hlt)] at hm
    cases hm

/-- A response that comes in time goes into the call it was sent for. -/
theorem World.Own.record {R : Reflection} {s : World R} (h : s.Own) (hs : s.Sound)
    (hp : s.Posted) {k : Nat} {m : Response} {info : MaintainInfo}
    (value : Val R (s.net.calls info.coroRpcCallback).sig.ret) (hm : s.network[k]? = some m)
    (hw : s.net.waitingCoros m.header.rpcId = some info)
    (hok : responseInTime s (.deliver k) = true) :
    (s.record info.coroRpcCallback m value).Own := by
  obtain ⟨ha,hid⟩ := hp.network m (List.mem_of_getElem? hm)
  obtain ⟨hlt,hsent⟩ := hp.answered _ ha
  have hle : ∀ c', s.waits m.header.rpcId = some c' → c' ≤ m.call := by
    intro c' hc'
    simpa [responseInTime,hm,hc'] using hok
  have heq := hs.waiting_own hw hlt hid.symm hle
  intro c hc m' hm'
  by_cases hcc : c = info.coroRpcCallback
  · simp only [World.record] at hm'
    rw [hcc,Function.update_self] at hm'
    rcases List.mem_append.mp hm' with hold | hnew
    · rw [hcc]
      exact h _ (by omega) m' hold
    · rw [List.mem_singleton.mp hnew]
      show m.call = c ∧ m.header.rpcId = (s.tasks c).coroId ∧ _
      rw [hcc.trans heq]
      exact ⟨rfl,hid,hsent⟩
  · simp only [World.record] at hm'
    rw [Function.update_of_ne hcc] at hm'
    exact h c hc m' hm'

theorem Stepped.own {R : Reflection} {D : Defaults R} {p : Platform} {s t : World R}
    {e : Event R} (h : Stepped D p s e t) (hok : responseInTime s e = true) (hs : s.Sound)
    (hp : s.Posted) (hl : s.Logged D p) (ho : s.Own) : t.Own := by
  have hk := h.kept
  cases h with
  | record k m info value hm hw hd => exact ho.record hs hp value hm hw hok
  | finish k m info value frame hm hw hd => exact ho.record hs hp value hm hw hok
  | _ => exact ho.of_kept hl hk rfl

theorem matched_of_inTime {R : Reflection} (D : Defaults R) (p : Platform) (ndebug : Bool)
    (net : NetService R) (now : Int) (s : World R)
    (h : Transition.Reaches (World.step D p ndebug) responseInTime (World.start net now) s) :
    s.Matched D p := by
  have hinv : (s.Sound ∧ s.Posted) ∧ s.Logged D p ∧ s.Own := by
    refine h.invariant (I := fun s => (s.Sound ∧ s.Posted) ∧ s.Logged D p ∧ s.Own) ?_ ?_
    · intro s e t hi hok he
      obtain ⟨⟨hs,hp⟩,hl,ho⟩ := hi
      have hst := World.step_stepped he
      exact ⟨⟨hst.sound hs,hst.posted hp⟩,hst.logged hs hl,hst.own hok hs hp hl ho⟩
    · exact ⟨⟨World.start_sound net now,World.start_posted net now⟩,
        ⟨fun _ _ => rfl,fun _ h => absurd h (Nat.not_lt_zero _)⟩,
        fun _ h => absurd h (Nat.not_lt_zero _)⟩
  exact ⟨hinv.2.1.values,hinv.2.2⟩

def firstAnswers : List (Event personReflection) :=
  [.call 1 (askBoth 1000000000),.loop 0,.loop 0,.loop 0,.sent 0 0 true,.sent 0 1 true,
    .answer 0 0 (1,50000) 7 [1],.answer 0 1 (2,50000) 7 [0],.deliver 0,.resume 1]

theorem firstAnswers_matched : ∃ s, (s.log 0).map Response.call = [0] ∧
    World.Matched personDefaults .small s := by
  have hrun : (Transition.run (World.step personDefaults .small true) responseInTime quiet
      firstAnswers).map (fun s => (s.log 0).map Response.call) = some [0] := by decide +kernel
  obtain ⟨s,hs,hlog⟩ := Option.map_eq_some_iff.mp hrun
  exact ⟨s,hlog,matched_of_inTime personDefaults .small true _ 0 s
    (Transition.reaches_of_run hs)⟩

def lateAnswer : List (Event personReflection) :=
  firstAnswers ++ [.call 1 (askBoth 1000000000),.deliver 0]

/-- The answer to call 0 is a result of call 1, which has sent nothing yet. -/
theorem lateAnswer_not_matched : ∃ s,
    Transition.run (World.step personDefaults .small true) (fun _ _ => true) quiet lateAnswer =
      some s ∧ (s.log 1).map Response.call = [0] ∧ (s.tasks 1).sends = [] ∧
      ¬ s.Matched personDefaults .small := by
  have hrun : (Transition.run (World.step personDefaults .small true) (fun _ _ => true) quiet
      lateAnswer).map (fun s => (s.count,(s.log 1).map Response.call,(s.tasks 1).sends)) =
      some (2,[0],[]) := by decide +kernel
  obtain ⟨s,hs,heq⟩ := Option.map_eq_some_iff.mp hrun
  simp only [Prod.mk.injEq] at heq
  obtain ⟨hcount,hlog,hsends⟩ := heq
  refine ⟨s,hs,hlog,hsends,fun hm => ?_⟩
  obtain ⟨m,hmem,hcall⟩ := List.mem_map.mp (hlog ▸ List.mem_singleton_self 0)
  have hown := (hm.own 1 (by omega) m hmem).1
  omega

end NewRpc.Net
