import NewRpc.Calls

/-!
What one step of the calls does, by case, and the bookkeeping every run keeps: at
most one call of a chain waits, and it is the last one the chain has made.
-/

set_option autoImplicit false

namespace NewRpc.Net
open Codec

def World.take {R : Reflection} (s : World R) (k : Nat) : World R :=
  { s with network := s.network.eraseIdx k }

def World.record {R : Reflection} (s : World R) (c : Nat) (m : Response)
    (value : Val R (s.net.calls c).sig.ret) : World R :=
  { s with
    net := s.net.setCall c ((s.net.calls c).record m.peer value)
    log := Function.update s.log c (s.log c ++ [m]) }

def World.timeOut {R : Reflection} (s : World R) (victim c : Nat) : World R :=
  { s with
    net := s.net.setCall victim (s.net.calls victim).timeoutCb
    tasks := Function.update s.tasks c { s.tasks c with timer := .ended }
    expiries := s.expiries ++ [⟨victim,c,s.now⟩] }

def World.complete {R : Reflection} (s : World R) (coroId : Word .w64) (frame : Nat) : World R :=
  { s with
    net := s.net.erase coroId
    ready := s.ready ++ [frame] }

inductive Stepped {R : Reflection} (D : Defaults R) (p : Platform) (s : World R) :
    Event R → World R → Prop where
  | tick (ns : Nat) : s.now + ns < endOfTime →
      Stepped D p s (.tick ns) { s with now := s.now + ns }
  | call (coroId : Word .w64) (rpc : Awaited R) : s.chains coroId = none →
      rpc.frame = coroId.toNat → Stepped D p s (.call coroId rpc) (s.register coroId rpc)
  | enter (c : Nat) : c < s.count → (s.tasks c).loop = .entering →
      Stepped D p s (.loop c) (s.setTask c { s.tasks c with
        loop := Loop.at_ 0 (s.net.calls c).endpoints.length })
  | spawn (c k : Nat) : c < s.count → (s.tasks c).loop = .next k →
      Stepped D p s (.loop c) (s.setTask c { s.tasks c with
        loop := Loop.at_ (k + 1) (s.net.calls c).endpoints.length
        sends := (s.tasks c).sends ++ [.pending] })
  | arm (c : Nat) : c < s.count → (s.tasks c).timer = .spawned →
      Stepped D p s (.arm c) (s.setTask c { s.tasks c with
        timer := .armed (expiresAfter s.now (s.net.calls c).timeout) })
  | send (c i : Nat) : c < s.count → (s.tasks c).sends[i]? = some .pending →
      Stepped D p s (.send c i) s
  | sent (c i : Nat) (written : Bool) : c < s.count → (s.tasks c).sends[i]? = some .pending →
      Stepped D p s (.sent c i written) (s.sent c i written)
  | answer (c i : Nat) (remote : Address) (port : Word .w16) (payload : List UInt8) :
      c < s.count → (s.tasks c).sends[i]? = some (.finished true) →
      Stepped D p s (.answer c i remote port payload) (s.answer c i remote port payload)
  | drop (k : Nat) (m : Response) : s.network[k]? = some m →
      Stepped D p s (.deliver k) (s.take k)
  | record (k : Nat) (m : Response) (info : MaintainInfo)
      (value : Val R (s.net.calls info.coroRpcCallback).sig.ret) : s.network[k]? = some m →
      s.net.waitingCoros m.header.rpcId = some info →
      decodeResult D p (s.net.calls info.coroRpcCallback).sig.ret m.payload = .ok value →
      Stepped D p s (.deliver k) ((s.take k).record info.coroRpcCallback m value)
  | finish (k : Nat) (m : Response) (info : MaintainInfo)
      (value : Val R (s.net.calls info.coroRpcCallback).sig.ret) (frame : Nat) :
      s.network[k]? = some m → s.net.waitingCoros m.header.rpcId = some info →
      decodeResult D p (s.net.calls info.coroRpcCallback).sig.ret m.payload = .ok value →
      (s.net.calls info.coroRpcCallback).coroutine = some frame →
      Stepped D p s (.deliver k)
        (((s.take k).record info.coroRpcCallback m value).complete m.header.rpcId frame)
  | lapse (c : Nat) (deadline : Int) : c < s.count → (s.tasks c).timer = .armed deadline →
      deadline ≤ s.now → s.net.waitingCoros (s.tasks c).coroId = none →
      Stepped D p s (.expire c) (s.setTask c { s.tasks c with timer := .ended })
  | timeOut (c : Nat) (deadline : Int) (info : MaintainInfo) : c < s.count →
      (s.tasks c).timer = .armed deadline → deadline ≤ s.now →
      s.net.waitingCoros (s.tasks c).coroId = some info →
      Stepped D p s (.expire c)
        ((s.timeOut info.coroRpcCallback c).complete (s.tasks c).coroId info.coroutine)
  | resume (coroId : Word .w64) (c : Nat) : s.chains coroId = some c → coroId.toNat ∈ s.ready →
      Stepped D p s (.resume coroId) (s.resume coroId c)

theorem World.deliver_stepped {R : Reflection} {D : Defaults R} {p : Platform} {s t : World R}
    {k : Nat} {m : Response} (hk : s.network[k]? = some m) (h : (s.take k).deliver D p m = some t) :
    Stepped D p s (.deliver k) t := by
  cases hw : s.net.waitingCoros m.header.rpcId with
  | none =>
    have hr : (s.take k).net.respond D p m.header (peerAt m.remote) m.payload = _ :=
      NetService.respond_none hw
    simp only [deliver,hr,Option.toList_none,List.append_nil] at h
    have ht : t = s.take k := by
      rw [← Option.some.inj h]
      simp [take,hw]
    rw [ht]
    exact .drop k m hk
  | some info =>
    have hr : (s.take k).net.respond D p m.header (peerAt m.remote) m.payload = _ :=
      NetService.respond_some hw
    cases hd : decodeResult D p (s.net.calls info.coroRpcCallback).sig.ret m.payload with
    | error e =>
      have hd' : decodeResult D p ((s.take k).net.calls info.coroRpcCallback).sig.ret m.payload =
        .error e := hd
      simp only [deliver,hr,hd'] at h
      split at h
      · cases h
        exact .drop k m hk
      · cases h
    | ok value =>
      have hd' : decodeResult D p ((s.take k).net.calls info.coroRpcCallback).sig.ret m.payload =
        .ok value := hd
      have hw' : (s.take k).net.waitingCoros m.header.rpcId = some info := hw
      simp only [deliver,hr,hd',hw'] at h
      rw [← Option.some.inj h]
      cases hn : if ((s.take k).net.calls info.coroRpcCallback).finishes then
        ((s.take k).net.calls info.coroRpcCallback).coroutine else none with
      | none =>
        rw [Option.toList_none,List.append_nil]
        exact .record k m info value hk hw hd
      | some frame =>
        have hc : (s.net.calls info.coroRpcCallback).coroutine = some frame := by
          split at hn
          · exact hn
          · cases hn
        exact .finish k m info value frame hk hw hd hc

theorem World.expire_stepped {R : Reflection} {D : Defaults R} {p : Platform} {ndebug : Bool}
    {s t : World R} {c : Nat} {deadline : Int} (hc : c < s.count)
    (ha : (s.tasks c).timer = .armed deadline) (hd : deadline ≤ s.now)
    (h : s.expire ndebug c = some t) : Stepped D p s (.expire c) t := by
  cases hw : s.net.waitingCoros (s.tasks c).coroId with
  | none =>
    simp only [expire,NetService.timeout,hw,Option.toList_none,List.append_nil] at h
    rw [← Option.some.inj h]
    exact .lapse c deadline hc ha hd hw
  | some info =>
    simp only [expire,NetService.timeout,hw] at h
    by_cases hok : ndebug = true ∨ (s.net.calls info.coroRpcCallback).timeoutAssertion = true
    · rw [check_pos hok,Exec.ok_bind] at h
      rw [← Option.some.inj h]
      exact .timeOut c deadline info hc ha hd hw
    · rw [check_neg hok,Exec.error_bind] at h
      cases h

theorem World.step_stepped {R : Reflection} {D : Defaults R} {p : Platform} {ndebug : Bool}
    {s t : World R} {e : Event R} (h : s.step D p ndebug e = some t) : Stepped D p s e t := by
  cases e with
  | tick ns =>
    obtain ⟨hn,rfl⟩ := Option.ite_some_none_eq_some.mp h
    exact .tick ns hn
  | call coroId rpc =>
    obtain ⟨⟨hn,hf⟩,rfl⟩ := Option.ite_some_none_eq_some.mp h
    exact .call coroId rpc hn hf
  | loop c =>
    obtain ⟨hc,ht⟩ := Option.ite_none_right_eq_some.mp h
    cases hl : (s.tasks c).loop with
    | entering =>
      simp only [advance,hl] at ht
      rw [← Option.some.inj ht]
      exact .enter c hc hl
    | next k =>
      simp only [advance,hl] at ht
      rw [← Option.some.inj ht]
      exact .spawn c k hc hl
    | left =>
      simp only [advance,hl] at ht
      cases ht
  | arm c =>
    obtain ⟨hc,ht⟩ := Option.ite_none_right_eq_some.mp h
    cases hs : (s.tasks c).timer with
    | spawned =>
      simp only [World.arm,hs] at ht
      rw [← Option.some.inj ht]
      exact .arm c hc hs
    | armed deadline =>
      simp only [World.arm,hs] at ht
      cases ht
    | ended =>
      simp only [World.arm,hs] at ht
      cases ht
  | send c i =>
    obtain ⟨⟨hc,hi⟩,rfl⟩ := Option.ite_some_none_eq_some.mp h
    exact .send c i hc hi
  | sent c i written =>
    obtain ⟨⟨hc,hi⟩,rfl⟩ := Option.ite_some_none_eq_some.mp h
    exact .sent c i written hc hi
  | answer c i remote port payload =>
    obtain ⟨⟨hc,hi⟩,rfl⟩ := Option.ite_some_none_eq_some.mp h
    exact .answer c i remote port payload hc hi
  | deliver k =>
    cases hk : s.network[k]? with
    | none =>
      simp only [step,hk] at h
      cases h
    | some m =>
      simp only [step,hk] at h
      exact deliver_stepped hk h
  | expire c =>
    cases ha : (s.tasks c).timer with
    | armed deadline =>
      simp only [step,ha] at h
      obtain ⟨⟨hc,hd⟩,ht⟩ := Option.ite_none_right_eq_some.mp h
      exact expire_stepped hc ha hd ht
    | spawned =>
      simp only [step,ha] at h
      cases h
    | ended =>
      simp only [step,ha] at h
      cases h
  | resume coroId =>
    cases hc : s.chains coroId with
    | none =>
      simp only [step,hc] at h
      cases h
    | some c =>
      simp only [step,hc] at h
      obtain ⟨hr,rfl⟩ := Option.ite_some_none_eq_some.mp h
      exact .resume coroId c hc hr

structure CallTask.Kept (a b : CallTask) : Prop where
  coroId : b.coroId = a.coroId
  registeredAt : b.registeredAt = a.registeredAt
  finished : ∀ (i : Nat) (written : Bool), a.sends[i]? = some (.finished written) →
    b.sends[i]? = some (.finished written)

structure RpcBase.Kept {R : Reflection} (a b : RpcBase R) : Prop where
  coroutine : b.coroutine = a.coroutine
  timeout : b.timeout = a.timeout
  endpoints : b.endpoints.length = a.endpoints.length

structure World.Kept {R : Reflection} (s t : World R) : Prop where
  count : s.count ≤ t.count
  tasks : ∀ c < s.count, (s.tasks c).Kept (t.tasks c)
  calls : ∀ c < s.count, (s.net.calls c).Kept (t.net.calls c)

theorem CallTask.Kept.refl (a : CallTask) : a.Kept a := ⟨rfl,rfl,fun _ _ h => h⟩

theorem RpcBase.Kept.refl {R : Reflection} (a : RpcBase R) : a.Kept a := ⟨rfl,rfl,rfl⟩

theorem RpcBase.Kept.record {R : Reflection} (rpc : RpcBase R) (peer : EndPoint)
    (value : Val R rpc.sig.ret) : rpc.Kept (rpc.record peer value) :=
  ⟨rfl,rfl,markAnswered_length peer rpc.endpoints⟩

theorem RpcBase.Kept.timeoutCb {R : Reflection} (rpc : RpcBase R) : rpc.Kept rpc.timeoutCb :=
  ⟨rfl,rfl,rfl⟩

/-- An update that is related to what it replaces leaves every entry so. -/
theorem rel_update {α : Type} {r : α → α → Prop} (hrefl : ∀ a, r a a) (f : Nat → α)
    (c : Nat) (x : α) (h : r (f c) x) (c' : Nat) : r (f c') (Function.update f c x c') := by
  by_cases hc : c' = c
  · subst hc
    rw [Function.update_self]
    exact h
  · rw [Function.update_of_ne hc]
    exact hrefl _

theorem World.Kept.setTask {R : Reflection} (s : World R) {c : Nat} {task : CallTask}
    (h : (s.tasks c).Kept task) : s.Kept (s.setTask c task) :=
  ⟨Nat.le_refl _,fun c' _ => rel_update CallTask.Kept.refl s.tasks c task h c',fun _ _ => .refl _⟩

theorem World.Kept.record {R : Reflection} (s : World R) (c : Nat) (m : Response)
    (value : Val R (s.net.calls c).sig.ret) : s.Kept (s.record c m value) :=
  ⟨Nat.le_refl _,fun _ _ => .refl _,fun c' _ =>
    rel_update RpcBase.Kept.refl s.net.calls c _ (.record _ m.peer value) c'⟩

theorem World.Kept.timeOut {R : Reflection} (s : World R) (victim c : Nat) :
    s.Kept (s.timeOut victim c) :=
  ⟨Nat.le_refl _,fun c' _ => rel_update CallTask.Kept.refl s.tasks c
      { s.tasks c with timer := .ended } ⟨rfl,rfl,fun _ _ h => h⟩ c',
    fun c' _ => rel_update RpcBase.Kept.refl s.net.calls victim _ (.timeoutCb _) c'⟩

theorem finished_append {sends : List Sending} {i : Nat} {written : Bool} (x : Sending)
    (h : sends[i]? = some (.finished written)) :
    (sends ++ [x])[i]? = some (.finished written) := by
  obtain ⟨hi,_⟩ := List.getElem?_eq_some_iff.mp h
  rw [List.getElem?_append_left hi]
  exact h

theorem finished_set {sends : List Sending} {i j : Nat} {written : Bool} (x : Sending)
    (hj : sends[j]? = some .pending) (h : sends[i]? = some (.finished written)) :
    (sends.set j x)[i]? = some (.finished written) := by
  have hne : j ≠ i := by
    intro heq
    rw [heq,h] at hj
    cases hj
  rw [List.getElem?_set_ne hne]
  exact h

theorem Stepped.kept {R : Reflection} {D : Defaults R} {p : Platform} {s t : World R}
    {e : Event R} (h : Stepped D p s e t) : s.Kept t := by
  cases h with
  | tick ns => exact ⟨Nat.le_refl _,fun _ _ => .refl _,fun _ _ => .refl _⟩
  | call coroId rpc =>
    refine ⟨Nat.le_succ _,fun c hc => ?_,fun c hc => ?_⟩
    · simp only [World.register]
      rw [Function.update_of_ne (Nat.ne_of_lt hc)]
      exact .refl _
    · simp only [World.register,NetService.insert_calls,NetService.setCall_calls]
      rw [Function.update_of_ne (Nat.ne_of_lt hc)]
      exact .refl _
  | enter c => exact .setTask s ⟨rfl,rfl,fun _ _ h => h⟩
  | spawn c k => exact .setTask s ⟨rfl,rfl,fun _ _ h => finished_append _ h⟩
  | arm c => exact .setTask s ⟨rfl,rfl,fun _ _ h => h⟩
  | send c i => exact ⟨Nat.le_refl _,fun _ _ => .refl _,fun _ _ => .refl _⟩
  | sent c i written _ hi => exact .setTask s ⟨rfl,rfl,fun _ _ h => finished_set _ hi h⟩
  | answer c i remote port payload =>
    exact ⟨Nat.le_refl _,fun _ _ => .refl _,fun _ _ => .refl _⟩
  | drop k m => exact ⟨Nat.le_refl _,fun _ _ => .refl _,fun _ _ => .refl _⟩
  | record k m info value =>
    have hr := World.Kept.record (s.take k) _ m value
    exact ⟨hr.count,hr.tasks,hr.calls⟩
  | finish k m info value frame =>
    have hr := World.Kept.record (s.take k) _ m value
    exact ⟨hr.count,hr.tasks,hr.calls⟩
  | lapse c deadline => exact .setTask s ⟨rfl,rfl,fun _ _ h => h⟩
  | timeOut c deadline info =>
    have ht := World.Kept.timeOut s info.coroRpcCallback c
    exact ⟨ht.count,ht.tasks,ht.calls⟩
  | resume coroId c => exact ⟨Nat.le_refl _,
      fun c' _ => rel_update CallTask.Kept.refl s.tasks c
      { s.tasks c with resumed := true } ⟨rfl,rfl,fun _ _ h => h⟩ c',fun _ _ => .refl _⟩

/-- A chain waits in one call, its last; the table holds it until its frame is ready. -/
structure World.Sound {R : Reflection} (s : World R) : Prop where
  pending : ∀ id c, s.chains id = some c → c < s.count ∧ (s.tasks c).coroId = id ∧
    (s.net.calls c).coroutine = some id.toNat
  latest : ∀ id c, s.chains id = some c → ∀ c' < s.count, (s.tasks c').coroId = id → c' ≤ c
  waiting : ∀ id info, s.net.waitingCoros id = some info →
    s.chains id = some info.coroRpcCallback ∧ info.coroutine = id.toNat
  suspended : ∀ id c, s.chains id = some c →
    (s.net.waitingCoros id = none ↔ id.toNat ∈ s.ready)
  ready : ∀ frame ∈ s.ready, ∃ id : Word .w64, frame = id.toNat ∧ s.chains id ≠ none
  nodup : s.ready.Nodup

theorem World.Sound.of_kept {R : Reflection} {s t : World R} (h : s.Sound) (hk : s.Kept t)
    (hcount : t.count = s.count) (hchains : t.chains = s.chains)
    (hwaiting : t.net.waitingCoros = s.net.waitingCoros) (hready : t.ready = s.ready) :
    t.Sound := by
  refine ⟨?_,?_,?_,?_,?_,?_⟩
  · intro id c hc
    rw [hchains] at hc
    obtain ⟨hlt,hid,hco⟩ := h.pending id c hc
    rw [hcount,(hk.tasks c hlt).coroId,(hk.calls c hlt).coroutine]
    exact ⟨hlt,hid,hco⟩
  · intro id c hc c' hlt hid
    rw [hchains] at hc
    rw [hcount] at hlt
    rw [(hk.tasks c' hlt).coroId] at hid
    exact h.latest id c hc c' hlt hid
  · rw [hchains,hwaiting]
    exact h.waiting
  · rw [hchains,hwaiting,hready]
    exact h.suspended
  · rw [hchains,hready]
    exact h.ready
  · rw [hready]
    exact h.nodup

theorem World.Sound.complete {R : Reflection} {s : World R} (h : s.Sound) {coroId : Word .w64}
    {info : MaintainInfo} (hw : s.net.waitingCoros coroId = some info) :
    (s.complete coroId coroId.toNat).Sound := by
  have hc := (h.waiting coroId info hw).1
  have hnot : coroId.toNat ∉ s.ready := by
    intro hin
    rw [(h.suspended coroId _ hc).mpr hin] at hw
    cases hw
  refine ⟨h.pending,h.latest,?_,?_,?_,?_⟩
  · intro id info' hw'
    by_cases hid : id = coroId
    · subst hid
      simp [World.complete,NetService.erase] at hw'
    · simp only [World.complete,NetService.erase,Function.update_of_ne hid] at hw'
      exact h.waiting id info' hw'
  · intro id c hid
    by_cases heq : id = coroId
    · subst heq
      simp [World.complete,NetService.erase]
    · have hne : id.toNat ≠ coroId.toNat := fun hn => heq (BitVec.eq_of_toNat_eq hn)
      simp only [World.complete,NetService.erase,Function.update_of_ne heq,List.mem_append,
        List.mem_singleton,hne,or_false]
      exact h.suspended id c hid
  · intro frame hin
    rcases List.mem_append.mp hin with hin | hin
    · exact h.ready frame hin
    · exact ⟨coroId,List.mem_singleton.mp hin,by simp [World.complete,hc]⟩
  · rw [World.complete,List.nodup_append]
    exact ⟨h.nodup,by simp,fun a ha b hb hab => hnot (by
      rw [← List.mem_singleton.mp hb,← hab]
      exact ha)⟩

theorem World.register_waitingCoros {R : Reflection} {s : World R} {coroId : Word .w64}
    (rpc : Awaited R) (h : s.net.waitingCoros coroId = none) :
    (s.register coroId rpc).net.waitingCoros =
      Function.update s.net.waitingCoros coroId (some ⟨rpc.frame,s.count⟩) := by
  simp [register,NetService.insert,h]

theorem World.Sound.register {R : Reflection} {s : World R} (h : s.Sound) {coroId : Word .w64}
    {rpc : Awaited R} (hk : s.Kept (s.register coroId rpc)) (hfree : s.chains coroId = none)
    (hframe : rpc.frame = coroId.toNat) : (s.register coroId rpc).Sound := by
  have hw : s.net.waitingCoros coroId = none := by
    cases hw : s.net.waitingCoros coroId with
    | none => rfl
    | some info =>
      rw [(h.waiting coroId info hw).1] at hfree
      cases hfree
  have hnot : coroId.toNat ∉ s.ready := by
    intro hin
    obtain ⟨id,hid,hc⟩ := h.ready _ hin
    rw [← BitVec.eq_of_toNat_eq hid] at hc
    exact hc hfree
  have hwaiting := World.register_waitingCoros rpc hw
  refine ⟨?_,?_,?_,?_,?_,h.nodup⟩
  · intro id c hc
    by_cases hid : id = coroId
    · subst hid
      have heq : c = s.count := by simpa [World.register] using hc.symm
      subst heq
      refine ⟨Nat.lt_succ_self _,by simp [World.register],?_⟩
      simp only [World.register,NetService.insert_calls,NetService.setCall_calls]
      rw [Function.update_self,rpc.suspended,hframe]
    · simp only [World.register,Function.update_of_ne hid] at hc
      obtain ⟨hlt,hcid,hco⟩ := h.pending id c hc
      rw [(hk.tasks c hlt).coroId,(hk.calls c hlt).coroutine]
      exact ⟨Nat.lt_succ_of_lt hlt,hcid,hco⟩
  · intro id c hc c' hlt hcid
    have hlt' : c' < s.count + 1 := hlt
    by_cases hid : id = coroId
    · subst hid
      have heq : c = s.count := by simpa [World.register] using hc.symm
      omega
    · simp only [World.register,Function.update_of_ne hid] at hc
      by_cases hnew : c' = s.count
      · subst hnew
        simp only [World.register,Function.update_self] at hcid
        exact absurd hcid.symm hid
      · have hold : c' < s.count := by omega
        rw [(hk.tasks c' hold).coroId] at hcid
        exact h.latest id c hc c' hold hcid
  · intro id info hi
    rw [hwaiting] at hi
    by_cases hid : id = coroId
    · subst hid
      rw [Function.update_self] at hi
      cases hi
      exact ⟨by simp [World.register],hframe⟩
    · rw [Function.update_of_ne hid] at hi
      simp only [World.register,Function.update_of_ne hid]
      exact h.waiting id info hi
  · intro id c hc
    rw [hwaiting]
    by_cases hid : id = coroId
    · subst hid
      rw [Function.update_self]
      exact ⟨fun hn => (by cases hn),fun hin => absurd hin hnot⟩
    · simp only [World.register,Function.update_of_ne hid] at hc
      rw [Function.update_of_ne hid]
      exact h.suspended id c hc
  · intro frame hin
    obtain ⟨id,hid,hc⟩ := h.ready frame hin
    refine ⟨id,hid,?_⟩
    by_cases heq : id = coroId
    · subst heq
      exact absurd hfree hc
    · simp only [World.register,Function.update_of_ne heq]
      exact hc

theorem World.Sound.resume {R : Reflection} {s : World R} (h : s.Sound) {coroId : Word .w64}
    {c : Nat} (hk : s.Kept (s.resume coroId c)) (hc : s.chains coroId = some c)
    (hr : coroId.toNat ∈ s.ready) : (s.resume coroId c).Sound := by
  have hne : ∀ id c', (s.resume coroId c).chains id = some c' →
      id ≠ coroId ∧ s.chains id = some c' := by
    intro id c' hid
    by_cases heq : id = coroId
    · subst heq
      simp [World.resume] at hid
    · simp only [World.resume,Function.update_of_ne heq] at hid
      exact ⟨heq,hid⟩
  refine ⟨?_,?_,?_,?_,?_,h.nodup.erase _⟩
  · intro id c' hid
    obtain ⟨_,hc'⟩ := hne id c' hid
    obtain ⟨hlt,hcid,hco⟩ := h.pending id c' hc'
    rw [(hk.tasks c' hlt).coroId,(hk.calls c' hlt).coroutine]
    exact ⟨hlt,hcid,hco⟩
  · intro id c' hid c'' hlt hcid
    rw [(hk.tasks c'' hlt).coroId] at hcid
    exact h.latest id c' (hne id c' hid).2 c'' hlt hcid
  · intro id info hi
    obtain ⟨hw,hframe⟩ := h.waiting id info hi
    by_cases heq : id = coroId
    · subst heq
      have hnone := (h.suspended id c hc).mpr hr
      have hsome : s.net.waitingCoros id = some info := hi
      rw [hnone] at hsome
      cases hsome
    · simp only [World.resume,Function.update_of_ne heq]
      exact ⟨hw,hframe⟩
  · intro id c' hid
    obtain ⟨heq,hc'⟩ := hne id c' hid
    have hn : id.toNat ≠ coroId.toNat := fun hn => heq (BitVec.eq_of_toNat_eq hn)
    simp only [World.resume,List.mem_erase_of_ne hn]
    exact h.suspended id c' hc'
  · intro frame hin
    obtain ⟨hn,hin⟩ := h.nodup.mem_erase_iff.mp hin
    obtain ⟨id,hid,hcid⟩ := h.ready frame hin
    refine ⟨id,hid,?_⟩
    have heq : id ≠ coroId := by
      intro heq
      rw [heq] at hid
      exact hn hid
    simp only [World.resume,Function.update_of_ne heq]
    exact hcid

theorem Stepped.sound {R : Reflection} {D : Defaults R} {p : Platform} {s t : World R}
    {e : Event R} (h : Stepped D p s e t) (hs : s.Sound) : t.Sound := by
  have hk := h.kept
  cases h with
  | call coroId rpc hfree hframe => exact hs.register hk hfree hframe
  | finish k m info value frame hm hw hd hc =>
    have hr := (Stepped.record k m info value hm hw hd).kept
    have hsr := hs.of_kept hr rfl rfl rfl rfl
    obtain ⟨hlt,_,hco⟩ := hs.pending _ _ (hs.waiting _ _ hw).1
    rw [hc] at hco
    cases hco
    exact hsr.complete hw
  | timeOut c deadline info hc ha hd hw =>
    have hst := hs.of_kept (World.Kept.timeOut s info.coroRpcCallback c) rfl rfl rfl rfl
    rw [(hs.waiting _ _ hw).2]
    exact hst.complete hw
  | resume coroId c hc hr => exact hs.resume hk hc hr
  | _ => exact hs.of_kept hk rfl rfl rfl rfl

def World.waits {R : Reflection} (s : World R) (coroId : Word .w64) : Option Nat :=
  if s.ready.contains coroId.toNat then none else s.chains coroId

theorem World.Sound.waits_eq {R : Reflection} {s : World R} (h : s.Sound) {coroId : Word .w64}
    {info : MaintainInfo} (hw : s.net.waitingCoros coroId = some info) :
    s.waits coroId = some info.coroRpcCallback := by
  have hc := (h.waiting coroId info hw).1
  have hnot : coroId.toNat ∉ s.ready := by
    intro hin
    rw [(h.suspended coroId _ hc).mpr hin] at hw
    cases hw
  rw [waits,if_neg (by simpa using hnot)]
  exact hc

/-- A call of the chain that no later one has overtaken is the one that waits. -/
theorem World.Sound.waiting_own {R : Reflection} {s : World R} (h : s.Sound) {coroId : Word .w64}
    {info : MaintainInfo} (hw : s.net.waitingCoros coroId = some info) {c : Nat}
    (hlt : c < s.count) (hid : (s.tasks c).coroId = coroId)
    (hle : ∀ c', s.waits coroId = some c' → c' ≤ c) : info.coroRpcCallback = c := by
  have h1 := hle _ (h.waits_eq hw)
  have h2 := h.latest coroId _ (h.waiting coroId info hw).1 c hlt hid
  omega

structure World.Posted {R : Reflection} (s : World R) : Prop where
  network : ∀ m ∈ s.network, (m.call,m.occurrence) ∈ s.answered ∧
    m.header.rpcId = (s.tasks m.call).coroId
  answered : ∀ a ∈ s.answered, a.1 < s.count ∧
    (s.tasks a.1).sends[a.2]? = some (.finished true)

theorem World.Posted.of_kept {R : Reflection} {s t : World R} (h : s.Posted) (hk : s.Kept t)
    (hnetwork : ∀ m ∈ t.network, m ∈ s.network) (hanswered : t.answered = s.answered) :
    t.Posted := by
  refine ⟨?_,?_⟩
  · intro m hm
    obtain ⟨ha,hid⟩ := h.network m (hnetwork m hm)
    rw [hanswered,(hk.tasks _ (h.answered _ ha).1).coroId]
    exact ⟨ha,hid⟩
  · intro a ha
    rw [hanswered] at ha
    obtain ⟨hlt,hw⟩ := h.answered a ha
    exact ⟨Nat.lt_of_lt_of_le hlt hk.count,(hk.tasks _ hlt).finished _ _ hw⟩

theorem Stepped.posted {R : Reflection} {D : Defaults R} {p : Platform} {s t : World R}
    {e : Event R} (h : Stepped D p s e t) (hs : s.Posted) : t.Posted := by
  have hk := h.kept
  cases h with
  | answer c i remote port payload hc hw =>
    refine ⟨?_,?_⟩
    · intro m hm
      rcases List.mem_append.mp hm with hm | hm
      · obtain ⟨ha,hid⟩ := hs.network m hm
        exact ⟨List.mem_append_left _ ha,hid⟩
      · rw [List.mem_singleton.mp hm]
        exact ⟨by simp [World.answer],rfl⟩
    · intro a ha
      rcases List.mem_append.mp ha with ha | ha
      · exact hs.answered a ha
      · rw [List.mem_singleton.mp ha]
        exact ⟨hc,hw⟩
  | drop k m => exact hs.of_kept hk (fun m => List.mem_of_mem_eraseIdx) rfl
  | record k m info value => exact hs.of_kept hk (fun m => List.mem_of_mem_eraseIdx) rfl
  | finish k m info value frame => exact hs.of_kept hk (fun m => List.mem_of_mem_eraseIdx) rfl
  | _ => exact hs.of_kept hk (fun m hm => hm) rfl

theorem World.start_sound {R : Reflection} (net : NetService R) (now : Int) :
    (World.start net now).Sound := by
  refine ⟨?_,?_,?_,?_,?_,List.nodup_nil⟩ <;> simp [World.start]

theorem World.start_posted {R : Reflection} (net : NetService R) (now : Int) :
    (World.start net now).Posted := by
  refine ⟨?_,?_⟩ <;> simp [World.start]

end NewRpc.Net
