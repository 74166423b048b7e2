import NewRpc.CallAccounting
import NewRpc.NetService
import NewRpc.OnePlace

/-!
The framework with the network service for its `net_module_`: the sections that hold the lock
of `waiting_coros_` do to it what the steps of the framework say, and so does every run.
-/

set_option autoImplicit false

namespace NewRpc.FrameWork
open Codec Net Time

def idOf (v : Nat) : Word .w64 := BitVec.ofNat _ v

/-- `net_module_` has the table that is in use, and that of `framework` is not read. The
awaiters are numbered as the calls are made. -/
structure NetFrameWork (R : Reflection) (V : Type) where
  framework : CoroFrameWork V
  netModule : NetService R
  count : Nat

def waitingFrames {R : Reflection} (net : NetService R) (v : Nat) : Option Nat :=
  if v < 2 ^ 64 then (net.waitingCoros (idOf v)).map MaintainInfo.coroutine else none

def NetFrameWork.view {R : Reflection} {V : Type} (s : NetFrameWork R V) : CoroFrameWork V :=
  { s.framework with waitingCoros := waitingFrames s.netModule }

inductive NetFrameEvent (R : Reflection) (V : Type) where
  | own (e : Event V)
  | call (w : Nat) (rpc : Awaited R)
  | receive (header : PackageHeader) (peer : EndPoint) (payload : List UInt8)
  | timeout (coroId : Word .w64)

def CoroFrameWork.usesTable {V : Type} (s : CoroFrameWork V) : Event V → Bool
  | .receive _ _ => true
  | .timeout _ => true
  | .worker w _ => match s.workers w with
      | .busy .coRpc _ => true
      | _ => false
  | _ => false

section
variable {R : Reflection} {V : Type}

def NetFrameWork.call (s : NetFrameWork R V) (w : Nat) (rpc : Awaited R) :
    Option (NetFrameWork R V) :=
  match (s.framework.coro.frames rpc.frame).coroLocalVar with
  | none => none
  | some coroId => some
      { framework := s.framework.setWorker w .looping
        netModule := (s.netModule.setCall s.count rpc.toRpcBase).insert (idOf coroId)
          ⟨rpc.frame,s.count⟩
        count := s.count + 1 }

def NetFrameWork.receive (D : Defaults R) (p : Platform) (s : NetFrameWork R V)
    (header : PackageHeader) (peer : EndPoint) (payload : List UInt8) :
    Option (NetFrameWork R V) :=
  match s.netModule.respond D p header peer payload with
  | .error e => if e.isException then some s else none
  | .ok (net,needAwak) => some { s with
      framework := { s.framework with needAwak := needAwak }
      netModule := net }

def NetFrameWork.timeout (ndebug : Bool) (s : NetFrameWork R V) (coroId : Word .w64) :
    Option (NetFrameWork R V) :=
  match s.netModule.timeout ndebug coroId with
  | .error _ => none
  | .ok (net,needAwak) => some { s with
      framework := { s.framework with needAwak := needAwak }
      netModule := net }

def NetFrameWork.step (D : Defaults R) (p : Platform) (ndebug : Bool) (s : NetFrameWork R V) :
    NetFrameEvent R V → Option (NetFrameWork R V)
  | .own e =>
      if s.view.usesTable e then none
      else (s.view.step e).map (fun t => { s with framework := t })
  | .call w rpc =>
      if s.framework.workers w = .busy .coRpc rpc.frame then s.call w rpc else none
  | .receive header peer payload =>
      if s.framework.needAwak.isNone then s.receive D p header peer payload else none
  | .timeout coroId =>
      if s.framework.needAwak.isNone then s.timeout ndebug coroId else none

def NetFrameWork.idsLast (s : NetFrameWork R V) : NetFrameEvent R V → Bool
  | .call _ rpc => (s.framework.coro.frames rpc.frame).coroLocalVar.all (fun v => v < 2 ^ 64)
  | _ => true

def NetFrameWork.start (listenPort : Word .w16) (calls : Nat → RpcBase R) (workerThreadNum : Nat)
    (precision : Ts) (precise : precision ≠ 0) (now : Ts) : NetFrameWork R V :=
  ⟨.start workerThreadNum precision precise now,⟨listenPort,fun _ => none,calls⟩,0⟩

end

/-- The entries of the service are the frames that wait for a call. The awaiter of an entry is
one of the first `n`, and would awaken the frame of the entry. -/
structure Table {R : Reflection} {V : Type} (net : NetService R) (n : Nat)
    (s : CoroFrameWork V) : Prop where
  frames : waitingFrames net = s.waitingCoros
  calls : ∀ id info, net.waitingCoros id = some info →
    (net.calls info.coroRpcCallback).coroutine = some info.coroutine
  made : ∀ id info, net.waitingCoros id = some info → info.coroRpcCallback < n

section
variable {R : Reflection} {V : Type} {net : NetService R} {n : Nat} {s t : CoroFrameWork V}

theorem idOf_ne {u v : Nat} (hu : u < 2 ^ 64) (hv : v < 2 ^ 64) (h : u ≠ v) :
    idOf u ≠ idOf v := by
  intro heq
  have hnat : u % 2 ^ 64 = v % 2 ^ 64 := congrArg BitVec.toNat heq
  rw [Nat.mod_eq_of_lt hu,Nat.mod_eq_of_lt hv] at hnat
  exact h hnat

theorem waitingFrames_update {v : Nat} (hv : v < 2 ^ 64) (net : NetService R)
    (info : Option MaintainInfo) :
    waitingFrames { net with waitingCoros := Function.update net.waitingCoros (idOf v) info } =
      Function.update (waitingFrames net) v (info.map MaintainInfo.coroutine) := by
  funext u
  by_cases huv : u = v
  · subst huv
    simp only [waitingFrames,if_pos hv,Function.update_self]
  · rw [Function.update_of_ne huv,waitingFrames,waitingFrames]
    by_cases hu : u < 2 ^ 64
    · simp only [if_pos hu,Function.update_of_ne (idOf_ne hu hv huv)]
    · rw [if_neg hu,if_neg hu]

theorem Table.entry (h : Table net n s) {v : Nat} (hv : v < 2 ^ 64) :
    (net.waitingCoros (idOf v)).map MaintainInfo.coroutine = s.waitingCoros v := by
  rw [← h.frames,waitingFrames,if_pos hv]

theorem Table.setCall (h : Table net n s) {c : Nat} {rpc : RpcBase R}
    (hsame : rpc.coroutine = (net.calls c).coroutine) : Table (net.setCall c rpc) n s := by
  refine ⟨h.frames,fun id info hi => ?_,h.made⟩
  have hold := h.calls id info hi
  by_cases hc : info.coroRpcCallback = c
  · rw [← hold,hc]
    simp [hsame]
  · rw [← hold]
    simp [hc]

theorem Table.erased (h : Table net n s) {v : Nat} (hv : v < 2 ^ 64) (needAwak : Option Nat) :
    Table (net.erase (idOf v)) n { s with
      waitingCoros := Function.update s.waitingCoros v none
      needAwak := needAwak } := by
  have hold : ∀ id info, (net.erase (idOf v)).waitingCoros id = some info →
      net.waitingCoros id = some info := by
    intro id info hi
    change Function.update net.waitingCoros (idOf v) none id = some info at hi
    by_cases hid : id = idOf v
    · rw [hid,Function.update_self] at hi
      cases hi
    · rwa [Function.update_of_ne hid] at hi
  refine ⟨?_,fun id info hi => h.calls id info (hold id info hi),
    fun id info hi => h.made id info (hold id info hi)⟩
  show _ = Function.update s.waitingCoros v none
  rw [← h.frames]
  exact waitingFrames_update hv net none

/-- The response branch of `receive`. -/
theorem Table.respond (h : Table net n s) (hfree : s.needAwak = none) {D : Defaults R}
    {p : Platform} {header : PackageHeader} {peer : EndPoint} {payload : List UInt8} {v : Nat}
    (hv : v < 2 ^ 64) (hid : header.rpcId = idOf v) {net' : NetService R}
    {needAwak : Option Nat} (hr : net.respond D p header peer payload = .ok (net',needAwak)) :
    ∃ awakens, Table net' n (s.erase v awakens) ∧ (s.erase v awakens).needAwak = needAwak := by
  have hframe := h.entry hv
  rw [← hid] at hframe
  cases hw : net.waitingCoros header.rpcId with
  | none =>
    rw [NetService.respond_none hw] at hr
    cases hr
    rw [hw] at hframe
    refine ⟨false,?_,?_⟩
    · simp only [CoroFrameWork.erase,← hframe]
      exact h
    · simp only [CoroFrameWork.erase,← hframe]
      exact hfree
  | some info =>
    rw [hw] at hframe
    have hcall := h.calls _ info hw
    rw [NetService.respond_some hw] at hr
    cases hd : decodeResult D p (net.calls info.coroRpcCallback).sig.ret payload with
    | error e =>
      rw [hd] at hr
      cases hr
    | ok value =>
      rw [hd] at hr
      have hset : Table (net.setCall info.coroRpcCallback ((net.calls
          info.coroRpcCallback).record (peer.setPort header.serverPort) value)) n s := h.setCall rfl
      cases hf : (net.calls info.coroRpcCallback).finishes with
      | false =>
        simp only [hf] at hr
        cases hr
        refine ⟨false,?_,?_⟩
        · simp only [CoroFrameWork.erase,← hframe]
          exact hset
        · simp only [CoroFrameWork.erase,← hframe]
          exact hfree
      | true =>
        simp only [hf,hcall] at hr
        cases hr
        refine ⟨true,?_,?_⟩
        · simp only [CoroFrameWork.erase,← hframe,hid]
          exact hset.erased hv (some info.coroutine)
        · simp only [CoroFrameWork.erase,← hframe]
          rfl

theorem Table.timeout (h : Table net n s) (hfree : s.needAwak = none) {ndebug : Bool} {v : Nat}
    (hv : v < 2 ^ 64) {net' : NetService R} {needAwak : Option Nat}
    (ht : net.timeout ndebug (idOf v) = .ok (net',needAwak)) :
    Table net' n (s.erase v true) ∧ (s.erase v true).needAwak = needAwak := by
  have hframe := h.entry hv
  cases hw : net.waitingCoros (idOf v) with
  | none =>
    rw [hw] at hframe
    simp only [NetService.timeout,hw] at ht
    cases ht
    simp only [CoroFrameWork.erase,← hframe]
    exact ⟨h,hfree⟩
  | some info =>
    rw [hw] at hframe
    have hset : Table (net.setCall info.coroRpcCallback
        (net.calls info.coroRpcCallback).timeoutCb) n s := h.setCall rfl
    by_cases hok : ndebug = true ∨ (net.calls info.coroRpcCallback).timeoutAssertion = true
    · simp only [NetService.timeout,hw,check_pos hok,Exec.ok_bind] at ht
      cases ht
      simp only [CoroFrameWork.erase,← hframe]
      exact ⟨hset.erased hv (some info.coroutine),rfl⟩
    · simp only [NetService.timeout,hw,check_neg hok,Exec.error_bind] at ht
      cases ht

theorem Table.insert (h : Table net n s) {v f : Nat} {rpc : RpcBase R} (hv : v < 2 ^ 64)
    (hnone : s.waitingCoros v = none) (hrpc : rpc.coroutine = some f)
    (ht : t.waitingCoros = Function.update s.waitingCoros v (some f)) :
    Table ((net.setCall n rpc).insert (idOf v) ⟨f,n⟩) (n + 1) t := by
  have hfree : net.waitingCoros (idOf v) = none := by
    have hframe := h.entry hv
    rw [hnone] at hframe
    exact Option.map_eq_none_iff.mp hframe
  have heq : (net.setCall n rpc).insert (idOf v) ⟨f,n⟩ = { net.setCall n rpc with
      waitingCoros := Function.update net.waitingCoros (idOf v) (some ⟨f,n⟩) } := by
    simp [NetService.insert,hfree]
  have hentry : ∀ id info, Function.update net.waitingCoros (idOf v) (some ⟨f,n⟩) id = some info →
      info = ⟨f,n⟩ ∨ net.waitingCoros id = some info := by
    intro id info hi
    by_cases hid : id = idOf v
    · rw [hid,Function.update_self] at hi
      exact .inl (Option.some.inj hi).symm
    · rw [Function.update_of_ne hid] at hi
      exact .inr hi
  rw [heq]
  refine ⟨?_,fun id info hi => ?_,fun id info hi => ?_⟩
  · rw [ht,← h.frames]
    exact waitingFrames_update hv (net.setCall n rpc) (some ⟨f,n⟩)
  · rcases hentry id info hi with rfl | hold
    · simp [hrpc]
    · have hne : info.coroRpcCallback ≠ n := Nat.ne_of_lt (h.made id info hold)
      rw [← h.calls id info hold]
      simp [hne]
  · rcases hentry id info hi with rfl | hold
    · exact Nat.lt_succ_self n
    · exact Nat.lt_succ_of_lt (h.made id info hold)

theorem act_table {e : Task.Event V} (h : s.act e = some t) :
    t.waitingCoros = s.waitingCoros := by
  obtain ⟨coro,_,rfl⟩ := Option.map_eq_some_iff.mp h
  rfl

theorem append_table {f : Nat} (h : s.append f = some t) : t.waitingCoros = s.waitingCoros := by
  obtain ⟨_,heq⟩ := Option.ite_none_left_eq_some.mp h
  cases heq
  rfl

theorem awaken_table {f : Nat} (h : s.awaken f = some t) : t.waitingCoros = s.waitingCoros := by
  obtain ⟨u,hu,ht⟩ := Option.bind_eq_some_iff.mp h
  exact (append_table ht).trans (act_table hu)

theorem time_table {e : TimeEvent} (h : s.time e = some t) :
    t.waitingCoros = s.waitingCoros := by
  simp only [CoroFrameWork.time] at h
  split at h
  · cases h
  · split at h
    · cases h
      rfl
    · rw [awaken_table h]

theorem acted_table {e : Task.Event V} {g : CoroFrameWork V → CoroFrameWork V}
    (h : (s.act e).map g = some t) (hg : ∀ u, (g u).waitingCoros = u.waitingCoros) :
    t.waitingCoros = s.waitingCoros := by
  obtain ⟨u,hu,rfl⟩ := Option.map_eq_some_iff.mp h
  rw [hg,act_table hu]

theorem goOn_table {w : Nat} {choice : Choice V} (hw : ∀ f, s.workers w ≠ .busy .coRpc f)
    (h : s.goOn w choice = some t) : t.waitingCoros = s.waitingCoros := by
  unfold CoroFrameWork.goOn at h
  split at h
  · cases h
  · unfold CoroFrameWork.fetch at h
    split at h
    · cases h
      rfl
    · obtain ⟨_,heq⟩ := Option.ite_none_left_eq_some.mp h
      cases heq
      rfl
  · simp only [CoroFrameWork.resume] at h
    split at h
    · cases h
    · cases h
      rfl
  · split at h
    · unfold CoroFrameWork.await at h
      split at h
      · cases h
      · exact acted_table h (fun _ => rfl)
    · exact acted_table h (fun _ => rfl)
    · exact acted_table h (fun _ => rfl)
  · exact acted_table h (fun _ => rfl)
  · exact acted_table h (fun _ => rfl)
  · rw [awaken_table h]
    rfl
  · unfold CoroFrameWork.sleep at h
    split at h
    · cases h
      rfl
    · cases h
  · unfold CoroFrameWork.register at h
    split at h
    · cases h
    · split at h
      · cases h
        rfl
      · obtain ⟨_,heq⟩ := Option.ite_none_left_eq_some.mp h
        cases heq
        rfl
  · rw [time_table h]
    rfl
  · rename_i f hf
    exact absurd hf (hw f)

theorem step_table {e : Event V} (huse : s.usesTable e = false) (h : s.step e = some t) :
    t.waitingCoros = s.waitingCoros := by
  obtain ⟨_,h⟩ := Option.ite_none_right_eq_some.mp h
  cases e with
  | handle e => exact act_table h
  | commit c =>
    simp only [CoroFrameWork.exec,CoroFrameWork.commit] at h
    split at h
    · cases h
    · exact acted_table h (fun _ => rfl)
  | enqueue f => rw [append_table h]
  | worker w choice =>
    refine goOn_table (fun f hf => ?_) h
    simp [CoroFrameWork.usesTable,hf] at huse
  | tick now | timer => exact time_table h
  | receive coroId awakens | timeout coroId => cases huse
  | deliver =>
    simp only [CoroFrameWork.exec,CoroFrameWork.deliver] at h
    split at h
    · cases h
    · rw [awaken_table h]

end

section
variable {R : Reflection} {V : Type} {D : Defaults R} {p : Platform} {ndebug : Bool}
  {s t : NetFrameWork R V}

structure NetFrameWork.Sound (s : NetFrameWork R V) : Prop where
  kept : s.view.Kept
  table : Table s.netModule s.count s.view

theorem idOf_toNat (id : Word .w64) : idOf id.toNat = id := by
  simp [idOf]

theorem erase_parts (s : CoroFrameWork V) (v : Nat) (awakens : Bool) :
    s.erase v awakens = { s with
      waitingCoros := (s.erase v awakens).waitingCoros
      needAwak := (s.erase v awakens).needAwak } := by
  unfold CoroFrameWork.erase
  split
  · rfl
  · split <;> rfl

theorem NetFrameWork.erased {net' : NetService R} {needAwak : Option Nat} {v : Nat}
    {awakens : Bool} (htable : Table net' s.count (s.view.erase v awakens))
    (hneed : (s.view.erase v awakens).needAwak = needAwak) :
    NetFrameWork.view { s with
      framework := { s.framework with needAwak := needAwak }
      netModule := net' } = s.view.erase v awakens := by
  rw [erase_parts,← htable.frames,hneed]
  rfl

theorem NetFrameWork.Sound.receive (h : s.Sound) {header : PackageHeader} {peer : EndPoint}
    {payload : List UInt8} (hfree : s.framework.needAwak = none)
    (he : s.receive D p header peer payload = some t) :
    t.view = s.view ∧ t.Sound ∨ ∃ awakens, t.view = s.view.erase header.rpcId.toNat awakens ∧
      Table t.netModule t.count t.view := by
  unfold NetFrameWork.receive at he
  split at he
  · obtain ⟨_,heq⟩ := Option.ite_none_right_eq_some.mp he
    cases heq
    exact .inl ⟨rfl,h⟩
  · rename_i net needAwak hr
    cases he
    obtain ⟨awakens,htable,hneed⟩ := h.table.respond hfree header.rpcId.isLt
      (idOf_toNat header.rpcId).symm hr
    have hview := NetFrameWork.erased htable hneed
    refine .inr ⟨awakens,hview,?_⟩
    rw [hview]
    exact htable

theorem NetFrameWork.Sound.timeout (h : s.Sound) {coroId : Word .w64}
    (hfree : s.framework.needAwak = none) (he : s.timeout ndebug coroId = some t) :
    t.view = s.view.erase coroId.toNat true ∧ Table t.netModule t.count t.view := by
  unfold NetFrameWork.timeout at he
  split at he
  · cases he
  · rename_i net needAwak ht
    cases he
    rw [← idOf_toNat coroId] at ht
    obtain ⟨htable,hneed⟩ := h.table.timeout hfree coroId.isLt ht
    have hview := NetFrameWork.erased htable hneed
    refine ⟨hview,?_⟩
    rw [hview]
    exact htable

theorem NetFrameWork.Sound.call (h : s.Sound) {w : Nat} {rpc : Awaited R}
    (hw : s.framework.workers w = .busy .coRpc rpc.frame)
    (hok : s.idsLast (.call w rpc) = true) (he : s.call w rpc = some t) :
    s.view.call w rpc.frame = some t.view ∧ Table t.netModule t.count t.view := by
  unfold NetFrameWork.call at he
  cases hv : (s.framework.coro.frames rpc.frame).coroLocalVar with
  | none => simp [hv] at he
  | some coroId =>
    simp only [hv,Option.some.injEq] at he
    subst he
    have hlt : coroId < 2 ^ 64 := by simpa [idsLast,hv] using hok
    have hnone := h.kept.unregistered (w := w) hw hv
    have htable : Table ((s.netModule.setCall s.count rpc.toRpcBase).insert (idOf coroId)
        ⟨rpc.frame,s.count⟩) (s.count + 1) { s.view with
          waitingCoros := Function.update s.view.waitingCoros coroId (some rpc.frame)
          workers := Function.update s.view.workers w .looping } :=
      h.table.insert hlt hnone rpc.suspended rfl
    have hview : s.view.call w rpc.frame = some (NetFrameWork.view (V := V)
        { framework := s.framework.setWorker w .looping
          netModule := (s.netModule.setCall s.count rpc.toRpcBase).insert (idOf coroId)
            ⟨rpc.frame,s.count⟩
          count := s.count + 1 }) := by
      have hcoro : (s.view.coro.frames rpc.frame).coroLocalVar = some coroId := hv
      have hcall : s.view.call w rpc.frame = some ({ s.view with
          waitingCoros := Function.update s.view.waitingCoros coroId (some rpc.frame)
          }.setWorker w .looping) := by
        unfold CoroFrameWork.call
        rw [hcoro]
        simp only [hnone,Option.isSome_none,Bool.false_eq_true,if_false]
      rw [hcall]
      simp only [NetFrameWork.view,htable.frames]
      rfl
    refine ⟨hview,?_⟩
    rw [NetFrameWork.view,htable.frames]
    exact ⟨htable.frames,htable.calls,htable.made⟩

/-- A step with the table of the service is a step of the framework with its own, or none. -/
theorem NetFrameWork.Sound.step (h : s.Sound) {e : NetFrameEvent R V} (hok : s.idsLast e = true)
    (he : s.step D p ndebug e = some t) :
    (t.view = s.view ∨ ∃ d, s.view.step d = some t.view) ∧ Table t.netModule t.count t.view := by
  cases e with
  | own e =>
    obtain ⟨huse,hmap⟩ := Option.ite_none_left_eq_some.mp he
    obtain ⟨u,hu,rfl⟩ := Option.map_eq_some_iff.mp hmap
    have hsame := step_table (Bool.eq_false_iff.mpr huse) hu
    have hview : NetFrameWork.view { s with framework := u } = u := by
      show { u with waitingCoros := s.view.waitingCoros } = u
      rw [← hsame]
    rw [hview]
    refine ⟨.inr ⟨e,hu⟩,?_,h.table.calls,h.table.made⟩
    exact hsame.symm
  | call w rpc =>
    obtain ⟨hw,hcall⟩ := Option.ite_none_right_eq_some.mp he
    obtain ⟨hview,htable⟩ := h.call hw hok hcall
    refine ⟨.inr ⟨.worker w (.finish none),?_⟩,htable⟩
    have hworker : s.view.workers w = .busy .coRpc rpc.frame := hw
    simp [CoroFrameWork.step,CoroFrameWork.enabled,CoroFrameWork.exec,CoroFrameWork.goOn,hworker,
      hview]
  | receive header peer payload =>
    obtain ⟨hfree,hreceive⟩ := Option.ite_none_right_eq_some.mp he
    have hnone := Option.isNone_iff_eq_none.mp hfree
    rcases h.receive hnone hreceive with ⟨hview,hsound⟩ | ⟨awakens,hview,htable⟩
    · exact ⟨.inl hview,hsound.table⟩
    · refine ⟨.inr ⟨.receive header.rpcId.toNat awakens,?_⟩,htable⟩
      have hneed : s.view.needAwak = none := hnone
      simp [CoroFrameWork.step,CoroFrameWork.enabled,CoroFrameWork.exec,hneed,hview]
  | timeout coroId =>
    obtain ⟨hfree,htimeout⟩ := Option.ite_none_right_eq_some.mp he
    have hnone := Option.isNone_iff_eq_none.mp hfree
    obtain ⟨hview,htable⟩ := h.timeout hnone htimeout
    refine ⟨.inr ⟨.timeout coroId.toNat,?_⟩,htable⟩
    have hneed : s.view.needAwak = none := hnone
    simp [CoroFrameWork.step,CoroFrameWork.enabled,CoroFrameWork.exec,hneed,hview]

theorem NetFrameWork.Sound.next (h : s.Sound) {e : NetFrameEvent R V} (hok : s.idsLast e = true)
    (he : s.step D p ndebug e = some t) : t.Sound := by
  obtain ⟨hstep,htable⟩ := h.step hok he
  rcases hstep with hsame | ⟨d,hd⟩
  · refine ⟨?_,htable⟩
    rw [hsame]
    exact h.kept
  · exact ⟨h.kept.step hd,htable⟩

theorem NetFrameWork.start_view (listenPort : Word .w16) (calls : Nat → RpcBase R)
    (workerThreadNum : Nat) (precision : Ts) (precise : precision ≠ 0) (now : Ts) :
    (start listenPort calls workerThreadNum precision precise now : NetFrameWork R V).view =
      .start workerThreadNum precision precise now := by
  have hnone : waitingFrames (⟨listenPort,fun _ => none,calls⟩ : NetService R) = fun _ => none := by
    funext v
    simp [waitingFrames]
  rw [view,start,hnone]
  rfl

theorem NetFrameWork.start_sound (listenPort : Word .w16) (calls : Nat → RpcBase R)
    (workerThreadNum : Nat) (precision : Ts) (precise : precision ≠ 0) (now : Ts) :
    (start listenPort calls workerThreadNum precision precise now : NetFrameWork R V).Sound := by
  refine ⟨?_,rfl,nofun,nofun⟩
  rw [start_view]
  exact CoroFrameWork.start_kept workerThreadNum precision precise now

end

end NewRpc.FrameWork
