import NewRpc.Cluster
import NewRpc.Prefixes

/-!
What the messages between the processes stand for: every request for a call that was made,
every coroutine for a request, every response for a coroutine that has returned.
-/

set_option autoImplicit false

namespace NewRpc.Net
open Codec

structure RpcBase.Same {R : Reflection} (a b : RpcBase R) : Prop where
  sig : b.sig = a.sig
  funcId : b.funcId = a.funcId
  endpoints : b.endpoints.map Prod.fst = a.endpoints.map Prod.fst
  sendBuffer : b.sendBuffer = a.sendBuffer

structure World.Static {R : Reflection} (s t : World R) : Prop where
  listenPort : t.net.listenPort = s.net.listenPort
  calls : ∀ c < s.count, (s.net.calls c).Same (t.net.calls c)

section
variable {R : Reflection} {D : Defaults R} {p : Platform}

theorem RpcBase.Same.refl (a : RpcBase R) : a.Same a := ⟨rfl,rfl,rfl,rfl⟩

theorem RpcBase.Same.record (rpc : RpcBase R) (peer : EndPoint) (value : Val R rpc.sig.ret) :
    rpc.Same (rpc.record peer value) :=
  ⟨rfl,rfl,markAnswered_endpoints peer rpc.endpoints,rfl⟩

theorem RpcBase.Same.timeoutCb (rpc : RpcBase R) : rpc.Same rpc.timeoutCb := ⟨rfl,rfl,rfl,rfl⟩

theorem World.Static.record (s : World R) (c : Nat) (m : Response)
    (value : Val R (s.net.calls c).sig.ret) : s.Static (s.record c m value) :=
  ⟨rfl,fun c' _ => rel_update RpcBase.Same.refl s.net.calls c _ (.record _ m.peer value) c'⟩

theorem World.Static.timeOut (s : World R) (victim c : Nat) : s.Static (s.timeOut victim c) :=
  ⟨rfl,fun c' _ => rel_update RpcBase.Same.refl s.net.calls victim _ (.timeoutCb _) c'⟩

theorem Stepped.static {s t : World R} {e : Event R} (h : Stepped D p s e t) : s.Static t := by
  cases h with
  | call coroId rpc =>
    refine ⟨?_,fun c hc => ?_⟩
    · simp only [World.register,NetService.insert]
      split <;> rfl
    · simp only [World.register,NetService.insert_calls,NetService.setCall_calls]
      rw [Function.update_of_ne (Nat.ne_of_lt hc)]
      exact .refl _
  | record k m info value =>
    have hr := World.Static.record (s.take k) _ m value
    exact ⟨hr.listenPort,hr.calls⟩
  | finish k m info value frame =>
    have hr := World.Static.record (s.take k) _ m value
    exact ⟨hr.listenPort,hr.calls⟩
  | timeOut c deadline info =>
    have ht := World.Static.timeOut s info.coroRpcCallback c
    exact ⟨ht.listenPort,ht.calls⟩
  | _ => exact ⟨rfl,fun _ _ => .refl _⟩

end

section
variable {R : Reflection} {N : Type} {dep : Deployment R N}

def Invocation.bytes (inv : Invocation dep) (coroId : Word .w64) (listenPort : Word .w16) :
    List UInt8 :=
  (requestHeader inv.rpc.funcId coroId listenPort (membersSize inv.args)).bytes ++
    encodeMembers inv.args

/-- A call that is launched is the one that was built, with its message in the buffer. -/
theorem Invocation.launched {inv : Invocation dep} {p : Platform} {coroId : Word .w64}
    {port : Word .w16} {rpc : Awaited R}
    (h : inv.rpc.launch p dep.ndebug inv.args coroId port = .ok rpc) :
    rpc.sig = inv.rpc.sig ∧ rpc.funcId = inv.rpc.funcId ∧ rpc.endpoints = inv.rpc.endpoints ∧
      rpc.frame = inv.rpc.frame ∧ rpc.sendBuffer = inv.bytes coroId port ∧
      32 + membersSize inv.args ≤ p.heap := by
  unfold Awaited.launch at h
  split at h
  · cases h
  · rename_i built hb
    split at h
    · cases h
    · rename_i sent hs
      cases h
      obtain ⟨hbytes,hheap,_⟩ := RpcBase.request_bytes hb hs
      exact ⟨rfl,rfl,rfl,rfl,hbytes,hheap⟩

def Invocation.task (inv : Invocation dep) (client : Address) (coroId : Word .w64) :
    RequestTask R where
  sig := inv.rpc.sig
  args := absorbMembers dep.defaults (Members.fresh dep.defaults inv.rpc.sig.args) inv.args
  responseInfo := ⟨peerAt client,coroId,inv.rpc.funcId⟩

/-- A request that is read becomes the coroutine of its call, or nothing. -/
theorem receive_request {p : Platform} {socket : Socket} {remote : Address}
    {fw fw' : CoroFrameWork R} {finish : Finish} {inv : Invocation dep} {coroId : Word .w64}
    {port : Word .w16}
    (hc : Carries socket remote
      (requestHeader inv.rpc.funcId coroId port (membersSize inv.args)) (encodeMembers inv.args))
    (h : receive dep.defaults p dep.ndebug dep.register socket fw = (finish,fw'))
    (hlive : ∀ e, finish ≠ .died e) :
    fw'.net = fw.net ∧ (fw'.coroutineQueue = fw.coroutineQueue ∨
      fw'.coroutineQueue = fw.coroutineQueue ++
        [.root (inv.task (remote.1,port) coroId)]) := by
  have hbytes : socket.payload = encodeMembers inv.args := hc.payload_eq
  have hlen : socket.payloadLen = membersSize inv.args := by
    rw [hc.length,encodeMembers_length]
  by_cases hheap : p.heap < membersSize inv.args
  · -- no room for the payload
    have hbody := receiveBody_eq dep.defaults p dep.ndebug dep.register (peerAt remote) socket fw
    have hlong : ¬ socket.stream.length < 32 := by
      rw [hc.stream]
      simp
    rw [if_neg hlong,hlen,if_pos hheap] at hbody
    simp only [receive,hc.remote,hbody] at h
    cases h
    exact ⟨rfl,.inl rfl⟩
  have hread : Read p dep.ndebug socket :=
    hc.read (by rw [encodeMembers_length]; omega) rfl
  have ht : socket.header.getMessageType = .request := by
    rw [hc.header_eq]
    exact PackageHeader.getMessageType_request _ _ _ _ _
  have hreg : dep.register socket.header.rpcType = some inv.rpc.sig := by
    rw [hc.header_eq]
    exact inv.registered
  rw [receive_read hc.remote hread] at h
  cases hd : decodeArgs dep.defaults p inv.rpc.sig.args socket.payload with
  | error e =>
    have hu : Undecodable dep.defaults p dep.register fw socket.header socket.payload := by
      simp only [Undecodable,ht]
      exact ⟨inv.rpc.sig,e,hreg,hd⟩
    obtain ⟨f,_,hdis⟩ := dispatch_undecodable dep.ndebug (peerAt remote) hread.payload_length hu
    simp only [hdis] at h
    cases h
    exact ⟨rfl,.inl rfl⟩
  | ok args =>
    obtain ⟨task,htask,hdis⟩ := dispatch_decoded dep.ndebug (peerAt remote) fw ht hreg hd
    rw [hbytes] at hd
    have haddr := p.addressable
    have hargs := decodeArgs_of_encode (by omega) hd
    have heq : task = inv.task (remote.1,port) coroId := by
      rw [htask,hargs,hc.header_eq]
      rfl
    rw [hdis,heq] at h
    cases hstop : fw.stopFlag with
    | true =>
      rw [CoroFrameWork.commit_stopped _ (show (fw.create _).stopFlag = true from hstop)] at h
      cases hck : check dep.ndebug .committed (Except.error Error.hasBeenStopped :
          Except Error Unit).isOk with
      | error e =>
        simp only [hck,lift_error] at h
        cases h
        refine ⟨rfl,.inl rfl⟩
      | ok u =>
        simp only [hck,lift_ok] at h
        split at h <;> cases h <;> exact ⟨rfl,.inl rfl⟩
    | false =>
      have hck : check dep.ndebug .committed (Except.ok () : Except Error Unit).isOk = .ok () :=
        check_pos (.inr rfl)
      simp only [CoroFrameWork.commit_running _ (show (fw.create _).stopFlag = false from hstop),
        hck,lift_ok] at h
      split at h <;> cases h <;> exact ⟨rfl,.inr rfl⟩

/-- The response branch of `receive`, as what the table of waiting calls makes of it. -/
theorem dispatch_response {D : Defaults R} {p : Platform} {reg : Register R}
    {header : PackageHeader} (ndebug : Bool) (peer : EndPoint) (payload : List UInt8)
    (fw : CoroFrameWork R) (ht : header.getMessageType = .response) :
    dispatch D p ndebug reg header peer payload fw =
      match fw.net.respond D p header peer payload with
      | .error e => .error e fw
      | .ok (net,needAwak) => .ok () { fw with
          net := net
          coroutineQueue := fw.coroutineQueue ++ needAwak.toList.map .frame } := by
  simp only [dispatch,ht]
  rw [Exec.bind_ok (Exec.get_run fw)]
  cases hr : fw.net.respond D p header peer payload with
  | error e => rw [Exec.bind_error (lift_error e fw)]
  | ok r =>
    obtain ⟨net,needAwak⟩ := r
    rw [Exec.bind_ok (lift_ok _ fw)]
    cases needAwak with
    | none =>
      simp only [Option.toList_none,List.map_nil,List.append_nil]
      rfl
    | some coroutine => rfl

structure Response.Valid (m : Response) : Prop where
  type : m.header.getMessageType = .response
  checksum : m.header.checksum = PackageHeader.magicNumber
  payloadLen : m.header.payloadLen.toNat = m.payload.length

/-- Reading a response from the bytes is the step that delivers it. -/
theorem Process.deliver_world {n : N} {pr pr' : Process dep} {k : Nat} {m : Response}
    {pace : List Nat} (hm : m.Valid) (hheap : m.payload.length ≤ (dep.platform n).heap)
    (h : pr.deliver n k m pace = some pr') :
    ∃ w, (pr.world.take k).deliver dep.defaults (dep.platform n) m = some w ∧
      pr' = { pr with world := w } := by
  have hc : Carries (m.socket pace) m.remote m.header m.payload := ⟨rfl,rfl,hm.payloadLen⟩
  have hread : Read (dep.platform n) dep.ndebug (m.socket pace) := hc.read hheap hm.checksum
  have ht : (m.socket pace).header.getMessageType = .response := by
    rw [hc.header_eq]
    exact hm.type
  have hrec := @receive_read R dep.defaults (dep.platform n) dep.ndebug dep.register
    (m.socket pace) m.remote (Process.framework { pr with world := pr.world.take k }) hc.remote
    hread
  rw [dispatch_response dep.ndebug (peerAt m.remote) _ _ ht,hc.header_eq,hc.payload_eq] at hrec
  unfold Process.deliver Process.connection at h
  simp only [World.deliver]
  cases hr : (pr.world.take k).net.respond dep.defaults (dep.platform n) m.header
      (peerAt m.remote) m.payload with
  | error e =>
    have hr' : (Process.framework { pr with world := pr.world.take k }).net.respond dep.defaults
      (dep.platform n) m.header (peerAt m.remote) m.payload = .error e := hr
    simp only [hr'] at hrec
    simp only [hrec] at h
    by_cases he : e.isException = true
    · simp only [he,if_true,Option.some.injEq] at h ⊢
      subst h
      simp [Process.put,Process.framework]
    · simp only [he] at h
      cases h
  | ok r =>
    obtain ⟨net,needAwak⟩ := r
    have hr' : (Process.framework { pr with world := pr.world.take k }).net.respond dep.defaults
      (dep.platform n) m.header (peerAt m.remote) m.payload = .ok (net,needAwak) := hr
    simp only [hr'] at hrec
    split at hrec
    · simp only [hrec] at h
      have hready : (needAwak.toList.map (Ready.frame (R := R))).filterMap Ready.coroutine =
          needAwak.toList := by cases needAwak <;> rfl
      have htask : (needAwak.toList.map (Ready.frame (R := R))).filterMap Ready.task = [] := by
        cases needAwak <;> rfl
      cases hw : pr.world.net.waitingCoros m.header.rpcId with
      | none =>
        simp only [hw,Option.some.injEq] at h
        subst h
        simp [Process.put,Process.framework,hw,hready,htask,World.take]
      | some info =>
        simp only [hw,Option.some.injEq] at h
        subst h
        simp [Process.put,Process.framework,hw,hready,htask,World.take]
    · simp only [hrec] at h
      cases h

end

end NewRpc.Net
