import NewRpc.Outcome

/-!
A request and its response from end to end: what one side writes is what the other
side reads, and how large it may be.
-/

set_option autoImplicit false

namespace NewRpc.Net
open Bytes Codec

theorem deserializeArgs_reads {R : Reflection} (D : Defaults R) {inp : Input} (hs : inp.Sound) :
    {ts : List (Ty R.Name)} → (args data : Members R ts) → FitsMembers inp.limit args →
      Reads inp (deserializeMembers (deserialize D inp) data) (encodeMembers args)
        (absorbMembers D data args)
  | _, .nil, .nil, _ => Reads.pure inp Members.nil
  | _, .cons v args, .cons w data, hf => by
      have hv := deserialize_reads D hs v w hf.1
      have hargs := deserializeArgs_reads D hs args data hf.2
      refine hv.seq hs (hargs.last hs ?_)
      exact Reads.pure inp (Members.cons _ _)

theorem Platform.input_shows (p : Platform) (payload : List UInt8) :
    (p.input payload).Shows 0 payload := by
  refine ⟨Int.le_refl 0,by simp,?_⟩
  simp [slice]

theorem decodeArgs_encode {R : Reflection} (D : Defaults R) {p : Platform}
    {ts : List (Ty R.Name)} {args : Members R ts} (hlen : membersSize args ≤ p.heap)
    (hf : FitsMembers p.limit args) : decodeArgs D p ts (encodeMembers args) =
      .ok (absorbMembers D (Members.fresh D ts) args) := by
  have hs : (p.input (encodeMembers args)).Sound :=
    (p.input_safe (by rw [encodeMembers_length]; exact hlen)).sound
  have hr := deserializeArgs_reads D hs args (Members.fresh D ts) hf 0 (p.input_shows _)
  unfold decodeArgs deserializeArgs
  rw [hr]

theorem decodeResult_encode {R : Reflection} (D : Defaults R) {p : Platform} {t : Ty R.Name}
    {v : Val R t} (hlen : getSerializeSize v ≤ p.heap) (hf : Fits p.limit v) :
    decodeResult D p t (encode v) = .ok (absorb D (Val.fresh D t) v) := by
  have hs : (p.input (encode v)).Sound :=
    (p.input_safe (by rw [encode_length]; exact hlen)).sound
  have hr := deserialize_reads D hs v (Val.fresh D t) hf 0 (p.input_shows _)
  unfold decodeResult
  rw [hr]

theorem PackageHeader.parse_bytes (h : PackageHeader) : parse h.bytes = h := by
  have hp := @deserializeHeader_parse .small h.bytes h.bytes_length []
  have hs : Input.Sound ⟨h.bytes ++ [],(32 : Nat),Platform.small.endian,Platform.small.limit⟩ :=
    ⟨by simp,by simp⟩
  have hr := deserializeHeader_reads hs h PackageHeader.default 0
    ⟨Int.le_refl 0,by simp,by simp [slice,List.take_of_length_le]⟩
  rw [hp] at hr
  exact (EStateM.Result.ok.inj hr).1

structure Carries (socket : Socket) (remote : Address) (header : PackageHeader)
    (payload : List UInt8) : Prop where
  remote : socket.remote = some remote
  stream : socket.stream = header.bytes ++ payload
  payloadLen : header.payloadLen.toNat = payload.length

theorem Carries.header_eq {socket : Socket} {remote : Address} {header : PackageHeader}
    {payload : List UInt8} (h : Carries socket remote header payload) : socket.header = header := by
  rw [Socket.header,h.stream,List.take_left' header.bytes_length,PackageHeader.parse_bytes]

theorem Carries.payload_eq {socket : Socket} {remote : Address} {header : PackageHeader}
    {payload : List UInt8} (h : Carries socket remote header payload) :
    socket.payload = payload := by
  rw [Socket.payload,Socket.payloadLen,h.header_eq,h.payloadLen,h.stream,slice,
    List.drop_left' header.bytes_length,List.take_length]

theorem Carries.length {socket : Socket} {remote : Address} {header : PackageHeader}
    {payload : List UInt8} (h : Carries socket remote header payload) :
    socket.payloadLen = payload.length := by
  rw [Socket.payloadLen,h.header_eq,h.payloadLen]

theorem Carries.read {socket : Socket} {remote : Address} {header : PackageHeader}
    {payload : List UInt8} (h : Carries socket remote header payload) {p : Platform}
    {ndebug : Bool} (hheap : payload.length ≤ p.heap)
    (hsum : header.checksum = PackageHeader.magicNumber) : Read p ndebug socket := by
  have hl := h.length
  have hs : socket.stream.length = 32 + payload.length := by rw [h.stream]; simp
  exact ⟨by omega,by omega,.inr (by rw [h.header_eq]; exact hsum),by omega⟩

structure RequestRead {R : Reflection} (D : Defaults R) (p : Platform) (reg : Register R)
    (rpc : RpcBase R) (args : Members R rpc.sig.args) (coroId : Word .w64) (port : Word .w16)
    (remote : Address) (socket : Socket) : Prop where
  type : socket.header.getMessageType = .request
  rpcType : socket.header.rpcType = rpc.funcId
  rpcId : socket.header.rpcId = coroId
  serverPort : socket.header.serverPort = port
  payloadLen : 32 + socket.header.payloadLen.toNat = socket.stream.length
  arguments : decodeArgs D p rpc.sig.args socket.payload = .ok args
  runs : ∀ s : CoroFrameWork R, (receive D p true reg socket s).1 = .closed ∧
    (receive D p true reg socket s).2.created = s.created ++
      [⟨rpc.sig,args,⟨(peerAt remote).setPort port,coroId,rpc.funcId⟩⟩]

/-- `with_args` and `await_suspend` produce a message, and it is read as it was meant. -/
def RequestAgrees {R : Reflection} (D : Defaults R) (client server : Platform)
    (reg : Register R) (rpc : RpcBase R) (args : Members R rpc.sig.args) (coroutine : Nat)
    (coroId : Word .w64) (port : Word .w16) : Prop :=
  ∃ built sent, rpc.withArgs client true args = .ok built ∧
    built.awaitSuspend client true coroutine coroId port = .ok sent ∧
    ∀ socket remote, socket.remote = some remote → socket.stream = sent.sendBuffer →
      RequestRead D server reg rpc args coroId port remote socket

structure ResponseRead {R : Reflection} (D : Defaults R) (p : Platform) (reg : Register R)
    (rpc : RpcBase R) (result : Val R rpc.sig.ret) (info : ResponseInfo) (port : Word .w16)
    (remote : Address) (socket : Socket) : Prop where
  type : socket.header.getMessageType = .response
  rpcType : socket.header.rpcType = info.responseRpcType
  rpcId : socket.header.rpcId = info.responseToCoroId
  serverPort : socket.header.serverPort = port
  payloadLen : 32 + socket.header.payloadLen.toNat = socket.stream.length
  value : decodeResult D p rpc.sig.ret socket.payload = .ok result
  recorded : ∀ (s : CoroFrameWork R) (waiting : MaintainInfo),
    s.net.waitingCoros info.responseToCoroId = some waiting →
    s.net.calls waiting.coroRpcCallback = rpc →
    (receive D p true reg socket s).1 = .closed ∧
      (receive D p true reg socket s).2.net.calls waiting.coroRpcCallback =
        rpc.record ((peerAt remote).setPort port) result

def ResponseAgrees {R : Reflection} (D : Defaults R) (server client : Platform)
    (reg : Register R) (rpc : RpcBase R) (result : Val R rpc.sig.ret) (info : ResponseInfo)
    (port : Word .w16) : Prop :=
  ∃ message, sendResponse server true info port result = .ok message ∧
    ∀ socket remote, socket.remote = some remote → socket.stream = message.2 →
      ResponseRead D client reg rpc result info port remote socket

theorem dispatch_created {R : Reflection} {D : Defaults R} {p : Platform} {reg : Register R}
    {header : PackageHeader} {payload : List UInt8} {sig : Signature R}
    {args : Members R sig.args} (peer : EndPoint) (s : CoroFrameWork R)
    (ht : header.getMessageType = .request) (hreg : reg header.rpcType = some sig)
    (hargs : decodeArgs D p sig.args payload = .ok args) :
    ∃ s', s'.created = s.created ++
        [⟨sig,args,⟨peer.setPort header.serverPort,header.rpcId,header.rpcType⟩⟩] ∧
      dispatch D p true reg header peer payload s = .ok () s' := by
  obtain ⟨task,rfl,hdec⟩ := dispatch_decoded true peer s ht hreg hargs
  rw [check_pos (.inl rfl),lift_ok] at hdec
  exact ⟨_,CoroFrameWork.commit_created _ _,hdec⟩

theorem payloadLen_toNat {n : Nat} (h : n < 2 ^ 63) :
    (BitVec.ofNat (8 * Width.w64.sizeof) n).toNat = n := toNat_ofNat h

theorem RpcBase.request_carried {R : Reflection} {p : Platform} {ndebug : Bool}
    {rpc built sent : RpcBase R} {args : Members R rpc.sig.args} {coroutine : Nat}
    {coroId : Word .w64} {port : Word .w16} (hw : rpc.withArgs p ndebug args = .ok built)
    (hs : built.awaitSuspend p ndebug coroutine coroId port = .ok sent) (socket : Socket)
    {remote : Address} (hr : socket.remote = some remote)
    (hst : socket.stream = sent.sendBuffer) :
    Carries socket remote (requestHeader rpc.funcId coroId port (membersSize args))
      (encodeMembers args) := by
  obtain ⟨hbytes,hheap,_⟩ := request_bytes hw hs
  have haddr := p.addressable
  refine ⟨hr,hst.trans hbytes,?_⟩
  rw [encodeMembers_length]
  exact payloadLen_toNat (by omega)

theorem RpcBase.request_sent {R : Reflection} (p : Platform) (rpc : RpcBase R)
    (args : Members R rpc.sig.args) (coroutine : Nat) (coroId : Word .w64) (port : Word .w16)
    {ndebug : Bool} (hallowed : SizeAllowed ndebug (32 + membersSize args))
    (h : 32 + membersSize args ≤ p.heap) :
    ∃ built sent, rpc.withArgs p ndebug args = .ok built ∧
      built.awaitSuspend p ndebug coroutine coroId port = .ok sent := by
  have haddr := p.addressable
  have hw := withArgs_eq p hallowed
  rw [if_neg (by omega)] at hw
  exact ⟨_,_,hw,awaitSuspend_eq p ndebug _ coroutine coroId port rfl
    (by rw [List.length_append,List.length_replicate,encodeMembers_length]) (by omega)⟩

theorem requestAgrees_iff {R : Reflection} (D : Defaults R) {client server : Platform}
    {reg : Register R} {rpc : RpcBase R} {args : Members R rpc.sig.args} (coroutine : Nat)
    (coroId : Word .w64) (port : Word .w16) (hreg : reg rpc.funcId = some rpc.sig)
    (hclient : 32 + membersSize args ≤ client.heap) (hserver : membersSize args ≤ server.heap)
    (hf : FitsMembers server.limit args) :
    RequestAgrees D client server reg rpc args coroutine coroId port ↔
      ClearMembers D (Members.fresh D rpc.sig.args) args := by
  have hdec := decodeArgs_encode D hserver hf
  rw [← absorbMembers_eq_iff]
  constructor
  · intro ⟨built,sent,hw,hs,hread⟩
    have hc := RpcBase.request_carried hw hs ⟨some (0,0),sent.sendBuffer,[]⟩ rfl rfl
    have ha := (hread _ _ hc.remote rfl).arguments
    rw [hc.payload_eq,hdec] at ha
    exact Except.ok.inj ha
  · intro habs
    rw [habs] at hdec
    obtain ⟨built,sent,hw,hs⟩ := rpc.request_sent client args coroutine coroId port
      (.inl rfl) hclient
    refine ⟨built,sent,hw,hs,fun socket remote hr hst => ?_⟩
    have hc := RpcBase.request_carried hw hs socket hr hst
    have hread : Read server true socket :=
      hc.read (by rw [encodeMembers_length]; exact hserver) rfl
    have ht : socket.header.getMessageType = .request := by
      rw [hc.header_eq]
      exact PackageHeader.getMessageType_request _ _ _ _ _
    refine ⟨ht,by rw [hc.header_eq]; rfl,by rw [hc.header_eq]; rfl,by rw [hc.header_eq]; rfl,
      ?_,by rw [hc.payload_eq]; exact hdec,fun s => ?_⟩
    · rw [hc.header_eq,hc.payloadLen,hc.stream]
      simp
    · obtain ⟨s',hs',hd⟩ := dispatch_created (peerAt remote) s ht
        (show reg socket.header.rpcType = some rpc.sig by rw [hc.header_eq]; exact hreg)
        (show decodeArgs D server rpc.sig.args socket.payload = .ok args by
          rw [hc.payload_eq]; exact hdec)
      have hrec := @receive_read R D server true reg socket remote s hr hread
      rw [hd] at hrec
      simp only [true_or,if_true] at hrec
      rw [hrec]
      refine ⟨rfl,?_⟩
      rw [hs',hc.header_eq]
      rfl

theorem response_carried {R : Reflection} {p : Platform} {ndebug : Bool} {info : ResponseInfo}
    {port : Word .w16} {t : Ty R.Name} {result : Val R t} {message : EndPoint × List UInt8}
    (h : sendResponse p ndebug info port result = .ok message) (socket : Socket)
    {remote : Address} (hr : socket.remote = some remote) (hst : socket.stream = message.2) :
    Carries socket remote (responseHeader info port (getSerializeSize result)) (encode result) := by
  have haddr := p.addressable
  rw [sendResponse_eq] at h
  by_cases hheap : p.heap < 32 + getSerializeSize result
  · rw [if_pos hheap] at h
    cases h
  · rw [if_neg hheap] at h
    cases h
    refine ⟨hr,hst,?_⟩
    rw [encode_length]
    exact payloadLen_toNat (by omega)

theorem responseAgrees_iff {R : Reflection} (D : Defaults R) {server client : Platform}
    (reg : Register R) {rpc : RpcBase R} {result : Val R rpc.sig.ret} (info : ResponseInfo)
    (port : Word .w16) (hserver : 32 + getSerializeSize result ≤ server.heap)
    (hclient : getSerializeSize result ≤ client.heap) (hf : Fits client.limit result) :
    ResponseAgrees D server client reg rpc result info port ↔
      Clear D (Val.fresh D rpc.sig.ret) result := by
  have hdec := decodeResult_encode D hclient hf
  rw [← absorb_eq_iff]
  constructor
  · intro ⟨message,hs,hread⟩
    have hc := response_carried hs ⟨some (0,0),message.2,[]⟩ rfl rfl
    have hv := (hread _ _ hc.remote rfl).value
    rw [hc.payload_eq,hdec] at hv
    exact Except.ok.inj hv
  · intro habs
    rw [habs] at hdec
    have hs := sendResponse_eq server true info port result
    rw [if_neg (by omega)] at hs
    refine ⟨_,hs,fun socket remote hr hst => ?_⟩
    have hc := response_carried hs socket hr hst
    have hread : Read client true socket :=
      hc.read (by rw [encode_length]; exact hclient) rfl
    have ht : socket.header.getMessageType = .response := by
      rw [hc.header_eq]
      exact PackageHeader.getMessageType_response _ _ _ _ _
    have hid : socket.header.rpcId = info.responseToCoroId := by rw [hc.header_eq]; rfl
    have hport : socket.header.serverPort = port := by rw [hc.header_eq]; rfl
    refine ⟨ht,by rw [hc.header_eq]; rfl,hid,hport,?_,by rw [hc.payload_eq]; exact hdec,
      fun s waiting hw hcall => ?_⟩
    · rw [hc.header_eq,hc.payloadLen,hc.stream]
      simp
    · subst hcall
      rw [← hc.payload_eq] at hdec
      have hd := @dispatch_recorded _ _ _ reg _ _ true (peerAt remote) _ _ _ ht
        (by rw [hid]; exact hw) hdec
      have hrec := @receive_read R D client true reg socket remote s hr hread
      rw [hd] at hrec
      simp only [true_or,if_true] at hrec
      rw [hrec]
      exact ⟨rfl,by rw [← hport]; exact s.answered_call socket.header _ waiting result⟩

/-- Both directions of one call, in builds without assertions: the two sides agree exactly
when no default constructor fills a vector that one of the decoders appends to. -/
theorem endToEnd_iff_clear {R : Reflection} (D : Defaults R) (client server : Platform)
    (reg reg' : Register R) (rpc : RpcBase R) (args : Members R rpc.sig.args)
    (result : Val R rpc.sig.ret) (coroutine : Nat) (coroId : Word .w64)
    (clientPort serverPort : Word .w16) (remote : EndPoint)
    (hreg : reg rpc.funcId = some rpc.sig)
    (hclient : 32 + membersSize args ≤ client.heap ∧ getSerializeSize result ≤ client.heap)
    (hserver : membersSize args ≤ server.heap ∧ 32 + getSerializeSize result ≤ server.heap)
    (hargs : FitsMembers server.limit args) (hresult : Fits client.limit result) :
    (RequestAgrees D client server reg rpc args coroutine coroId clientPort ∧
      ResponseAgrees D server client reg' rpc result
        ⟨remote.setPort clientPort,coroId,rpc.funcId⟩ serverPort) ↔
      ClearMembers D (Members.fresh D rpc.sig.args) args ∧
        Clear D (Val.fresh D rpc.sig.ret) result := by
  rw [requestAgrees_iff D coroutine coroId clientPort hreg hclient.1 hserver.1 hargs,
    responseAgrees_iff D reg' _ serverPort hserver.2 hclient.2 hresult]

def greet : Signature personReflection := ⟨[.struct ()],.string⟩

theorem greet_agrees :
    RequestAgrees personDefaults .small .small (fun id => if id = 1 then some greet else none)
        (RpcBase.init greet 1) (.cons (person [97,100,97] 36) .nil) 0 5 8000 ∧
      ResponseAgrees personDefaults .small .small (fun _ => none) (RpcBase.init greet 1)
        (.string [104,105]) ⟨peerAt (1,8000),5,1⟩ 8888 :=
  (endToEnd_iff_clear personDefaults .small .small
    (fun id => if id = 1 then some greet else none) (fun _ => none) (RpcBase.init greet 1)
    (.cons (person [97,100,97] 36) .nil) (.string [104,105]) 0 5 8000 8888 (peerAt (1,0))
    rfl ⟨by decide,by decide⟩ ⟨by decide,by decide⟩ ⟨⟨show 3 ≤ 256 by decide,trivial,trivial⟩,trivial⟩
    (show 2 ≤ 256 by decide)).mpr ⟨⟨⟨trivial,trivial,trivial⟩,trivial⟩,trivial⟩

def takesBatch : Signature batchReflection := ⟨[.struct ()],.bool⟩

theorem emptyBatch_not_agrees :
    ¬ (RequestAgrees batchDefaults .small .small
          (fun id => if id = 1 then some takesBatch else none) (RpcBase.init takesBatch 1)
          (.cons emptyBatch .nil) 0 5 8000 ∧
        ResponseAgrees batchDefaults .small .small (fun _ => none) (RpcBase.init takesBatch 1)
          (.bool true) ⟨peerAt (1,8000),5,1⟩ 8888) := by
  intro h
  have hiff := @requestAgrees_iff _ batchDefaults .small .small
    (fun id => if id = 1 then some takesBatch else none) (RpcBase.init takesBatch 1)
    (.cons emptyBatch .nil) 0 5 8000 rfl (by decide) (by decide)
    ⟨⟨⟨show 0 ≤ 256 by decide,trivial⟩,trivial⟩,trivial⟩
  have hclear := hiff.mp h.1
  cases hclear.1.1.1

end NewRpc.Net
