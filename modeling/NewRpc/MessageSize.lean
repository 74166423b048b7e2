import NewRpc.Agreement

/-!
How large a message may be: what the sender's assertion allows, and what the
assertions of the receiver do.
-/

set_option autoImplicit false

namespace NewRpc.Net
open Bytes Codec

def Passes {R : Reflection} (D : Defaults R) (p : Platform) (reg : Register R)
    (socket : Socket) (s : CoroFrameWork R) : Prop :=
  ∀ a, (receive D p false reg socket s).1 ≠ .died (.assertion a)

theorem passes_iff {R : Reflection} (D : Defaults R) (p : Platform) (reg : Register R)
    {socket : Socket} {remote : Address} {header : PackageHeader} {payload : List UInt8}
    (s : CoroFrameWork R) (hc : Carries socket remote header payload)
    (hsum : header.checksum = PackageHeader.magicNumber)
    (ht : header.getMessageType ≠ .other) :
    Passes D p reg socket s ↔ p.heap < payload.length ∨ Undecodable D p reg s header payload ∨
      payload.length ≤ 96 ∧ (header.getMessageType = .response ∨ Addressed reg s header) := by
  have hlen := hc.length
  by_cases hheap : p.heap < payload.length
  · have hshort : ¬ socket.stream.length < 32 := by
      rw [hc.stream]
      simp
    have hbody := receiveBody_eq D p false reg (peerAt remote) socket s
    rw [if_neg hshort,if_pos (by omega)] at hbody
    have hdrop : receive D p false reg socket s = (.dropped,s) := by
      simp only [receive,hc.remote,hbody]
      rfl
    exact iff_of_true (fun a => by simp [hdrop]) (.inl hheap)
  · have hle : payload.length ≤ p.heap := by omega
    have hread : Read p false socket := hc.read hle hsum
    have ho := receive_outcome D reg s hc.remote hread
    generalize hrec : receive D p false reg socket s = out at ho
    rw [Passes,hrec]
    cases ho with
    | undecodable hu =>
      rw [hc.header_eq,hc.payload_eq] at hu
      simp [hu]
    | unknown hto => exact absurd (hc.header_eq ▸ hto) ht
    | refused s' htr hu ha =>
      rw [hc.header_eq,hc.payload_eq] at hu
      rw [hc.header_eq] at ha htr
      simp [hheap,hu,ha,htr]
    | tooLong s' hto hu hn hlong =>
      rw [hc.header_eq,hc.payload_eq] at hu
      rw [hlen] at hlong
      simp [hheap,hu,Nat.not_le.mpr hlong]
    | closed s' hto hu hsize =>
      rw [hc.header_eq,hlen] at hsize
      have hs : payload.length ≤ 96 ∧
          (header.getMessageType = .response ∨ Addressed reg s header) := by simpa using hsize
      simp [hs]

theorem request_passes_iff {R : Reflection} (D : Defaults R) {client server : Platform}
    {reg : Register R} {ndebug : Bool} {rpc built sent : RpcBase R}
    {args : Members R rpc.sig.args} {coroutine : Nat} {coroId : Word .w64} {port : Word .w16}
    (hw : rpc.withArgs client ndebug args = .ok built)
    (hs : built.awaitSuspend client ndebug coroutine coroId port = .ok sent)
    (hreg : reg rpc.funcId = some rpc.sig) (hargs : FitsMembers server.limit args)
    {socket : Socket} {remote : Address} (hr : socket.remote = some remote)
    (hst : socket.stream = sent.sendBuffer) (s : CoroFrameWork R) :
    Passes D server reg socket s ↔ server.heap < membersSize args ∨
      membersSize args ≤ 96 ∧ s.stopFlag = false := by
  have hc := RpcBase.request_carried hw hs socket hr hst
  have ht : (requestHeader rpc.funcId coroId port (membersSize args)).getMessageType = .request :=
    PackageHeader.getMessageType_request _ _ _ _ _
  have hreg' : reg (requestHeader rpc.funcId coroId port (membersSize args)).rpcType =
      some rpc.sig := hreg
  rw [passes_iff D server reg s hc rfl (by rw [ht]; simp),encodeMembers_length]
  by_cases hheap : server.heap < membersSize args
  · simp [hheap]
  · have hdec := decodeArgs_encode D (Nat.le_of_not_lt hheap) hargs
    simp [Undecodable,Addressed,ht,hheap,hreg',hdec]

theorem response_passes_iff {R : Reflection} (D : Defaults R) {server client : Platform}
    (reg : Register R) {ndebug : Bool} {info : ResponseInfo} {port : Word .w16} {t : Ty R.Name}
    {result : Val R t} {message : EndPoint × List UInt8}
    (hm : sendResponse server ndebug info port result = .ok message)
    {socket : Socket} {remote : Address} (hr : socket.remote = some remote)
    (hst : socket.stream = message.2) (s : CoroFrameWork R) :
    Passes D client reg socket s ↔ client.heap < getSerializeSize result ∨
      Undecodable D client reg s (responseHeader info port (getSerializeSize result))
        (encode result) ∨ getSerializeSize result ≤ 96 := by
  have hc := response_carried hm socket hr hst
  have ht : (responseHeader info port (getSerializeSize result)).getMessageType = .response :=
    PackageHeader.getMessageType_response _ _ _ _ _
  rw [passes_iff D client reg s hc rfl (by rw [ht]; simp),encode_length]
  simp [ht]

/-- The sender allows 992 bytes of arguments and any result. The receiver passes its own
assertions on at most 96 bytes, unless it drops the message for want of memory or
because the waiting call cannot decode it; a stopped scheduler passes no request. -/
theorem messages_pass_iff {R : Reflection} (D : Defaults R) (client server : Platform)
    (reg reg' : Register R) (ndebug : Bool) (rpc built sent : RpcBase R)
    (args : Members R rpc.sig.args) (result : Val R rpc.sig.ret) (coroutine : Nat)
    (coroId : Word .w64) (clientPort serverPort : Word .w16) (info : ResponseInfo)
    (message : EndPoint × List UInt8) (there back : Socket) (clientAt serverAt : Address)
    (s s' : CoroFrameWork R)
    (hw : rpc.withArgs client ndebug args = .ok built)
    (hs : built.awaitSuspend client ndebug coroutine coroId clientPort = .ok sent)
    (hm : sendResponse server ndebug info serverPort result = .ok message)
    (hreg : reg rpc.funcId = some rpc.sig) (hargs : FitsMembers server.limit args)
    (hthere : there.remote = some clientAt ∧ there.stream = sent.sendBuffer)
    (hback : back.remote = some serverAt ∧ back.stream = message.2) :
    (Passes D server reg there s ∧ Passes D client reg' back s') ↔
      (server.heap < membersSize args ∨ membersSize args ≤ 96 ∧ s.stopFlag = false) ∧
        (client.heap < getSerializeSize result ∨
          Undecodable D client reg' s' (responseHeader info serverPort (getSerializeSize result))
            (encode result) ∨ getSerializeSize result ≤ 96) := by
  rw [request_passes_iff D hw hs hreg hargs hthere.1 hthere.2 s,
    response_passes_iff D reg' hm hback.1 hback.2 s']

def greetServer : Register personReflection := fun id => if id = 1 then some greet else none

def noCalls : CoroFrameWork personReflection where
  net := ⟨8888,fun _ => none,fun _ => RpcBase.init greet 1⟩
  stopFlag := false
  runningCoroCnt := 0
  coroutineQueue := []
  created := []

theorem greet_messages_pass : ∃ built sent message,
    (RpcBase.init greet 1).withArgs .small false (.cons (person [97,100,97] 36) .nil) = .ok built ∧
      built.awaitSuspend .small false 0 5 8000 = .ok sent ∧
      @sendResponse personReflection .small false ⟨peerAt (1,8000),5,1⟩ 8888 .string
        (.string [104,105]) = .ok message ∧
      Passes personDefaults .small greetServer ⟨some (1,7),sent.sendBuffer,[]⟩ noCalls ∧
      Passes personDefaults .small greetServer ⟨some (2,7),message.2,[]⟩ noCalls := by
  obtain ⟨built,sent,hw,hs⟩ := @RpcBase.request_sent _ .small (RpcBase.init greet 1)
    (.cons (person [97,100,97] 36) .nil) 0 5 8000 false (.inr (by decide)) (by decide)
  have hm := @sendResponse_eq personReflection .small false ⟨peerAt (1,8000),5,1⟩ 8888 .string
    (.string [104,105])
  rw [if_neg (by decide)] at hm
  have hpass := messages_pass_iff personDefaults .small .small greetServer greetServer false
    (RpcBase.init greet 1) built sent (.cons (person [97,100,97] 36) .nil) (.string [104,105])
    0 5 8000 8888 ⟨peerAt (1,8000),5,1⟩ _ ⟨some (1,7),sent.sendBuffer,[]⟩ ⟨some (2,7),_,[]⟩
    (1,7) (2,7) noCalls noCalls hw hs hm rfl
    ⟨⟨show 3 ≤ 256 by decide,trivial,trivial⟩,trivial⟩ ⟨rfl,rfl⟩ ⟨rfl,rfl⟩
  have hboth := hpass.mpr ⟨.inr ⟨by decide,rfl⟩,.inr (.inr (by decide))⟩
  exact ⟨built,sent,_,hw,hs,hm,hboth⟩

/-- A name of 100 bytes makes a request of 144, far below the sender's limit: the server
dies of it after it has committed the coroutine. -/
theorem longName_not_passed : ∃ built sent,
    (RpcBase.init greet 1).withArgs .small false
      (.cons (person (List.replicate 100 97) 36) .nil) = .ok built ∧
      built.awaitSuspend .small false 0 5 8000 = .ok sent ∧
      ¬ Passes personDefaults .small greetServer ⟨some (1,7),sent.sendBuffer,[]⟩
        noCalls := by
  obtain ⟨built,sent,hw,hs⟩ := @RpcBase.request_sent _ .small (RpcBase.init greet 1)
    (.cons (person (List.replicate 100 97) 36) .nil) 0 5 8000 false (.inr (by decide)) (by decide)
  refine ⟨built,sent,hw,hs,fun hpass => ?_⟩
  have hiff := @request_passes_iff _ personDefaults .small .small greetServer _ _ _ _ _ _ _ _
    hw hs rfl ⟨⟨show 100 ≤ 256 by decide,trivial,trivial⟩,trivial⟩
    ⟨some (1,7),sent.sendBuffer,[]⟩ _ rfl rfl noCalls
  exact absurd (hiff.mp hpass) (by decide)

end NewRpc.Net
