import NewRpc.Survival

/-!
A message whose payload does not decode: what the process keeps, and how the calls that
wait can still end.
-/

set_option autoImplicit false

namespace NewRpc.Net
open Bytes Codec

structure Malformed {R : Reflection} (D : Defaults R) (p : Platform) (reg : Register R)
    (s : CoroFrameWork R) (socket : Socket) : Prop where
  connected : socket.remote.isSome = true
  read : Read p false socket
  undecodable : Undecodable D p reg s socket.header socket.payload

/-- The connection is closed and nothing is committed, created, removed or recorded. A call
that was waiting still ends with a response or with its timeout. -/
structure Unharmed {R : Reflection} (D : Defaults R) (p : Platform) (ndebug : Bool)
    (reg : Register R) (s : CoroFrameWork R) (socket : Socket) : Prop where
  dropped : (receive D p ndebug reg socket s).1 = .dropped
  queue : (receive D p ndebug reg socket s).2.coroutineQueue = s.coroutineQueue
  running : (receive D p ndebug reg socket s).2.runningCoroCnt = s.runningCoroCnt
  created : (receive D p ndebug reg socket s).2.created = s.created
  registered : (receive D p ndebug reg socket s).2.net.waitingCoros = s.net.waitingCoros
  calls : (receive D p ndebug reg socket s).2.net.calls = s.net.calls
  continues : ∀ later : Socket,
    receive D p ndebug reg later (receive D p ndebug reg socket s).2 =
      receive D p ndebug reg later s
  response : ∀ (later : Socket) (remote : Address) (waiting : MaintainInfo)
    (value : Val R (s.net.calls waiting.coroRpcCallback).sig.ret),
    later.remote = some remote → Read p false later →
    later.header.getMessageType = .response →
    s.net.waitingCoros later.header.rpcId = some waiting →
    decodeResult D p (s.net.calls waiting.coroRpcCallback).sig.ret later.payload = .ok value →
    ndebug = true ∨ later.payloadLen ≤ 96 →
    receive D p ndebug reg later (receive D p ndebug reg socket s).2 =
      (.closed,s.answered later.header (peerAt remote) waiting value)
  timeout : ∀ (coroId : Word .w64) (waiting : MaintainInfo),
    s.net.waitingCoros coroId = some waiting →
    ndebug = true ∨ (s.net.calls waiting.coroRpcCallback).timeoutAssertion = true →
    (receive D p ndebug reg socket s).2.net.timeout ndebug coroId =
      .ok ((s.net.setCall waiting.coroRpcCallback
        (s.net.calls waiting.coroRpcCallback).timeoutCb).erase coroId,some waiting.coroutine)

theorem Read.release {p : Platform} {socket : Socket} (h : Read p false socket) (ndebug : Bool) :
    Read p ndebug socket := by
  have hsum : socket.header.checksum = PackageHeader.magicNumber := by simpa using h.checksum
  exact ⟨h.header,h.memory,.inr hsum,h.payload⟩

/-- Every state update of `receive` comes after the last place where the decoder throws. -/
theorem Malformed.receive_eq {R : Reflection} {D : Defaults R} {p : Platform} {reg : Register R}
    {s : CoroFrameWork R} {socket : Socket} (h : Malformed D p reg s socket) (ndebug : Bool) :
    receive D p ndebug reg socket s = (.dropped,s) := by
  obtain ⟨remote,hr⟩ := Option.isSome_iff_exists.mp h.connected
  have hread := h.read.release ndebug
  obtain ⟨f,hf,hd⟩ := dispatch_undecodable ndebug (peerAt remote) hread.payload_length
    h.undecodable
  rw [receive_read hr hread,hd]
  simp [Stop.isException,hf]

theorem receive_response {R : Reflection} {D : Defaults R} {p : Platform} {ndebug : Bool}
    {reg : Register R} {socket : Socket} {remote : Address} {s : CoroFrameWork R}
    {waiting : MaintainInfo} {value : Val R (s.net.calls waiting.coroRpcCallback).sig.ret}
    (hr : socket.remote = some remote) (hread : Read p ndebug socket)
    (ht : socket.header.getMessageType = .response)
    (hw : s.net.waitingCoros socket.header.rpcId = some waiting)
    (hv : decodeResult D p (s.net.calls waiting.coroRpcCallback).sig.ret socket.payload =
      .ok value)
    (hsize : ndebug = true ∨ socket.payloadLen ≤ 96) :
    receive D p ndebug reg socket s =
      (.closed,s.answered socket.header (peerAt remote) waiting value) := by
  rw [receive_read hr hread,dispatch_recorded ndebug (peerAt remote) ht hw hv]
  simp only [if_pos hsize]

theorem NetService.timeout_some {R : Reflection} {ndebug : Bool} {net : NetService R}
    {coroId : Word .w64} {waiting : MaintainInfo}
    (hw : net.waitingCoros coroId = some waiting)
    (h : ndebug = true ∨ (net.calls waiting.coroRpcCallback).timeoutAssertion = true) :
    net.timeout ndebug coroId = .ok ((net.setCall waiting.coroRpcCallback
      (net.calls waiting.coroRpcCallback).timeoutCb).erase coroId,some waiting.coroutine) := by
  simp only [timeout,hw]
  rw [check_pos h]
  rfl

theorem malformed_unharmed {R : Reflection} {D : Defaults R} {p : Platform} (ndebug : Bool)
    {reg : Register R} {s : CoroFrameWork R} {socket : Socket}
    (h : Malformed D p reg s socket) : Unharmed D p ndebug reg s socket := by
  have heq := h.receive_eq ndebug
  constructor
  case response =>
    intro later remote waiting value hr hread ht hw hv hsize
    rw [heq]
    exact receive_response hr (hread.release ndebug) ht hw hv hsize
  case timeout =>
    intro coroId waiting hw hassert
    rw [heq]
    exact NetService.timeout_some hw hassert
  all_goals simp only [heq,implies_true]

def awaitsTwo : CoroFrameWork personReflection :=
  { idle with net := ⟨8888,fun id => if id = 7 then some ⟨5,0⟩ else none,fun _ =>
      { (RpcBase.init ⟨[],.bool⟩ 2).on [.v4 1 7,.v4 2 7] with coroutine := some 5 }⟩ }

def emptyResponse : Socket :=
  ⟨some (1,50000),(responseHeader ⟨peerAt (1,8888),7,2⟩ 7 0).bytes,[]⟩

theorem emptyResponse_unharmed :
    Unharmed personDefaults .small false serving awaitsTwo emptyResponse := by
  have ht : emptyResponse.header.getMessageType = .response := by decide
  refine malformed_unharmed false ⟨rfl,⟨by decide,by decide,.inr (by decide),by decide⟩,?_⟩
  simp only [Undecodable,ht]
  exact ⟨⟨5,0⟩,.outOfRange,by decide,rfl⟩

end NewRpc.Net
