import NewRpc.Receive

/-!
What `receive` does with a message once all of it is in memory.
-/

set_option autoImplicit false

namespace NewRpc.Net
open Bytes Codec

/-- The payload is decoded and the decoder throws: as arguments of the function named,
or as the result of the call that waits. -/
def Undecodable {R : Reflection} (D : Defaults R) (p : Platform) (reg : Register R)
    (s : CoroFrameWork R) (header : PackageHeader) (payload : List UInt8) : Prop :=
  match header.getMessageType with
  | .request => ∃ sig e, reg header.rpcType = some sig ∧
      decodeArgs D p sig.args payload = .error e
  | .response => ∃ info e, s.net.waitingCoros header.rpcId = some info ∧
      decodeResult D p (s.net.calls info.coroRpcCallback).sig.ret payload = .error e
  | .other => False

/-- Somebody takes the message: a running scheduler for a registered function, or a
call that waits. -/
def Addressed {R : Reflection} (reg : Register R) (s : CoroFrameWork R)
    (header : PackageHeader) : Prop :=
  match header.getMessageType with
  | .request => (reg header.rpcType).isSome ∧ s.stopFlag = false
  | .response => (s.net.waitingCoros header.rpcId).isSome
  | .other => False

/-- Something was committed to the scheduler or handed to a call. -/
def Dispatched {R : Reflection} (s s' : CoroFrameWork R) : Prop :=
  s.coroutineQueue.length < s'.coroutineQueue.length ∨
    ∃ c, (s.net.calls c).receivedResults.length < (s'.net.calls c).receivedResults.length

theorem not_dispatched {R : Reflection} {s s' : CoroFrameWork R}
    (hq : s'.coroutineQueue = s.coroutineQueue) (hc : s'.net.calls = s.net.calls) :
    ¬ Dispatched s s' := by
  intro h
  rcases h with h | ⟨c,h⟩
  · rw [hq] at h
    exact Nat.lt_irrefl _ h
  · rw [hc] at h
    exact Nat.lt_irrefl _ h

theorem Platform.input_safe (p : Platform) {payload : List UInt8} (h : payload.length ≤ p.heap) :
    (p.input payload).Safe := by
  have haddr := p.addressable
  exact ⟨⟨Int.le_refl _,by simp only; omega⟩,by simp only; omega⟩

theorem decodeResult_error {R : Reflection} {D : Defaults R} {p : Platform} {t : Ty R.Name}
    {payload : List UInt8} {e : Fault} (hlen : payload.length ≤ p.heap)
    (h : decodeResult D p t payload = .error e) : e.isException = true := by
  have hs := deserialize_stays D (p.input_safe hlen) t (Val.fresh D t) (Int.le_refl 0)
    (by simp)
  unfold decodeResult at h
  cases hd : deserialize D (p.input payload) t (Val.fresh D t) 0 with
  | ok v pos => simp [hd] at h
  | error f pos =>
    simp only [hd,Except.error.injEq] at h
    exact h ▸ hs.error hd

theorem decodeArgs_error {R : Reflection} {D : Defaults R} {p : Platform} {ts : List (Ty R.Name)}
    {payload : List UInt8} {e : Fault} (hlen : payload.length ≤ p.heap)
    (h : decodeArgs D p ts payload = .error e) : e.isException = true := by
  have hsafe := p.input_safe hlen
  have hs := deserializeMembers_stays (Members.fresh D ts)
    (fun t _ v pos h0 hp => deserialize_stays D hsafe t v h0 hp) 0 (Int.le_refl 0) (by simp)
  unfold decodeArgs deserializeArgs at h
  cases hd : deserializeMembers (deserialize D (p.input payload)) (Members.fresh D ts) 0 with
  | ok v pos => simp [hd] at h
  | error f pos =>
    simp only [hd,Except.error.injEq] at h
    exact h ▸ hs.error hd

theorem dispatch_undecodable {R : Reflection} {D : Defaults R} {p : Platform}
    {reg : Register R} {header : PackageHeader} {payload : List UInt8}
    {s : CoroFrameWork R} (ndebug : Bool) (peer : EndPoint) (hlen : payload.length ≤ p.heap)
    (h : Undecodable D p reg s header payload) :
    ∃ f : Fault, f.isException = true ∧
      dispatch D p ndebug reg header peer payload s = .error (.fault f) s := by
  unfold Undecodable at h
  cases ht : header.getMessageType with
  | request =>
    simp only [ht] at h
    obtain ⟨sig,e,hreg,hd⟩ := h
    refine ⟨e,decodeArgs_error hlen hd,?_⟩
    have hr : reflectCommitFunction D p reg header peer payload s = .error (.fault e) s := by
      simp only [reflectCommitFunction,hreg,hd]
    simp only [dispatch,ht]
    rw [Exec.bind_error hr]
  | response =>
    simp only [ht] at h
    obtain ⟨info,e,hw,hd⟩ := h
    refine ⟨e,decodeResult_error hlen hd,?_⟩
    simp only [dispatch,ht]
    rw [Exec.bind_ok (Exec.get_run s),NetService.respond_some hw,hd,
      Exec.bind_error (lift_error _ s)]
  | other => simp [ht] at h

/-- Once its arguments are decoded, the frame of a request exists; the scheduler may
still refuse it. -/
theorem dispatch_decoded {R : Reflection} {D : Defaults R} {p : Platform} {reg : Register R}
    {header : PackageHeader} {payload : List UInt8} {sig : Signature R}
    {args : Members R sig.args} (ndebug : Bool) (peer : EndPoint) (s : CoroFrameWork R)
    (ht : header.getMessageType = .request) (hreg : reg header.rpcType = some sig)
    (hargs : decodeArgs D p sig.args payload = .ok args) :
    ∃ task : RequestTask R,
      task = ⟨sig,args,⟨peer.setPort header.serverPort,header.rpcId,header.rpcType⟩⟩ ∧
      dispatch D p ndebug reg header peer payload s = lift
        (check ndebug .committed ((s.create task).commit task).2.isOk)
        ((s.create task).commit task).1 := by
  refine ⟨_,rfl,?_⟩
  simp only [dispatch,ht]
  refine Exec.bind_ok ?_
  simp only [reflectCommitFunction,hreg,hargs]

/-- A response whose result is decoded: the call that waits records it, and is taken out
of the table and awakened if that is what it has waited for. -/
def CoroFrameWork.answered {R : Reflection} (s : CoroFrameWork R) (header : PackageHeader)
    (peer : EndPoint) (waiting : MaintainInfo)
    (value : Val R (s.net.calls waiting.coroRpcCallback).sig.ret) : CoroFrameWork R :=
  let rpc := s.net.calls waiting.coroRpcCallback
  let net := s.net.setCall waiting.coroRpcCallback
    (rpc.record (peer.setPort header.serverPort) value)
  match if rpc.finishes then rpc.coroutine else none with
  | none => { s with net := net }
  | some coroutine => { s with net := net.erase header.rpcId }.enqueue (.frame coroutine)

theorem CoroFrameWork.answered_call {R : Reflection} (s : CoroFrameWork R)
    (header : PackageHeader) (peer : EndPoint) (waiting : MaintainInfo)
    (value : Val R (s.net.calls waiting.coroRpcCallback).sig.ret) :
    (s.answered header peer waiting value).net.calls waiting.coroRpcCallback =
      (s.net.calls waiting.coroRpcCallback).record (peer.setPort header.serverPort) value := by
  simp only [answered]
  generalize (if (s.net.calls waiting.coroRpcCallback).finishes then
    (s.net.calls waiting.coroRpcCallback).coroutine else none) = needAwak
  cases needAwak with
  | none => exact Function.update_self _ _ _
  | some coroutine => exact Function.update_self _ _ _

theorem dispatch_recorded {R : Reflection} {D : Defaults R} {p : Platform} {reg : Register R}
    {header : PackageHeader} {payload : List UInt8} (ndebug : Bool) (peer : EndPoint)
    {s : CoroFrameWork R} {waiting : MaintainInfo}
    {value : Val R (s.net.calls waiting.coroRpcCallback).sig.ret}
    (ht : header.getMessageType = .response)
    (hw : s.net.waitingCoros header.rpcId = some waiting)
    (hv : decodeResult D p (s.net.calls waiting.coroRpcCallback).sig.ret payload = .ok value) :
    dispatch D p ndebug reg header peer payload s =
      .ok () (s.answered header peer waiting value) := by
  simp only [dispatch,ht]
  rw [Exec.bind_ok (Exec.get_run s),NetService.respond_some hw,hv]
  simp only [CoroFrameWork.answered]
  generalize (if (s.net.calls waiting.coroRpcCallback).finishes then
    (s.net.calls waiting.coroRpcCallback).coroutine else none) = needAwak
  rw [Exec.bind_ok (lift_ok _ s)]
  cases needAwak with
  | none => rfl
  | some coroutine => rfl

theorem dispatch_request_unaddressed {R : Reflection} {D : Defaults R} {p : Platform}
    {reg : Register R} {header : PackageHeader} {payload : List UInt8} {s : CoroFrameWork R}
    (ndebug : Bool) (peer : EndPoint) (ht : header.getMessageType = .request)
    (hd : ¬ Undecodable D p reg s header payload) (ha : ¬ Addressed reg s header) :
    ∃ s', ¬ Dispatched s s' ∧
      dispatch D p ndebug reg header peer payload s = lift (check ndebug .committed false) s' := by
  simp only [Undecodable,ht] at hd
  simp only [Addressed,ht] at ha
  cases hreg : reg header.rpcType with
  | none =>
    simp only [dispatch,ht]
    have hr : reflectCommitFunction D p reg header peer payload s =
        .ok (.error .functionNotReflected) s := by simp only [reflectCommitFunction,hreg]
    exact ⟨s,not_dispatched rfl rfl,Exec.bind_ok hr⟩
  | some sig =>
    have hstop : s.stopFlag = true := by simpa [hreg] using ha
    cases hargs : decodeArgs D p sig.args payload with
    | error e => exact absurd ⟨sig,e,hreg,hargs⟩ hd
    | ok args =>
      obtain ⟨task,_,hdec⟩ := dispatch_decoded ndebug peer s ht hreg hargs
      have hrefused : (s.create task).stopFlag = true := hstop
      rw [CoroFrameWork.commit_stopped task hrefused] at hdec
      refine ⟨_,?_,hdec⟩
      exact not_dispatched rfl rfl

theorem dispatch_response_unaddressed {R : Reflection} (D : Defaults R) (p : Platform)
    {reg : Register R} {header : PackageHeader} (payload : List UInt8) {s : CoroFrameWork R}
    (ndebug : Bool) (peer : EndPoint) (ht : header.getMessageType = .response)
    (ha : ¬ Addressed reg s header) :
    dispatch D p ndebug reg header peer payload s = .ok () s := by
  simp only [Addressed,ht] at ha
  have hw : s.net.waitingCoros header.rpcId = none := by simpa using ha
  simp only [dispatch,ht]
  rw [Exec.bind_ok (Exec.get_run s),NetService.respond_none hw,Exec.bind_ok (lift_ok _ s)]
  rfl

theorem dispatch_addressed {R : Reflection} {D : Defaults R} {p : Platform}
    {reg : Register R} {header : PackageHeader} {payload : List UInt8} {s : CoroFrameWork R}
    (ndebug : Bool) (peer : EndPoint) (hd : ¬ Undecodable D p reg s header payload)
    (ha : Addressed reg s header) :
    ∃ s', Dispatched s s' ∧ dispatch D p ndebug reg header peer payload s = .ok () s' := by
  unfold Addressed at ha
  unfold Undecodable at hd
  cases ht : header.getMessageType with
  | request =>
    simp only [ht] at ha hd
    obtain ⟨sig,hreg⟩ := Option.isSome_iff_exists.mp ha.1
    cases hargs : decodeArgs D p sig.args payload with
    | error e => exact absurd ⟨sig,e,hreg,hargs⟩ hd
    | ok args =>
      obtain ⟨task,_,hdec⟩ := dispatch_decoded ndebug peer s ht hreg hargs
      have hruns : (s.create task).stopFlag = false := ha.2
      have hc : check ndebug .committed (Except.ok () : Except Error Unit).isOk = .ok () :=
        check_pos (.inr rfl)
      simp only [CoroFrameWork.commit_running task hruns,hc,lift_ok] at hdec
      exact ⟨_,.inl (by simp [CoroFrameWork.enqueue,CoroFrameWork.create]),hdec⟩
  | response =>
    simp only [ht] at ha hd
    obtain ⟨info,hw⟩ := Option.isSome_iff_exists.mp ha
    cases hv : decodeResult D p (s.net.calls info.coroRpcCallback).sig.ret payload with
    | error e => exact absurd ⟨info,e,hw,hv⟩ hd
    | ok value =>
      refine ⟨_,.inr ⟨info.coroRpcCallback,?_⟩,dispatch_recorded ndebug peer ht hw hv⟩
      rw [CoroFrameWork.answered_call]
      simp [RpcBase.record]
  | other => simp [ht] at ha

theorem Addressed.served {R : Reflection} {reg : Register R} {s : CoroFrameWork R}
    {header : PackageHeader} (h : Addressed reg s header) :
    header.getMessageType = .request ∧ (reg header.rpcType).isSome ∨
      header.getMessageType = .response := by
  unfold Addressed at h
  cases ht : header.getMessageType with
  | request =>
    simp only [ht] at h
    exact .inl ⟨rfl,h.1⟩
  | response => exact .inr rfl
  | other => simp [ht] at h

theorem Addressed.type {R : Reflection} {reg : Register R} {s : CoroFrameWork R}
    {header : PackageHeader} (h : Addressed reg s header) : header.getMessageType ≠ .other := by
  intro ht
  simp [Addressed,ht] at h

/-- The message is in memory and no check so far has ended the process. -/
structure Read (p : Platform) (ndebug : Bool) (socket : Socket) : Prop where
  header : ¬ socket.stream.length < 32
  memory : ¬ p.heap < socket.payloadLen
  checksum : ndebug = true ∨ socket.header.checksum = PackageHeader.magicNumber
  payload : ¬ socket.stream.length < 32 + socket.payloadLen

theorem Read.payload_length {p : Platform} {ndebug : Bool} {socket : Socket}
    (h : Read p ndebug socket) : socket.payload.length ≤ p.heap := by
  have hm := h.memory
  have hp := h.payload
  rw [Socket.payload,slice_length (by omega)]
  omega

theorem receive_read {R : Reflection} {D : Defaults R} {p : Platform} {ndebug : Bool}
    {reg : Register R} {socket : Socket} {remote : Address} {s : CoroFrameWork R}
    (hr : socket.remote = some remote) (h : Read p ndebug socket) :
    receive D p ndebug reg socket s =
      match dispatch D p ndebug reg socket.header (peerAt remote) socket.payload s with
      | .ok _ s' =>
          if ndebug = true ∨ socket.payloadLen ≤ 96 then (.closed,s')
          else (.died (.assertion .payloadLen),s')
      | .error e s' => (if e.isException then .dropped else .died e,s') := by
  simp only [receive,hr,receiveBody_eq,h.header,h.memory,h.checksum,h.payload,if_false,
    not_true_eq_false]
  cases hd : dispatch D p ndebug reg socket.header (peerAt remote) socket.payload s with
  | error e s' => rw [Exec.bind_error hd]
  | ok a s' =>
    rw [Exec.bind_ok hd]
    by_cases hsize : ndebug = true ∨ socket.payloadLen ≤ 96
    · rw [check_pos (by rw [Nat.ble_eq]; exact hsize),lift_ok]
      simp only [if_pos hsize]
    · rw [check_neg (by rw [Nat.ble_eq]; exact hsize),lift_error]
      simp only [if_neg hsize]
      rfl

theorem Undecodable.type {R : Reflection} {D : Defaults R} {p : Platform} {reg : Register R}
    {s : CoroFrameWork R} {header : PackageHeader} {payload : List UInt8}
    (h : Undecodable D p reg s header payload) : header.getMessageType ≠ .other := by
  intro ht
  simp [Undecodable,ht] at h

/-- Once a message is in memory: its payload does not decode, its type is unknown, its
request is refused, it is found too long after the fact, or the connection is closed. -/
inductive Outcome {R : Reflection} (D : Defaults R) (p : Platform) (ndebug : Bool)
    (reg : Register R) (socket : Socket) (s : CoroFrameWork R) :
    Finish × CoroFrameWork R → Prop where
  | undecodable : Undecodable D p reg s socket.header socket.payload →
      Outcome D p ndebug reg socket s (.dropped,s)
  | unknown : socket.header.getMessageType = .other →
      Outcome D p ndebug reg socket s (.died .abort,s)
  | refused (s' : CoroFrameWork R) : socket.header.getMessageType = .request →
      ¬ Undecodable D p reg s socket.header socket.payload → ¬ Addressed reg s socket.header →
      ndebug = false → Outcome D p ndebug reg socket s (.died (.assertion .committed),s')
  | tooLong (s' : CoroFrameWork R) :
      socket.header.getMessageType = .response ∨ Addressed reg s socket.header →
      ¬ Undecodable D p reg s socket.header socket.payload → ndebug = false →
      96 < socket.payloadLen → Outcome D p ndebug reg socket s (.died (.assertion .payloadLen),s')
  | closed (s' : CoroFrameWork R) : socket.header.getMessageType ≠ .other →
      ¬ Undecodable D p reg s socket.header socket.payload →
      ndebug = true ∨ socket.payloadLen ≤ 96 ∧
        (socket.header.getMessageType = .response ∨ Addressed reg s socket.header) →
      (Dispatched s s' ↔ Addressed reg s socket.header) →
      Outcome D p ndebug reg socket s (.closed,s')

theorem receive_outcome {R : Reflection} (D : Defaults R) {p : Platform} {ndebug : Bool}
    (reg : Register R) {socket : Socket} {remote : Address} (s : CoroFrameWork R)
    (hr : socket.remote = some remote) (h : Read p ndebug socket) :
    Outcome D p ndebug reg socket s (receive D p ndebug reg socket s) := by
  rw [receive_read hr h]
  by_cases hu : Undecodable D p reg s socket.header socket.payload
  · obtain ⟨f,hf,hd⟩ := dispatch_undecodable ndebug (peerAt remote) h.payload_length hu
    simpa [hd,Stop.isException,hf] using Outcome.undecodable hu
  by_cases ha : Addressed reg s socket.header
  · obtain ⟨s',hs,hd⟩ := dispatch_addressed ndebug (peerAt remote) hu ha
    simp only [hd]
    by_cases hsize : ndebug = true ∨ socket.payloadLen ≤ 96
    · rw [if_pos hsize]
      exact .closed s' ha.type hu (hsize.imp id (fun hn => ⟨hn,.inr ha⟩)) (iff_of_true hs ha)
    · rw [if_neg hsize]
      simp only [not_or,Bool.not_eq_true,Nat.not_le] at hsize
      exact .tooLong s' (.inr ha) hu hsize.1 hsize.2
  -- Nobody takes the message.
  cases ht : socket.header.getMessageType with
  | request =>
    obtain ⟨s',hs,hd⟩ := dispatch_request_unaddressed ndebug (peerAt remote) ht hu ha
    cases ndebug with
    | true =>
      rw [hd,check_pos (.inl rfl),lift_ok]
      simp only [true_or,if_true]
      exact .closed s' (by simp [ht]) hu (.inl rfl) (iff_of_false hs ha)
    | false =>
      rw [hd,check_neg (by simp),lift_error]
      exact .refused s' ht hu ha rfl
  | response =>
    rw [dispatch_response_unaddressed D p socket.payload ndebug (peerAt remote) ht ha]
    simp only
    by_cases hsize : ndebug = true ∨ socket.payloadLen ≤ 96
    · rw [if_pos hsize]
      exact .closed s (by simp [ht]) hu (hsize.imp id (fun hn => ⟨hn,.inl ht⟩))
        (iff_of_false (not_dispatched rfl rfl) ha)
    · rw [if_neg hsize]
      simp only [not_or,Bool.not_eq_true,Nat.not_le] at hsize
      exact .tooLong s (.inl ht) hu hsize.1 hsize.2
  | other =>
    have hd : dispatch D p ndebug reg socket.header (peerAt remote) socket.payload s =
        .error .abort s := by
      simp only [dispatch,ht]
      rfl
    rw [hd]
    exact .unknown ht

end NewRpc.Net
