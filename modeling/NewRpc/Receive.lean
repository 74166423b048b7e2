import NewRpc.NetService
import NewRpc.Socket

/-!
`NetService::receive`: one connection, from its first byte to the way it ends.
-/

set_option autoImplicit false

namespace NewRpc.Net
open Bytes Codec

abbrev Register (R : Reflection) := Word .w16 → Option (Signature R)

structure RequestTask (R : Reflection) where
  sig : Signature R
  args : Members R sig.args
  responseInfo : ResponseInfo

inductive Ready (R : Reflection) where
  | root (task : RequestTask R)
  | frame (coroutine : Nat)

structure CoroFrameWork (R : Reflection) where
  net : NetService R
  stopFlag : Bool
  runningCoroCnt : Nat
  coroutineQueue : List (Ready R)
  created : List (RequestTask R)

def CoroFrameWork.enqueue {R : Reflection} (s : CoroFrameWork R) (r : Ready R) : CoroFrameWork R :=
  { s with coroutineQueue := s.coroutineQueue ++ [r] }

def CoroFrameWork.create {R : Reflection} (s : CoroFrameWork R) (task : RequestTask R) :
    CoroFrameWork R :=
  { s with created := s.created ++ [task] }

def CoroFrameWork.commit {R : Reflection} (s : CoroFrameWork R) (task : RequestTask R) :
    CoroFrameWork R × Except Error Unit :=
  if s.stopFlag then (s,.error .hasBeenStopped)
  else ({ s with runningCoroCnt := s.runningCoroCnt + 1 }.enqueue (.root task),.ok ())

theorem CoroFrameWork.commit_stopped {R : Reflection} {s : CoroFrameWork R}
    (task : RequestTask R) (h : s.stopFlag = true) :
    s.commit task = (s,.error .hasBeenStopped) := by simp [commit,h]

theorem CoroFrameWork.commit_running {R : Reflection} {s : CoroFrameWork R}
    (task : RequestTask R) (h : s.stopFlag = false) : s.commit task =
      ({ s with runningCoroCnt := s.runningCoroCnt + 1 }.enqueue (.root task),.ok ()) := by
  simp [commit,h]

@[simp] theorem CoroFrameWork.commit_created {R : Reflection} (s : CoroFrameWork R)
    (task : RequestTask R) : (s.commit task).1.created = s.created := by
  unfold commit
  split <;> rfl

abbrev NetM (R : Reflection) := EStateM Stop (CoroFrameWork R)

def lift {R : Reflection} {α : Type} (x : Except Stop α) : NetM R α := fun s =>
  match x with
  | .ok a => .ok a s
  | .error e => .error e s

def deserializeArgs {R : Reflection} (D : Defaults R) (inp : Input) (ts : List (Ty R.Name)) :
    DesM (Members R ts) :=
  deserializeMembers (deserialize D inp) (Members.fresh D ts)

def decodeArgs {R : Reflection} (D : Defaults R) (p : Platform) (ts : List (Ty R.Name))
    (serializedData : List UInt8) : Except Fault (Members R ts) :=
  match deserializeArgs D (p.input serializedData) ts 0 with
  | .ok args _ => .ok args
  | .error e _ => .error e

def reflectCommitFunction {R : Reflection} (D : Defaults R) (p : Platform) (reg : Register R)
    (header : PackageHeader) (endpoint : EndPoint) (serializedData : List UInt8) :
    NetM R (Except Error Unit) := fun s =>
  match reg header.rpcType with
  | none => .ok (.error .functionNotReflected) s
  | some sig =>
      let serverEndpoint := endpoint.setPort header.serverPort
      match decodeArgs D p sig.args serializedData with
      | .error e => .error (.fault e) s
      | .ok args =>
          let task : RequestTask R := ⟨sig,args,⟨serverEndpoint,header.rpcId,header.rpcType⟩⟩
          let (s,ret) := (s.create task).commit task
          .ok ret s

def bufferSize : Nat := 128

def dispatch {R : Reflection} (D : Defaults R) (p : Platform) (ndebug : Bool) (reg : Register R)
    (header : PackageHeader) (peer : EndPoint) (receivedBuffer : List UInt8) : NetM R Unit :=
  match header.getMessageType with
  | .request => do
      let ret ← reflectCommitFunction D p reg header peer receivedBuffer
      lift (check ndebug .committed ret.isOk)
  | .response => do
      let s ← get
      let (net,needAwak) ← lift (s.net.respond D p header peer receivedBuffer)
      set { s with net := net }
      match needAwak with
      | none => pure ()
      | some coroutine => modify (fun s => s.enqueue (.frame coroutine))
  | .other => throw .abort

def receiveBody {R : Reflection} (D : Defaults R) (p : Platform) (ndebug : Bool)
    (reg : Register R) (peer : EndPoint) (socket : Socket) : NetM R Unit := do
  let header := PackageHeader.default
  let headerLen := headerSize header
  let (data,socket) ← lift (socket.readBytes headerLen (List.replicate bufferSize 0))
  let (header,pos) ← lift (codec (deserializeHeader ⟨data,headerLen,p.endian,p.limit⟩ header 0))
  let receivedBuffer ← lift (newBuffer p header.payloadLen.toNat)
  lift (check ndebug .checksum (header.checksum == PackageHeader.magicNumber))
  let (receivedBuffer,_) ← lift (socket.readBytes header.payloadLen.toNat receivedBuffer)
  dispatch D p ndebug reg header peer receivedBuffer
  lift (check ndebug .headerRead (pos == headerLen))
  lift (check ndebug .payloadLen (header.payloadLen.toNat.ble (bufferSize - headerLen)))

inductive Finish where
  | closed
  | dropped
  | died (stop : Stop)
  deriving DecidableEq, Repr

/-- `remote_endpoint` is called outside the `try` block: its exception leaves the
coroutine, is discarded, and the socket is closed by its destructor. -/
def receive {R : Reflection} (D : Defaults R) (p : Platform) (ndebug : Bool) (reg : Register R)
    (socket : Socket) (s : CoroFrameWork R) : Finish × CoroFrameWork R :=
  match socket.remote with
  | none => (.dropped,s)
  | some remote =>
      match receiveBody D p ndebug reg (peerAt remote) socket s with
      | .ok _ s => (.closed,s)
      | .error e s => (if e.isException then .dropped else .died e,s)

@[simp] theorem lift_ok {R : Reflection} {α : Type} (a : α) (s : CoroFrameWork R) :
    lift (.ok a) s = .ok a s := rfl

@[simp] theorem lift_error {R : Reflection} {α : Type} (e : Stop) (s : CoroFrameWork R) :
    lift (.error e : Except Stop α) s = .error e s := rfl

theorem Socket.readBytes_short {socket : Socket} {size : Nat} {data : List UInt8}
    (h : socket.stream.length < size) : socket.readBytes size data = .error .exception :=
  readLoop_short (by omega) (by omega)

theorem Socket.readBytes_full (socket : Socket) {size : Nat} (data : List UInt8)
    (hd : size ≤ data.length) (h : size ≤ socket.stream.length) :
    ∃ pace, socket.readBytes size data = .ok (socket.stream.take size ++ data.drop size,
      ⟨socket.remote,socket.stream.drop size,pace⟩) := by
  obtain ⟨pace,hp⟩ := @readLoop_full size size 0 data socket (by omega) (Nat.zero_le _) hd
    (by omega)
  have hl : (socket.stream.take size).length = size := by
    rw [List.length_take]
    omega
  rw [Nat.sub_zero,splice_zero,hl] at hp
  exact ⟨pace,hp⟩

def Socket.header (socket : Socket) : PackageHeader := PackageHeader.parse (socket.stream.take 32)

abbrev Socket.payloadLen (socket : Socket) : Nat := socket.header.payloadLen.toNat

def Socket.payload (socket : Socket) : List UInt8 := slice socket.stream 32 socket.payloadLen

theorem deserializeHeader_parse {p : Platform} {bytes : List UInt8} (h : bytes.length = 32)
    (rest : List UInt8) :
    deserializeHeader ⟨bytes ++ rest,(32 : Nat),p.endian,p.limit⟩ PackageHeader.default 0 =
      .ok (PackageHeader.parse bytes) (32 : Nat) := by
  have hp := PackageHeader.bytes_parse h
  have hs : Input.Sound ⟨bytes ++ rest,(32 : Nat),p.endian,p.limit⟩ := by
    refine ⟨?_,by simp⟩
    simp only [List.length_append,h]
    omega
  have hr := deserializeHeader_reads hs (PackageHeader.parse bytes) PackageHeader.default 0
  rw [hp] at hr
  rw [hr ⟨Int.le_refl 0,by simp [h],by simp [slice]⟩,h]
  rfl

theorem receiveBody_short {R : Reflection} {D : Defaults R} {p : Platform} {ndebug : Bool}
    {reg : Register R} {peer : EndPoint} {socket : Socket} {s : CoroFrameWork R}
    (h : socket.stream.length < 32) :
    receiveBody D p ndebug reg peer socket s = .error .exception s := by
  simp only [receiveBody,headerSize_eq]
  rw [Socket.readBytes_short h,Exec.bind_error (lift_error _ s)]

theorem receiveBody_header {R : Reflection} (D : Defaults R) (p : Platform) (ndebug : Bool)
    (reg : Register R) (peer : EndPoint) {socket : Socket} (s : CoroFrameWork R)
    (h : 32 ≤ socket.stream.length) : ∃ pace,
    receiveBody D p ndebug reg peer socket s =
      (do
        let receivedBuffer ← lift (newBuffer p socket.payloadLen)
        lift (check ndebug .checksum (socket.header.checksum == PackageHeader.magicNumber))
        let (receivedBuffer,_) ← lift (Socket.readBytes
          ⟨socket.remote,socket.stream.drop 32,pace⟩ socket.payloadLen receivedBuffer)
        dispatch D p ndebug reg socket.header peer receivedBuffer
        lift (check ndebug .headerRead true)
        lift (check ndebug .payloadLen (socket.payloadLen.ble 96)) : NetM R Unit) s := by
  obtain ⟨pace,hp⟩ := socket.readBytes_full (List.replicate bufferSize 0)
    (show 32 ≤ _ by simp [bufferSize]) h
  have hl : (socket.stream.take 32).length = 32 := by
    rw [List.length_take]
    omega
  refine ⟨pace,?_⟩
  simp only [receiveBody,headerSize_eq]
  rw [hp,Exec.bind_ok (lift_ok _ s)]
  simp only
  rw [codec_ok (deserializeHeader_parse hl _),Exec.bind_ok (lift_ok _ s)]
  rfl

/-- `receive` up to the point where the payload is in memory, and what it does then. -/
theorem receiveBody_eq {R : Reflection} (D : Defaults R) (p : Platform) (ndebug : Bool)
    (reg : Register R) (peer : EndPoint) (socket : Socket) (s : CoroFrameWork R) :
    receiveBody D p ndebug reg peer socket s =
      if socket.stream.length < 32 then .error .exception s
      else if p.heap < socket.payloadLen then .error .exception s
      else if ¬ (ndebug = true ∨ socket.header.checksum = PackageHeader.magicNumber) then
        .error (.assertion .checksum) s
      else if socket.stream.length < 32 + socket.payloadLen then .error .exception s
      else (do
        dispatch D p ndebug reg socket.header peer socket.payload
        lift (check ndebug .payloadLen (socket.payloadLen.ble 96)) : NetM R Unit) s := by
  by_cases hshort : socket.stream.length < 32
  · rw [if_pos hshort,receiveBody_short hshort]
  obtain ⟨pace,hbody⟩ := receiveBody_header D p ndebug reg peer s
    (show 32 ≤ socket.stream.length by omega)
  rw [if_neg hshort,hbody]
  by_cases hheap : p.heap < socket.payloadLen
  · rw [if_pos hheap,newBuffer_error hheap,Exec.bind_error (lift_error _ s)]
  rw [if_neg hheap,newBuffer_ok (by omega),Exec.bind_ok (lift_ok _ s)]
  by_cases hsum : ndebug = true ∨ socket.header.checksum = PackageHeader.magicNumber
  · rw [if_neg (not_not_intro hsum),check_pos (by simpa using hsum),Exec.bind_ok (lift_ok _ s)]
    by_cases hcut : socket.stream.length < 32 + socket.payloadLen
    · rw [if_pos hcut,Socket.readBytes_short (by simp only [List.length_drop]; omega),
        Exec.bind_error (lift_error _ s)]
    · obtain ⟨pace',hpay⟩ := Socket.readBytes_full ⟨socket.remote,socket.stream.drop 32,pace⟩
        (List.replicate socket.payloadLen 0) (show socket.payloadLen ≤ _ by simp)
        (by simp only [List.length_drop]; omega)
      rw [if_neg hcut,hpay,Exec.bind_ok (lift_ok _ s)]
      simp only [List.drop_replicate,Nat.sub_self,List.replicate_zero,List.append_nil]
      rw [check_pos (.inr rfl)]
      rfl
  · rw [if_pos hsum,check_neg (by simpa using hsum),Exec.bind_error (lift_error _ s)]

end NewRpc.Net
