import NewRpc.Logged
import NewRpc.Receive

/-!
The two read loops of `receive`, with a log of where in memory each read may store: what they
make of a stream does not depend on the pieces it comes in.
-/

set_option autoImplicit false

namespace NewRpc.Net
open Bytes Codec

inductive BufferRead where
  | call (bufferLen readIdx room : Nat)
  | stored (bufferLen readIdx n : Nat)
  deriving DecidableEq, Repr

def BufferRead.InBuffer : BufferRead → Prop
  | .call bufferLen readIdx room => 0 < room ∧ readIdx + room ≤ bufferLen
  | .stored bufferLen readIdx n => 0 < n ∧ readIdx + n ≤ bufferLen

abbrev ReadM := Logged BufferRead Stop Socket

def asyncRead (room : Nat) : EStateM Stop Socket (List UInt8) := fun socket =>
  match socket.asyncReadSome room with
  | .ok (bytes,socket) => .ok bytes socket
  | .error e => .error e socket

def asRead {α : Type} (x : Except Stop α) : EStateM Stop Socket α := fun socket =>
  match x with
  | .ok a => .ok a socket
  | .error e => .error e socket

def readLoopTraced (size : Nat) : Nat → List UInt8 → Nat → ReadM (List UInt8)
  | 0, data, _ => pure data
  | rounds+1, data, readIdx =>
      if readIdx < size then do
        Logged.note (fun _ => .call data.length readIdx (size - readIdx))
        let bytes ← Logged.lift (asyncRead (size - readIdx))
        Logged.note (fun _ => .stored data.length readIdx bytes.length)
        readLoopTraced size rounds (splice data readIdx bytes) (readIdx + bytes.length)
      else pure data

theorem asRead_eq_ok {α : Type} {x : Except Stop α} {socket socket' : Socket} {a : α}
    (h : asRead x socket = .ok a socket') : x = .ok a := by
  unfold asRead at h
  split at h
  · cases h
    rfl
  · cases h

theorem newBuffer_length {p : Platform} {size : Nat} {buf : List UInt8}
    (h : newBuffer p size = .ok buf) : size ≤ buf.length := by
  unfold newBuffer at h
  split at h
  · cases h
  · cases h
    simp

structure Message where
  headerBytes : List UInt8
  header : PackageHeader
  pos : Int
  payload : List UInt8

def readMessage (p : Platform) (ndebug : Bool) : ReadM Message := do
  let header := PackageHeader.default
  let headerLen := headerSize header
  let data ← readLoopTraced headerLen headerLen (List.replicate bufferSize 0) 0
  let (header,pos) ← Logged.lift (asRead
    (codec (deserializeHeader ⟨data,headerLen,p.endian,p.limit⟩ header 0)))
  let receivedBuffer ← Logged.lift (asRead (newBuffer p header.payloadLen.toNat))
  Logged.lift (asRead (check ndebug .checksum (header.checksum == PackageHeader.magicNumber)))
  let receivedBuffer ← readLoopTraced header.payloadLen.toNat header.payloadLen.toNat
    receivedBuffer 0
  pure ⟨data.take headerLen,header,pos,receivedBuffer⟩

def handOn {α : Type} (x : EStateM Stop Socket α) (socket : Socket) :
    Except Stop (α × Socket) :=
  match x socket with
  | .ok a socket => .ok (a,socket)
  | .error e _ => .error e

theorem handOn_ok {α β : Type} {x : EStateM Stop Socket α} {f : α → EStateM Stop Socket β}
    {socket socket' : Socket} {a : α} (h : x socket = .ok a socket') :
    handOn (x >>= f) socket = handOn (f a) socket' := by
  rw [handOn,handOn,Exec.bind_ok h]

theorem handOn_error {α β : Type} {x : EStateM Stop Socket α} {f : α → EStateM Stop Socket β}
    {socket socket' : Socket} {e : Stop} (h : x socket = .error e socket') :
    handOn (x >>= f) socket = .error e := by
  rw [handOn,Exec.bind_error h]

theorem asyncRead_ok {room : Nat} {socket socket' : Socket} {bytes : List UInt8}
    (h : socket.asyncReadSome room = .ok (bytes,socket')) :
    asyncRead room socket = .ok bytes socket' := by rw [asyncRead,h]

theorem asyncRead_error {room : Nat} {socket : Socket} {e : Stop}
    (h : socket.asyncReadSome room = .error e) :
    asyncRead room socket = .error e socket := by rw [asyncRead,h]

theorem readLoopTraced_erase (size rounds : Nat) (data : List UInt8) (readIdx : Nat)
    (socket : Socket) : handOn (readLoopTraced size rounds data readIdx).erase socket =
      readLoop size rounds data readIdx socket := by
  induction rounds generalizing data readIdx socket with
  | zero => rfl
  | succ rounds ih =>
    rw [readLoopTraced,readLoop]
    by_cases hlt : readIdx < size
    · rw [if_pos hlt,if_pos hlt]
      simp only [Logged.erase_bind,Logged.erase_note,Logged.erase_lift,pure_bind]
      cases h : socket.asyncReadSome (size - readIdx) with
      | error e =>
        rw [handOn_error (asyncRead_error h)]
        rfl
      | ok r =>
        obtain ⟨bytes,socket'⟩ := r
        rw [handOn_ok (asyncRead_ok h),Exec.ok_bind]
        exact ih ..
    · rw [if_neg hlt,if_neg hlt]
      rfl

theorem readLoopTraced_ok {size rounds readIdx : Nat} {data data' : List UInt8}
    {socket socket' : Socket}
    (h : readLoop size rounds data readIdx socket = .ok (data',socket')) :
    (readLoopTraced size rounds data readIdx).erase socket = .ok data' socket' := by
  rw [← readLoopTraced_erase] at h
  unfold handOn at h
  split at h
  · rename_i heq
    cases h
    exact heq
  · cases h

theorem readLoopTraced_error {size rounds readIdx : Nat} {data : List UInt8} {socket : Socket}
    {e : Stop} (h : readLoop size rounds data readIdx socket = .error e) :
    ∃ socket', (readLoopTraced size rounds data readIdx).erase socket = .error e socket' := by
  rw [← readLoopTraced_erase] at h
  unfold handOn at h
  split at h
  · cases h
  · rename_i e' socket' heq
    cases h
    exact ⟨socket',heq⟩

theorem asRead_ok {α : Type} {x : Except Stop α} {a : α} (socket : Socket) (h : x = .ok a) :
    asRead x socket = .ok a socket := by rw [h]; rfl

theorem asRead_error {α : Type} {x : Except Stop α} {e : Stop} (socket : Socket)
    (h : x = .error e) : asRead x socket = .error e socket := by rw [h]; rfl

/-- `receive` after the two loops that read a message. -/
def receiveRead {R : Reflection} (D : Defaults R) (p : Platform) (ndebug : Bool)
    (reg : Register R) (peer : EndPoint) (socket : Socket) : NetM R Unit := fun s =>
  match handOn (readMessage p ndebug).erase socket with
  | .error e => .error e s
  | .ok (m,_) => (do
      dispatch D p ndebug reg m.header peer m.payload
      lift (check ndebug .headerRead (m.pos == headerSize PackageHeader.default))
      lift (check ndebug .payloadLen
        (m.header.payloadLen.toNat.ble (bufferSize - headerSize PackageHeader.default)))
      : NetM R Unit) s

/-- `receive` reads a message and then dispatches it. -/
theorem receiveBody_reads {R : Reflection} (D : Defaults R) (p : Platform) (ndebug : Bool)
    (reg : Register R) (peer : EndPoint) (socket : Socket) (s : CoroFrameWork R) :
    receiveBody D p ndebug reg peer socket s = receiveRead D p ndebug reg peer socket s := by
  simp only [receiveBody,receiveRead,readMessage,Socket.readBytes,Logged.erase_bind,Logged.erase_lift]
  cases hdata : readLoop (headerSize PackageHeader.default) (headerSize PackageHeader.default)
      (List.replicate bufferSize 0) 0 socket with
  | error e =>
    obtain ⟨_,ht⟩ := readLoopTraced_error hdata
    rw [handOn_error ht,Exec.bind_error (lift_error e s)]
  | ok r =>
    obtain ⟨data,socket₁⟩ := r
    rw [handOn_ok (readLoopTraced_ok hdata),Exec.bind_ok (lift_ok _ s)]
    cases hheader : codec (deserializeHeader
        ⟨data,headerSize PackageHeader.default,p.endian,p.limit⟩ PackageHeader.default 0) with
    | error e =>
      simp only
      rw [handOn_error (asRead_error _ rfl),Exec.bind_error (lift_error e s)]
    | ok r =>
      obtain ⟨header,pos⟩ := r
      simp only
      rw [handOn_ok (asRead_ok _ rfl),Exec.bind_ok (lift_ok _ s)]
      cases hbuf : newBuffer p header.payloadLen.toNat with
      | error e =>
        simp only
        rw [handOn_error (asRead_error _ rfl),Exec.bind_error (lift_error e s)]
      | ok buf =>
        simp only
        rw [handOn_ok (asRead_ok _ rfl),Exec.bind_ok (lift_ok _ s)]
        cases hsum : check ndebug .checksum (header.checksum == PackageHeader.magicNumber) with
        | error e =>
          rw [handOn_error (asRead_error _ rfl),Exec.bind_error (lift_error e s)]
        | ok u =>
          rw [handOn_ok (asRead_ok _ rfl),Exec.bind_ok (lift_ok _ s)]
          cases hpay : readLoop header.payloadLen.toNat header.payloadLen.toNat buf 0 socket₁ with
          | error e =>
            obtain ⟨_,ht⟩ := readLoopTraced_error hpay
            rw [handOn_error ht,Exec.bind_error (lift_error e s)]
          | ok r =>
            obtain ⟨payload,socket₂⟩ := r
            rw [handOn_ok (readLoopTraced_ok hpay),Exec.bind_ok (lift_ok _ s)]
            rfl

theorem asyncRead_fits {room : Nat} {socket socket' : Socket} {bytes : List UInt8}
    (hroom : 0 < room) (h : asyncRead room socket = .ok bytes socket') :
    0 < bytes.length ∧ bytes.length ≤ room := by
  unfold asyncRead Socket.asyncReadSome at h
  by_cases hs : socket.stream = []
  · rw [if_pos hs] at h
    cases h
  · rw [if_neg hs] at h
    cases h
    have hlen := List.length_pos_iff.mpr hs
    rw [List.length_take]
    omega

theorem readLoopTraced_inBuffer {size : Nat} (rounds : Nat) {data : List UInt8} (readIdx : Nat)
    (socket : Socket) (hd : size ≤ data.length) :
    Logged.All BufferRead.InBuffer (readLoopTraced size rounds data readIdx) socket := by
  induction rounds generalizing data readIdx socket with
  | zero => exact Logged.all_pure _
  | succ rounds ih =>
    rw [readLoopTraced]
    by_cases hlt : readIdx < size
    · rw [if_pos hlt]
      refine .bind (Logged.all_note_iff.mpr ⟨by omega,by omega⟩) fun _ _ _ => ?_
      refine .bind (Logged.all_lift _) fun bytes t hread => ?_
      rw [Logged.erase_lift] at hread
      obtain ⟨hpos,hfits⟩ := asyncRead_fits (by omega) hread
      refine .bind (Logged.all_note_iff.mpr ⟨hpos,by omega⟩) fun _ _ _ => ?_
      exact ih _ _ (by rw [splice_length (by omega)]; exact hd)
    · rw [if_neg hlt]
      exact Logged.all_pure _

theorem readMessage_inBuffer (p : Platform) (ndebug : Bool) (socket : Socket) :
    Logged.All BufferRead.InBuffer (readMessage p ndebug) socket := by
  have hroom : headerSize PackageHeader.default ≤
      (List.replicate bufferSize (0 : UInt8)).length := by
    simp [headerSize_eq,bufferSize]
  refine .bind (readLoopTraced_inBuffer _ _ _ hroom) fun data t₁ _ => ?_
  refine .bind (Logged.all_lift _) fun r t₂ _ => ?_
  refine .bind (Logged.all_lift _) fun buf t₃ hbuf => ?_
  refine .bind (Logged.all_lift _) fun _ t₄ _ => ?_
  have hpayload := newBuffer_length (asRead_eq_ok hbuf)
  refine .bind (readLoopTraced_inBuffer _ _ _ hpayload) fun _ _ _ => ?_
  exact Logged.all_pure _

theorem readMessage_header {p : Platform} (ndebug : Bool) {socket : Socket}
    (hlong : 32 ≤ socket.stream.length)
    (hsum : socket.header.checksum = PackageHeader.magicNumber)
    (hheap : socket.payloadLen ≤ p.heap) :
    ∃ pace, handOn (readMessage p ndebug).erase socket = handOn (do
        let payload ← (readLoopTraced socket.payloadLen socket.payloadLen
          (List.replicate socket.payloadLen 0) 0).erase
        pure ⟨socket.stream.take 32,socket.header,(32 : Nat),payload⟩)
      ⟨socket.remote,socket.stream.drop 32,pace⟩ := by
  obtain ⟨pace,hread⟩ := socket.readBytes_full (List.replicate bufferSize 0)
    (show 32 ≤ _ by simp [bufferSize]) hlong
  have hlen : (socket.stream.take 32).length = 32 := by
    rw [List.length_take]
    omega
  have hparse : codec (deserializeHeader ⟨socket.stream.take 32 ++
      (List.replicate bufferSize 0).drop 32,(32 : Nat),p.endian,p.limit⟩
      PackageHeader.default 0) = .ok (socket.header,(32 : Nat)) :=
    codec_ok (deserializeHeader_parse hlen _)
  refine ⟨pace,?_⟩
  simp only [readMessage,Logged.erase_bind,Logged.erase_lift,headerSize_eq]
  rw [handOn_ok (readLoopTraced_ok hread),handOn_ok (asRead_ok _ hparse)]
  simp only
  rw [handOn_ok (asRead_ok _ (newBuffer_ok hheap)),
    handOn_ok (asRead_ok _ (check_pos (.inr (beq_iff_eq.mpr hsum)))),
    List.take_left' hlen]
  rfl

theorem readMessage_short {p : Platform} {ndebug : Bool} {socket : Socket}
    (hhead : 32 ≤ socket.stream.length →
      socket.header.checksum = PackageHeader.magicNumber ∧ socket.payloadLen ≤ p.heap)
    (h : socket.stream.length < 32 + socket.payloadLen) :
    handOn (readMessage p ndebug).erase socket = .error .exception := by
  by_cases hlong : 32 ≤ socket.stream.length
  · obtain ⟨hsum,hheap⟩ := hhead hlong
    obtain ⟨pace,hbody⟩ := readMessage_header ndebug hlong hsum hheap
    have hread : Socket.readBytes ⟨socket.remote,socket.stream.drop 32,pace⟩ socket.payloadLen
        (List.replicate socket.payloadLen 0) = .error .exception :=
      Socket.readBytes_short (by simp only [List.length_drop]; omega)
    obtain ⟨_,ht⟩ := readLoopTraced_error hread
    rw [hbody,handOn_error ht]
  · have hread : socket.readBytes 32 (List.replicate bufferSize 0) = .error .exception :=
      Socket.readBytes_short (by omega)
    obtain ⟨_,ht⟩ := readLoopTraced_error hread
    simp only [readMessage,Logged.erase_bind,headerSize_eq]
    rw [handOn_error ht]

theorem readMessage_full {p : Platform} (ndebug : Bool) {socket : Socket}
    (hsum : socket.header.checksum = PackageHeader.magicNumber)
    (hheap : socket.payloadLen ≤ p.heap)
    (h : 32 + socket.payloadLen ≤ socket.stream.length) :
    ∃ pace, handOn (readMessage p ndebug).erase socket =
      .ok (⟨socket.stream.take 32,socket.header,(32 : Nat),socket.payload⟩,
        ⟨socket.remote,socket.stream.drop (32 + socket.payloadLen),pace⟩) := by
  obtain ⟨pace,hbody⟩ := readMessage_header ndebug (by omega) hsum hheap
  obtain ⟨pace',hread⟩ := Socket.readBytes_full ⟨socket.remote,socket.stream.drop 32,pace⟩
    (List.replicate socket.payloadLen 0) (show socket.payloadLen ≤ _ by simp)
    (by simp only [List.length_drop]; omega)
  rw [hbody,handOn_ok (readLoopTraced_ok hread)]
  simp only [List.drop_replicate,Nat.sub_self,List.replicate_zero,List.append_nil,
    List.drop_drop]
  exact ⟨pace',rfl⟩

def Socket.Fails (p : Platform) (ndebug : Bool) (socket : Socket) : Prop :=
  ∃ e, handOn (readMessage p ndebug).erase socket = .error e

def Socket.Obtains (p : Platform) (ndebug : Bool) (socket : Socket)
    (headerBytes payload rest : List UInt8) : Prop :=
  ∃ m socket', handOn (readMessage p ndebug).erase socket = .ok (m,socket') ∧
    m.headerBytes = headerBytes ∧ m.payload = payload ∧ socket'.stream = rest

def Decodes (p : Platform) (stream : List UInt8) (header : PackageHeader) : Prop :=
  deserializeHeader ⟨slice stream 0 32,(32 : Nat),p.endian,p.limit⟩ PackageHeader.default 0 =
    .ok header (32 : Nat)

theorem decodes_iff {p : Platform} {socket : Socket} {header : PackageHeader}
    (hlong : 32 ≤ socket.stream.length) :
    Decodes p socket.stream header ↔ socket.header = header := by
  have hlen : (socket.stream.take 32).length = 32 := by
    rw [List.length_take]
    omega
  have hparse := deserializeHeader_parse (p := p) hlen []
  rw [List.append_nil] at hparse
  rw [Decodes,slice,List.drop_zero,hparse]
  simp [Socket.header]

theorem fails_iff {p : Platform} {ndebug : Bool} {socket : Socket} {header : PackageHeader}
    (hhead : 32 ≤ socket.stream.length → Decodes p socket.stream header ∧
      header.checksum = PackageHeader.magicNumber ∧ header.payloadLen.toNat ≤ p.heap) :
    socket.Fails p ndebug ↔ socket.stream.length < 32 + header.payloadLen.toNat := by
  by_cases hlong : 32 ≤ socket.stream.length
  · obtain ⟨hdec,hsum,hheap⟩ := hhead hlong
    obtain rfl := (decodes_iff hlong).mp hdec
    constructor
    · rintro ⟨e,he⟩
      refine Classical.byContradiction fun hcut => ?_
      obtain ⟨_,hfull⟩ := readMessage_full ndebug hsum hheap (Nat.le_of_not_lt hcut)
      rw [hfull] at he
      cases he
    · intro hcut
      exact ⟨_,readMessage_short (fun _ => ⟨hsum,hheap⟩) hcut⟩
  · have hshort : socket.stream.length < 32 := by omega
    exact iff_of_true ⟨_,readMessage_short (fun h => absurd h hlong) (by omega)⟩ (by omega)

theorem obtains_message {p : Platform} {ndebug : Bool} {socket : Socket} {header : PackageHeader}
    (hhead : 32 ≤ socket.stream.length → Decodes p socket.stream header ∧
      header.checksum = PackageHeader.magicNumber ∧ header.payloadLen.toNat ≤ p.heap)
    (h : ¬ socket.Fails p ndebug) :
    socket.Obtains p ndebug (slice socket.stream 0 32)
      (slice socket.stream 32 header.payloadLen.toNat)
      (socket.stream.drop (32 + header.payloadLen.toNat)) := by
  rw [fails_iff hhead] at h
  obtain ⟨hdec,hsum,hheap⟩ := hhead (by omega)
  obtain rfl := (decodes_iff (by omega)).mp hdec
  obtain ⟨pace,hfull⟩ := readMessage_full ndebug hsum hheap (Nat.le_of_not_lt h)
  exact ⟨_,_,hfull,rfl,rfl,rfl⟩

/-- However a stream is cut into reads, the loops fail alike or obtain the same message. -/
theorem reads_ignore_pace (p : Platform) (ndebug : Bool) (remote : Option Address)
    (stream : List UInt8) (header : PackageHeader)
    (hhead : 32 ≤ stream.length → Decodes p stream header ∧
      header.checksum = PackageHeader.magicNumber ∧ header.payloadLen.toNat ≤ p.heap)
    (pace₁ pace₂ : List Nat) :
    let run₁ : Socket := ⟨remote,stream,pace₁⟩
    let run₂ : Socket := ⟨remote,stream,pace₂⟩
    let headerBytes := slice stream 0 32
    let payload := slice stream 32 header.payloadLen.toNat
    let rest := stream.drop (32 + header.payloadLen.toNat)
    (∀ (R : Reflection) (D : Defaults R) (reg : Register R) (peer : EndPoint)
        (s : CoroFrameWork R),
      receiveBody D p ndebug reg peer run₁ s = receiveRead D p ndebug reg peer run₁ s ∧
        receiveBody D p ndebug reg peer run₂ s = receiveRead D p ndebug reg peer run₂ s) ∧
    (Logged.All BufferRead.InBuffer (readMessage p ndebug) run₁ ∧
      Logged.All BufferRead.InBuffer (readMessage p ndebug) run₂) ∧
    (run₁.Fails p ndebug ↔ run₂.Fails p ndebug) ∧
    (run₁.Fails p ndebug ↔ stream.length < 32 + header.payloadLen.toNat) ∧
    (¬ run₁.Fails p ndebug → run₁.Obtains p ndebug headerBytes payload rest ∧
      run₂.Obtains p ndebug headerBytes payload rest) := by
  intro run₁ run₂ headerBytes payload rest
  have hfails₁ : run₁.Fails p ndebug ↔ stream.length < 32 + header.payloadLen.toNat :=
    fails_iff hhead
  have hfails₂ : run₂.Fails p ndebug ↔ stream.length < 32 + header.payloadLen.toNat :=
    fails_iff hhead
  have halike : run₁.Fails p ndebug ↔ run₂.Fails p ndebug := hfails₁.trans hfails₂.symm
  refine ⟨fun R D reg peer s => ⟨receiveBody_reads D p ndebug reg peer run₁ s,
    receiveBody_reads D p ndebug reg peer run₂ s⟩,
    ⟨readMessage_inBuffer p ndebug run₁,readMessage_inBuffer p ndebug run₂⟩,halike,
    hfails₁,fun h => ⟨obtains_message hhead h,obtains_message hhead ?_⟩⟩
  rwa [← halike]

def twoBytes : PackageHeader := PackageHeader.make 0 5 7 9000 2

theorem twoBytes_obtained :
    (⟨none,twoBytes.bytes ++ [10,11,1],[1,5,100,1]⟩ : Socket).Obtains .small false twoBytes.bytes
      [10,11] [1] ∧
    (⟨none,twoBytes.bytes ++ [10,11,1],[]⟩ : Socket).Obtains .small false twoBytes.bytes
      [10,11] [1] := by
  obtain ⟨-,-,-,hfails,hobtains⟩ := reads_ignore_pace .small false none
    (twoBytes.bytes ++ [10,11,1]) twoBytes
    (fun _ => ⟨by rfl,rfl,by decide⟩) [1,5,100,1] []
  exact hobtains (fun h => absurd (hfails.mp h) (by decide))

end NewRpc.Net
