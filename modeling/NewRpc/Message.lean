import NewRpc.PackageHeader
import NewRpc.RpcBase

/-!
The sending side: the argument encoder with its late header, and the response
that a root coroutine sends when it ends.
-/

set_option autoImplicit false

namespace NewRpc.Net
open Bytes Codec

def Stop.isException : Stop → Bool
  | .fault f => f.isException
  | .exception => true
  | _ => false

def check (ndebug : Bool) (a : Assertion) (holds : Bool) : Except Stop Unit :=
  if ndebug || holds then .ok () else .error (.assertion a)

/-- `NetBuffer(size)`. The bytes `new` returns are indeterminate; each is written
before it is read. -/
def newBuffer (p : Platform) (size : Nat) : Except Stop (List UInt8) :=
  if p.heap < size then .error .exception else .ok (List.replicate size 0)

def codec {σ α : Type} (r : EStateM.Result Fault σ α) : Except Stop (α × σ) :=
  match r with
  | .ok a s => .ok (a,s)
  | .error f _ => .error (.fault f)

def localBufferSize : Nat := 1024

def RpcBase.withArgs {R : Reflection} (p : Platform) (ndebug : Bool) (rpc : RpcBase R)
    (args : Members R rpc.sig.args) : Except Stop (RpcBase R) := do
  let headerSerializeSize := headerSize (PackageHeader.make 1 rpc.funcId 0 0 0)
  let totalSerializeSize := headerSerializeSize + membersSize args
  check ndebug .argumentsFit (totalSerializeSize.ble localBufferSize)
  let sendBuffer ← newBuffer p totalSerializeSize
  let (_,s) ← codec (serializeMembers p.endian sendBuffer.length args
    ⟨sendBuffer,headerSerializeSize⟩)
  check ndebug .argumentsWritten (s.pos == totalSerializeSize)
  pure { rpc with
    sendBuffer := s.buffer
    totalSerializeSize := totalSerializeSize }

def RpcBase.awaitSuspend {R : Reflection} (p : Platform) (ndebug : Bool) (rpc : RpcBase R)
    (coroutine : Nat) (coroId : Word .w64) (listenPort : Word .w16) :
    Except Stop (RpcBase R) := do
  let header := (PackageHeader.make 1 rpc.funcId coroId listenPort 0).setMessageType .request
  let headerSerializeSize := headerSize header
  let header := { header with
    payloadLen := BitVec.ofNat _ rpc.totalSerializeSize - BitVec.ofNat _ headerSerializeSize }
  let (_,s) ← codec (serializeHeader p.endian rpc.sendBuffer.length header ⟨rpc.sendBuffer,0⟩)
  check ndebug .headerWritten (s.pos == headerSerializeSize)
  pure { rpc with
    sendBuffer := s.buffer
    coroutine := some coroutine }

structure ResponseInfo where
  responseToEndPoint : EndPoint
  responseToCoroId : Word .w64
  responseRpcType : Word .w16
  deriving DecidableEq

def prepareBuffer (p : Platform) (ndebug : Bool) (info : ResponseInfo) (listenPort : Word .w16)
    (payloadLen : Nat) : Except Stop SerState := do
  let header := (PackageHeader.make 1 info.responseRpcType info.responseToCoroId listenPort
    (BitVec.ofNat _ payloadLen)).setMessageType .response
  let netBuffer ← newBuffer p (headerSize header + payloadLen)
  let (_,s) ← codec (serializeHeader p.endian netBuffer.length header ⟨netBuffer,0⟩)
  check ndebug .headerWritten (s.pos == headerSize header)
  pure s

/-- The response branch of `FinalAwaitable::await_suspend`: where the message goes
and its bytes. The function is `noexcept`, so an exception ends the process. -/
def sendResponse {R : Reflection} (p : Platform) (ndebug : Bool) (info : ResponseInfo)
    (listenPort : Word .w16) {t : Ty R.Name} (result : Val R t) :
    Except Stop (EndPoint × List UInt8) :=
  let sent : Except Stop (EndPoint × List UInt8) := do
    let s ← prepareBuffer p ndebug info listenPort (getSerializeSize result)
    let (_,s) ← codec (serialize p.endian s.buffer.length result s)
    pure (info.responseToEndPoint,s.buffer)
  match sent with
  | .error e => .error (if e.isException then .abort else e)
  | .ok message => .ok message

def requestHeader (funcId : Word .w16) (coroId : Word .w64) (listenPort : Word .w16)
    (payloadLen : Nat) : PackageHeader :=
  (PackageHeader.make 1 funcId coroId listenPort (BitVec.ofNat _ payloadLen)).setMessageType
    .request

def responseHeader (info : ResponseInfo) (listenPort : Word .w16) (payloadLen : Nat) :
    PackageHeader :=
  (PackageHeader.make 1 info.responseRpcType info.responseToCoroId listenPort
    (BitVec.ofNat _ payloadLen)).setMessageType .response

theorem check_pos {ndebug : Bool} {a : Assertion} {holds : Bool}
    (h : ndebug = true ∨ holds = true) : check ndebug a holds = .ok () := by
  simp [check,h]

theorem check_neg {ndebug : Bool} {a : Assertion} {holds : Bool}
    (h : ¬ (ndebug = true ∨ holds = true)) : check ndebug a holds = .error (.assertion a) := by
  simp [check,h]

theorem newBuffer_ok {p : Platform} {size : Nat} (h : size ≤ p.heap) :
    newBuffer p size = .ok (List.replicate size 0) := if_neg (by omega)

theorem newBuffer_error {p : Platform} {size : Nat} (h : p.heap < size) :
    newBuffer p size = .error .exception := if_pos h

theorem codec_ok {σ α : Type} {r : EStateM.Result Fault σ α} {a : α} {s : σ}
    (h : r = .ok a s) : codec r = .ok (a,s) := by rw [h]; rfl

theorem argumentBytes {R : Reflection} (p : Platform) {ts : List (Ty R.Name)}
    (args : Members R ts) (h : 32 + membersSize args ≤ p.heap) :
    serializeMembers p.endian (List.replicate (32 + membersSize args) (0 : UInt8)).length args
      ⟨List.replicate (32 + membersSize args) 0,(32 : Nat)⟩ =
      .ok () ⟨List.replicate 32 0 ++ encodeMembers args,(32 + membersSize args : Nat)⟩ := by
  have haddr := p.addressable
  have hend : splice (List.replicate (32 + membersSize args) 0) 32 (encodeMembers args) =
      List.replicate 32 0 ++ encodeMembers args := by
    rw [splice_end (by simp),List.take_replicate]
    congr 2
    omega
  rw [List.length_replicate,serializeMembers_writes p.endian _ args (by omega) _ (by simp)
    (by simp) (by simp) (by omega)]
  simp only [Int.toNat_natCast,hend,encodeMembers_length,Int.natCast_add]

def SizeAllowed (ndebug : Bool) (n : Nat) : Prop := ndebug = true ∨ n ≤ localBufferSize

theorem RpcBase.withArgs_tooLong {R : Reflection} (p : Platform) {ndebug : Bool} {rpc : RpcBase R}
    {args : Members R rpc.sig.args} (h : ¬ SizeAllowed ndebug (32 + membersSize args)) :
    rpc.withArgs p ndebug args = .error (.assertion .argumentsFit) := by
  have hc : check ndebug .argumentsFit ((32 + membersSize args).ble localBufferSize) = _ :=
    check_neg (by rw [Nat.ble_eq]; exact h)
  simp only [withArgs,headerSize_eq]
  rw [hc,Exec.error_bind]

theorem RpcBase.withArgs_eq {R : Reflection} (p : Platform) {ndebug : Bool} {rpc : RpcBase R}
    {args : Members R rpc.sig.args} (h : SizeAllowed ndebug (32 + membersSize args)) :
    rpc.withArgs p ndebug args = if p.heap < 32 + membersSize args then .error .exception
      else .ok { rpc with
        sendBuffer := List.replicate 32 0 ++ encodeMembers args
        totalSerializeSize := 32 + membersSize args } := by
  have hc : check ndebug .argumentsFit ((32 + membersSize args).ble localBufferSize) = _ :=
    check_pos (by rw [Nat.ble_eq]; exact h)
  simp only [withArgs,headerSize_eq]
  rw [hc,Exec.ok_bind]
  by_cases hheap : p.heap < 32 + membersSize args
  · rw [newBuffer_error hheap,Exec.error_bind,if_pos hheap]
  · rw [newBuffer_ok (by omega),Exec.ok_bind,codec_ok (argumentBytes p args (by omega)),
      Exec.ok_bind,check_pos (.inr (by simp)),Exec.ok_bind,if_neg hheap]
    rfl

theorem header_sub (n : Nat) : BitVec.ofNat (8 * Width.w64.sizeof) (32 + n) -
    BitVec.ofNat (8 * Width.w64.sizeof) 32 = BitVec.ofNat _ n := by
  rw [BitVec.ofNat_add,BitVec.add_comm,BitVec.add_sub_cancel]

theorem headerBytes (p : Platform) (header : PackageHeader) {block : List UInt8}
    (h : 32 ≤ block.length) (hmax : block.length < 2 ^ 63) :
    serializeHeader p.endian block.length header ⟨block,0⟩ =
      .ok () ⟨header.bytes ++ block.drop 32,(32 : Nat)⟩ := by
  rw [serializeHeader_writes p.endian _ header _ (by simp) (by simp; omega) (by simp) (by omega)]
  simp only [Int.toNat_zero,splice_zero,PackageHeader.bytes_length]
  rfl

theorem RpcBase.awaitSuspend_eq {R : Reflection} (p : Platform) (ndebug : Bool) (rpc : RpcBase R)
    (coroutine : Nat) (coroId : Word .w64) (listenPort : Word .w16) {n : Nat}
    (htotal : rpc.totalSerializeSize = 32 + n) (hlen : rpc.sendBuffer.length = 32 + n)
    (hmax : 32 + n < 2 ^ 63) :
    rpc.awaitSuspend p ndebug coroutine coroId listenPort = .ok { rpc with
      sendBuffer := (requestHeader rpc.funcId coroId listenPort n).bytes ++
        rpc.sendBuffer.drop 32
      coroutine := some coroutine } := by
  simp only [awaitSuspend,headerSize_eq,htotal]
  rw [header_sub,codec_ok (headerBytes p _ (by omega) (by omega)),Exec.ok_bind,
    check_pos (.inr (by simp)),Exec.ok_bind]
  rfl

/-- What `send_` is given: the header that names the call, and its arguments. -/
theorem RpcBase.request_bytes {R : Reflection} {p : Platform} {ndebug : Bool}
    {rpc built sent : RpcBase R} {args : Members R rpc.sig.args} {coroutine : Nat}
    {coroId : Word .w64} {listenPort : Word .w16} (hw : rpc.withArgs p ndebug args = .ok built)
    (hs : built.awaitSuspend p ndebug coroutine coroId listenPort = .ok sent) :
    sent.sendBuffer = (requestHeader rpc.funcId coroId listenPort (membersSize args)).bytes ++
        encodeMembers args ∧
      32 + membersSize args ≤ p.heap ∧ SizeAllowed ndebug (32 + membersSize args) := by
  have haddr := p.addressable
  by_cases hfit : SizeAllowed ndebug (32 + membersSize args)
  · rw [withArgs_eq p hfit] at hw
    by_cases hheap : p.heap < 32 + membersSize args
    · rw [if_pos hheap] at hw
      cases hw
    · rw [if_neg hheap] at hw
      cases hw
      have he := encodeMembers_length args
      rw [awaitSuspend_eq p ndebug _ coroutine coroId listenPort rfl
        (by rw [List.length_append,List.length_replicate,he]) (by omega)] at hs
      cases hs
      refine ⟨?_,by omega,hfit⟩
      simp
  · rw [withArgs_tooLong p hfit] at hw
    cases hw

theorem prepareBuffer_ok {p : Platform} (ndebug : Bool) (info : ResponseInfo)
    (listenPort : Word .w16) {payloadLen : Nat} (h : 32 + payloadLen ≤ p.heap) :
    prepareBuffer p ndebug info listenPort payloadLen = .ok
      ⟨(responseHeader info listenPort payloadLen).bytes ++ List.replicate payloadLen 0,
        (32 : Nat)⟩ := by
  have haddr := p.addressable
  have hrest : 32 + payloadLen - 32 = payloadLen := by omega
  simp only [prepareBuffer,headerSize_eq]
  rw [newBuffer_ok h,Exec.ok_bind,codec_ok (headerBytes p _ (by simp) (by simp; omega)),
    Exec.ok_bind,check_pos (.inr (by simp)),Exec.ok_bind,List.drop_replicate,hrest]
  rfl

theorem resultBytes {R : Reflection} (p : Platform) {front : List UInt8} (hf : front.length = 32)
    {t : Ty R.Name} (result : Val R t) (h : 32 + getSerializeSize result ≤ p.heap) :
    serialize p.endian (front ++ List.replicate (getSerializeSize result) (0 : UInt8)).length
      result ⟨front ++ List.replicate (getSerializeSize result) 0,(32 : Nat)⟩ =
      .ok () ⟨front ++ encode result,(32 + getSerializeSize result : Nat)⟩ := by
  have haddr := p.addressable
  have hend : splice (front ++ List.replicate (getSerializeSize result) 0) 32 (encode result) =
      front ++ encode result := by
    rw [splice_end (by simp [hf]),List.take_left' hf]
  rw [serialize_writes p.endian _ result (by omega) _ (by simp) (by simp [hf]) (by simp)
    (by simp [hf]; omega)]
  simp only [Int.toNat_natCast,hend,encode_length,Int.natCast_add]

theorem sendResponse_eq {R : Reflection} (p : Platform) (ndebug : Bool) (info : ResponseInfo)
    (listenPort : Word .w16) {t : Ty R.Name} (result : Val R t) :
    sendResponse p ndebug info listenPort result =
      if p.heap < 32 + getSerializeSize result then .error .abort
      else .ok (info.responseToEndPoint,
        (responseHeader info listenPort (getSerializeSize result)).bytes ++ encode result) := by
  by_cases hheap : p.heap < 32 + getSerializeSize result
  · simp only [sendResponse,prepareBuffer,headerSize_eq]
    rw [newBuffer_error hheap,if_pos hheap]
    rfl
  · have hle : 32 + getSerializeSize result ≤ p.heap := by omega
    have hp := prepareBuffer_ok ndebug info listenPort hle
    simp only [sendResponse,hp,Exec.ok_bind]
    rw [codec_ok (resultBytes p (by simp) result hle),if_neg hheap]
    rfl

end NewRpc.Net
