import NewRpc.NetDefine
import NewRpc.DecodeSafety

/-!
The call object of one `co_rpc`: its endpoints with their answered flags, its
results, and the two callbacks the network thread runs on it.
-/

set_option autoImplicit false

namespace NewRpc.Net
open Bytes Codec

structure Signature (R : Reflection) where
  args : List (Ty R.Name)
  ret : Ty R.Name

structure Platform where
  endian : Endian
  limit : Nat
  heap : Nat
  addressable : heap + limit < 2 ^ 63

def Platform.small : Platform := ⟨.little,256,2048,by decide⟩

inductive Assertion where
  | argumentsFit | argumentsWritten | headerWritten | resultsComplete
  | checksum | committed | headerRead | payloadLen
  deriving DecidableEq, Repr

/-- The ways out of the network code other than returning: a fault of the codec (an
exception when it is `outOfRange` or `lengthError`), any other exception, a failed
`assert` and `std::abort`. -/
inductive Stop where
  | fault (f : Fault)
  | exception
  | assertion (a : Assertion)
  | abort
  deriving DecidableEq, Repr

structure RpcBase (R : Reflection) where
  sig : Signature R
  funcId : Word .w16
  endpoints : List (EndPoint × Bool)
  finishCondition : FinishCondition
  /-- The builder offers no way to ask for `INVALID`. -/
  finishValid : finishCondition ≠ .invalid
  timeout : Word .w64
  sendBuffer : List UInt8
  totalSerializeSize : Nat
  receivedResults : List (EndPoint × Except Error (Val R sig.ret))
  onEachFunction : Option (EndPoint → Val R sig.ret → Bool → Val R sig.ret × Bool)
  coroutine : Option Nat

def RpcBase.init {R : Reflection} (sig : Signature R) (funcId : Word .w16) : RpcBase R where
  sig := sig
  funcId := funcId
  endpoints := []
  finishCondition := .whenAll
  finishValid := by simp
  timeout := 1000000000
  sendBuffer := []
  totalSerializeSize := 0
  receivedResults := []
  onEachFunction := none
  coroutine := none

def RpcBase.on {R : Reflection} (rpc : RpcBase R) (eps : List EndPoint) : RpcBase R :=
  { rpc with endpoints := rpc.endpoints ++ eps.map (fun ep => (ep,false)) }

/-- The search stops at the first endpoint equal to the peer, answered or not. -/
def markAnswered (peer : EndPoint) : List (EndPoint × Bool) → List (EndPoint × Bool)
  | [] => []
  | (ep,answered) :: eps =>
      if ep.eq peer then (ep,true) :: eps else (ep,answered) :: markAnswered peer eps

def FinishCondition.met (size total : Nat) : FinishCondition → Option Bool
  | .whenAny => some true
  | .whenAll => some (size == total)
  | .whenMajority => some (size == total / 2 + 1)
  | .invalid => none

abbrev Platform.input (p : Platform) (netBuffer : List UInt8) : Input :=
  ⟨netBuffer,netBuffer.length,p.endian,p.limit⟩

def decodeResult {R : Reflection} (D : Defaults R) (p : Platform) (t : Ty R.Name)
    (netBuffer : List UInt8) : Except Fault (Val R t) :=
  match deserialize D (p.input netBuffer) t (Val.fresh D t) 0 with
  | .ok v _ => .ok v
  | .error e _ => .error e

def RpcBase.processBufferCb {R : Reflection} (D : Defaults R) (p : Platform) (rpc : RpcBase R)
    (peer : EndPoint) (netBuffer : List UInt8) : Except Stop (RpcBase R × Option Nat) :=
  let total := rpc.endpoints.length
  match decodeResult D p rpc.sig.ret netBuffer with
  | .error e => .error (.fault e)
  | .ok value =>
      let left : Val R rpc.sig.ret × Bool := match rpc.onEachFunction with
        | some f => f peer value false
        | none => (value,false)
      let rpc : RpcBase R := { rpc with
        receivedResults := rpc.receivedResults ++ [(peer,.ok left.1)]
        endpoints := markAnswered peer rpc.endpoints }
      -- `left.2`, which the callback may have raised, is overwritten here.
      match rpc.finishCondition.met rpc.receivedResults.length total with
      | none => .error .abort
      | some needAwaken => .ok (rpc,if needAwaken then rpc.coroutine else none)

def RpcBase.timeoutCb {R : Reflection} (rpc : RpcBase R) : RpcBase R :=
  { rpc with receivedResults := rpc.receivedResults ++
      (rpc.endpoints.filter (fun e => !e.2)).map (fun e => (e.1,.error .rpcTimeout)) }

def RpcBase.timeoutAssertion {R : Reflection} (rpc : RpcBase R) : Bool :=
  rpc.timeoutCb.receivedResults.length == rpc.timeoutCb.endpoints.length

def RpcBase.shown {R : Reflection} (rpc : RpcBase R) (peer : EndPoint) (value : Val R rpc.sig.ret) :
    Val R rpc.sig.ret :=
  match rpc.onEachFunction with
  | some f => (f peer value false).1
  | none => value

def RpcBase.record {R : Reflection} (rpc : RpcBase R) (peer : EndPoint)
    (value : Val R rpc.sig.ret) : RpcBase R :=
  { rpc with
    receivedResults := rpc.receivedResults ++ [(peer,.ok (rpc.shown peer value))]
    endpoints := markAnswered peer rpc.endpoints }

def RpcBase.finishes {R : Reflection} (rpc : RpcBase R) : Bool :=
  (rpc.finishCondition.met (rpc.receivedResults.length + 1) rpc.endpoints.length).getD false

theorem RpcBase.processBufferCb_eq {R : Reflection} (D : Defaults R) (p : Platform)
    (rpc : RpcBase R) (peer : EndPoint) (netBuffer : List UInt8) :
    rpc.processBufferCb D p peer netBuffer =
      match decodeResult D p rpc.sig.ret netBuffer with
      | .error e => .error (.fault e)
      | .ok value => .ok (rpc.record peer value,if rpc.finishes then rpc.coroutine else none) := by
  cases hd : decodeResult D p rpc.sig.ret netBuffer with
  | error e => simp [processBufferCb,hd]
  | ok value =>
    have hv := rpc.finishValid
    cases hf : rpc.finishCondition with
    | invalid => exact absurd hf hv
    | _ => cases ho : rpc.onEachFunction <;>
        simp [processBufferCb,hd,record,shown,finishes,hf,ho,FinishCondition.met]

theorem RpcBase.processBufferCb_ok {R : Reflection} {D : Defaults R} {p : Platform}
    {rpc rpc' : RpcBase R} {peer : EndPoint} {netBuffer : List UInt8} {c : Option Nat}
    (h : rpc.processBufferCb D p peer netBuffer = .ok (rpc',c)) :
    ∃ value, decodeResult D p rpc.sig.ret netBuffer = .ok value ∧
      rpc' = rpc.record peer value ∧ c = if rpc.finishes then rpc.coroutine else none := by
  rw [processBufferCb_eq] at h
  cases hd : decodeResult D p rpc.sig.ret netBuffer with
  | error e => simp [hd] at h
  | ok value =>
    simp only [hd,Except.ok.injEq,Prod.mk.injEq] at h
    exact ⟨value,rfl,h.1.symm,h.2.symm⟩

@[simp] theorem markAnswered_length (peer : EndPoint) (eps : List (EndPoint × Bool)) :
    (markAnswered peer eps).length = eps.length := by
  induction eps with
  | nil => rfl
  | cons e eps ih => by_cases h : e.1.eq peer <;> simp [markAnswered,h,ih]

@[simp] theorem markAnswered_endpoints (peer : EndPoint) (eps : List (EndPoint × Bool)) :
    (markAnswered peer eps).map (fun e => e.1) = eps.map (fun e => e.1) := by
  induction eps with
  | nil => rfl
  | cons e eps ih => by_cases h : e.1.eq peer <;> simp [markAnswered,h,ih]

end NewRpc.Net
