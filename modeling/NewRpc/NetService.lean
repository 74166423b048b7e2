import Mathlib.Logic.Function.Basic
import NewRpc.Message

/-!
The table of waiting calls, and the three sections of the network code that hold
its lock.
-/

set_option autoImplicit false

namespace NewRpc.Net
open Codec

structure MaintainInfo where
  coroutine : Nat
  coroRpcCallback : Nat
  deriving DecidableEq, Repr

/-- `calls` is the memory the awaiters live in; `coroRpcCallback` points into it. -/
structure NetService (R : Reflection) where
  listenPort : Word .w16
  waitingCoros : Word .w64 → Option MaintainInfo
  calls : Nat → RpcBase R

/-- `insert` keeps the entry it finds. -/
def NetService.insert {R : Reflection} (net : NetService R) (coroId : Word .w64)
    (info : MaintainInfo) : NetService R :=
  if (net.waitingCoros coroId).isSome then net
  else { net with waitingCoros := Function.update net.waitingCoros coroId (some info) }

def NetService.erase {R : Reflection} (net : NetService R) (coroId : Word .w64) : NetService R :=
  { net with waitingCoros := Function.update net.waitingCoros coroId none }

def NetService.setCall {R : Reflection} (net : NetService R) (c : Nat) (rpc : RpcBase R) :
    NetService R :=
  { net with calls := Function.update net.calls c rpc }

@[simp] theorem NetService.insert_calls {R : Reflection} (net : NetService R) (coroId : Word .w64)
    (info : MaintainInfo) : (net.insert coroId info).calls = net.calls := by
  unfold insert
  split <;> rfl

@[simp] theorem NetService.setCall_waitingCoros {R : Reflection} (net : NetService R) (c : Nat)
    (rpc : RpcBase R) : (net.setCall c rpc).waitingCoros = net.waitingCoros := rfl

@[simp] theorem NetService.setCall_calls {R : Reflection} (net : NetService R) (c : Nat)
    (rpc : RpcBase R) : (net.setCall c rpc).calls = Function.update net.calls c rpc := rfl

def NetService.respond {R : Reflection} (D : Defaults R) (p : Platform) (net : NetService R)
    (header : PackageHeader) (peer : EndPoint) (receivedBuffer : List UInt8) :
    Except Stop (NetService R × Option Nat) :=
  match net.waitingCoros header.rpcId with
  | none => .ok (net,none)
  | some info =>
      match (net.calls info.coroRpcCallback).processBufferCb D p (peer.setPort header.serverPort)
        receivedBuffer with
      | .error e => .error e
      | .ok (rpc,needAwak) =>
          let net := net.setCall info.coroRpcCallback rpc
          .ok (if needAwak.isSome then net.erase header.rpcId else net,needAwak)

def NetService.timeout {R : Reflection} (ndebug : Bool) (net : NetService R)
    (coroId : Word .w64) : Except Stop (NetService R × Option Nat) :=
  match net.waitingCoros coroId with
  | none => .ok (net,none)
  | some info => do
      let rpc := net.calls info.coroRpcCallback
      check ndebug .resultsComplete rpc.timeoutAssertion
      .ok ((net.setCall info.coroRpcCallback rpc.timeoutCb).erase coroId,some info.coroutine)

/-- A response for a coroutine that waits in no call changes nothing. -/
theorem NetService.respond_none {R : Reflection} {D : Defaults R} {p : Platform}
    {net : NetService R} {header : PackageHeader} {peer : EndPoint} {bytes : List UInt8}
    (h : net.waitingCoros header.rpcId = none) :
    net.respond D p header peer bytes = .ok (net,none) := by
  simp only [respond,h]

theorem NetService.respond_some {R : Reflection} {D : Defaults R} {p : Platform}
    {net : NetService R} {header : PackageHeader} {peer : EndPoint} {bytes : List UInt8}
    {info : MaintainInfo} (h : net.waitingCoros header.rpcId = some info) :
    net.respond D p header peer bytes =
      match decodeResult D p (net.calls info.coroRpcCallback).sig.ret bytes with
      | .error e => .error (.fault e)
      | .ok value =>
          let rpc := net.calls info.coroRpcCallback
          let needAwak := if rpc.finishes then rpc.coroutine else none
          let net := net.setCall info.coroRpcCallback
            (rpc.record (peer.setPort header.serverPort) value)
          .ok (if needAwak.isSome then net.erase header.rpcId else net,needAwak) := by
  simp only [respond,h,RpcBase.processBufferCb_eq]
  cases decodeResult D p (net.calls info.coroRpcCallback).sig.ret bytes <;> rfl

end NewRpc.Net
