import NewRpc.Calls

/-!
The network thread and the chains of coroutines that call: registrations on the one
side, responses and timers on the other, the commits between them, and the end of the
thread.
-/

set_option autoImplicit false

namespace NewRpc.Net
open Codec

inductive Phase where
  | running
  | stopped
  | ended
  deriving DecidableEq, Repr

/-- What happens to calls: the `insert` of a call, with what it finds, a callback on a call
object, and the commit of a frame, with the call that its chain is suspended in. -/
inductive Note where
  | insert (c : Nat) (found : Bool)
  | callback (c : Nat)
  | commit (frame : Nat) (call : Option Nat)
  deriving DecidableEq, Repr

/-- `chain` is the call a chain is suspended in. `caller` and `frame` are the chain and the
frame of a call, `timers` has the ids of the `timeout_` tasks, and `needAwak` is the
coroutine that was erased from the table but not committed yet. -/
structure NetThread (R : Reflection) where
  net : NetService R
  chain : Word .w64 → Option Nat
  count : Nat
  caller : Nat → Word .w64
  frame : Nat → Nat
  timers : List (Word .w64)
  needAwak : Option Nat
  ready : List Nat
  phase : Phase
  history : List Note

inductive NetEvent (R : Reflection) where
  | call (coroId : Word .w64) (rpc : Awaited R)
  | receive (header : PackageHeader) (peer : EndPoint) (payload : List UInt8)
  | expire (coroId : Word .w64)
  | commit
  | resume (frame : Nat)
  | stop
  | finish

def NetThread.call {R : Reflection} (s : NetThread R) (coroId : Word .w64) (rpc : Awaited R) :
    NetThread R :=
  { s with
    net := (s.net.setCall s.count rpc.toRpcBase).insert coroId ⟨rpc.frame,s.count⟩
    chain := Function.update s.chain coroId (some s.count)
    count := s.count + 1
    caller := Function.update s.caller s.count coroId
    frame := Function.update s.frame s.count rpc.frame
    timers := s.timers ++ [coroId]
    history := s.history ++ [.insert s.count (s.net.waitingCoros coroId).isSome] }

def NetThread.callbacks {R : Reflection} (s : NetThread R) (coroId : Word .w64) : List Note :=
  match s.net.waitingCoros coroId with
  | none => []
  | some info => [.callback info.coroRpcCallback]

def NetThread.receive {R : Reflection} (D : Defaults R) (p : Platform) (s : NetThread R)
    (header : PackageHeader) (peer : EndPoint) (payload : List UInt8) : Option (NetThread R) :=
  let history := s.history ++ s.callbacks header.rpcId
  match s.net.respond D p header peer payload with
  | .error e => if e.isException then some { s with history := history } else none
  | .ok (net,needAwak) => some { s with net := net, needAwak := needAwak, history := history }

def NetThread.expire {R : Reflection} (ndebug : Bool) (s : NetThread R) (coroId : Word .w64) :
    Option (NetThread R) :=
  match s.net.timeout ndebug coroId with
  | .error _ => none
  | .ok (net,needAwak) => some { s with
      net := net
      needAwak := needAwak
      timers := s.timers.erase coroId
      history := s.history ++ s.callbacks coroId }

def NetThread.commit {R : Reflection} (owner : Nat → Word .w64) (s : NetThread R) (f : Nat) :
    NetThread R :=
  { s with
    needAwak := none
    ready := s.ready ++ [f]
    history := s.history ++ [.commit f (s.chain (owner f))] }

def NetThread.resume {R : Reflection} (owner : Nat → Word .w64) (s : NetThread R) (f : Nat) :
    NetThread R :=
  { s with
    chain := Function.update s.chain (owner f) none
    ready := s.ready.erase f }

def NetThread.free {R : Reflection} (s : NetThread R) : Prop :=
  s.phase ≠ .ended ∧ s.needAwak = none

instance {R : Reflection} (s : NetThread R) : Decidable s.free :=
  inferInstanceAs (Decidable (_ ∧ _))

/-- A chain runs one frame at a time, and makes one call at a time. Responses of any
content may arrive, and the timer of a call may expire at any time after it. -/
def NetThread.step {R : Reflection} (owner : Nat → Word .w64) (D : Defaults R) (p : Platform)
    (ndebug : Bool) (s : NetThread R) : NetEvent R → Option (NetThread R)
  | .call coroId rpc =>
      if s.chain coroId = none ∧ owner rpc.frame = coroId then some (s.call coroId rpc) else none
  | .receive header peer payload => if s.free then s.receive D p header peer payload else none
  | .expire coroId =>
      if s.free ∧ coroId ∈ s.timers then s.expire ndebug coroId else none
  | .commit => s.needAwak.map (s.commit owner)
  | .resume f => if f ∈ s.ready then some (s.resume owner f) else none
  | .stop => if s.phase = .running then some { s with phase := .stopped } else none
  | .finish =>
      if s.phase = .stopped ∧ s.needAwak = none then some { s with phase := .ended } else none

def NetThread.start {R : Reflection} (net : NetService R) : NetThread R where
  net := { net with waitingCoros := fun _ => none }
  chain := fun _ => none
  count := 0
  caller := fun _ => 0
  frame := fun _ => 0
  timers := []
  needAwak := none
  ready := []
  phase := .running
  history := []

def idleThread : NetThread personReflection :=
  .start ⟨8888,fun _ => none,fun _ => RpcBase.init ⟨[],.bool⟩ 0⟩

def ownFrame (f : Nat) : Word .w64 := BitVec.ofNat _ f

def yes : NetEvent personReflection :=
  .receive (responseHeader ⟨peerAt (1,50000),1,0⟩ 7 1) (peerAt (1,50000)) [1]

end NewRpc.Net
