import NewRpc.CallAccounting
import NewRpc.NetService
import NewRpc.Transition

/-!
The calls of one process while they are under way: the chains of coroutines that
make them, the tasks on the network thread, and the responses that travel.
-/

set_option autoImplicit false

namespace NewRpc.Net
open Codec

inductive Timer where
  | spawned
  | armed (deadline : Int)
  | ended
  deriving DecidableEq

inductive Loop where
  | entering
  | next (k : Nat)
  | left
  deriving DecidableEq

inductive Sending where
  | pending
  | finished (written : Bool)
  deriving DecidableEq

/-- What runs on behalf of one call. `sends` has one task per endpoint the loop has passed. -/
structure CallTask where
  coroId : Word .w64
  registeredAt : Int
  timer : Timer
  loop : Loop
  sends : List Sending
  resumed : Bool

/-- A response on its way. `call` and `occurrence` say which request it answers; no
field of the header does. -/
structure Response where
  call : Nat
  occurrence : Nat
  remote : Address
  header : PackageHeader
  payload : List UInt8

def Response.peer (m : Response) : EndPoint := (peerAt m.remote).setPort m.header.serverPort

structure Expiry where
  victim : Nat
  timer : Nat
  time : Int

/-- A suspended frame is named by its chain's id, of which it is the only one that can be
resumed; a call by its number, which no other call ever has. -/
structure World (R : Reflection) where
  net : NetService R
  now : Int
  chains : Word .w64 → Option Nat
  count : Nat
  tasks : Nat → CallTask
  network : List Response
  ready : List Nat
  /-- Every response any peer has sent. -/
  answered : List (Nat × Nat)
  /-- The responses that `process_buffer_cb` has put into each call. -/
  log : Nat → List Response
  expiries : List Expiry

inductive Event (R : Reflection) where
  | tick (ns : Nat)
  | call (coroId : Word .w64) (rpc : Awaited R)
  | loop (c : Nat)
  | arm (c : Nat)
  | send (c i : Nat)
  | sent (c i : Nat) (written : Bool)
  | answer (c i : Nat) (remote : Address) (port : Word .w16) (payload : List UInt8)
  | deliver (k : Nat)
  | expire (c : Nat)
  | resume (coroId : Word .w64)

def endOfTime : Int := 2 ^ 63 - 1

/-- `timer.expires_after(std::chrono::nanoseconds(timeout_ns))`: the count is converted to
`int64_t` and the sum saturates. -/
def expiresAfter (now : Int) (timeout : Word .w64) : Int := min (now + timeout.toInt) endOfTime

def World.setTask {R : Reflection} (s : World R) (c : Nat) (task : CallTask) : World R :=
  { s with tasks := Function.update s.tasks c task }

def World.register {R : Reflection} (s : World R) (coroId : Word .w64) (rpc : Awaited R) :
    World R :=
  { s with
    net := (s.net.setCall s.count rpc.toRpcBase).insert coroId ⟨rpc.frame,s.count⟩
    chains := Function.update s.chains coroId (some s.count)
    count := s.count + 1
    tasks := Function.update s.tasks s.count ⟨coroId,s.now,.spawned,.entering,[],false⟩ }

def Loop.at_ (k n : Nat) : Loop := if k < n then .next k else .left

def World.advance {R : Reflection} (s : World R) (c : Nat) : Option (World R) :=
  let task := s.tasks c
  let n := (s.net.calls c).endpoints.length
  match task.loop with
  | .entering => some (s.setTask c { task with loop := Loop.at_ 0 n })
  | .next k => some (s.setTask c { task with
      loop := Loop.at_ (k + 1) n
      sends := task.sends ++ [.pending] })
  | .left => none

def World.arm {R : Reflection} (s : World R) (c : Nat) : Option (World R) :=
  let task := s.tasks c
  match task.timer with
  -- `timeout_` has its copy of the timeout, which the call never changes.
  | .spawned => some (s.setTask c { task with
      timer := .armed (expiresAfter s.now (s.net.calls c).timeout) })
  | _ => none

def World.sent {R : Reflection} (s : World R) (c i : Nat) (written : Bool) : World R :=
  let task := s.tasks c
  s.setTask c { task with sends := task.sends.set i (.finished written) }

def World.answer {R : Reflection} (s : World R) (c i : Nat) (remote : Address) (port : Word .w16)
    (payload : List UInt8) : World R :=
  let info : ResponseInfo := ⟨peerAt remote,(s.tasks c).coroId,(s.net.calls c).funcId⟩
  let header := responseHeader info port payload.length
  { s with
    network := s.network ++ [⟨c,i,remote,header,payload⟩]
    answered := s.answered ++ [(c,i)] }

def World.deliver {R : Reflection} (D : Defaults R) (p : Platform) (s : World R) (m : Response) :
    Option (World R) :=
  match s.net.respond D p m.header (peerAt m.remote) m.payload with
  | .error e => if e.isException then some s else none
  | .ok (net,needAwak) =>
      some { s with
        net := net
        ready := s.ready ++ needAwak.toList
        log := match s.net.waitingCoros m.header.rpcId with
          | none => s.log
          | some info => Function.update s.log info.coroRpcCallback
              (s.log info.coroRpcCallback ++ [m]) }

def World.expire {R : Reflection} (ndebug : Bool) (s : World R) (c : Nat) : Option (World R) :=
  let task := s.tasks c
  match s.net.timeout ndebug task.coroId with
  | .error _ => none
  | .ok (net,needAwak) =>
      some { s with
        net := net
        ready := s.ready ++ needAwak.toList
        tasks := Function.update s.tasks c { task with timer := .ended }
        expiries := match s.net.waitingCoros task.coroId with
          | none => s.expiries
          | some info => s.expiries ++ [Expiry.mk info.coroRpcCallback c s.now] }

def World.resume {R : Reflection} (s : World R) (coroId : Word .w64) (c : Nat) : World R :=
  { s with
    chains := Function.update s.chains coroId none
    ready := s.ready.erase coroId.toNat
    tasks := Function.update s.tasks c { s.tasks c with resumed := true } }

def World.step {R : Reflection} (D : Defaults R) (p : Platform) (ndebug : Bool) (s : World R) :
    Event R → Option (World R)
  | .tick ns => if s.now + ns < endOfTime then some { s with now := s.now + ns } else none
  | .call coroId rpc =>
      if s.chains coroId = none ∧ rpc.frame = coroId.toNat then some (s.register coroId rpc)
      else none
  | .loop c => if c < s.count then s.advance c else none
  | .arm c => if c < s.count then s.arm c else none
  | .send c i =>
      if c < s.count ∧ (s.tasks c).sends[i]? = some .pending then some s else none
  | .sent c i written =>
      if c < s.count ∧ (s.tasks c).sends[i]? = some .pending then some (s.sent c i written)
      else none
  | .answer c i remote port payload =>
      if c < s.count ∧ (s.tasks c).sends[i]? = some (.finished true) then
        some (s.answer c i remote port payload)
      else none
  | .deliver k =>
      match s.network[k]? with
      | none => none
      | some m => World.deliver D p { s with network := s.network.eraseIdx k } m
  | .expire c =>
      match (s.tasks c).timer with
      | .armed deadline =>
          if c < s.count ∧ deadline ≤ s.now then s.expire ndebug c else none
      | _ => none
  | .resume coroId =>
      match s.chains coroId with
      | none => none
      | some c => if coroId.toNat ∈ s.ready then some (s.resume coroId c) else none

def World.start {R : Reflection} (net : NetService R) (now : Int) : World R where
  net := { net with waitingCoros := fun _ => none }
  now := now
  chains := fun _ => none
  count := 0
  tasks := fun _ => ⟨0,now,.ended,.left,[],true⟩
  network := []
  ready := []
  answered := []
  log := fun _ => []
  expiries := []

def quiet : World personReflection :=
  .start ⟨8888,fun _ => none,fun _ => RpcBase.init ⟨[],.bool⟩ 0⟩ 0

def askBoth (timeout : Word .w64) : Awaited personReflection :=
  Awaited.build ⟨[],.bool⟩ 2 [.v4 1 7,.v4 2 7] .whenAny (by decide) timeout none 1

end NewRpc.Net
