import NewRpc.Matching
import NewRpc.Receive

/-!
Processes that call each other: the requests and responses between them as the bytes
that are sent, the connections that carry them and the coroutines that serve them.
-/

set_option autoImplicit false

namespace NewRpc.Net
open Codec

/-- One program, run by processes on machines of their own. All of them are built from the
same `__RPC_REGISTER__`, and each listens at an address that no other has. -/
structure Deployment (R : Reflection) (N : Type) where
  address : N → Address
  distinct : Function.Injective address
  platform : N → Platform
  defaults : Defaults R
  register : Register R
  ndebug : Bool

structure Invocation {R : Reflection} {N : Type} (dep : Deployment R N) where
  rpc : Awaited R
  registered : dep.register rpc.funcId = some rpc.sig
  args : Members R rpc.sig.args

/-- Which request a message belongs to: the process that made the call, the call, and the
endpoint in its list. No byte of the message says so. -/
structure Origin (N : Type) where
  client : N
  call : Nat
  occurrence : Nat
  deriving DecidableEq, Repr

structure Request (N : Type) where
  origin : Origin N
  remote : Address
  bytes : List UInt8

structure Execution (R : Reflection) (N : Type) where
  origin : Origin N
  task : RequestTask R
  result : Option (Val R task.sig.ret)

structure Process {R : Reflection} {N : Type} (dep : Deployment R N) where
  world : World R
  stopFlag : Bool
  runningCoroCnt : Nat
  requests : List (Request N)
  executions : List (Execution R N)
  invocations : List (Invocation dep)

abbrev Cluster {R : Reflection} {N : Type} (dep : Deployment R N) := N → Process dep

/-- What happens in the process `n`. `own` is a step of its calls that no other process takes
part in. `write` is a `send_` that reaches the process `m` from some port and writes the whole
request, `fail` one that does not. `accept` and `deliver` run `receive` on a connection whose
bytes come in pieces; `finish` ends a coroutine that served a request and sends its result to
a process, or to nobody. -/
inductive ClusterEvent {R : Reflection} {N : Type} (dep : Deployment R N) where
  | own (n : N) (e : Event R)
  | call (n : N) (coroId : Word .w64) (invocation : Invocation dep)
  | write (n : N) (c i : Nat) (m : N) (port : Word .w16)
  | fail (n : N) (c i : Nat)
  | accept (n : N) (k : Nat) (pace : List Nat)
  | finish (n : N) (j : Nat) (result : (task : RequestTask R) → Val R task.sig.ret)
      (target : Option N) (port : Word .w16)
  | deliver (n : N) (k : Nat) (pace : List Nat)
  | stop (n : N)

section
variable {R : Reflection} {N : Type} {dep : Deployment R N}

def Awaited.launch (p : Platform) (ndebug : Bool) (rpc : Awaited R)
    (args : Members R rpc.sig.args) (coroId : Word .w64) (listenPort : Word .w16) :
    Except Stop (Awaited R) :=
  match rpc.toRpcBase.withArgs p ndebug args with
  | .error e => .error e
  | .ok built =>
      match built.awaitSuspend p ndebug rpc.frame coroId listenPort with
      | .error e => .error e
      | .ok sent => .ok { rpc with
          sendBuffer := sent.sendBuffer
          totalSerializeSize := sent.totalSerializeSize }

def Event.isOwn : Event R → Bool
  | .tick _ | .loop _ | .arm _ | .send _ _ | .expire _ | .resume _ => true
  | _ => false

def Process.framework (pr : Process dep) : CoroFrameWork R where
  net := pr.world.net
  stopFlag := pr.stopFlag
  runningCoroCnt := pr.runningCoroCnt
  coroutineQueue := []
  created := []

def Ready.coroutine : Ready R → Option Nat
  | .root _ => none
  | .frame coroutine => some coroutine

def Ready.task : Ready R → Option (RequestTask R)
  | .root task => some task
  | .frame _ => none

def Process.put (pr : Process dep) (origin : Origin N) (framework : CoroFrameWork R) :
    Process dep :=
  { pr with
    world := { pr.world with
      net := framework.net
      ready := pr.world.ready ++ framework.coroutineQueue.filterMap Ready.coroutine }
    runningCoroCnt := framework.runningCoroCnt
    executions := pr.executions ++
      (framework.coroutineQueue.filterMap Ready.task).map (fun task => ⟨origin,task,none⟩) }

def Process.connection (n : N) (pr : Process dep) (origin : Origin N) (socket : Socket) :
    Option (Finish × Process dep) :=
  match receive dep.defaults (dep.platform n) dep.ndebug dep.register socket pr.framework with
  | (.died _,_) => none
  | (finish,framework) => some (finish,pr.put origin framework)

def Process.step (n : N) (pr : Process dep) (e : Event R) : Option (Process dep) :=
  (pr.world.step dep.defaults (dep.platform n) dep.ndebug e).map (fun w => { pr with world := w })

def Process.call (n : N) (pr : Process dep) (coroId : Word .w64) (invocation : Invocation dep) :
    Option (Process dep) :=
  match invocation.rpc.launch (dep.platform n) dep.ndebug invocation.args coroId
    pr.world.net.listenPort with
  | .error _ => none
  | .ok rpc => (pr.step n (.call coroId rpc)).map (fun pr =>
      { pr with invocations := pr.invocations ++ [invocation] })

def Response.socket (m : Response) (pace : List Nat) : Socket :=
  ⟨some m.remote,m.header.bytes ++ m.payload,pace⟩

def Process.deliver (n : N) (pr : Process dep) (k : Nat) (m : Response) (pace : List Nat) :
    Option (Process dep) :=
  let taken : Process dep := { pr with world := pr.world.take k }
  match taken.connection n ⟨n,m.call,m.occurrence⟩ (m.socket pace) with
  | none => none
  | some (finish,next) =>
      some (match finish, pr.world.net.waitingCoros m.header.rpcId with
        | .closed, some info => { next with
            world := { next.world with
              log := Function.update pr.world.log info.coroRpcCallback
                (pr.world.log info.coroRpcCallback ++ [m]) } }
        | _, _ => next)

def Process.accept (n : N) (pr : Process dep) (k : Nat) (rq : Request N) (pace : List Nat) :
    Option (Process dep) :=
  let taken : Process dep := { pr with requests := pr.requests.eraseIdx k }
  (taken.connection n rq.origin ⟨some rq.remote,rq.bytes,pace⟩).map Prod.snd

def Execution.response (x : Execution R N) (remote : Address) (bytes : List UInt8) : Response :=
  ⟨x.origin.call,x.origin.occurrence,remote,PackageHeader.parse (bytes.take 32),bytes.drop 32⟩

def Process.ended (pr : Process dep) (j : Nat) (x : Execution R N) : Process dep :=
  { pr with
    runningCoroCnt := pr.runningCoroCnt - 1
    executions := pr.executions.set j x }

def Process.answered (pr : Process dep) (m : Response) : Process dep :=
  { pr with world := { pr.world with
      network := pr.world.network ++ [m]
      answered := pr.world.answered ++ [(m.call,m.occurrence)] } }

def Process.written (pr : Process dep) (rq : Request N) : Process dep :=
  { pr with requests := pr.requests ++ [rq] }

def Deployment.net (dep : Deployment R N) (n : N) : NetService R where
  listenPort := (dep.address n).2
  waitingCoros := fun _ => none
  calls := fun _ => RpcBase.init ⟨[],.bool⟩ 0

def Cluster.start (dep : Deployment R N) : Cluster dep := fun n =>
  { world := .start (dep.net n) 0
    stopFlag := false
    runningCoroCnt := 0
    requests := []
    executions := []
    invocations := [] }

/-- A `send_` writes while the buffer of its call is there: before the call is resumed. -/
def Cluster.bufferLives (s : Cluster dep) : ClusterEvent dep → Bool
  | .write n c _ _ _ => !((s n).world.tasks c).resumed
  | _ => true

def Cluster.memoryLasts (s : Cluster dep) : ClusterEvent dep → Bool
  | .deliver n k _ => ((s n).world.network[k]?).all
      (fun r => r.payload.length ≤ (dep.platform n).heap)
  | _ => true

def Cluster.inTime (s : Cluster dep) : ClusterEvent dep → Bool
  | .deliver n k _ => responseInTime (s n).world (.deliver k)
  | _ => true

variable [DecidableEq N]

def Cluster.set (s : Cluster dep) (n : N) (pr : Process dep) : Cluster dep :=
  Function.update s n pr

def Cluster.write (s : Cluster dep) (n : N) (c i : Nat) (m : N) (port : Word .w16) : Option (Cluster dep) :=
  let rpc := (s n).world.net.calls c
  match rpc.endpoints[i]? with
  | none => none
  | some endpoint =>
      if endpoint.1.address = dep.address m then
        ((s n).step n (.sent c i true)).map (fun pr =>
          let s := s.set n pr
          s.set m ((s m).written ⟨⟨n,c,i⟩,((dep.address n).1,port),rpc.sendBuffer⟩))
      else none

def Cluster.finish (s : Cluster dep) (n : N) (j : Nat)
    (result : (task : RequestTask R) → Val R task.sig.ret) (target : Option N)
    (port : Word .w16) : Option (Cluster dep) :=
  match (s n).executions[j]? with
  | none => none
  | some x =>
      if x.result.isSome then none
      else match sendResponse (dep.platform n) dep.ndebug x.task.responseInfo
          (s n).world.net.listenPort (result x.task) with
        | .error _ => none
        | .ok (endpoint,bytes) =>
            let t := s.set n ((s n).ended j ⟨x.origin,x.task,some (result x.task)⟩)
            match target with
            | none => some t
            | some m =>
                if endpoint.address = dep.address m then
                  some (t.set m ((t m).answered (x.response ((dep.address n).1,port) bytes)))
                else none

def Cluster.step (s : Cluster dep) : ClusterEvent dep → Option (Cluster dep)
  | .own n e => if e.isOwn then ((s n).step n e).map (s.set n) else none
  | .call n coroId invocation => ((s n).call n coroId invocation).map (s.set n)
  | .write n c i m port => s.write n c i m port
  | .fail n c i => ((s n).step n (.sent c i false)).map (s.set n)
  | .accept n k pace =>
      match (s n).requests[k]? with
      | none => none
      | some rq => ((s n).accept n k rq pace).map (s.set n)
  | .finish n j result target port => s.finish n j result target port
  | .deliver n k pace =>
      match (s n).world.network[k]? with
      | none => none
      | some m => ((s n).deliver n k m pace).map (s.set n)
  | .stop n => some (s.set n { s n with stopFlag := true })

end

def pairAddress (n : Bool) : Address := if n then (2,7) else (1,7)

theorem pairAddress_injective : Function.Injective pairAddress := by
  intro a b
  revert a b
  decide

def pair : Deployment personReflection Bool where
  address := pairAddress
  distinct := pairAddress_injective
  platform _ := .small
  defaults := personDefaults
  register id := if id = 2 then some ⟨[],.bool⟩ else none
  ndebug := false

theorem FinishCondition.whenAny_valid : FinishCondition.whenAny ≠ .invalid := by decide

def askOther : Invocation pair where
  rpc := Awaited.build ⟨[],.bool⟩ 2 [.v4 2 7] .whenAny FinishCondition.whenAny_valid 1000000000 none 1
  registered := rfl
  args := .nil

def askedOnce : List (ClusterEvent pair) :=
  [.call false 1 askOther,.own false (.loop 0),.own false (.loop 0),.write false 0 0 true 50000,
    .accept true 0 [],.finish true 0 (fun task => Val.fresh personDefaults task.sig.ret)
      (some false) 50001,.deliver false 0 [],.own false (.resume 1)]

end NewRpc.Net
