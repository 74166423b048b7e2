import NewRpc.Task
import NewRpc.TimeLists

/-!
The framework as a whole before its stop: the scheduler's queue and workers, the coroutines
that they run, the timer and the table of waiting calls, in steps that come in any order.
Each `CoroutineQueue` is the list of the frames in it.
-/

set_option autoImplicit false

namespace NewRpc.FrameWork
open Net NewRpc.Task Time

inductive Action where
  | coSuspend
  | coSleep (sleepTs : Ts)
  | coRpc
  deriving DecidableEq, Repr

/-- What a worker is at with a frame: it has it in its `ready_coroutine_queue`, runs it, is
back in it from a child, or drops the reference at its end; or the frame is suspended, and the
worker in the `await_suspend` of `co_suspend`, of `co_sleep` before `register_frame`, before
the lock of a bucket or with `miss_awaken`, or of `co_rpc` before the table. -/
inductive Phase where
  | fetched
  | resumed
  | returned
  | ending
  | coSuspend
  | coSleep (wakeUpTs : Ts)
  | registering
  | missAwaken
  | coRpc
  deriving DecidableEq, Repr

inductive Worker where
  | absent
  | looping
  | busy (phase : Phase) (frame : Nat)
  deriving DecidableEq, Repr

def Worker.held (worker : Worker) (phase : Phase) : List Nat :=
  match worker with
  | .busy p f => if p = phase then [f] else []
  | _ => []

/-- A `coro_id_` is unique in the process: the number of the `CoroLocalVar` stands for it in
`waitingCoros`. `committing` has the roots that `commit` has counted and not queued yet, and
`needAwak` what the network thread has erased from the table. `suspensions` and
`resumptions` are a record: the frames that were suspended for the scheduler to resume, a
root at its start included, and those that a worker has resumed. -/
structure CoroFrameWork (V : Type) where
  coro : Coroutines V
  timer : ListThread
  waitingCoros : Nat → Option Nat
  needAwak : Option Nat
  coroutineQueue : List Nat
  committing : List Nat
  workerThreadNum : Nat
  workers : Nat → Worker
  suspensions : List Nat
  resumptions : List Nat

inductive Choice (V : Type) where
  | await (t : Nat)
  | suspend (action : Action)
  | finish (result : Option V)

inductive Event (V : Type) where
  | handle (e : Task.Event V)
  | commit (t : Nat)
  | enqueue (f : Nat)
  | worker (w : Nat) (choice : Choice V)
  | tick (now : Ts)
  | timer
  | receive (coroId : Nat) (awakens : Bool)
  | timeout (coroId : Nat)
  | deliver

section
variable {V : Type}

def CoroFrameWork.setWorker (s : CoroFrameWork V) (w : Nat) (worker : Worker) : CoroFrameWork V :=
  { s with workers := Function.update s.workers w worker }

/-- Whether a frame is in a queue, where its `in_queue_link_next_` may lead to another. -/
def CoroFrameWork.linked (s : CoroFrameWork V) (f : Nat) : Bool :=
  s.coroutineQueue.contains f ||
    (List.range s.workerThreadNum).any (fun w => ((s.workers w).held .fetched).contains f) ||
    (List.range bucketNum).any (fun idx => (s.timer.waiting idx).contains f) ||
    s.timer.thread.ready.contains f

/-- `CommonExecuteModule::commit`. As everywhere `none` is the end of the process, here by
the assertion of `append_to_tail`. -/
def CoroFrameWork.append (s : CoroFrameWork V) (f : Nat) : Option (CoroFrameWork V) :=
  if s.linked f then none else some { s with coroutineQueue := s.coroutineQueue ++ [f] }

def CoroFrameWork.act (s : CoroFrameWork V) (e : Task.Event V) : Option (CoroFrameWork V) :=
  (s.coro.step e).map (fun coro => { s with coro := coro })

def CoroFrameWork.awaken (s : CoroFrameWork V) (f : Nat) : Option (CoroFrameWork V) :=
  (s.act (.wake f)).bind (fun s => s.append f)

def CoroFrameWork.time (s : CoroFrameWork V) (e : TimeEvent) : Option (CoroFrameWork V) :=
  match s.timer.step e with
  | none => none
  | some timer =>
      let t := { s with timer := timer }
      match timer.fired.drop s.timer.fired.length with
      | [] => some t
      | fired :: _ => t.awaken fired.frame

def CoroFrameWork.fetch (s : CoroFrameWork V) (w : Nat) : Option (CoroFrameWork V) :=
  match s.coroutineQueue with
  | [] => some s
  | f :: rest =>
      let s := { s with coroutineQueue := rest }
      if s.linked f then none else some (s.setWorker w (.busy .fetched f))

def CoroFrameWork.resume (s : CoroFrameWork V) (w f : Nat) : Option (CoroFrameWork V) :=
  let e : Task.Event V := if s.coro.stage f = .committed then .start f else .run f
  match s.coro.step e with
  | none => none
  | some coro => some ({ s with
      coro := coro
      timer := (s.timer.step (.resume f)).getD s.timer
      resumptions := s.resumptions ++ [f] }.setWorker w (.busy .resumed f))

def CoroFrameWork.await (s : CoroFrameWork V) (w f t : Nat) : Option (CoroFrameWork V) :=
  match s.coro.startable t with
  | none => none
  | some child => (s.act (.await f t)).map (fun s => s.setWorker w (.busy .resumed child))

def Action.phase (now : Ts) : Action → Phase
  | .coSuspend => .coSuspend
  | .coSleep sleepTs => .coSleep (now + sleepTs)
  | .coRpc => .coRpc

def CoroFrameWork.suspend (s : CoroFrameWork V) (w f : Nat) (action : Action) :
    Option (CoroFrameWork V) :=
  (s.act (.suspend f)).map (fun t => { t with
    suspensions := t.suspensions ++ [f] }.setWorker w (.busy (action.phase s.timer.clock) f))

def CoroFrameWork.caller (s : CoroFrameWork V) (f : Nat) : Worker :=
  if (s.coro.frames f).empty f then .busy .ending f
  else match (s.coro.frames f).prev with
    | some caller => .busy .returned caller
    | none => .looping

def CoroFrameWork.finish (s : CoroFrameWork V) (w f : Nat) (result : Option V) :
    Option (CoroFrameWork V) :=
  (s.act (.finish f result)).map (fun t => t.setWorker w (s.caller f))

def CoroFrameWork.back (s : CoroFrameWork V) (w f : Nat) : Option (CoroFrameWork V) :=
  (s.act (.back f)).map (fun s => s.setWorker w (.busy .resumed f))

def CoroFrameWork.release (s : CoroFrameWork V) (w f : Nat) : Option (CoroFrameWork V) :=
  (s.act (.release f)).map (fun s => s.setWorker w .looping)

def CoroFrameWork.sleep (s : CoroFrameWork V) (w f : Nat) (wakeUpTs : Ts) :
    Option (CoroFrameWork V) :=
  match (s.coro.frames f).coroLocalVar, s.timer.step (.enter f wakeUpTs) with
  | some _, some timer =>
      let phase := if timer.sleep f = .missAwaken then .missAwaken else .registering
      some ({ s with timer := timer }.setWorker w (.busy phase f))
  | _, _ => none

def CoroFrameWork.register (s : CoroFrameWork V) (w f : Nat) : Option (CoroFrameWork V) :=
  match s.timer.step (.lock f) with
  | none => none
  | some timer =>
      if timer.sleep f = .missAwaken then
        some ({ s with timer := timer }.setWorker w (.busy .missAwaken f))
      else if (s.setWorker w .looping).linked f then none
      else some ({ s with timer := timer }.setWorker w .looping)

def CoroFrameWork.call (s : CoroFrameWork V) (w f : Nat) : Option (CoroFrameWork V) :=
  match (s.coro.frames f).coroLocalVar with
  | none => none
  | some coroId => some ({ s with
      waitingCoros := if (s.waitingCoros coroId).isSome then s.waitingCoros
        else Function.update s.waitingCoros coroId (some f) }.setWorker w .looping)

def CoroFrameWork.goOn (s : CoroFrameWork V) (w : Nat) (choice : Choice V) :
    Option (CoroFrameWork V) :=
  match s.workers w with
  | .absent => none
  | .looping => s.fetch w
  | .busy .fetched f => s.resume w f
  | .busy .resumed f => match choice with
      | .await t => s.await w f t
      | .suspend action => s.suspend w f action
      | .finish result => s.finish w f result
  | .busy .returned f => s.back w f
  | .busy .ending f => s.release w f
  | .busy .coSuspend f => (s.setWorker w .looping).awaken f
  | .busy (.coSleep wakeUpTs) f => s.sleep w f wakeUpTs
  | .busy .registering f => s.register w f
  | .busy .missAwaken f => (s.setWorker w .looping).time (.commit f)
  | .busy .coRpc f => s.call w f

def CoroFrameWork.commit (s : CoroFrameWork V) (t : Nat) : Option (CoroFrameWork V) :=
  match s.coro.startable t with
  | none => none
  | some f => (s.act (.commit t)).map (fun s => { s with
      committing := s.committing ++ [f]
      suspensions := s.suspensions ++ [f] })

def CoroFrameWork.erase (s : CoroFrameWork V) (coroId : Nat) (awakens : Bool) : CoroFrameWork V :=
  match s.waitingCoros coroId with
  | none => s
  | some f =>
      if awakens then { s with
        waitingCoros := Function.update s.waitingCoros coroId none
        needAwak := some f }
      else s

def CoroFrameWork.deliver (s : CoroFrameWork V) : Option (CoroFrameWork V) :=
  match s.needAwak with
  | none => none
  | some f => { s with needAwak := none }.awaken f

def CoroFrameWork.exec (s : CoroFrameWork V) : Event V → Option (CoroFrameWork V)
  | .handle e => s.act e
  | .commit t => s.commit t
  | .enqueue f => { s with committing := s.committing.erase f }.append f
  | .worker w choice => s.goOn w choice
  | .tick now => s.time (.tick now)
  | .timer => s.time .loop
  | .receive coroId awakens => some (s.erase coroId awakens)
  | .timeout coroId => some (s.erase coroId true)
  | .deliver => s.deliver

def handles : Task.Event V → Bool
  | .create => true
  | .copy _ => true
  | .move _ => true
  | .drop _ => true
  | .request _ _ => true
  | _ => false

def CoroFrameWork.allows (s : CoroFrameWork V) : Choice V → Bool
  | .await t => (s.coro.startable t).isSome
  | _ => true

/-- Who may take a step. It does not matter here in which stage the frames are: a worker
resumes whatever it has fetched. The network thread is done with one message before it takes
the next, and the timer waits in its own steps. -/
def CoroFrameWork.enabled (s : CoroFrameWork V) : Event V → Bool
  | .handle e => handles e && (s.coro.step e).isSome
  | .commit t => (s.coro.startable t).isSome
  | .enqueue f => s.committing.contains f
  | .worker w choice => match s.workers w with
      | .absent => false
      | .busy .resumed _ => s.allows choice
      | _ => true
  | .tick now => (s.timer.step (.tick now)).isSome
  | .timer => (s.timer.step .loop).isSome
  | .receive _ _ => s.needAwak.isNone
  | .timeout _ => s.needAwak.isNone
  | .deliver => s.needAwak.isSome

def CoroFrameWork.step (s : CoroFrameWork V) (e : Event V) : Option (CoroFrameWork V) :=
  if s.enabled e then s.exec e else none

def CoroFrameWork.start (workerThreadNum : Nat) (precision : Ts) (precise : precision ≠ 0)
    (now : Ts) : CoroFrameWork V where
  coro := .start
  timer := .start listQueues precision precise now
  waitingCoros := fun _ => none
  needAwak := none
  coroutineQueue := []
  committing := []
  workerThreadNum := workerThreadNum
  workers := fun w => if w < workerThreadNum then .looping else .absent
  suspensions := []
  resumptions := []

end

end NewRpc.FrameWork
