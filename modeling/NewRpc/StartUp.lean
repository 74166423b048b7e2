import NewRpc.Fairness
import NewRpc.Pool
import NewRpc.TimeService

/-!
`CoroScheduler::start` next to the threads that it starts: each statement of it that may
throw, the listener that fulfils the promise it waits for, and the way back.
-/

set_option autoImplicit false

namespace NewRpc.Sched
open Transition
open NewRpc.Time (bucketNum)

inductive Main where
  | entry
  | startTimer
  | startNet
  | awaitFuture
  | clearStop
  | startWorker (idx : Nat)
  | started
  | stopWorkers
  | stopTimer
  | stopNet
  | joinTimer
  | joinNet
  | joinWorkers
  | threw
  deriving DecidableEq, Repr

inductive TimerThread where
  | absent
  | turn
  | test
  | sweep (idx : Nat)
  | returned
  | joined
  deriving DecidableEq, Repr

inductive IoThread where
  | absent
  | running
  | returned
  | joined
  deriving DecidableEq, Repr

inductive Listener where
  | absent
  | opening
  | accepting
  | ended
  deriving DecidableEq, Repr

/-- `promise` is fulfilled or not, `serving` the root that `receive` commits, `workers` the
size of `workers_` and `joined` how many of them `wait` has joined. `aborted` is the end of
the process by a failed assertion. -/
structure StartUp where
  main : Main
  tlsScheduler : Bool
  tlsFramework : Bool
  timer : TimerThread
  timeStopFlag : Bool
  net : IoThread
  ioStopped : Bool
  listener : Listener
  promise : Bool
  serving : Option Nat
  pool : Pool
  workers : Nat
  joined : Nat
  aborted : Bool

inductive StartEvent where
  | main
  | fails
  | timer
  | opens
  | openFails
  | acceptFails
  | request (c : Nat)
  | serve
  | runReturns
  | pool (e : Event)

def StartUp.goto (s : StartUp) (main : Main) : StartUp := { s with main := main }

def StartUp.setTls (s : StartUp) (tls : Bool) : StartUp :=
  { s with tlsScheduler := tls, tlsFramework := tls }

def StartUp.addWorker (s : StartUp) : StartUp :=
  { s with pool := s.pool.setWorker s.workers .testing, workers := s.workers + 1 }

def StartUp.proceed (workerThreadNum : Nat) (s : StartUp) : Option StartUp :=
  match s.main with
  | .entry => some ((s.setTls true).goto .startTimer)
  | .startTimer => some { s with timeStopFlag := false, timer := .turn, main := .startNet }
  | .startNet => some { s with net := .running, listener := .opening, main := .awaitFuture }
  | .awaitFuture => if s.promise then some (s.goto .clearStop) else none
  | .clearStop => some { s with
      pool := { s.pool with stopFlag := false }
      main := .startWorker 0 }
  | .startWorker idx =>
      if idx < workerThreadNum then some (s.addWorker.goto (.startWorker (idx + 1)))
      else some ((s.setTls false).goto .started)
  | .stopWorkers => some { s with pool := { s.pool with stopFlag := true }, main := .stopTimer }
  | .stopTimer => some { s with timeStopFlag := true, main := .stopNet }
  | .stopNet => some { s with ioStopped := true, main := .joinTimer }
  | .joinTimer => match s.timer with
      | .absent => some (s.goto .joinNet)
      | .returned => some { s with timer := .joined, main := .joinNet }
      | _ => none
  | .joinNet => match s.net with
      | .absent => some (s.goto .joinWorkers)
      | .returned => some { s with net := .joined, main := .joinWorkers }
      | _ => none
  | .joinWorkers =>
      if s.joined < s.workers then
        if s.pool.workers s.joined = .left then some { s with joined := s.joined + 1 } else none
      else some ((s.setTls false).goto .threw)
  | .started | .threw => none

def StartUp.fail (workerThreadNum : Nat) (s : StartUp) : Option StartUp :=
  match s.main with
  | .startTimer => some { s with timeStopFlag := false, main := .stopWorkers }
  | .startNet => some (s.goto .stopWorkers)
  | .startWorker idx => if idx < workerThreadNum then some (s.goto .stopWorkers) else none
  | _ => none

def StartUp.turnTimer (s : StartUp) : Option StartUp :=
  match s.timer with
  | .turn => some { s with timer := .test }
  | .test => some { s with timer := if s.timeStopFlag then .sweep 0 else .turn }
  | .sweep idx => some { s with
      timer := if idx + 1 < bucketNum then .sweep (idx + 1) else .returned }
  | _ => none

def StartUp.polls (s : StartUp) : Prop :=
  s.net = .running ∧ s.ioStopped = false ∧ s.serving = none

instance (s : StartUp) : Decidable s.polls := inferInstanceAs (Decidable (_ ∧ _))

def StartUp.request (ndebug : Bool) (s : StartUp) (c : Nat) : StartUp :=
  { s with
    pool := s.pool.load c
    serving := if s.pool.stopFlag then none else some c
    aborted := s.pool.stopFlag && !ndebug }

def StartUp.serve (s : StartUp) : Option StartUp :=
  match s.serving with
  | none => none
  | some c => match s.pool.commits c with
      | .loaded => some { s with pool := s.pool.count c }
      | .counted => some { s with pool := s.pool.enqueue c, serving := none }
      | _ => none

def Worker.inCoroutine : Worker → Bool
  | .resumed _ => true
  | _ => false

/-- The steps of the pool that no thread of `start` takes: those of the workers, of the
coroutines that commit further roots, and of what wakes a coroutine. -/
def StartUp.allows (s : StartUp) : Event → Bool
  | .stop => false
  | .load _ => (List.range s.workers).any (fun w => (s.pool.workers w).inCoroutine)
  | .count c | .enqueue c => s.serving != some c
  | _ => true

def StartUp.step (workerThreadNum : Nat) (ndebug : Bool) (s : StartUp) (e : StartEvent) :
    Option StartUp :=
  if s.aborted then none
  else match e with
  | .main => s.proceed workerThreadNum
  | .fails => s.fail workerThreadNum
  | .timer => s.turnTimer
  | .opens =>
      if s.polls ∧ s.listener = .opening then
        some { s with listener := .accepting, promise := true }
      else none
  | .openFails =>
      if s.polls ∧ s.listener = .opening then some { s with listener := .ended } else none
  | .acceptFails =>
      if s.polls ∧ s.listener = .accepting then some { s with listener := .ended } else none
  | .request c =>
      if s.polls ∧ s.promise ∧ s.pool.commits c = .idle then some (s.request ndebug c) else none
  | .serve => if s.net = .running then s.serve else none
  | .runReturns =>
      if s.net = .running ∧ s.serving = none ∧ (s.ioStopped = true ∨ s.listener = .ended) then
        some { s with net := .returned }
      else none
  | .pool e =>
      if s.allows e then (s.pool.step e).map (fun pool => { s with pool := pool }) else none

def StartUp.init : StartUp where
  main := .entry
  tlsScheduler := false
  tlsFramework := false
  timer := .absent
  timeStopFlag := false
  net := .absent
  ioStopped := false
  listener := .absent
  promise := false
  serving := none
  pool := { Pool.start 0 with stopFlag := true }
  workers := 0
  joined := 0
  aborted := false

inductive Agent where
  | main
  | timer
  | net
  | worker (w : Nat)
  deriving DecidableEq, Repr

def StartEvent.agent : StartEvent → Option Agent
  | .main | .fails => some .main
  | .timer => some .timer
  | .opens | .openFails | .serve | .runReturns => some .net
  | .pool (.test w) | .pool (.read w) | .pool (.dequeue w) | .pool (.resume w) =>
      some (.worker w)
  | _ => none

def StartUp.unrefused (ndebug : Bool) (s : StartUp) : StartEvent → Bool
  | .request _ => ndebug || !s.pool.stopFlag
  | _ => true

/-- `NetService::start` waits for a promise that nobody fulfils any more. -/
def StartUp.Blocked (s : StartUp) : Prop :=
  s.main = .awaitFuture ∧ s.promise = false ∧ s.listener = .ended

/-- `start` has thrown, and nothing of what it had started is left. -/
structure StartUp.Undone (s : StartUp) : Prop where
  threw : s.main = .threw
  timer : s.timer = .absent ∨ s.timer = .joined
  net : s.net = .absent ∨ s.net = .joined
  workers : s.joined = s.workers ∧ s.pool.Left
  tlsScheduler : s.tlsScheduler = false
  tlsFramework : s.tlsFramework = false

def StartEvent.isFailure : StartEvent → Bool
  | .fails | .openFails => true
  | _ => false

abbrev StartRun (workerThreadNum : Nat) (ndebug : Bool) :=
  Run (StartUp.step workerThreadNum ndebug) (StartUp.unrefused ndebug)

def Undoes {workerThreadNum : Nat} {ndebug : Bool} (r : StartRun workerThreadNum ndebug) : Prop :=
  (∀ i, ¬ (r.state i).Blocked) ∧
  ∀ i e, r.event i = some e → e.isFailure = true → ∃ j, i < j ∧ (r.state j).Undone

def Pool.Accepted (s : Pool) (c : Nat) : Prop :=
  s.commits c = .loaded ∨ s.commits c = .counted ∨ s.commits c = .returned

def Finishing {workerThreadNum : Nat} {ndebug : Bool} (r : StartRun workerThreadNum ndebug) :
    Prop :=
  ∀ i c, (r.state i).pool.Accepted c →
    ∃ j, i ≤ j ∧ (c ∈ (r.state j).pool.finished ∨ (r.state j).pool.Left)

def Opens {workerThreadNum : Nat} {ndebug : Bool} (r : StartRun workerThreadNum ndebug) : Prop :=
  ∀ i, r.event i ≠ some .openFails

end NewRpc.Sched
