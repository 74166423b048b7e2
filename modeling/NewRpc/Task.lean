import Mathlib.Logic.Function.Basic
import NewRpc.Message

/-!
Coroutine frames and the `CoroTask` handles that own them: creation, the special
members, commit, `co_await` of a child and the final suspension.
-/

set_option autoImplicit false

namespace NewRpc.Task
open Codec Net

structure RefCount where
  sharedCnt : Int
  deriving DecidableEq, Repr

def RefCount.inc (r : RefCount) : RefCount := ⟨r.sharedCnt + 1⟩

/-- `fetch_sub` returns the value before the subtraction. -/
def RefCount.dec (r : RefCount) : Int × RefCount := (r.sharedCnt,⟨r.sharedCnt - 1⟩)

structure CoroLocalVar where
  coroId : Word .w64
  responseInfo : Option ResponseInfo

structure LinkedCoroutine where
  prev : Option Nat
  next : Option Nat
  coroLocalVar : Option Nat
  refCnt : RefCount
  doneFlag : Bool
  /-- Whether `frame_running_cnt_` is set. -/
  frameRunningCnt : Bool

def LinkedCoroutine.new (this : Nat) : LinkedCoroutine :=
  ⟨some this,some this,none,⟨1⟩,false,false⟩

abbrev Frames := Nat → LinkedCoroutine

def setPrev (frames : Frames) (f : Nat) (prev : Option Nat) : Frames :=
  Function.update frames f { frames f with prev := prev }

def setNext (frames : Frames) (f : Nat) (next : Option Nat) : Frames :=
  Function.update frames f { frames f with next := next }

/-- `none` is a step through a null pointer. -/
def linkNext (frames : Frames) (this newCoroutine : Nat) : Option Frames :=
  match (frames this).next with
  | none => none
  | some tmpNext =>
      let frames := setNext frames this (some newCoroutine)
      let frames := setNext frames newCoroutine (some tmpNext)
      let frames := setPrev frames newCoroutine (some this)
      some (setPrev frames tmpNext (some newCoroutine))

def LinkedCoroutine.empty (coro : LinkedCoroutine) (this : Nat) : Bool := coro.prev == some this

def removeSelf (frames : Frames) (this : Nat) : Option Frames :=
  if (frames this).empty this then some frames
  else match (frames this).prev, (frames this).next with
    | some tmpPrev, some tmpNext =>
        let frames := setNext frames tmpPrev (some tmpNext)
        let frames := setPrev frames tmpNext (some tmpPrev)
        let frames := setNext frames this none
        some (setPrev frames this none)
    | _, _ => none

/-- Where a coroutine is: suspended at its start, in the scheduler's queue for the first
time, running, suspended in an asynchronous action or queued again, suspended in the
`co_await` of a child whose `task_` is given or resumed from it, suspended at its end
with control given to its caller, or at its end without one, before and after the
reference is dropped. -/
inductive Stage where
  | fresh
  | committed
  | running
  | suspended
  | queued
  | awaiting (task : Nat)
  | back (task : Nat)
  | returned
  | ending
  | done
  deriving DecidableEq, Repr

inductive CoroTask where
  | handle (promise : Option Nat)
  | middle (promise : Nat)
  | gone
  deriving DecidableEq, Repr

def CoroTask.pointsTo (f : Nat) : CoroTask → Bool
  | .handle promise => promise == some f
  | .middle promise => promise == f
  | .gone => false

/-- `destroyed` lists the calls of `handle_.destroy()`, `deleted` the local variables
that were deleted and `sent` the responses. A coroutine of type `void` has no result. -/
structure Coroutines (V : Type) where
  frames : Frames
  stage : Nat → Stage
  result : Nat → Option V
  count : Nat
  tasks : List CoroTask
  locals : Nat → Option CoroLocalVar
  nextId : Nat
  runningCoroCnt : Int
  stopFlag : Bool
  destroyed : List Nat
  deleted : List Nat
  sent : List (ResponseInfo × V)

def Coroutines.setStage {V : Type} (s : Coroutines V) (f : Nat) (stage : Stage) : Coroutines V :=
  { s with stage := Function.update s.stage f stage }

def Coroutines.setFrame {V : Type} (s : Coroutines V) (f : Nat) (frame : LinkedCoroutine) :
    Coroutines V :=
  { s with frames := Function.update s.frames f frame }

def Coroutines.inc {V : Type} (s : Coroutines V) (f : Nat) : Coroutines V :=
  s.setFrame f { s.frames f with refCnt := (s.frames f).refCnt.inc }

def Coroutines.release {V : Type} (s : Coroutines V) (f : Nat) : Coroutines V :=
  { s.setFrame f { s.frames f with refCnt := (s.frames f).refCnt.dec.2 } with
    destroyed := if (s.frames f).refCnt.dec.1 = 0 then s.destroyed ++ [f] else s.destroyed }

def Coroutines.create {V : Type} (s : Coroutines V) : Coroutines V :=
  { s with
    frames := Function.update s.frames s.count (.new s.count)
    stage := Function.update s.stage s.count .fresh
    count := s.count + 1
    tasks := s.tasks ++ [CoroTask.handle (some s.count)] }

def Coroutines.copy {V : Type} (s : Coroutines V) (promise : Nat) : Coroutines V :=
  { s with tasks := s.tasks ++ [CoroTask.handle (some promise)] }.inc promise

def Coroutines.move {V : Type} (s : Coroutines V) (t : Nat) (new : CoroTask) : Coroutines V :=
  { s with tasks := s.tasks.set t (CoroTask.handle none) ++ [new] }

def Coroutines.drop {V : Type} (s : Coroutines V) (t : Nat) (promise : Option Nat) :
    Coroutines V :=
  let s := { s with tasks := s.tasks.set t .gone }
  match promise with
  | none => s
  | some f => s.release f

def Coroutines.newLocal {V : Type} (s : Coroutines V) (f : Nat)
    (responseInfo : Option ResponseInfo) : Coroutines V :=
  { s with
    locals := Function.update s.locals s.nextId (some ⟨BitVec.ofNat _ s.nextId,responseInfo⟩)
    nextId := s.nextId + 1 }.setFrame f { s.frames f with coroLocalVar := some s.nextId }

def Coroutines.begin {V : Type} (s : Coroutines V) (f : Nat) : Coroutines V :=
  let s := if (s.frames f).coroLocalVar.isNone then s.newLocal f none else s
  s.setStage f .running

def Coroutines.commit {V : Type} (s : Coroutines V) (f : Nat) : Coroutines V :=
  if s.stopFlag then s
  else
    let s := { s.inc f with runningCoroCnt := s.runningCoroCnt + 1 }
    (s.setFrame f { s.frames f with frameRunningCnt := true }).setStage f .committed

def Coroutines.await {V : Type} (s : Coroutines V) (f t child : Nat) : Option (Coroutines V) :=
  match linkNext s.frames f child with
  | none => none
  | some frames =>
      let s := { s with frames := frames }
      let s := s.setFrame child { s.frames child with coroLocalVar := (s.frames f).coroLocalVar }
      let s := (s.move t (.middle child)).setStage f (.awaiting s.tasks.length)
      some (s.begin child)

def Coroutines.countDown {V : Type} (s : Coroutines V) (f : Nat) : Coroutines V :=
  if (s.frames f).frameRunningCnt then { s with runningCoroCnt := s.runningCoroCnt - 1 } else s

def Coroutines.report {V : Type} (s : Coroutines V) (f : Nat) : Coroutines V :=
  match ((s.frames f).coroLocalVar.bind s.locals).bind CoroLocalVar.responseInfo, s.result f with
  | some info, some value => { s with sent := s.sent ++ [(info,value)] }
  | some _, none => s
  | none, _ => s.setFrame f { s.frames f with doneFlag := true }

def Coroutines.deleteLocal {V : Type} (s : Coroutines V) (f : Nat) : Coroutines V :=
  match (s.frames f).coroLocalVar with
  | none => s
  | some v => { s with
      locals := Function.update s.locals v none
      deleted := s.deleted ++ [v] }.setFrame f { s.frames f with coroLocalVar := none }

def Coroutines.finalSuspend {V : Type} (s : Coroutines V) (f : Nat) : Option (Coroutines V) :=
  if (s.frames f).empty f then
    some ((((s.countDown f).report f).deleteLocal f).setStage f .ending)
  else match (s.frames f).prev with
    | none => none
    | some caller => match s.stage caller, removeSelf s.frames f with
        | .awaiting t, some frames =>
            some (({ s with frames := frames }.setStage f .returned).setStage caller (.back t))
        | _, _ => none

inductive Event (V : Type) where
  | create
  | copy (t : Nat)
  | move (t : Nat)
  | drop (t : Nat)
  | request (t : Nat) (info : ResponseInfo)
  | commit (t : Nat)
  | stop
  | resume (t : Nat)
  | start (f : Nat)
  | suspend (f : Nat)
  | wake (f : Nat)
  | run (f : Nat)
  | await (f t : Nat)
  | back (f : Nat)
  | finish (f : Nat) (result : Option V)
  | release (f : Nat)

def Coroutines.startable {V : Type} (s : Coroutines V) (t : Nat) : Option Nat :=
  match s.tasks[t]? with
  | some (.handle (some f)) => if s.stage f = .fresh then some f else none
  | _ => none

/-- A coroutine is started once: committed, awaited, or resumed by its handle as `main`
does it. A variable may be destroyed at any time, a `task_` when its `co_await` is over. -/
def Coroutines.step {V : Type} (s : Coroutines V) : Event V → Option (Coroutines V)
  | .create => some s.create
  | .copy t => match s.tasks[t]? with
      | some (.handle (some f)) => some (s.copy f)
      | _ => none
  | .move t => match s.tasks[t]? with
      | some (.handle promise) => some (s.move t (.handle promise))
      | _ => none
  | .drop t => match s.tasks[t]? with
      | some (.handle promise) => some (s.drop t promise)
      | _ => none
  | .request t info => match s.startable t with
      | some f => if (s.frames f).coroLocalVar.isNone then some (s.newLocal f (some info)) else none
      | none => none
  | .commit t => (s.startable t).map s.commit
  | .stop => some { s with stopFlag := true }
  | .resume t => (s.startable t).map s.begin
  | .start f => if s.stage f = .committed then some (s.begin f) else none
  | .suspend f => if s.stage f = .running then some (s.setStage f .suspended) else none
  | .wake f => if s.stage f = .suspended then some (s.setStage f .queued) else none
  | .run f => if s.stage f = .queued then some (s.setStage f .running) else none
  | .await f t => match s.startable t with
      | some child => if s.stage f = .running then s.await f t child else none
      | none => none
  | .back f => match s.stage f with
      | .back t => match s.tasks[t]? with
          | some (.middle child) => some ((s.drop t (some child)).setStage f .running)
          | _ => none
      | _ => none
  | .finish f result =>
      if s.stage f = .running then
        { s with result := Function.update s.result f result }.finalSuspend f
      else none
  | .release f => if s.stage f = .ending then some ((s.release f).setStage f .done) else none

def Coroutines.start {V : Type} : Coroutines V where
  frames := .new
  stage := fun _ => .done
  result := fun _ => none
  count := 0
  tasks := []
  locals := fun _ => none
  nextId := 0
  runningCoroCnt := 0
  stopFlag := false
  destroyed := []
  deleted := []
  sent := []

end NewRpc.Task
