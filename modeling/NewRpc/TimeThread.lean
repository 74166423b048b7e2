import Mathlib.Algebra.Group.Nat.Defs
import NewRpc.TimeService

/-!
The thread of the timer with all its steps: the turns of the wheel, the scans, the waits
and the sweep at the end, and next to it the coroutines that go to sleep again and again.
The queues are a parameter.
-/

set_option autoImplicit false

namespace NewRpc.Time

/-- What the timer needs of a `CoroutineQueue`: its operations, of which `fetchNodes` has
an empty target and `none` is the end of the process, and the memory they work on.
`relink` is what the scheduler's own queue does to a frame. -/
structure Queues where
  Heap : Type
  Queue : Type
  heap : Heap
  empty : Queue
  isEmpty : Queue → Bool
  unlinked : Heap → Nat → Bool
  appendToTail : Heap → Queue → Nat → Option (Heap × Queue)
  fetchNodes : (Nat → Bool) → Heap → Queue → Option (Heap × Queue × Queue)
  popFromHead : Heap → Queue → Option (Heap × Queue × Nat)
  relink : Heap → Nat → Option Nat → Heap

abbrev linkedQueues (ndebug : Bool) : Queues where
  Heap := QueueLinks
  Queue := CoroutineQueue
  heap := fun _ => none
  empty := .empty
  isEmpty q := q.size == 0
  unlinked := NewRpc.unlinked ndebug
  appendToTail link q f := q.appendToTail ndebug link f
  fetchNodes condition link q := match q.fetchNodes ndebug condition link (some .empty) with
    | some (link,q,some readyQueue) => some (link,q,readyQueue)
    | _ => none
  popFromHead link q := q.popFromHead ndebug link
  relink link f next := Function.update link f next

abbrev listQueues : Queues where
  Heap := Unit
  Queue := List Nat
  heap := ()
  empty := []
  isEmpty := List.isEmpty
  unlinked _ _ := true
  appendToTail _ q f := some ((),q ++ [f])
  fetchNodes condition _ q := some ((),q.filter (fun f => !condition f),q.filter condition)
  popFromHead _ q := match q with
    | [] => none
    | f :: q => some ((),q,f)
  relink _ _ _ := ()

structure Bucket (Q : Queues) where
  scanOverTs : Ts
  waitingQueue : Q.Queue

/-- Where a coroutine is: in no `co_sleep`, in `register_frame` before the lock of a bucket
or before the commit of a missed frame, asleep, or committed and not resumed yet. -/
inductive Sleep where
  | awake
  | entered (realBucketIdx : Nat)
  | missAwaken
  | asleep (realBucketIdx : Nat)
  | committed
  deriving DecidableEq, Repr

/-- Where `loop_` is: at the head of its body, before the store of the base, before a scan,
at the frames that a scan has taken, before and in the wait, at its test, and the same for
the sweep of all buckets. -/
inductive Thread (Q : Queues) where
  | turn (idx : Nat)
  | store (now : Ts)
  | scan (idx : Nat)
  | waking (idx : Nat) (readyQueue : Q.Queue)
  | pace (idx : Nat)
  | wait (idx : Nat) (nextRunTs : Ts)
  | test (idx : Nat)
  | sweep (idx : Nat)
  | sweeping (idx : Nat) (readyQueue : Q.Queue)
  | ended

structure Fired where
  frame : Nat
  wakeUpTs : Ts
  time : Ts
  deriving DecidableEq, Repr

/-- `revolution` counts the stores of the base and `scans` the scans; `target` is the number
of the scan that a frame is registered for. -/
structure TimeThread (Q : Queues) where
  precision : Ts
  precise : precision ≠ 0
  startBukcetRunTs : Ts
  buckets : Nat → Bucket Q
  heap : Q.Heap
  clock : Ts
  stopFlag : Bool
  thread : Thread Q
  wakeUpTs : Nat → Ts
  sleep : Nat → Sleep
  revolution : Nat
  scans : Nat
  target : Nat → Nat
  fired : List Fired

inductive TimeEvent where
  | tick (now : Ts)
  | stop
  | enter (frame : Nat) (wakeUpTs : Ts)
  | lock (frame : Nat)
  | commit (frame : Nat)
  | resume (frame : Nat)
  | schedule (frame : Nat) (next : Option Nat)
  | loop

section
variable {Q : Queues}

def TimeThread.goto (s : TimeThread Q) (thread : Thread Q) : TimeThread Q :=
  { s with thread := thread }

def TimeThread.setSleep (s : TimeThread Q) (frame : Nat) (sleep : Sleep) : TimeThread Q :=
  { s with sleep := Function.update s.sleep frame sleep }

def TimeThread.setBucket (s : TimeThread Q) (idx : Nat) (bucket : Bucket Q) : TimeThread Q :=
  { s with buckets := Function.update s.buckets idx bucket }

def TimeThread.calculatedBucketIdx (s : TimeThread Q) (wakeUpTs : Ts) : Ts :=
  (wakeUpTs - s.startBukcetRunTs - 1) / s.precision + 1

def TimeThread.enter (s : TimeThread Q) (frame : Nat) (wakeUpTs : Ts) : TimeThread Q :=
  let s := { s with wakeUpTs := Function.update s.wakeUpTs frame wakeUpTs }
  if s.startBukcetRunTs ≥ wakeUpTs then s.setSleep frame .missAwaken
  else
    let calculatedBucketIdx := s.calculatedBucketIdx wakeUpTs
    { s with
      target := Function.update s.target frame
        (s.revolution * bucketNum + calculatedBucketIdx.toNat) }.setSleep frame
      (.entered (calculatedBucketIdx &&& 4095).toNat)

def TimeThread.lock (s : TimeThread Q) (frame idx : Nat) : Option (TimeThread Q) :=
  let bucket := s.buckets idx
  if bucket.scanOverTs ≥ s.wakeUpTs frame then some (s.setSleep frame .missAwaken)
  else match Q.appendToTail s.heap bucket.waitingQueue frame with
    | none => none
    | some (heap,waitingQueue) =>
        let s := { s with heap := heap }.setBucket idx ⟨bucket.scanOverTs,waitingQueue⟩
        some (s.setSleep frame (.asleep idx))

def TimeThread.fire (s : TimeThread Q) (frame : Nat) : TimeThread Q :=
  let fired : Fired := ⟨frame,s.wakeUpTs frame,s.clock⟩
  { s with fired := s.fired ++ [fired] }.setSleep frame .committed

def TimeThread.commit (s : TimeThread Q) (frame : Nat) : Option (TimeThread Q) :=
  if Q.unlinked s.heap frame then some (s.fire frame) else none

def TimeThread.scan (s : TimeThread Q) (idx : Nat) (forceAwake : Bool)
    (next : Q.Queue → Thread Q) : Option (TimeThread Q) :=
  let condition := fun coroFrame => decide (s.wakeUpTs coroFrame ≤ s.clock) || forceAwake
  match Q.fetchNodes condition s.heap (s.buckets idx).waitingQueue with
  | none => none
  | some (heap,waitingQueue,readyQueue) =>
      some (({ s with heap := heap }.setBucket idx ⟨s.clock,waitingQueue⟩).goto (next readyQueue))

def TimeThread.wake (s : TimeThread Q) (readyQueue : Q.Queue) (next : Q.Queue → Thread Q) :
    Option (TimeThread Q) :=
  match Q.popFromHead s.heap readyQueue with
  | none => none
  | some (heap,readyQueue,coroFrame) =>
      ({ s with heap := heap }.goto (next readyQueue)).commit coroFrame

def TimeThread.nextRunTs (s : TimeThread Q) (idx : Nat) : Ts :=
  s.startBukcetRunTs + s.precision * BitVec.ofNat 64 (idx + 1)

def TimeThread.loop (s : TimeThread Q) : Option (TimeThread Q) :=
  match s.thread with
  | .turn idx =>
      let idx := (idx + 1) &&& (bucketNum - 1)
      some (s.goto (if idx = 0 then .store s.clock else .scan idx))
  | .store now => some ({ s with
      startBukcetRunTs := now
      revolution := s.revolution + 1 }.goto (.scan 0))
  | .scan idx => { s with scans := s.scans + 1 }.scan idx false (.waking idx)
  | .waking idx readyQueue =>
      if Q.isEmpty readyQueue then some (s.goto (.pace idx)) else s.wake readyQueue (.waking idx)
  | .pace idx =>
      some (s.goto (if s.clock ≥ s.nextRunTs idx then .test idx else .wait idx (s.nextRunTs idx)))
  | .wait idx nextRunTs =>
      if s.stopFlag = true ∨ s.clock ≥ nextRunTs then some (s.goto (.test idx)) else none
  | .test idx => some (s.goto (if s.stopFlag then .sweep 0 else .turn idx))
  | .sweep idx => s.scan idx true (.sweeping idx)
  | .sweeping idx readyQueue =>
      if Q.isEmpty readyQueue then
        some (s.goto (if idx + 1 < bucketNum then .sweep (idx + 1) else .ended))
      else s.wake readyQueue (.sweeping idx)
  | .ended => none

def TimeThread.step (s : TimeThread Q) : TimeEvent → Option (TimeThread Q)
  | .tick now =>
      if s.clock ≤ now ∧ now.toNat < 2 ^ 63 then some { s with clock := now } else none
  | .stop => some { s with stopFlag := true }
  | .enter frame wakeUpTs =>
      if s.sleep frame = .awake then some (s.enter frame wakeUpTs) else none
  | .lock frame => match s.sleep frame with
      | .entered idx => s.lock frame idx
      | _ => none
  | .commit frame => if s.sleep frame = .missAwaken then s.commit frame else none
  | .resume frame =>
      if s.sleep frame = .committed then
        some ({ s with heap := Q.relink s.heap frame none }.setSleep frame .awake)
      else none
  | .schedule frame next =>
      if s.sleep frame = .committed then some { s with heap := Q.relink s.heap frame next }
      else none
  | .loop => s.loop

end

def TimeThread.start (Q : Queues) (precision : Ts) (precise : precision ≠ 0) (now : Ts) :
    TimeThread Q where
  precision := precision
  precise := precise
  startBukcetRunTs := now
  buckets := fun _ => ⟨0,Q.empty⟩
  heap := Q.heap
  clock := now
  stopFlag := false
  thread := .turn 0
  wakeUpTs := fun _ => 0
  sleep := fun _ => .awake
  revolution := 0
  scans := 0
  target := fun _ => 0
  fired := []

end NewRpc.Time
