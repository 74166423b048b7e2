import NewRpc.CoroutineQueue
import NewRpc.Transition

/-!
The timer wheel: the two halves of `register_frame`, the scan of a bucket, and the
threads that run them, which meet at the locks of the buckets.
-/

set_option autoImplicit false

namespace NewRpc.Time
open IntrusiveList

abbrev Ts := BitVec 64

def bucketNum : Nat := 4096

structure TimeWheelBucket where
  scanOverTs : Ts
  waitingQueue : CoroutineQueue

structure TimeService where
  precision : Ts
  precise : precision ≠ 0
  startBukcetRunTs : Ts
  buckets : Nat → TimeWheelBucket

/-- How far `register_frame` is with a frame: not called, before the lock of the bucket,
before the commit of a missed frame, or returned after the one or the other. -/
inductive Progress where
  | out
  | entered (realBucketIdx : Nat)
  | missAwaken
  | queued (realBucketIdx : Nat)
  | committed
  deriving DecidableEq, Repr

def Progress.returned : Progress → Bool
  | .queued _ | .committed => true
  | _ => false

def TimeService.realBucketIdx (t : TimeService) (wakeUpTs : Ts) : Nat :=
  let calculatedBucketIdx := (wakeUpTs - t.startBukcetRunTs - 1) / t.precision + 1
  (calculatedBucketIdx &&& 4095).toNat

def TimeService.enter (t : TimeService) (wakeUpTs : Ts) : Progress :=
  if t.startBukcetRunTs ≥ wakeUpTs then .missAwaken else .entered (t.realBucketIdx wakeUpTs)

def TimeWheelBucket.register (ndebug : Bool) (link : QueueLinks) (bucket : TimeWheelBucket)
    (wakeUpTs : Ts) (frame : Nat) : Option (QueueLinks × TimeWheelBucket × Bool) :=
  if bucket.scanOverTs ≥ wakeUpTs then some (link,bucket,true)
  else match bucket.waitingQueue.appendToTail ndebug link frame with
    | none => none
    | some (link,waitingQueue) => some (link,{ bucket with waitingQueue := waitingQueue },false)

def TimeWheelBucket.scan (ndebug : Bool) (link : QueueLinks) (bucket : TimeWheelBucket)
    (wakeUpTs : Nat → Ts) (now : Ts) (forceAwake : Bool) :
    Option (QueueLinks × TimeWheelBucket × CoroutineQueue) :=
  let condition := fun coroFrame => decide (wakeUpTs coroFrame ≤ now) || forceAwake
  match bucket.waitingQueue.fetchNodes ndebug condition link (some .empty) with
  | some (link,waitingQueue,some readyQueue) => some (link,⟨now,waitingQueue⟩,readyQueue)
  | _ => none

def TimeService.setBucket (t : TimeService) (idx : Nat) (bucket : TimeWheelBucket) : TimeService :=
  { t with buckets := Function.update t.buckets idx bucket }

structure Wheel where
  service : TimeService
  link : QueueLinks
  clock : Ts
  wakeUpTs : Nat → Ts
  progress : Nat → Progress
  readyQueue : Option CoroutineQueue
  committed : List Nat

inductive Event where
  | store (now : Ts)
  | enter (frame : Nat) (wakeUpTs : Ts)
  | lock (frame : Nat)
  | commit (frame : Nat)
  | scan (idx : Nat) (now : Ts)
  | pop
  | leave
  | schedule (frame : Nat) (next : Option Nat)

/-- Who may do what: the clock never goes back, one thread runs the scans one after the
other, each frame is registered once, and the scheduler links what it has been given. -/
def Wheel.enabled (s : Wheel) : Event → Bool
  | .store now => s.readyQueue.isNone && decide (s.clock ≤ now)
  | .enter frame _ => decide (s.progress frame = .out)
  | .lock frame => match s.progress frame with
      | .entered _ => true
      | _ => false
  | .commit frame => decide (s.progress frame = .missAwaken)
  | .scan idx now => s.readyQueue.isNone && decide (idx < bucketNum ∧ s.clock ≤ now)
  | .pop => s.readyQueue.any (fun q => q.size != 0)
  | .leave => s.readyQueue.any (fun q => q.size == 0)
  | .schedule frame _ => s.committed.contains frame

def Wheel.setProgress (s : Wheel) (frame : Nat) (progress : Progress) : Wheel :=
  { s with progress := Function.update s.progress frame progress }

def Wheel.commit (ndebug : Bool) (s : Wheel) (frame : Nat) : Option Wheel :=
  if unlinked ndebug s.link frame then some { s with committed := s.committed ++ [frame] }
  else none

/-- `none` is the end of the process. -/
def Wheel.exec (ndebug : Bool) (s : Wheel) : Event → Option Wheel
  | .store now => some { s with
      service := { s.service with startBukcetRunTs := now }
      clock := now }
  | .enter frame wakeUpTs => some { s with
      wakeUpTs := Function.update s.wakeUpTs frame wakeUpTs
      progress := Function.update s.progress frame (s.service.enter wakeUpTs) }
  | .lock frame => match s.progress frame with
      | .entered idx =>
          match (s.service.buckets idx).register ndebug s.link (s.wakeUpTs frame) frame with
          | none => none
          | some (link,bucket,missAwaken) => some { s with
              service := s.service.setBucket idx bucket
              link := link
              progress := Function.update s.progress frame
                (if missAwaken then .missAwaken else .queued idx) }
      | _ => none
  | .commit frame => (s.setProgress frame .committed).commit ndebug frame
  | .scan idx now =>
      match (s.service.buckets idx).scan ndebug s.link s.wakeUpTs now false with
      | none => none
      | some (link,bucket,readyQueue) => some { s with
          service := s.service.setBucket idx bucket
          link := link
          clock := now
          readyQueue := some readyQueue }
  | .pop => match s.readyQueue with
      | none => none
      | some q => match q.popFromHead ndebug s.link with
          | none => none
          | some (link,q,coroFrame) =>
              { s with link := link, readyQueue := some q }.commit ndebug coroFrame
  | .leave => some { s with readyQueue := none }
  | .schedule frame next => some { s with link := Function.update s.link frame next }

def Wheel.step (ndebug : Bool) (s : Wheel) (e : Event) : Option Wheel :=
  if s.enabled e then s.exec ndebug e else none

def Wheel.start (precision : Ts) (precise : precision ≠ 0) (now : Ts) : Wheel where
  service := ⟨precision,precise,now,fun _ => ⟨0,.empty⟩⟩
  link := fun _ => none
  clock := now
  wakeUpTs := fun _ => 0
  progress := fun _ => .out
  readyQueue := none
  committed := []

end NewRpc.Time
