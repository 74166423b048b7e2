import NewRpc.Sleepers
import NewRpc.TimeLists

/-!
The timer with the queues of the source does what the one with lists does, as long as no
frame is hung onto a tail that a scan has taken away.
-/

set_option autoImplicit false

namespace NewRpc.Time
open IntrusiveList

abbrev LinkThread (ndebug : Bool) := TimeThread (linkedQueues ndebug)

/-- A frame is appended to a bucket that is empty or whose `tail_` still waits there. -/
def tailStays {ndebug : Bool} (s : LinkThread ndebug) : TimeEvent → Bool
  | .lock f => match s.sleep f with
      | .entered idx =>
          let scanOver := (s.buckets idx).scanOverTs
          let q : CoroutineQueue := (s.buckets idx).waitingQueue
          decide (scanOver ≥ s.wakeUpTs f) || q.size == 0 ||
            q.tail.all (fun t => decide (s.sleep t = .asleep idx ∧ scanOver < s.wakeUpTs t))
      | _ => true
  | _ => true

def TimeThread.listed {ndebug : Bool} (s : LinkThread ndebug) (waiting : Nat → List Nat)
    (thread : Thread listQueues) : ListThread where
  precision := s.precision
  precise := s.precise
  startBukcetRunTs := s.startBukcetRunTs
  buckets := fun idx => ⟨(s.buckets idx).scanOverTs,waiting idx⟩
  heap := ()
  clock := s.clock
  stopFlag := s.stopFlag
  thread := thread
  wakeUpTs := s.wakeUpTs
  sleep := s.sleep
  revolution := s.revolution
  scans := s.scans
  target := s.target
  fired := s.fired

inductive Alike {ndebug : Bool} (link : QueueLinks) :
    Thread (linkedQueues ndebug) → Thread listQueues → Prop
  | turn (idx : Nat) : Alike link (.turn idx) (.turn idx)
  | store (now : Ts) : Alike link (.store now) (.store now)
  | scan (idx : Nat) : Alike link (.scan idx) (.scan idx)
  | waking (idx : Nat) {q : CoroutineQueue} {xs : List Nat} (h : q.Holds link xs) :
      Alike link (.waking idx q) (.waking idx xs)
  | pace (idx : Nat) : Alike link (.pace idx) (.pace idx)
  | wait (idx : Nat) (nextRunTs : Ts) : Alike link (.wait idx nextRunTs) (.wait idx nextRunTs)
  | test (idx : Nat) : Alike link (.test idx) (.test idx)
  | sweep (idx : Nat) : Alike link (.sweep idx) (.sweep idx)
  | sweeping (idx : Nat) {q : CoroutineQueue} {xs : List Nat} (h : q.Holds link xs) :
      Alike link (.sweeping idx q) (.sweeping idx xs)
  | ended : Alike link .ended .ended

def Sleep.up : Sleep → Bool
  | .asleep _ | .committed => false
  | _ => true

/-- The lists are those of the queues. A bucket may remember a tail that its last scan has
taken. -/
structure TimeThread.Linked {ndebug : Bool} (s : LinkThread ndebug) (waiting : Nat → List Nat)
    (thread : Thread listQueues) : Prop where
  lists : ∀ idx, CoroutineQueue.Lists s.heap (s.buckets idx).waitingQueue (waiting idx)
  alike : Alike s.heap s.thread thread
  tail : ∀ idx, waiting idx ≠ [] → ∃ t, CoroutineQueue.tail (s.buckets idx).waitingQueue = some t ∧
    (s.sleep t = .asleep idx → (s.buckets idx).scanOverTs < s.wakeUpTs t →
      (waiting idx).getLast? = some t)
  fresh : ∀ f, (s.sleep f).up = true → s.heap f = none
  scanned : ∀ idx, (s.buckets idx).scanOverTs ≤ s.clock

structure TimeThread.Mirrors {ndebug : Bool} (s : LinkThread ndebug) (waiting : Nat → List Nat)
    (thread : Thread listQueues) : Prop extends s.Linked waiting thread where
  bedded : (s.listed waiting thread).Bedded

def TimeThread.Follows {ndebug : Bool} (s t : LinkThread ndebug) (e : TimeEvent)
    (waiting : Nat → List Nat) (thread : Thread listQueues) : Prop :=
  ∃ waiting' thread', Timed (s.listed waiting thread) e (t.listed waiting' thread') ∧
    t.Linked waiting' thread'

section
variable {ndebug : Bool} {s t : LinkThread ndebug} {waiting : Nat → List Nat}
  {thread : Thread listQueues}

theorem Alike.congr {link link' : QueueLinks} {a : Thread (linkedQueues ndebug)}
    {b : Thread listQueues} (h : Alike link a b) (heq : ∀ x ∈ b.ready, link' x = link x) :
    Alike link' a b := by
  cases h with
  | waking idx h => exact .waking idx (h.congr heq)
  | sweeping idx h => exact .sweeping idx (h.congr heq)
  | turn idx => exact .turn idx
  | store now => exact .store now
  | scan idx => exact .scan idx
  | pace idx => exact .pace idx
  | wait idx nextRunTs => exact .wait idx nextRunTs
  | test idx => exact .test idx
  | sweep idx => exact .sweep idx
  | ended => exact .ended

theorem TimeThread.listed_setBucket (s : LinkThread ndebug) (idx : Nat) (scanOver : Ts)
    (q : CoroutineQueue) (xs : List Nat) :
    (s.setBucket idx ⟨scanOver,q⟩).listed (Function.update waiting idx xs) thread =
      (s.listed waiting thread).setBucket idx ⟨scanOver,xs⟩ := by
  have hbuckets : (fun i => (⟨((s.setBucket idx ⟨scanOver,q⟩).buckets i).scanOverTs,
      Function.update waiting idx xs i⟩ : Bucket listQueues)) =
      ((s.listed waiting thread).setBucket idx ⟨scanOver,xs⟩).buckets := by
    funext i
    by_cases hi : i = idx
    · subst hi
      simp [TimeThread.setBucket]
    · simp [TimeThread.setBucket,TimeThread.listed,hi]
  unfold TimeThread.listed at hbuckets ⊢
  rw [hbuckets]
  rfl

theorem TimeThread.commit_eq_fire {f : Nat} (h : NewRpc.unlinked ndebug s.heap f = true) :
    s.commit f = some (s.fire f) := if_pos h

theorem TimeThread.Linked.congr (h : s.Linked waiting thread) (hheap : t.heap = s.heap)
    (hbuckets : t.buckets = s.buckets) (hthread : t.thread = s.thread) (hclock : s.clock ≤ t.clock)
    (hsleep : ∀ f idx, t.sleep f = .asleep idx → s.sleep f = .asleep idx ∧
      t.wakeUpTs f = s.wakeUpTs f)
    (hfresh : ∀ f, (t.sleep f).up = true → (s.sleep f).up = true) : t.Linked waiting thread := by
  refine ⟨fun idx => ?_,?_,fun idx hne => ?_,fun f hf => ?_,fun idx => ?_⟩
  · rw [hheap,hbuckets]
    exact h.lists idx
  · rw [hheap,hthread]
    exact h.alike
  · obtain ⟨tail,ht,hlast⟩ := h.tail idx hne
    rw [hbuckets]
    refine ⟨tail,ht,fun hs hlt => ?_⟩
    obtain ⟨hs',hw⟩ := hsleep tail idx hs
    rw [hw] at hlt
    exact hlast hs' hlt
  · rw [hheap]
    exact h.fresh f (hfresh f hf)
  · rw [hbuckets]
    exact BitVec.le_trans (h.scanned idx) hclock

theorem TimeThread.Linked.setSleep (h : s.Linked waiting thread) {f : Nat} {σ : Sleep}
    (hf : (s.sleep f).up = true) (hσ : ∀ idx, σ ≠ .asleep idx)
    (hsleep : t.sleep = Function.update s.sleep f σ)
    (hwake : ∀ g, g ≠ f → t.wakeUpTs g = s.wakeUpTs g) (hheap : t.heap = s.heap)
    (hbuckets : t.buckets = s.buckets) (hthread : t.thread = s.thread)
    (hclock : t.clock = s.clock) : t.Linked waiting thread := by
  have hself : t.sleep f = σ := by rw [hsleep,Function.update_self]
  have hother : ∀ g, g ≠ f → t.sleep g = s.sleep g := by
    intro g hg
    rw [hsleep,Function.update_of_ne hg]
  refine h.congr hheap hbuckets hthread (hclock ▸ BitVec.le_refl _) (fun g idx hs => ?_)
    (fun g hg => ?_)
  · have hne : g ≠ f := by
      intro heq
      rw [heq,hself] at hs
      exact hσ idx hs
    rw [← hother g hne]
    exact ⟨hs,hwake g hne⟩
  · by_cases hgf : g = f
    · rw [hgf]
      exact hf
    · rw [hother g hgf] at hg
      exact hg

theorem TimeThread.Mirrors.asleep (h : s.Mirrors waiting thread) {f : Nat}
    (hf : (∃ idx, f ∈ waiting idx) ∨ f ∈ thread.ready) : ∃ idx, s.sleep f = .asleep idx := by
  rcases hf with ⟨idx,hin⟩ | hin
  · exact ⟨idx,h.bedded.home idx f hin⟩
  · exact h.bedded.places.live none f hin

theorem TimeThread.Mirrors.relink (h : s.Mirrors waiting thread) {f : Nat}
    (hf : s.sleep f = .committed) {next : Option Nat} (ht : t.heap = Function.update s.heap f next)
    (hbuckets : t.buckets = s.buckets) (hthread : t.thread = s.thread)
    (hclock : t.clock = s.clock) (hwake : t.wakeUpTs = s.wakeUpTs)
    (hsleep : ∀ g, g ≠ f → t.sleep g = s.sleep g) (hself : ∀ idx, t.sleep f ≠ .asleep idx)
    (hfresh : (t.sleep f).up = true → next = none) : t.Linked waiting thread := by
  have hoff : ∀ g, g ≠ f → t.heap g = s.heap g := by
    intro g hg
    rw [ht,Function.update_of_ne hg]
  have hout : ∀ g, ((∃ idx, g ∈ waiting idx) ∨ g ∈ thread.ready) → t.heap g = s.heap g := by
    intro g hg
    refine hoff g (fun heq => ?_)
    obtain ⟨idx,hasleep⟩ := h.asleep hg
    rw [heq,hf] at hasleep
    cases hasleep
  refine ⟨fun idx => ?_,?_,fun idx hne => ?_,fun g hg => ?_,fun idx => ?_⟩
  · rw [hbuckets]
    exact (h.lists idx).congr (fun x hx => hout x (.inl ⟨idx,hx⟩))
  · rw [hthread]
    exact h.alike.congr (fun x hx => hout x (.inr hx))
  · obtain ⟨tail,htail,hlast⟩ := h.tail idx hne
    rw [hbuckets,hwake]
    refine ⟨tail,htail,fun hs hlt => hlast ?_ hlt⟩
    rw [← hsleep tail (fun heq => hself idx (heq ▸ hs))]
    exact hs
  · by_cases hgf : g = f
    · rw [hgf] at hg
      rw [ht,hgf,Function.update_self]
      exact hfresh hg
    · rw [hoff g hgf]
      rw [hsleep g hgf] at hg
      exact h.fresh g hg
  · rw [hbuckets,hclock]
    exact h.scanned idx

theorem TimeThread.Linked.goto (h : s.Linked waiting thread) {a : Thread (linkedQueues ndebug)}
    {b : Thread listQueues} (hab : Alike s.heap a b) : (s.goto a).Linked waiting b :=
  ⟨h.lists,hab,h.tail,h.fresh,h.scanned⟩

theorem TimeThread.Mirrors.append (h : s.Mirrors waiting thread) {f idx : Nat}
    (hf : s.sleep f = .entered idx) (hover : (s.buckets idx).scanOverTs < s.wakeUpTs f)
    (hok : tailStays s (.lock f) = true) (ht : s.lock f idx = some t) :
    s.Follows t (.lock f) waiting thread := by
  have hup : (s.sleep f).up = true := by rw [hf]; rfl
  have hout : ∀ g, ((∃ i, g ∈ waiting i) ∨ g ∈ thread.ready) → g ≠ f := by
    intro g hg heq
    obtain ⟨i,hasleep⟩ := h.asleep hg
    rw [heq,hf] at hasleep
    cases hasleep
  have hlast : waiting idx ≠ [] →
      CoroutineQueue.tail (s.buckets idx).waitingQueue = (waiting idx).getLast? := by
    intro hne
    obtain ⟨tail,htail,hl⟩ := h.tail idx hne
    have hsize : CoroutineQueue.size (s.buckets idx).waitingQueue ≠ 0 := by
      rw [(h.lists idx).size]
      exact fun hz => hne (List.length_eq_zero_iff.mp hz)
    have hstays : s.sleep tail = .asleep idx ∧ (s.buckets idx).scanOverTs < s.wakeUpTs tail := by
      simpa [tailStays,hf,BitVec.not_le.mpr hover,hsize,htail] using hok
    rw [htail,hl hstays.1 hstays.2]
  obtain ⟨link',q',happ,hholds,hframe⟩ := (h.lists idx).appendToTail ndebug
    (fun hin => hout f (.inl ⟨idx,hin⟩) rfl) (h.fresh f hup) hlast
  let waiting' := Function.update waiting idx (waiting idx ++ [f])
  let u : LinkThread ndebug :=
    ({ s with heap := link' }.setBucket idx ⟨(s.buckets idx).scanOverTs,q'⟩).setSleep f (.asleep idx)
  have heq : t = u := by
    simp only [TimeThread.lock,if_neg (BitVec.not_le.mpr hover),happ,Option.some.injEq] at ht
    exact ht.symm
  have hlisted : u.listed waiting' thread = (s.listed waiting thread).append f idx :=
    congrArg (fun v => TimeThread.setSleep v f (.asleep idx))
      (TimeThread.listed_setBucket { s with heap := link' } idx _ q' _)
  have hself : u.sleep f = .asleep idx := Function.update_self ..
  have hsleep : ∀ g, g ≠ f → u.sleep g = s.sleep g := fun g hg => Function.update_of_ne hg _ _
  have hbucket : u.buckets idx = ⟨(s.buckets idx).scanOverTs,q'⟩ := Function.update_self ..
  have hother : ∀ i, i ≠ idx → u.buckets i = s.buckets i := fun i hi => Function.update_of_ne hi _ _
  have happart : ∀ i x, i ≠ idx → x ∈ waiting i → x ∉ waiting idx := by
    intro i x hi hx hin
    have heq' := h.bedded.places.apart (some i) (some idx) x hx hin
    exact hi (Option.some.inj heq')
  refine heq ▸ ⟨waiting',thread,?_,fun i => ?_,?_,fun i hne => ?_,fun g hg => ?_,fun i => ?_⟩
  · rw [hlisted]
    exact .append hf hover
  · by_cases hi : i = idx
    · subst hi
      rw [hbucket]
      simp only [waiting',Function.update_self]
      exact hholds.toLists
    · rw [hother i hi]
      simp only [waiting',Function.update_of_ne hi]
      exact (h.lists i).congr (fun x hx => hframe x (happart i x hi hx))
  · refine h.alike.congr (fun x hx => hframe x (fun hin => ?_))
    have heq' := h.bedded.places.apart none (some idx) x hx hin
    cases heq'
  · by_cases hi : i = idx
    · subst hi
      rw [hbucket]
      simp only [waiting',Function.update_self]
      exact ⟨f,by simpa using hholds.tail,fun _ _ => by simp⟩
    · simp only [waiting',Function.update_of_ne hi] at hne ⊢
      rw [hother i hi]
      obtain ⟨tail,htail,hl⟩ := h.tail i hne
      refine ⟨tail,htail,fun hs hlt => hl ?_ hlt⟩
      have hne' : tail ≠ f := by
        intro heq'
        rw [heq',hself] at hs
        cases hs
        exact hi rfl
      rw [← hsleep tail hne']
      exact hs
  · by_cases hgf : g = f
    · rw [hgf,hself] at hg
      cases hg
    · rw [hsleep g hgf] at hg
      refine (hframe g (fun hin => ?_)).trans (h.fresh g hg)
      rw [show s.sleep g = .asleep idx from h.bedded.home idx g hin] at hg
      cases hg
  · by_cases hi : i = idx
    · rw [hi,hbucket]
      exact h.scanned idx
    · rw [hother i hi]
      exact h.scanned i

/-- A scan divides a list as it divides the queue. -/
theorem TimeThread.Mirrors.scan (h : s.Mirrors waiting thread) {idx : Nat} {forceAwake : Bool}
    {a : CoroutineQueue → Thread (linkedQueues ndebug)} {b : List Nat → Thread listQueues}
    (hab : ∀ link q xs, CoroutineQueue.Holds link q xs →
      Alike link (a q) (b xs)) (ht : s.scan idx forceAwake a = some t) :
    ∃ waiting', t.listed waiting' (b ((waiting idx).filter
        ((s.listed waiting thread).due forceAwake))) =
      (s.listed waiting thread).fetch idx forceAwake b ∧
      t.Linked waiting' (b ((waiting idx).filter ((s.listed waiting thread).due forceAwake))) := by
  have hempty : TargetHolds s.heap [] (some .empty) := CoroutineQueue.empty_holds s.heap
  let due := (s.listed waiting thread).due forceAwake
  obtain ⟨link',q',target',hfetch,hf,_⟩ := (h.lists idx).fetchNodes hempty
    (fun _ _ => List.not_mem_nil) ndebug due
  obtain ⟨r,rfl⟩ := Option.isSome_iff_exists.mp (hf.isSome.trans rfl)
  let waiting' := Function.update waiting idx ((waiting idx).filter (fun f => !due f))
  let u : LinkThread ndebug := ({ s with heap := link' }.setBucket idx ⟨s.clock,q'⟩).goto (a r)
  have hqueue : CoroutineQueue.fetchNodes ndebug (fun f => decide (s.wakeUpTs f ≤ s.clock) ||
      forceAwake) s.heap (s.buckets idx).waitingQueue (some .empty) = some (link',q',some r) := hfetch
  have heq : t = u := by
    simp only [TimeThread.scan,hqueue,Option.some.injEq] at ht
    exact ht.symm
  have hlisted : u.listed waiting' (b ((waiting idx).filter due)) =
      (s.listed waiting thread).fetch idx forceAwake b :=
    congrArg (fun v : ListThread => v.goto (b ((waiting idx).filter due)))
      (TimeThread.listed_setBucket { s with heap := link' } idx s.clock q' _)
  have hbucket : u.buckets idx = ⟨s.clock,q'⟩ := Function.update_self ..
  have hother : ∀ i, i ≠ idx → u.buckets i = s.buckets i := fun i hi => Function.update_of_ne hi _ _
  have hframe : ∀ x, x ∉ waiting idx → link' x = s.heap x :=
    fun x hx => hf.frame x hx List.not_mem_nil
  refine heq ▸ ⟨waiting',hlisted,fun i => ?_,hab link' r _ hf.holds,fun i hne => ?_,fun g hg => ?_,
    fun i => ?_⟩
  · by_cases hi : i = idx
    · subst hi
      rw [hbucket]
      simp only [waiting',Function.update_self]
      exact hf.lists
    · rw [hother i hi]
      simp only [waiting',Function.update_of_ne hi]
      refine (h.lists i).congr (fun x hx => hframe x (fun hin => hi ?_))
      have heq' := h.bedded.places.apart (some i) (some idx) x hx hin
      exact Option.some.inj heq'
  · by_cases hi : i = idx
    · subst hi
      rw [hbucket]
      simp only [waiting',Function.update_self] at hne ⊢
      have hold : waiting i ≠ [] := fun heq' => hne (by rw [heq']; rfl)
      obtain ⟨tail,htail,hl⟩ := h.tail i hold
      have hsize : q'.size ≠ 0 := by
        rw [hf.lists.size]
        exact fun hz => hne (List.length_eq_zero_iff.mp hz)
      refine ⟨tail,(hf.tail hsize).trans htail,fun hs hlt => ?_⟩
      -- a tail that is not due now was not due at the last scan either
      have hlate : s.clock < s.wakeUpTs tail := hlt
      have hlast := hl hs (Std.lt_of_le_of_lt (h.scanned i) hlate)
      cases forceAwake with
      | false =>
        refine getLast?_filter hlast ?_
        simpa [due,TimeThread.due,TimeThread.listed] using BitVec.not_le.mpr hlate
      | true => exact absurd (by simp [due,TimeThread.due]) hne
    · simp only [waiting',Function.update_of_ne hi] at hne ⊢
      rw [hother i hi]
      exact h.tail i hne
  · have hg' : (s.sleep g).up = true := hg
    refine (hframe g (fun hin => ?_)).trans (h.fresh g hg')
    rw [show s.sleep g = .asleep idx from h.bedded.home idx g hin] at hg'
    cases hg'
  · by_cases hi : i = idx
    · rw [hi,hbucket]
      exact BitVec.le_refl _
    · rw [hother i hi]
      exact h.scanned i

/-- The first of the frames that a scan has taken is committed. -/
theorem TimeThread.Mirrors.wake (h : s.Mirrors waiting thread) {q : CoroutineQueue} {f : Nat}
    {xs : List Nat} {a : CoroutineQueue → Thread (linkedQueues ndebug)}
    {b : List Nat → Thread listQueues} (hready : thread.ready = f :: xs)
    (hq : q.Holds s.heap (f :: xs)) (hab : ∀ link q xs, CoroutineQueue.Holds link q xs →
      Alike link (a q) (b xs)) (ht : s.wake q a = some t) :
    t.listed waiting (b xs) = ((s.listed waiting thread).goto (b xs)).fire f ∧
      t.Linked waiting (b xs) := by
  obtain ⟨q',hpop,hholds⟩ := hq.popFromHead ndebug
  let u : LinkThread ndebug :=
    ({ s with heap := Function.update s.heap f none }.goto (a q')).fire f
  have heq : t = u := by
    simp only [TimeThread.wake,hpop] at ht
    have hu : NewRpc.unlinked ndebug (Function.update s.heap f none) f = true := by
      simp [NewRpc.unlinked]
    exact Option.some.inj (ht.symm.trans (TimeThread.commit_eq_fire hu))
  have hin : f ∈ thread.ready := by simp [hready]
  obtain ⟨idx,hasleep⟩ := h.asleep (.inr hin)
  have hoff : ∀ g, g ≠ f → u.heap g = s.heap g := fun g hg => Function.update_of_ne hg _ _
  have hself : u.sleep f = .committed := Function.update_self ..
  have hsleep : ∀ g, g ≠ f → u.sleep g = s.sleep g := fun g hg => Function.update_of_ne hg _ _
  refine heq ▸ ⟨rfl,fun i => ?_,hab _ q' xs hholds,fun i hne => ?_,fun g hg => ?_,h.scanned⟩
  · refine (h.lists i).congr (fun x hx => hoff x (fun heq' => ?_))
    have hplace := h.bedded.places.apart (some i) none f (heq' ▸ hx) hin
    cases hplace
  · obtain ⟨tail,htail,hl⟩ := h.tail i hne
    refine ⟨tail,htail,fun hs hlt => hl ?_ hlt⟩
    have hne' : tail ≠ f := by
      intro heq'
      rw [heq',hself] at hs
      cases hs
    rw [← hsleep tail hne']
    exact hs
  · have hgf : g ≠ f := by
      intro heq'
      rw [heq',hself] at hg
      cases hg
    rw [hsleep g hgf] at hg
    exact (hoff g hgf).trans (h.fresh g hg)

theorem TimeThread.Mirrors.loop (h : s.Mirrors waiting thread) (he : s.loop = some t) :
    s.Follows t .loop waiting thread := by
  have halike := h.alike
  unfold TimeThread.loop at he
  split at he
  · rename_i idx hth
    rw [hth] at halike
    cases halike
    rw [round_robin] at he
    cases he
    by_cases hz : (idx + 1) % bucketNum = 0
    · rw [if_pos hz]
      exact ⟨waiting,_,.revolve rfl hz,h.goto (.store _)⟩
    · rw [if_neg hz]
      exact ⟨waiting,_,.turn rfl hz,h.goto (.scan _)⟩
  · rename_i now hth
    rw [hth] at halike
    cases halike
    cases he
    refine ⟨waiting,_,.store rfl,?_⟩
    exact ⟨h.lists,.scan 0,h.tail,h.fresh,h.scanned⟩
  · rename_i idx hth
    rw [hth] at halike
    cases halike
    have hs : ({ s with scans := s.scans + 1 } : LinkThread ndebug).Mirrors waiting (.scan idx) :=
      ⟨⟨h.lists,h.alike,h.tail,h.fresh,h.scanned⟩,h.bedded.congr (fun _ => rfl) rfl rfl⟩
    obtain ⟨waiting',hlisted,hlinked⟩ := hs.scan (b := Thread.waking (Q := listQueues) idx)
      (fun _ _ _ hq => .waking idx hq) he
    refine ⟨waiting',_,?_,hlinked⟩
    rw [hlisted]
    exact .scan rfl
  · rename_i idx q hth
    rw [hth] at halike
    cases halike with
    | @waking _ _ xs hq =>
      cases xs with
      | nil =>
        have hempty : (q.size == 0) = true := by simp [hq.size]
        rw [if_pos hempty] at he
        cases he
        exact ⟨waiting,_,.woken rfl,h.goto (.pace idx)⟩
      | cons f xs =>
        have hne : ¬ (q.size == 0) = true := by simp [hq.size]
        rw [if_neg hne] at he
        obtain ⟨hlisted,hlinked⟩ := h.wake (b := Thread.waking (Q := listQueues) idx) rfl hq
          (fun _ _ _ hq => .waking idx hq) he
        refine ⟨waiting,_,?_,hlinked⟩
        rw [hlisted]
        exact .wake rfl
  · rename_i idx hth
    rw [hth] at halike
    cases halike
    cases he
    by_cases hlate : s.clock ≥ s.nextRunTs idx
    · rw [if_pos hlate]
      exact ⟨waiting,_,.late rfl hlate,h.goto (.test idx)⟩
    · rw [if_neg hlate]
      exact ⟨waiting,_,.early rfl,h.goto (.wait idx _)⟩
  · rename_i idx next hth
    rw [hth] at halike
    cases halike
    obtain ⟨hover,heq⟩ := Option.ite_none_right_eq_some.mp he
    cases heq
    exact ⟨waiting,_,.wait rfl hover,h.goto (.test idx)⟩
  · rename_i idx hth
    rw [hth] at halike
    cases halike
    cases he
    cases hstop : s.stopFlag with
    | true => exact ⟨waiting,_,.stopped rfl hstop,h.goto (.sweep 0)⟩
    | false => exact ⟨waiting,_,.again rfl hstop,h.goto (.turn idx)⟩
  · rename_i idx hth
    rw [hth] at halike
    cases halike
    obtain ⟨waiting',hlisted,hlinked⟩ := h.scan (b := Thread.sweeping (Q := listQueues) idx)
      (fun _ _ _ hq => .sweeping idx hq) he
    refine ⟨waiting',_,?_,hlinked⟩
    rw [hlisted]
    exact .sweep rfl
  · rename_i idx q hth
    rw [hth] at halike
    cases halike with
    | @sweeping _ _ xs hq =>
      cases xs with
      | nil =>
        have hempty : (q.size == 0) = true := by simp [hq.size]
        rw [if_pos hempty] at he
        cases he
        by_cases hlt : idx + 1 < bucketNum
        · rw [if_pos hlt]
          exact ⟨waiting,_,.swept rfl hlt,h.goto (.sweep _)⟩
        · rw [if_neg hlt]
          exact ⟨waiting,_,.ended rfl (Nat.le_of_not_lt hlt),h.goto .ended⟩
      | cons f xs =>
        have hne : ¬ (q.size == 0) = true := by simp [hq.size]
        rw [if_neg hne] at he
        obtain ⟨hlisted,hlinked⟩ := h.wake (b := Thread.sweeping (Q := listQueues) idx) rfl hq
          (fun _ _ _ hq => .sweeping idx hq) he
        refine ⟨waiting,_,?_,hlinked⟩
        rw [hlisted]
        exact .force rfl
  · cases he

theorem TimeThread.Mirrors.follows (h : s.Mirrors waiting thread) {e : TimeEvent}
    (hok : tailStays s e = true) (he : s.step e = some t) : s.Follows t e waiting thread := by
  cases e with
  | tick now =>
    obtain ⟨⟨hle,hnow⟩,heq⟩ := Option.ite_none_right_eq_some.mp he
    cases heq
    exact ⟨waiting,thread,.tick hle hnow,
      h.congr rfl rfl rfl hle (fun _ _ hs => ⟨hs,rfl⟩) (fun _ hf => hf)⟩
  | stop =>
    cases he
    exact ⟨waiting,thread,.stop,
      h.congr rfl rfl rfl (BitVec.le_refl _) (fun _ _ hs => ⟨hs,rfl⟩) (fun _ hf => hf)⟩
  | enter f wakeUpTs =>
    obtain ⟨hf,heq⟩ := Option.ite_none_right_eq_some.mp he
    cases heq
    have hup : (s.sleep f).up = true := by rw [hf]; rfl
    unfold TimeThread.enter
    by_cases hpast : s.startBukcetRunTs ≥ wakeUpTs
    · simp only [if_pos hpast]
      exact ⟨waiting,thread,.past hf hpast,h.setSleep hup (by simp) rfl
        (fun g hg => Function.update_of_ne hg _ _) rfl rfl rfl rfl⟩
    · simp only [if_neg hpast]
      exact ⟨waiting,thread,.register hf (BitVec.not_le.mp hpast),h.setSleep hup (by simp) rfl
        (fun g hg => Function.update_of_ne hg _ _) rfl rfl rfl rfl⟩
  | lock f =>
    cases hf : s.sleep f with
    | entered idx =>
      have hup : (s.sleep f).up = true := by rw [hf]; rfl
      have hlock : s.lock f idx = some t := by
        simpa only [TimeThread.step,hf] using he
      by_cases hover : (s.buckets idx).scanOverTs ≥ s.wakeUpTs f
      · simp only [TimeThread.lock,if_pos hover,Option.some.injEq] at hlock
        subst hlock
        exact ⟨waiting,thread,.miss hf hover,h.setSleep hup (by simp) rfl (fun _ _ => rfl) rfl rfl
          rfl rfl⟩
      · exact h.append hf (BitVec.not_le.mp hover) hok hlock
    | _ => simp [TimeThread.step,hf] at he
  | commit f =>
    obtain ⟨hf,heq⟩ := Option.ite_none_right_eq_some.mp he
    have hup : (s.sleep f).up = true := by rw [hf]; rfl
    have hu : NewRpc.unlinked ndebug s.heap f = true := by
      simp [NewRpc.unlinked,h.fresh f hup]
    rw [TimeThread.commit_eq_fire hu] at heq
    cases heq
    exact ⟨waiting,thread,.commit hf,h.setSleep hup (by simp) rfl (fun _ _ => rfl) rfl rfl rfl rfl⟩
  | resume f =>
    obtain ⟨hf,heq⟩ := Option.ite_none_right_eq_some.mp he
    cases heq
    have hself : (({ s with heap := (linkedQueues ndebug).relink s.heap f none } :
      LinkThread ndebug).setSleep f .awake).sleep f = .awake := Function.update_self ..
    refine ⟨waiting,thread,.resume hf,h.relink hf rfl rfl rfl rfl rfl
      (fun g hg => Function.update_of_ne hg _ _) (fun idx hs => ?_) (fun _ => rfl)⟩
    rw [hself] at hs
    cases hs
  | schedule f next =>
    obtain ⟨hf,heq⟩ := Option.ite_none_right_eq_some.mp he
    cases heq
    refine ⟨waiting,thread,.schedule hf,h.relink hf rfl rfl rfl rfl rfl (fun _ _ => rfl)
      (fun idx hs => ?_) (fun hup => ?_)⟩
    · rw [hf] at hs
      cases hs
    · rw [hf] at hup
      cases hup
  | loop => exact h.loop he

theorem TimeThread.Mirrors.step (h : s.Mirrors waiting thread) {e : TimeEvent}
    (hok : tailStays s e = true) (he : s.step e = some t) : ∃ waiting' thread',
      Timed (s.listed waiting thread) e (t.listed waiting' thread') ∧
        t.Mirrors waiting' thread' := by
  obtain ⟨waiting',thread',htimed,hlinked⟩ := h.follows hok he
  exact ⟨waiting',thread',htimed,hlinked,htimed.bedded h.bedded⟩

theorem TimeThread.start_mirrors (precision : Ts) (precise : precision ≠ 0) (now : Ts) :
    (start (linkedQueues ndebug) precision precise now).Mirrors (fun _ => []) (.turn 0) :=
  ⟨⟨fun _ => ⟨rfl,rfl⟩,.turn 0,fun _ hne => absurd rfl hne,fun _ _ => rfl,
    fun _ => BitVec.le_def.mpr (Nat.zero_le _)⟩,start_bedded precision precise now⟩

end

/-- What every step keeps of the timer with lists holds of the lists in the queues. -/
theorem listed_invariant {ndebug : Bool} {I : ListThread → Prop} {precision : Ts}
    {precise : precision ≠ 0} {now : Ts} (hstart : I (.start listQueues precision precise now))
    (hstep : ∀ u e v, u.Bedded → I u → Timed u e v → I v) (s : LinkThread ndebug)
    (h : Transition.Reaches TimeThread.step tailStays
      (.start (linkedQueues ndebug) precision precise now) s) :
    ∃ waiting thread, s.Mirrors waiting thread ∧ I (s.listed waiting thread) := by
  refine h.invariant (I := fun s => ∃ waiting thread, s.Mirrors waiting thread ∧
    I (s.listed waiting thread)) ?_ ?_
  · intro s e t hs hok he
    obtain ⟨waiting,thread,hm,hi⟩ := hs
    obtain ⟨waiting',thread',htimed,hm'⟩ := hm.step hok he
    exact ⟨waiting',thread',hm',hstep _ _ _ hm.bedded hi htimed⟩
  · exact ⟨fun _ => [],.turn 0,TimeThread.start_mirrors precision precise now,hstart⟩

end NewRpc.Time
