import NewRpc.Sweep
import NewRpc.TimeLinks

/-!
No frame is committed before its time, up to `stop`: what the stored timestamps say about
the clock.
-/

set_option autoImplicit false

namespace NewRpc.Time

def TimeThread.NeverEarly {Q : Queues} (s : TimeThread Q) : Prop :=
  s.stopFlag = false → ∀ x ∈ s.fired, x.wakeUpTs ≤ x.time

def Thread.sweeps {Q : Queues} : Thread Q → Bool
  | .sweep _ | .sweeping _ _ | .ended => true
  | _ => false

/-- No stored timestamp is ahead of the clock, and before `stop` a scan takes only what
is due. -/
structure TimeThread.Honest (s : ListThread) : Prop where
  base : s.startBukcetRunTs ≤ s.clock
  scanned : ∀ idx, (s.buckets idx).scanOverTs ≤ s.clock
  store : ∀ now, s.thread = .store now → now ≤ s.clock
  missed : ∀ f, s.sleep f = .missAwaken → s.wakeUpTs f ≤ s.clock
  ready : s.stopFlag = false → ∀ f ∈ s.thread.ready, s.wakeUpTs f ≤ s.clock
  calm : s.thread.sweeps = true → s.stopFlag = true
  fired : s.NeverEarly

section
variable {s t : ListThread}

theorem TimeThread.Honest.setSleep (h : s.Honest) {f : Nat} {σ : Sleep}
    (hσ : σ = .missAwaken → s.wakeUpTs f ≤ s.clock) : (s.setSleep f σ).Honest := by
  refine ⟨h.base,h.scanned,h.store,fun g hg => ?_,h.ready,h.calm,h.fired⟩
  by_cases hgf : g = f
  · rw [hgf,setSleep_self] at hg
    rw [hgf]
    exact hσ hg
  · rw [setSleep_ne s σ hgf] at hg
    exact h.missed g hg

/-- The time of a frame that is up may change. -/
theorem TimeThread.Honest.retime (h : s.Honest) (hb : s.Bedded) {f : Nat}
    (hf : s.sleep f = .awake) (wakeUpTs : Ts) :
    ({ s with wakeUpTs := Function.update s.wakeUpTs f wakeUpTs } : ListThread).Honest := by
  have hother : ∀ g, g ≠ f → Function.update s.wakeUpTs f wakeUpTs g = s.wakeUpTs g :=
    fun g hg => Function.update_of_ne hg _ _
  refine ⟨h.base,h.scanned,h.store,fun g hg => ?_,fun hrun g hg => ?_,h.calm,h.fired⟩
  · have hne : g ≠ f := by
      intro heq
      have hmissed : s.sleep g = .missAwaken := hg
      rw [heq,hf] at hmissed
      cases hmissed
    show Function.update s.wakeUpTs f wakeUpTs g ≤ s.clock
    rw [hother g hne]
    exact h.missed g hg
  · have hne : g ≠ f := by
      intro heq
      obtain ⟨idx,hasleep⟩ := hb.places.live none g hg
      rw [heq,hf] at hasleep
      cases hasleep
    show Function.update s.wakeUpTs f wakeUpTs g ≤ s.clock
    rw [hother g hne]
    exact h.ready hrun g hg

theorem TimeThread.Honest.goto (h : s.Honest) {thread : Thread listQueues}
    (hstore : ∀ now, thread = .store now → now ≤ s.clock)
    (hready : ∀ f ∈ thread.ready, f ∈ s.thread.ready)
    (hcalm : thread.sweeps = true → s.stopFlag = true) : (s.goto thread).Honest :=
  ⟨h.base,h.scanned,hstore,h.missed,fun hrun f hf => h.ready hrun f (hready f hf),hcalm,h.fired⟩

theorem TimeThread.Honest.fire (h : s.Honest) {f : Nat}
    (hf : s.stopFlag = false → s.wakeUpTs f ≤ s.clock) : (s.fire f).Honest := by
  have hfired : ({ s with fired := s.fired ++ [⟨f,s.wakeUpTs f,s.clock⟩] } : ListThread).Honest := by
    refine ⟨h.base,h.scanned,h.store,h.missed,h.ready,h.calm,fun hrun x hx => ?_⟩
    rcases List.mem_append.mp hx with hin | heq
    · exact h.fired hrun x hin
    · rw [List.mem_singleton.mp heq]
      exact hf hrun
  exact hfired.setSleep (by simp)

theorem TimeThread.Honest.fetch (h : s.Honest) {idx : Nat} {forceAwake : Bool}
    {next : listQueues.Queue → Thread listQueues} (hnext : ∀ q, (next q).ready = q)
    (hstore : ∀ q now, next q ≠ .store now)
    (hcalm : ∀ q, (next q).sweeps = true → s.stopFlag = true)
    (hforce : s.stopFlag = false → forceAwake = false) :
    (s.fetch idx forceAwake next).Honest := by
  refine ⟨h.base,fun i => ?_,fun now hth => absurd hth (hstore _ now),h.missed,
    fun hrun f hf => ?_,hcalm _,h.fired⟩
  · rw [TimeThread.fetch_over]
    split
    · exact BitVec.le_refl _
    · exact h.scanned i
  · have hin : f ∈ (s.waiting idx).filter (s.due forceAwake) := by
      rw [← hnext ((s.waiting idx).filter (s.due forceAwake))]
      exact hf
    have hdue := (List.mem_filter.mp hin).2
    rw [TimeThread.due,hforce hrun,Bool.or_false] at hdue
    exact of_decide_eq_true hdue

theorem Timed.honest {e : TimeEvent} (h : Timed s e t) (hs : s.Honest) (hb : s.Bedded) :
    t.Honest := by
  cases h with
  | tick hle hnow =>
    refine ⟨BitVec.le_trans hs.base hle,fun i => BitVec.le_trans (hs.scanned i) hle,
      fun now hth => BitVec.le_trans (hs.store now hth) hle,
      fun f hf => BitVec.le_trans (hs.missed f hf) hle,
      fun hrun f hf => BitVec.le_trans (hs.ready hrun f hf) hle,hs.calm,hs.fired⟩
  | stop =>
    exact ⟨hs.base,hs.scanned,hs.store,hs.missed,by simp,fun _ => rfl,
      by simp [TimeThread.NeverEarly]⟩
  | @past f wakeUpTs hf hpast =>
    refine (hs.retime hb hf wakeUpTs).setSleep (fun _ => ?_)
    show Function.update s.wakeUpTs f wakeUpTs f ≤ s.clock
    rw [Function.update_self]
    exact BitVec.le_trans hpast hs.base
  | @register f wakeUpTs hf hlater =>
    have hr := hs.retime hb hf wakeUpTs
    refine TimeThread.Honest.setSleep ?_ (by simp)
    exact ⟨hr.base,hr.scanned,hr.store,hr.missed,hr.ready,hr.calm,hr.fired⟩
  | @miss f idx hf hover =>
    exact hs.setSleep (fun _ => BitVec.le_trans hover (hs.scanned idx))
  | @append f idx hf hover =>
    have ha : (s.setSleep f (.asleep idx)).Honest := hs.setSleep (by simp)
    refine ⟨ha.base,fun i => ?_,ha.store,ha.missed,ha.ready,ha.calm,ha.fired⟩
    rw [TimeThread.append_over]
    exact hs.scanned i
  | commit hf => exact hs.fire (fun _ => hs.missed _ hf)
  | resume hf => exact hs.setSleep (by simp)
  | schedule => exact hs
  | turn | woken | late | early | wait | again =>
    exact hs.goto (by simp) (by simp [Thread.ready]) (by simp [Thread.sweeps])
  | revolve =>
    refine hs.goto (fun now heq => ?_) (by simp [Thread.ready]) (by simp [Thread.sweeps])
    cases heq
    exact BitVec.le_refl _
  | @store now hth =>
    have hg : TimeThread.Honest (s.goto (.scan 0)) :=
      hs.goto (by simp) (by simp [Thread.ready]) (by simp [Thread.sweeps])
    exact ⟨hs.store now hth,hg.scanned,hg.store,hg.missed,hg.ready,hg.calm,hg.fired⟩
  | @scan idx hth =>
    have hsame : ({ s with scans := s.scans + 1 } : ListThread).Honest :=
      ⟨hs.base,hs.scanned,hs.store,hs.missed,hs.ready,hs.calm,hs.fired⟩
    exact hsame.fetch (fun _ => rfl) (by simp) (by simp [Thread.sweeps]) (fun _ => rfl)
  | @wake idx f q hth =>
    have hin : f ∈ s.thread.ready := by
      rw [hth]
      exact List.mem_cons_self
    refine TimeThread.Honest.fire ?_ (fun hrun => hs.ready hrun f hin)
    refine hs.goto (by simp) (fun g hg => ?_) (by simp [Thread.sweeps])
    rw [hth]
    exact List.mem_cons_of_mem f hg
  | stopped hth hstop => exact hs.goto (by simp) (by simp [Thread.ready]) (fun _ => hstop)
  | @sweep idx hth =>
    have hstop : s.stopFlag = true := hs.calm (by rw [hth]; rfl)
    refine hs.fetch (fun _ => rfl) (by simp) (fun _ _ => hstop) (fun hrun => ?_)
    rw [hstop] at hrun
    cases hrun
  | @force idx f q hth =>
    have hstop : s.stopFlag = true := hs.calm (by rw [hth]; rfl)
    refine TimeThread.Honest.fire ?_ (fun hrun => ?_)
    · refine hs.goto (by simp) (fun g hg => ?_) (fun _ => hstop)
      rw [hth]
      exact List.mem_cons_of_mem f hg
    · have hrun' : s.stopFlag = false := hrun
      rw [hstop] at hrun'
      cases hrun'
  | swept hth | ended hth =>
    have hstop : s.stopFlag = true := hs.calm (by rw [hth]; rfl)
    exact hs.goto (by simp) (by simp [Thread.ready]) (fun _ => hstop)

end

theorem TimeThread.start_honest (precision : Ts) (precise : precision ≠ 0) (now : Ts) :
    (start listQueues precision precise now).Honest := by
  refine ⟨BitVec.le_refl _,fun _ => BitVec.le_def.mpr (Nat.zero_le _),?_,?_,?_,?_,?_⟩
  · simp [start]
  · simp [start]
  · simp [start,Thread.ready]
  · simp [start,Thread.sweeps]
  · simp [NeverEarly,start]

/-- Timers never fire early, as long as no frame is hung onto a tail that a scan has taken. -/
theorem neverEarly_of_tailStays (ndebug : Bool) (precision : Ts) (precise : precision ≠ 0)
    (now : Ts) (s : LinkThread ndebug) (h : Transition.Reaches TimeThread.step tailStays
      (.start (linkedQueues ndebug) precision precise now) s) : s.NeverEarly := by
  obtain ⟨_,_,_,hi⟩ := listed_invariant (TimeThread.start_honest precision precise now)
    (fun _ _ _ hb hi ht => ht.honest hi hb) s h
  exact hi.fired

def wakesOne : List TimeEvent :=
  [.enter 1 (4097 * millisecond),.lock 1,.enter 2 millisecond,.lock 2,.loop,.tick millisecond,
    .loop,.loop,.resume 2]

theorem wakesOne_neverEarly : ∃ s : LinkThread false, s.stopFlag = false ∧
    s.fired = [⟨2,millisecond,millisecond⟩] ∧ s.NeverEarly := by
  have hrun : (Transition.run TimeThread.step tailStays (stillThread (linkedQueues false))
      wakesOne).map (fun s => (s.stopFlag,s.fired)) =
      some (false,[⟨2,millisecond,millisecond⟩]) := by rfl
  obtain ⟨s,hs,heq⟩ := Option.map_eq_some_iff.mp hrun
  obtain ⟨hrun,hfired⟩ := Prod.mk.inj heq
  exact ⟨s,hrun,hfired,neverEarly_of_tailStays false millisecond _ 0 s
    (Transition.reaches_of_run hs)⟩

def wakesLater : List TimeEvent :=
  wakesOne ++ [.enter 2 (3 * millisecond),.lock 2,.enter 5 (3 * millisecond),.lock 5,.loop,.loop,
    .tick (2 * millisecond),.loop,.loop,.loop,.loop,.loop,.loop,.tick (3 * millisecond),.loop,
    .loop,.loop,.loop,.enter 4 (4097 * millisecond),.lock 4,.loop,.loop]

/-- Frame 4 is committed four seconds early. -/
theorem wakesLater_early : ∃ s : LinkThread false,
    Transition.run TimeThread.step (fun _ _ => true) (stillThread (linkedQueues false))
      wakesLater = some s ∧ s.stopFlag = false ∧
      ⟨4,4097 * millisecond,3 * millisecond⟩ ∈ s.fired ∧ ¬ s.NeverEarly := by
  have hrun : (Transition.run TimeThread.step (fun _ _ => true) (stillThread (linkedQueues false))
      wakesLater).map (fun s => (s.stopFlag,s.fired)) =
      some (false,[⟨2,millisecond,millisecond⟩,⟨2,3 * millisecond,3 * millisecond⟩,
        ⟨4,4097 * millisecond,3 * millisecond⟩]) := by rfl
  obtain ⟨s,hs,heq⟩ := Option.map_eq_some_iff.mp hrun
  obtain ⟨hrun,hfired⟩ := Prod.mk.inj heq
  have hin : ⟨4,4097 * millisecond,3 * millisecond⟩ ∈ s.fired := by
    rw [hfired]
    simp
  refine ⟨s,hs,hrun,hin,fun hnever => ?_⟩
  exact absurd (hnever hrun _ hin) (by decide)

end NewRpc.Time
