import NewRpc.TimeService

/-!
Where a sleeping frame is: in a bucket, in the ready queue of the scan, or with the
scheduler. Runs that append to no bucket whose tail a scan has taken away, and one
that does.
-/

set_option autoImplicit false

namespace NewRpc.Time
open IntrusiveList

inductive Place where
  | bucket (idx : Nat)
  | readyQueue
  | scheduler

def Wheel.At (s : Wheel) (frame : Nat) : Place → Prop
  | .bucket idx => Reach s.link (s.service.buckets idx).waitingQueue.head frame
  | .readyQueue => ∃ q, s.readyQueue = some q ∧ Reach s.link q.head frame
  | .scheduler => frame ∈ s.committed

def tailWaits (s : Wheel) : Event → Bool
  | .lock frame => match s.progress frame with
      | .entered idx =>
          let bucket := s.service.buckets idx
          decide (bucket.scanOverTs ≥ s.wakeUpTs frame) || bucket.waitingQueue.size == 0 ||
            bucket.waitingQueue.tail.all (fun tail => decide (bucket.scanOverTs < s.wakeUpTs tail))
      | _ => true
  | _ => true

/-- No sleeping frame is lost or duplicated, and no thread of the service gets stuck. -/
structure Wheel.Accounted (ndebug : Bool) (s : Wheel) : Prop where
  placed : ∀ frame, (s.progress frame).returned = true → ∃! place, s.At frame place
  strangers : ∀ frame place, s.At frame place → (s.progress frame).returned = true
  once : s.committed.Nodup
  due : ∀ frame idx, s.progress frame = .queued idx →
    s.wakeUpTs frame ≤ (s.service.buckets idx).scanOverTs →
    s.At frame .readyQueue ∨ s.At frame .scheduler
  goesOn : ∀ e, s.enabled e = true → tailWaits s e = true → (s.exec ndebug e).isSome = true

def ReadyHolds (link : QueueLinks) (ready : List Nat) : Option CoroutineQueue → Prop
  | none => ready = []
  | some q => q.Holds link ready

/-- The frames in the buckets and in the ready queue, listed. A bucket may remember a
tail that its last scan has taken. -/
structure Wheel.Rep (s : Wheel) (waiting : Nat → List Nat) (ready : List Nat) : Prop where
  lists : ∀ idx, (s.service.buckets idx).waitingQueue.Lists s.link (waiting idx)
  tail : ∀ idx, waiting idx ≠ [] → ∃ t, (s.service.buckets idx).waitingQueue.tail = some t ∧
    s.progress t = .queued idx ∧ ((s.service.buckets idx).scanOverTs < s.wakeUpTs t →
      (waiting idx).getLast? = some t)
  readyHolds : ReadyHolds s.link ready s.readyQueue
  waits : ∀ idx, ∀ f ∈ waiting idx, s.progress f = .queued idx ∧
    (s.service.buckets idx).scanOverTs < s.wakeUpTs f
  fetched : ∀ f, f ∈ ready ∨ f ∈ s.committed → s.progress f = .committed ∨
    ∃ idx, s.progress f = .queued idx ∧ s.wakeUpTs f ≤ (s.service.buckets idx).scanOverTs
  disjoint : ∀ f ∈ ready, f ∉ s.committed
  queued : ∀ f idx, s.progress f = .queued idx → f ∈ waiting idx ∨ f ∈ ready ∨ f ∈ s.committed
  missed : ∀ f, s.progress f = .committed → f ∈ s.committed
  once : s.committed.Nodup
  fresh : ∀ f, (s.progress f).returned = false → s.link f = none
  clock : ∀ idx, (s.service.buckets idx).scanOverTs ≤ s.clock

/-- A frame that waits has not been fetched. -/
theorem Wheel.Rep.not_fetched {s : Wheel} {waiting : Nat → List Nat} {ready : List Nat}
    (h : s.Rep waiting ready) {idx f : Nat} (hf : f ∈ waiting idx) :
    f ∉ ready ∧ f ∉ s.committed := by
  obtain ⟨hp,hlt⟩ := h.waits idx f hf
  have hnot : ¬ (f ∈ ready ∨ f ∈ s.committed) := by
    intro hin
    rcases h.fetched f hin with hc | ⟨idx',hp',hle⟩
    · rw [hp] at hc
      cases hc
    · rw [hp] at hp'
      cases hp'
      exact absurd hlt (BitVec.not_lt.mpr hle)
  exact ⟨fun hr => hnot (.inl hr),fun hc => hnot (.inr hc)⟩

theorem Wheel.Rep.at_iff {s : Wheel} {waiting : Nat → List Nat} {ready : List Nat}
    (h : s.Rep waiting ready) (f : Nat) (place : Place) :
    s.At f place ↔ match place with
      | .bucket idx => f ∈ waiting idx
      | .readyQueue => f ∈ ready
      | .scheduler => f ∈ s.committed := by
  cases place with
  | bucket idx => exact (h.lists idx).seg.reach_iff f
  | readyQueue =>
    have hr := h.readyHolds
    cases hq : s.readyQueue with
    | none =>
      rw [hq] at hr
      simp only [At,hq]
      rw [show ready = [] from hr]
      simp
    | some q =>
      rw [hq] at hr
      simp only [At,hq,Option.some.injEq,exists_eq_left']
      exact hr.seg.reach_iff f
  | scheduler => exact Iff.rfl

theorem TimeService.enter_not_returned (t : TimeService) (wakeUpTs : Ts) :
    (t.enter wakeUpTs).returned = false := by
  unfold enter
  split <;> rfl

theorem Wheel.Rep.returned {s : Wheel} {waiting : Nat → List Nat} {ready : List Nat}
    (h : s.Rep waiting ready) {f : Nat}
    (hf : (∃ idx, f ∈ waiting idx) ∨ f ∈ ready ∨ f ∈ s.committed) :
    (s.progress f).returned = true := by
  rcases hf with ⟨idx,hw⟩ | hf
  · rw [(h.waits idx f hw).1]
    rfl
  · rcases h.fetched f hf with hc | ⟨idx,hq,_⟩
    · rw [hc]
      rfl
    · rw [hq]
      rfl

/-- A step of `register_frame` that leaves its frame out of every list. -/
theorem Wheel.Rep.onTheWay {s t : Wheel} {waiting : Nat → List Nat} {ready : List Nat}
    (h : s.Rep waiting ready) {f : Nat} {p : Progress} (hold : (s.progress f).returned = false)
    (hnew : p.returned = false) (hprogress : t.progress = Function.update s.progress f p)
    (hwake : ∀ g, g ≠ f → t.wakeUpTs g = s.wakeUpTs g)
    (hbuckets : t.service.buckets = s.service.buckets) (hlink : t.link = s.link)
    (hready : t.readyQueue = s.readyQueue) (hcommitted : t.committed = s.committed)
    (hclock : t.clock = s.clock) : t.Rep waiting ready := by
  have hne : ∀ g, (s.progress g).returned = true → g ≠ f := by
    intro g hg heq
    rw [heq,hold] at hg
    cases hg
  have hsame : ∀ g, (s.progress g).returned = true →
      t.progress g = s.progress g ∧ t.wakeUpTs g = s.wakeUpTs g := by
    intro g hg
    rw [hprogress,Function.update_of_ne (hne g hg)]
    exact ⟨rfl,hwake g (hne g hg)⟩
  have hback : ∀ g, (t.progress g).returned = true → t.progress g = s.progress g := by
    intro g hg
    by_cases heq : g = f
    · rw [hprogress,heq,Function.update_self,hnew] at hg
      cases hg
    · rw [hprogress,Function.update_of_ne heq]
  refine ⟨?_,?_,?_,?_,?_,?_,?_,?_,?_,?_,?_⟩
  · rw [hbuckets,hlink]
    exact h.lists
  · intro idx hne'
    obtain ⟨tail,ht,hp,hlast⟩ := h.tail idx hne'
    obtain ⟨hp',hw'⟩ := hsame tail (by rw [hp]; rfl)
    rw [hbuckets]
    exact ⟨tail,ht,hp'.trans hp,fun hlt => hlast (hw' ▸ hlt)⟩
  · rw [hlink,hready]
    exact h.readyHolds
  · intro idx g hg
    obtain ⟨hp',hw'⟩ := hsame g (h.returned (.inl ⟨idx,hg⟩))
    rw [hbuckets,hp',hw']
    exact h.waits idx g hg
  · intro g hg
    rw [hcommitted] at hg
    obtain ⟨hp',hw'⟩ := hsame g (h.returned (.inr hg))
    rw [hbuckets,hp',hw']
    exact h.fetched g hg
  · rw [hcommitted]
    exact h.disjoint
  · intro g idx hg
    rw [hcommitted]
    have hp := hback g (by rw [hg]; rfl)
    exact h.queued g idx (hp ▸ hg)
  · intro g hg
    rw [hcommitted]
    have hp := hback g (by rw [hg]; rfl)
    exact h.missed g (hp ▸ hg)
  · rw [hcommitted]
    exact h.once
  · intro g hg
    rw [hlink]
    by_cases heq : g = f
    · exact h.fresh g (heq ▸ hold)
    · rw [hprogress,Function.update_of_ne heq] at hg
      exact h.fresh g hg
  · rw [hbuckets,hclock]
    exact h.clock

theorem ReadyHolds.congr {link link' : QueueLinks} {ready : List Nat} {q : Option CoroutineQueue}
    (h : ReadyHolds link ready q) (heq : ∀ x ∈ ready, link' x = link x) :
    ReadyHolds link' ready q := by
  cases q with
  | none => exact h
  | some q => exact CoroutineQueue.Holds.congr h heq

theorem Wheel.Rep.apart {s : Wheel} {waiting : Nat → List Nat} {ready : List Nat}
    (h : s.Rep waiting ready) {idx idx' f : Nat} (hne : idx' ≠ idx) (hf : f ∈ waiting idx') :
    f ∉ waiting idx := by
  intro hin
  have hp := (h.waits idx f hin).1
  rw [(h.waits idx' f hf).1] at hp
  cases hp
  exact hne rfl

theorem Wheel.Rep.register {s : Wheel} {waiting : Nat → List Nat} {ready : List Nat}
    (h : s.Rep waiting ready) (ndebug : Bool) {f idx : Nat} (hf : s.progress f = .entered idx)
    (hlt : (s.service.buckets idx).scanOverTs < s.wakeUpTs f)
    (hok : (s.service.buckets idx).waitingQueue.size = 0 ∨
      ∀ t, (s.service.buckets idx).waitingQueue.tail = some t →
        (s.service.buckets idx).scanOverTs < s.wakeUpTs t) :
    ∃ t, s.exec ndebug (.lock f) = some t ∧
      t.Rep (Function.update waiting idx (waiting idx ++ [f])) ready := by
  have hout : (s.progress f).returned = false := by rw [hf]; rfl
  have hne : ∀ g, (s.progress g).returned = true → g ≠ f := by
    intro g hg heq
    rw [heq,hout] at hg
    cases hg
  have hlast : waiting idx ≠ [] →
      (s.service.buckets idx).waitingQueue.tail = (waiting idx).getLast? := by
    intro hnil
    obtain ⟨t,ht,_,hl⟩ := h.tail idx hnil
    rcases hok with hz | hw
    · rw [(h.lists idx).size] at hz
      exact absurd (List.length_eq_zero_iff.mp hz) hnil
    · rw [ht,hl (hw t ht)]
  obtain ⟨link',q',happ,hholds,hframe⟩ := (h.lists idx).appendToTail ndebug
    (fun hin => hne f (h.returned (.inl ⟨idx,hin⟩)) rfl) (h.fresh f hout) hlast
  let bucket : TimeWheelBucket := ⟨(s.service.buckets idx).scanOverTs,q'⟩
  let t : Wheel := { s with
    service := s.service.setBucket idx bucket
    link := link'
    progress := Function.update s.progress f (.queued idx) }
  have hexec : s.exec ndebug (.lock f) = some t := by
    simp only [Wheel.exec,hf,TimeWheelBucket.register,if_neg (BitVec.not_le.mpr hlt),happ]
    rfl
  have hbucket : t.service.buckets idx = bucket := Function.update_self ..
  have hother : ∀ i, i ≠ idx → t.service.buckets i = s.service.buckets i :=
    fun i hi => Function.update_of_ne hi _ _
  have hscan : ∀ i, (t.service.buckets i).scanOverTs = (s.service.buckets i).scanOverTs := by
    intro i
    by_cases hi : i = idx
    · rw [hi,hbucket]
    · rw [hother i hi]
  have hprogress : ∀ g, (s.progress g).returned = true → t.progress g = s.progress g :=
    fun g hg => Function.update_of_ne (hne g hg) _ _
  have hself : t.progress f = .queued idx := Function.update_self ..
  refine ⟨t,hexec,?_,?_,?_,?_,?_,h.disjoint,?_,?_,h.once,?_,?_⟩
  · intro i
    by_cases hi : i = idx
    · subst hi
      rw [hbucket,Function.update_self]
      exact hholds.toLists
    · rw [hother i hi,Function.update_of_ne hi]
      exact (h.lists i).congr (fun x hx => hframe x (h.apart hi hx))
  · intro i hnil
    by_cases hi : i = idx
    · subst hi
      rw [hbucket,Function.update_self]
      exact ⟨f,by simpa using hholds.tail,hself,fun _ => by simp⟩
    · rw [Function.update_of_ne hi] at hnil ⊢
      obtain ⟨u,hu,hp,hl⟩ := h.tail i hnil
      rw [hother i hi]
      exact ⟨u,hu,(hprogress u (by rw [hp]; rfl)).trans hp,hl⟩
  · exact h.readyHolds.congr (fun x hx => hframe x (fun hin => (h.not_fetched hin).1 hx))
  · intro i g hg
    rw [hscan]
    by_cases hi : i = idx
    · subst hi
      rw [Function.update_self] at hg
      rcases List.mem_append.mp hg with hold | hnew
      · rw [hprogress g (h.returned (.inl ⟨i,hold⟩))]
        exact h.waits i g hold
      · rw [List.mem_singleton.mp hnew]
        exact ⟨hself,hlt⟩
    · rw [Function.update_of_ne hi] at hg
      rw [hprogress g (h.returned (.inl ⟨i,hg⟩))]
      exact h.waits i g hg
  · intro g hg
    rw [hprogress g (h.returned (.inr hg))]
    simp only [hscan]
    exact h.fetched g hg
  · intro g i hg
    by_cases hgf : g = f
    · subst hgf
      rw [hself] at hg
      cases hg
      exact .inl (by simp)
    · have hgs : s.progress g = .queued i := (Function.update_of_ne hgf _ _).symm.trans hg
      rcases h.queued g i hgs with hw | hr
      · by_cases hi : i = idx
        · subst hi
          exact .inl (by simp [hw])
        · exact .inl (by rw [Function.update_of_ne hi]; exact hw)
      · exact .inr hr
  · intro g hg
    by_cases hgf : g = f
    · rw [hgf,hself] at hg
      cases hg
    · exact h.missed g ((Function.update_of_ne hgf _ _).symm.trans hg)
  · intro g hg
    by_cases hgf : g = f
    · rw [hgf,hself] at hg
      cases hg
    · have hgs : (s.progress g).returned = false := by
        have hp : t.progress g = s.progress g := Function.update_of_ne hgf _ _
        rw [← hp]
        exact hg
      have hnin : g ∉ waiting idx := by
        intro hin
        rw [h.returned (.inl ⟨idx,hin⟩)] at hgs
        cases hgs
      exact (hframe g hnin).trans (h.fresh g hgs)
  · intro i
    rw [hscan]
    exact h.clock i

theorem Wheel.Rep.commit {s : Wheel} {waiting : Nat → List Nat} {ready : List Nat}
    (h : s.Rep waiting ready) (ndebug : Bool) {f : Nat} (hf : s.progress f = .missAwaken) :
    ∃ t, s.exec ndebug (.commit f) = some t ∧ t.Rep waiting ready := by
  have hout : (s.progress f).returned = false := by rw [hf]; rfl
  have hne : ∀ g, (s.progress g).returned = true → g ≠ f := by
    intro g hg heq
    rw [heq,hout] at hg
    cases hg
  let t : Wheel := { s with
    progress := Function.update s.progress f .committed
    committed := s.committed ++ [f] }
  have hexec : s.exec ndebug (.commit f) = some t := by
    have hu : unlinked ndebug (s.setProgress f .committed).link f = true := by
      simp [unlinked,setProgress,h.fresh f hout]
    simp only [Wheel.exec,Wheel.commit,if_pos hu]
    rfl
  have hprogress : ∀ g, (s.progress g).returned = true → t.progress g = s.progress g :=
    fun g hg => Function.update_of_ne (hne g hg) _ _
  have hself : t.progress f = .committed := Function.update_self ..
  have hother : ∀ g, g ≠ f → t.progress g = s.progress g :=
    fun g hg => Function.update_of_ne hg _ _
  refine ⟨t,hexec,h.lists,?_,h.readyHolds,?_,?_,?_,?_,?_,?_,?_,h.clock⟩
  · intro i hnil
    obtain ⟨u,hu,hp,hl⟩ := h.tail i hnil
    exact ⟨u,hu,(hprogress u (by rw [hp]; rfl)).trans hp,hl⟩
  · intro i g hg
    rw [hprogress g (h.returned (.inl ⟨i,hg⟩))]
    exact h.waits i g hg
  · intro g hg
    by_cases hgf : g = f
    · exact .inl (hgf ▸ hself)
    · rw [hother g hgf]
      refine h.fetched g ?_
      simpa [t,hgf] using hg
  · intro g hg hin
    rcases List.mem_append.mp hin with hin | hin
    · exact h.disjoint g hg hin
    · exact hne g (h.returned (.inr (.inl hg))) (List.mem_singleton.mp hin)
  · intro g i hg
    by_cases hgf : g = f
    · rw [hgf,hself] at hg
      cases hg
    · rw [hother g hgf] at hg
      rcases h.queued g i hg with hw | hr | hc
      · exact .inl hw
      · exact .inr (.inl hr)
      · exact .inr (.inr (List.mem_append_left _ hc))
  · intro g hg
    by_cases hgf : g = f
    · exact hgf ▸ List.mem_append_right _ (List.mem_singleton_self _)
    · rw [hother g hgf] at hg
      exact List.mem_append_left _ (h.missed g hg)
  · refine List.nodup_append.mpr ⟨h.once,by simp,?_⟩
    intro a ha b hb hab
    rw [List.mem_singleton.mp hb] at hab
    exact hne a (h.returned (.inr (.inr ha))) hab
  · intro g hg
    by_cases hgf : g = f
    · exact h.fresh g (hgf ▸ hout)
    · rw [hother g hgf] at hg
      exact h.fresh g hg

theorem getLast?_filter {α : Type} {p : α → Bool} {xs : List α} {t : α}
    (h : xs.getLast? = some t) (ht : p t = true) : (xs.filter p).getLast? = some t := by
  obtain ⟨ys,rfl⟩ := List.getLast?_eq_some_iff.mp h
  rw [List.filter_append,List.filter_singleton,ht]
  simp

theorem Wheel.Rep.scan {s : Wheel} {waiting : Nat → List Nat} {ready : List Nat}
    (h : s.Rep waiting ready) (ndebug : Bool) (idx : Nat) {now : Ts}
    (hidle : s.readyQueue = none) (hnow : s.clock ≤ now) :
    ∃ t, s.exec ndebug (.scan idx now) = some t ∧
      t.Rep (Function.update waiting idx
          ((waiting idx).filter (fun f => !decide (s.wakeUpTs f ≤ now))))
        ((waiting idx).filter (fun f => decide (s.wakeUpTs f ≤ now))) := by
  have hnil : ready = [] := by
    have hr := h.readyHolds
    rw [hidle] at hr
    exact hr
  have hempty : TargetHolds s.link [] (some .empty) := CoroutineQueue.empty_holds s.link
  obtain ⟨link',q',target',hfetch,hf,_⟩ := (h.lists idx).fetchNodes hempty
    (fun _ _ => List.not_mem_nil) ndebug (fun f => decide (s.wakeUpTs f ≤ now))
  obtain ⟨r,rfl⟩ := Option.isSome_iff_exists.mp (hf.isSome.trans rfl)
  let t : Wheel := { s with
    service := s.service.setBucket idx ⟨now,q'⟩
    link := link'
    clock := now
    readyQueue := some r }
  have hexec : s.exec ndebug (.scan idx now) = some t := by
    simp only [Wheel.exec,TimeWheelBucket.scan,Bool.or_false,hfetch]
    rfl
  have hbucket : t.service.buckets idx = ⟨now,q'⟩ := Function.update_self ..
  have hother : ∀ i, i ≠ idx → t.service.buckets i = s.service.buckets i :=
    fun i hi => Function.update_of_ne hi _ _
  have hbefore : (s.service.buckets idx).scanOverTs ≤ now := BitVec.le_trans (h.clock idx) hnow
  have hframe : ∀ x, x ∉ waiting idx → link' x = s.link x :=
    fun x hx => hf.frame x hx List.not_mem_nil
  refine ⟨t,hexec,?_,?_,hf.holds,?_,?_,?_,?_,h.missed,h.once,?_,?_⟩
  · intro i
    by_cases hi : i = idx
    · subst hi
      rw [hbucket,Function.update_self]
      exact hf.lists
    · rw [hother i hi,Function.update_of_ne hi]
      exact (h.lists i).congr (fun x hx => hframe x (h.apart hi hx))
  · intro i hne
    by_cases hi : i = idx
    · subst hi
      rw [Function.update_self] at hne ⊢
      rw [hbucket]
      have hold : waiting i ≠ [] := fun heq => hne (by rw [heq]; rfl)
      obtain ⟨u,hu,hp,hl⟩ := h.tail i hold
      have hsize : q'.size ≠ 0 := by
        rw [hf.lists.size]
        exact fun hz => hne (List.length_eq_zero_iff.mp hz)
      refine ⟨u,(hf.tail hsize).trans hu,hp,fun hlt => ?_⟩
      -- a tail that is not due now was not due at the last scan either
      have hlate : now < s.wakeUpTs u := hlt
      have hlast := hl (Std.lt_of_le_of_lt hbefore hlate)
      exact getLast?_filter hlast (by simpa using BitVec.not_le.mpr hlate)
    · rw [Function.update_of_ne hi] at hne ⊢
      rw [hother i hi]
      exact h.tail i hne
  · intro i f hfi
    by_cases hi : i = idx
    · subst hi
      rw [Function.update_self] at hfi
      obtain ⟨hin,hdue⟩ := List.mem_filter.mp hfi
      rw [hbucket]
      exact ⟨(h.waits i f hin).1,by simpa using hdue⟩
    · rw [Function.update_of_ne hi] at hfi
      rw [hother i hi]
      exact h.waits i f hfi
  · intro f hin
    rcases hin with hin | hin
    · obtain ⟨hw,hdue⟩ := List.mem_filter.mp hin
      refine .inr ⟨idx,(h.waits idx f hw).1,?_⟩
      rw [hbucket]
      simpa using hdue
    · rcases h.fetched f (.inr hin) with hc | ⟨i,hp,hle⟩
      · exact .inl hc
      · refine .inr ⟨i,hp,?_⟩
        by_cases hi : i = idx
        · rw [hi] at hle ⊢
          rw [hbucket]
          exact BitVec.le_trans hle hbefore
        · rw [hother i hi]
          exact hle
  · intro f hin
    exact (h.not_fetched (List.mem_filter.mp hin).1).2
  · intro f i hp
    rcases h.queued f i hp with hw | hr | hc
    · by_cases hi : i = idx
      · subst hi
        rw [Function.update_self]
        by_cases hdue : s.wakeUpTs f ≤ now
        · exact .inr (.inl (List.mem_filter.mpr ⟨hw,by simpa using hdue⟩))
        · exact .inl (List.mem_filter.mpr ⟨hw,by simpa using hdue⟩)
      · rw [Function.update_of_ne hi]
        exact .inl hw
    · rw [hnil] at hr
      cases hr
    · exact .inr (.inr hc)
  · intro f hout
    refine (hframe f (fun hin => ?_)).trans (h.fresh f hout)
    have hret := h.returned (.inl ⟨idx,hin⟩)
    rw [show (s.progress f).returned = false from hout] at hret
    cases hret
  · intro i
    by_cases hi : i = idx
    · rw [hi,hbucket]
      exact BitVec.le_refl now
    · rw [hother i hi]
      exact BitVec.le_trans (h.clock i) hnow

theorem Wheel.Rep.pop {s : Wheel} {waiting : Nat → List Nat} {ready : List Nat}
    (h : s.Rep waiting ready) (ndebug : Bool) {q : CoroutineQueue}
    (hq : s.readyQueue = some q) (hsize : q.size ≠ 0) :
    ∃ t ready', s.exec ndebug .pop = some t ∧ t.Rep waiting ready' := by
  have hr := h.readyHolds
  rw [hq] at hr
  have hholds : q.Holds s.link ready := hr
  cases ready with
  | nil => exact absurd hholds.size hsize
  | cons x xs =>
    obtain ⟨q',hpop,hholds'⟩ := hholds.popFromHead ndebug
    obtain ⟨hx,hxs⟩ := List.nodup_cons.mp hholds.seg.nodup
    let t : Wheel := { s with
      link := Function.update s.link x none
      readyQueue := some q'
      committed := s.committed ++ [x] }
    have hexec : s.exec ndebug .pop = some t := by
      have hu : unlinked ndebug (Function.update s.link x none) x = true := by simp [unlinked]
      simp only [Wheel.exec,hq,hpop,Wheel.commit,if_pos hu]
      rfl
    have hoff : ∀ y, y ≠ x → t.link y = s.link y := fun y hy => Function.update_of_ne hy _ _
    refine ⟨t,xs,hexec,?_,h.tail,hholds',h.waits,?_,?_,?_,?_,?_,?_,h.clock⟩
    · intro i
      refine (h.lists i).congr (fun y hy => hoff y ?_)
      intro heq
      exact (h.not_fetched hy).1 (by simp [heq])
    · intro g hg
      refine h.fetched g ?_
      rcases hg with hg | hg
      · exact .inl (List.mem_cons_of_mem _ hg)
      · rcases List.mem_append.mp hg with hg | hg
        · exact .inr hg
        · exact .inl (by simp [List.mem_singleton.mp hg])
    · intro g hg hin
      rcases List.mem_append.mp hin with hin | hin
      · exact h.disjoint g (List.mem_cons_of_mem _ hg) hin
      · rw [List.mem_singleton.mp hin] at hg
        exact hx hg
    · intro g i hg
      rcases h.queued g i hg with hw | hr | hc
      · exact .inl hw
      · rcases List.mem_cons.mp hr with rfl | hr
        · exact .inr (.inr (by simp [t]))
        · exact .inr (.inl hr)
      · exact .inr (.inr (List.mem_append_left _ hc))
    · intro g hg
      exact List.mem_append_left _ (h.missed g hg)
    · refine List.nodup_append.mpr ⟨h.once,by simp,?_⟩
      intro a ha b hb hab
      rw [List.mem_singleton.mp hb] at hab
      exact h.disjoint x (by simp) (hab ▸ ha)
    · intro g hg
      by_cases hgx : g = x
      · rw [hgx]
        simp [t]
      · exact (hoff g hgx).trans (h.fresh g hg)

theorem Wheel.Rep.leave {s : Wheel} {waiting : Nat → List Nat} {ready : List Nat}
    (h : s.Rep waiting ready) {q : CoroutineQueue} (hq : s.readyQueue = some q)
    (hsize : q.size = 0) : ({ s with readyQueue := none } : Wheel).Rep waiting [] := by
  have hr := h.readyHolds
  rw [hq] at hr
  have hholds : q.Holds s.link ready := hr
  have hnil : ready = [] := List.length_eq_zero_iff.mp (hholds.size.symm.trans hsize)
  subst hnil
  exact ⟨h.lists,h.tail,rfl,h.waits,h.fetched,h.disjoint,h.queued,h.missed,h.once,h.fresh,h.clock⟩

theorem Wheel.Rep.store {s : Wheel} {waiting : Nat → List Nat} {ready : List Nat}
    (h : s.Rep waiting ready) {now : Ts} (hnow : s.clock ≤ now) :
    ({ s with service := { s.service with startBukcetRunTs := now }, clock := now } : Wheel).Rep
      waiting ready :=
  ⟨h.lists,h.tail,h.readyHolds,h.waits,h.fetched,h.disjoint,h.queued,h.missed,h.once,h.fresh,
    fun i => BitVec.le_trans (h.clock i) hnow⟩

theorem Wheel.Rep.schedule {s : Wheel} {waiting : Nat → List Nat} {ready : List Nat}
    (h : s.Rep waiting ready) {f : Nat} (hf : f ∈ s.committed) (next : Option Nat) :
    ({ s with link := Function.update s.link f next } : Wheel).Rep waiting ready := by
  have hoff : ∀ g, g ≠ f → Function.update s.link f next g = s.link g :=
    fun g hg => Function.update_of_ne hg _ _
  refine ⟨?_,h.tail,?_,h.waits,h.fetched,h.disjoint,h.queued,h.missed,h.once,?_,h.clock⟩
  · intro i
    refine (h.lists i).congr (fun x hx => hoff x ?_)
    exact fun heq => (h.not_fetched hx).2 (heq ▸ hf)
  · refine h.readyHolds.congr (fun x hx => hoff x ?_)
    exact fun heq => h.disjoint x hx (heq ▸ hf)
  · intro g hg
    refine (hoff g (fun heq => ?_)).trans (h.fresh g hg)
    rw [heq,show (s.progress f).returned = true from h.returned (.inr (.inr hf))] at hg
    cases hg

/-- Every step that may be taken ends, and the frames can be listed again. -/
theorem Wheel.Rep.exec {s : Wheel} {waiting : Nat → List Nat} {ready : List Nat}
    (h : s.Rep waiting ready) (ndebug : Bool) {e : Event} (he : s.enabled e = true)
    (hok : tailWaits s e = true) :
    ∃ t waiting' ready', s.exec ndebug e = some t ∧ t.Rep waiting' ready' := by
  cases e with
  | store now =>
    simp only [Wheel.enabled,Bool.and_eq_true,decide_eq_true_eq] at he
    exact ⟨_,waiting,ready,rfl,h.store he.2⟩
  | enter f wakeUpTs =>
    have hout : s.progress f = .out := by simpa [Wheel.enabled] using he
    exact ⟨_,waiting,ready,rfl,h.onTheWay (by rw [hout]; rfl)
      (s.service.enter_not_returned wakeUpTs) rfl (fun g hg => Function.update_of_ne hg _ _)
      rfl rfl rfl rfl rfl⟩
  | lock f =>
    cases hp : s.progress f with
    | entered idx =>
      by_cases hmiss : (s.service.buckets idx).scanOverTs ≥ s.wakeUpTs f
      · let t : Wheel := { s with
          service := s.service.setBucket idx (s.service.buckets idx)
          progress := Function.update s.progress f .missAwaken }
        have hexec : s.exec ndebug (.lock f) = some t := by
          simp only [Wheel.exec,hp,TimeWheelBucket.register,if_pos hmiss]
          rfl
        have hbuckets : t.service.buckets = s.service.buckets := Function.update_eq_self ..
        exact ⟨t,waiting,ready,hexec,h.onTheWay (by rw [hp]; rfl)
          (show Progress.missAwaken.returned = false from rfl) rfl (fun _ _ => rfl) hbuckets
          rfl rfl rfl rfl⟩
      · have hlt := BitVec.not_le.mp hmiss
        simp only [tailWaits,hp,hmiss,decide_false,Bool.false_or,Bool.or_eq_true,beq_iff_eq,
          Option.all_eq_true,decide_eq_true_eq] at hok
        obtain ⟨t,ht,hrep⟩ := h.register ndebug hp hlt hok
        exact ⟨t,_,ready,ht,hrep⟩
    | _ => simp [Wheel.enabled,hp] at he
  | commit f =>
    have hmiss : s.progress f = .missAwaken := by simpa [Wheel.enabled] using he
    obtain ⟨t,ht,hrep⟩ := h.commit ndebug hmiss
    exact ⟨t,waiting,ready,ht,hrep⟩
  | scan idx now =>
    simp only [Wheel.enabled,Bool.and_eq_true,decide_eq_true_eq,Option.isNone_iff_eq_none] at he
    obtain ⟨t,ht,hrep⟩ := h.scan ndebug idx he.1 he.2.2
    exact ⟨t,_,_,ht,hrep⟩
  | pop =>
    obtain ⟨q,hq,hsize⟩ := Option.any_eq_true _ _ |>.mp he
    obtain ⟨t,ready',ht,hrep⟩ := h.pop ndebug hq (by simpa using hsize)
    exact ⟨t,waiting,ready',ht,hrep⟩
  | leave =>
    obtain ⟨q,hq,hsize⟩ := Option.any_eq_true _ _ |>.mp he
    exact ⟨_,waiting,[],rfl,h.leave hq (by simpa using hsize)⟩
  | schedule f next =>
    have hf : f ∈ s.committed := by simpa [Wheel.enabled] using he
    exact ⟨_,waiting,ready,rfl,h.schedule hf next⟩

theorem Wheel.start_rep (precision : Ts) (precise : precision ≠ 0) (now : Ts) :
    (Wheel.start precision precise now).Rep (fun _ => []) [] := by
  refine ⟨fun _ => ⟨rfl,rfl⟩,?_,rfl,?_,?_,?_,?_,?_,?_,?_,?_⟩ <;> simp [Wheel.start,BitVec.le_def]

theorem Wheel.Rep.place_unique {s : Wheel} {waiting : Nat → List Nat} {ready : List Nat}
    (h : s.Rep waiting ready) {f : Nat} {p p' : Place} (hp : s.At f p) (hp' : s.At f p') :
    p = p' := by
  rw [h.at_iff] at hp hp'
  cases p with
  | bucket i =>
    cases p' with
    | bucket j =>
      by_cases hij : i = j
      · rw [hij]
      · exact absurd hp' (h.apart hij hp)
    | readyQueue => exact absurd hp' (h.not_fetched hp).1
    | scheduler => exact absurd hp' (h.not_fetched hp).2
  | readyQueue =>
    cases p' with
    | bucket j => exact absurd hp (h.not_fetched hp').1
    | readyQueue => rfl
    | scheduler => exact absurd hp' (h.disjoint f hp)
  | scheduler =>
    cases p' with
    | bucket j => exact absurd hp (h.not_fetched hp').2
    | readyQueue => exact absurd hp (h.disjoint f hp')
    | scheduler => rfl

theorem Wheel.Rep.placed {s : Wheel} {waiting : Nat → List Nat} {ready : List Nat}
    (h : s.Rep waiting ready) {f : Nat} (hf : (s.progress f).returned = true) :
    ∃ place, s.At f place := by
  cases hp : s.progress f with
  | queued idx =>
    rcases h.queued f idx hp with hw | hr | hc
    · exact ⟨.bucket idx,(h.at_iff f _).mpr hw⟩
    · exact ⟨.readyQueue,(h.at_iff f _).mpr hr⟩
    · exact ⟨.scheduler,hc⟩
  | committed => exact ⟨.scheduler,h.missed f hp⟩
  | _ => simp [hp,Progress.returned] at hf

theorem Wheel.Rep.accounted {s : Wheel} {waiting : Nat → List Nat} {ready : List Nat}
    (h : s.Rep waiting ready) (ndebug : Bool) : s.Accounted ndebug := by
  refine ⟨?_,?_,h.once,?_,?_⟩
  · intro f hf
    obtain ⟨place,hp⟩ := h.placed hf
    exact ⟨place,hp,fun place' hp' => h.place_unique hp' hp⟩
  · intro f place hp
    rw [h.at_iff] at hp
    cases place with
    | bucket idx => exact h.returned (.inl ⟨idx,hp⟩)
    | readyQueue => exact h.returned (.inr (.inl hp))
    | scheduler => exact h.returned (.inr (.inr hp))
  · intro f idx hp hle
    rcases h.queued f idx hp with hw | hr | hc
    · exact absurd (h.waits idx f hw).2 (BitVec.not_lt.mpr hle)
    · exact .inl ((h.at_iff f _).mpr hr)
    · exact .inr hc
  · intro e he hok
    obtain ⟨t,_,_,ht,_⟩ := h.exec ndebug he hok
    rw [ht]
    rfl

theorem accounted_of_tailWaits (ndebug : Bool) (precision : Ts) (precise : precision ≠ 0)
    (now : Ts) (s : Wheel)
    (h : Transition.Reaches (Wheel.step ndebug) tailWaits (Wheel.start precision precise now) s) :
    s.Accounted ndebug := by
  have hrep : ∃ waiting ready, s.Rep waiting ready := by
    refine h.invariant (I := fun s => ∃ waiting ready, s.Rep waiting ready) ?_ ?_
    · intro s e t hi hok he
      obtain ⟨waiting,ready,hs⟩ := hi
      obtain ⟨hen,hex⟩ := Option.ite_none_right_eq_some.mp he
      obtain ⟨t',waiting',ready',ht,hrep⟩ := hs.exec ndebug hen hok
      rw [hex] at ht
      cases ht
      exact ⟨waiting',ready',hrep⟩
    · exact ⟨_,_,Wheel.start_rep precision precise now⟩
  obtain ⟨waiting,ready,hs⟩ := hrep
  exact hs.accounted ndebug

def millisecond : Ts := 1000000

def still : Wheel := .start millisecond (by decide) 0

def oneWakes : List Event :=
  [.enter 1 (4097 * millisecond),.lock 1,.enter 2 millisecond,.lock 2,.scan 1 millisecond,.pop,
    .leave]

theorem oneWakes_accounted : ∃ s : Wheel, s.committed = [2] ∧ s.progress 1 = .queued 1 ∧
    s.Accounted false := by
  have hrun : (Transition.run (Wheel.step false) tailWaits still oneWakes).map
      (fun s => (s.committed,s.progress 1)) = some ([2],.queued 1) := by decide
  obtain ⟨s,hs,heq⟩ := Option.map_eq_some_iff.mp hrun
  simp only [Prod.mk.injEq] at heq
  exact ⟨s,heq.1,heq.2,accounted_of_tailWaits false millisecond (by decide) 0 s
    (Transition.reaches_of_run hs)⟩

def oneIsLost : List Event :=
  oneWakes ++ [.enter 3 (4097 * millisecond),.lock 3,.scan 1 (4097 * millisecond),.pop,.leave]

/-- Frame 3 was hung onto frame 2, which was no longer in the bucket. -/
theorem oneIsLost_not_accounted : ∃ s : Wheel,
    Transition.run (Wheel.step false) (fun _ _ => true) still oneIsLost = some s ∧
      s.committed = [2,1] ∧ s.readyQueue = none ∧ s.link 2 = some 3 ∧ ¬ s.Accounted false := by
  have hrun : (Transition.run (Wheel.step false) (fun _ _ => true) still oneIsLost).map
      (fun s => (s.committed,s.readyQueue,s.link 2,s.progress 3,s.wakeUpTs 3,
        (s.service.buckets 1).scanOverTs)) =
      some ([2,1],none,some 3,.queued 1,4097 * millisecond,4097 * millisecond) := by rfl
  obtain ⟨s,hs,heq⟩ := Option.map_eq_some_iff.mp hrun
  simp only [Prod.mk.injEq] at heq
  obtain ⟨hc,hr,hl,hp,hw,hover⟩ := heq
  refine ⟨s,hs,hc,hr,hl,fun ha => ?_⟩
  rcases ha.due 3 1 hp (by rw [hw,hover]; exact BitVec.le_refl _) with ⟨q,hq,_⟩ | hin
  · rw [hr] at hq
    cases hq
  · simp only [Wheel.At,hc] at hin
    simp at hin

end NewRpc.Time
