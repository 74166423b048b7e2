import Mathlib.Data.Prod.Lex
import NewRpc.Fairness
import NewRpc.Sweep
import NewRpc.TimeLinks

/-!
The wheel keeps turning: whoever goes to sleep is committed sooner or later, as long as the
thread of the timer goes on and the clock does.
-/

set_option autoImplicit false

namespace NewRpc.Time
open Transition

inductive TimeAgent where
  | timer
  | frame (f : Nat)
  deriving DecidableEq

def TimeEvent.agent : TimeEvent → Option TimeAgent
  | .lock f | .commit f => some (.frame f)
  | .loop => some .timer
  | _ => none

def TimeEvent.isStop : TimeEvent → Bool
  | .stop => true
  | _ => false

/-- The timer is not stopped, and no frame is hung onto a tail that a scan has taken. -/
def turnsOn {ndebug : Bool} (s : LinkThread ndebug) (e : TimeEvent) : Bool :=
  tailStays s e && !e.isStop

def Thread.turns : Thread listQueues → Prop
  | .store _ => True
  | .turn idx | .scan idx | .waking idx _ | .pace idx | .wait idx _ | .test idx => idx < bucketNum
  | .sweep _ | .sweeping _ _ | .ended => False

structure TimeThread.Turning (s : ListThread) : Prop where
  running : s.stopFlag = false
  thread : s.thread.turns
  range : ∀ f idx, s.sleep f = .entered idx ∨ s.sleep f = .asleep idx → idx < bucketNum

def scansTo (idx k : Nat) : Nat := (idx + bucketNum - k) % bucketNum

def Thread.toGo (idx : Nat) : Thread listQueues → Nat ×ₗ Nat
  | .scan k => toLex (scansTo idx k,0)
  | .store _ => toLex (scansTo idx 0,1)
  | .turn k => toLex (scansTo idx (k + 1),2)
  | .test k => toLex (scansTo idx (k + 1),3)
  | .wait k _ => toLex (scansTo idx (k + 1),4)
  | .pace k => toLex (scansTo idx (k + 1),5)
  | .waking k readyQueue => toLex (scansTo idx (k + 1),6 + readyQueue.length)
  | .sweep _ | .sweeping _ _ | .ended => toLex (0,0)

section
variable {s t : ListThread} {e : TimeEvent} {f idx : Nat}

theorem Timed.clock_le (h : Timed s e t) : s.clock ≤ t.clock := by
  cases h with
  | tick hle => exact hle
  | _ => exact BitVec.le_refl _

theorem Timed.thread_eq (h : Timed s e t) (he : e ≠ .loop) : t.thread = s.thread := by
  cases e with
  | loop => exact absurd rfl he
  | _ =>
    cases h
    all_goals rfl

theorem scansTo_next {idx k : Nat} (hidx : idx < bucketNum) (hk : k < bucketNum) :
    scansTo idx ((k + 1) % bucketNum) = scansTo idx (k + 1) := by
  simp only [scansTo,bucketNum] at *
  omega

/-- The loop comes closer to a bucket, unless it scans it now. -/
theorem Timed.toGo_lt (h : Timed s .loop t) (hs : s.thread.turns) (hrun : s.stopFlag = false)
    (hidx : idx < bucketNum) (hnot : s.thread ≠ .scan idx) :
    t.thread.toGo idx < s.thread.toGo idx := by
  cases h with
  | @turn k hth hnext =>
    rw [hth] at hs ⊢
    show toLex (scansTo idx ((k + 1) % bucketNum),0) < toLex (scansTo idx (k + 1),2)
    rw [scansTo_next hidx hs]
    exact Prod.Lex.right _ (by decide)
  | @revolve k hth hnext =>
    rw [hth] at hs ⊢
    show toLex (scansTo idx 0,1) < toLex (scansTo idx (k + 1),2)
    rw [← scansTo_next hidx hs,hnext]
    exact Prod.Lex.right _ (by decide)
  | store hth =>
    rw [hth]
    exact Prod.Lex.right _ (by decide)
  | @scan k hth =>
    rw [hth] at hs hnot ⊢
    refine Prod.Lex.left _ _ ?_
    have hne : k ≠ idx := fun heq => hnot (by rw [heq])
    have hk : k < bucketNum := hs
    simp only [scansTo,bucketNum] at *
    omega
  | wake hth =>
    rw [hth]
    exact Prod.Lex.right _ (by simp)
  | woken hth =>
    rw [hth]
    exact Prod.Lex.right _ (by simp)
  | late hth | early hth | wait hth =>
    rw [hth]
    exact Prod.Lex.right _ (by decide)
  | again hth =>
    rw [hth]
    exact Prod.Lex.right _ (by decide)
  | stopped hth hstop => simp [hrun] at hstop
  | sweep hth | force hth | swept hth | ended hth =>
    rw [hth] at hs
    exact hs.elim

theorem Timed.turning (h : Timed s e t) (hs : s.Turning) (he : e ≠ .stop) : t.Turning := by
  have hup : ∀ {σ : Sleep} {g : Nat}, (∀ idx, σ = .entered idx ∨ σ = .asleep idx →
      idx < bucketNum) → ∀ f idx, Function.update s.sleep g σ f = .entered idx ∨
      Function.update s.sleep g σ f = .asleep idx → idx < bucketNum := by
    intro σ g hσ f idx hf
    by_cases hg : f = g
    · rw [hg,Function.update_self] at hf
      exact hσ idx hf
    · rw [Function.update_of_ne hg] at hf
      exact hs.range f idx hf
  cases h with
  | tick | schedule => exact ⟨hs.running,hs.thread,hs.range⟩
  | stop => exact absurd rfl he
  | past hf | miss hf | commit hf | resume hf =>
    exact ⟨hs.running,hs.thread,hup (by simp)⟩
  | register hf =>
    refine ⟨hs.running,hs.thread,hup (fun idx hidx => ?_)⟩
    simp only [Sleep.entered.injEq,reduceCtorEq,or_false] at hidx
    rw [← hidx]
    exact realBucketIdx_lt _
  | @append f idx hf hover =>
    refine ⟨hs.running,hs.thread,hup (fun i hi => ?_)⟩
    simp only [Sleep.asleep.injEq,reduceCtorEq,false_or] at hi
    rw [← hi]
    exact hs.range f idx (.inl hf)
  | @turn idx hth => exact ⟨hs.running,Nat.mod_lt _ (by decide),hs.range⟩
  | revolve hth => exact ⟨hs.running,trivial,hs.range⟩
  | store hth =>
    have hidx : 0 < bucketNum := by decide
    exact ⟨hs.running,hidx,hs.range⟩
  | scan hth =>
    have hidx := hs.thread
    rw [hth] at hidx
    exact ⟨hs.running,hidx,hs.range⟩
  | woken hth | late hth | early hth | wait hth | again hth =>
    have hidx := hs.thread
    rw [hth] at hidx
    exact ⟨hs.running,hidx,hs.range⟩
  | wake hth =>
    have hidx := hs.thread
    rw [hth] at hidx
    exact ⟨hs.running,hidx,hup (by simp)⟩
  | stopped hth hstop => simp [hs.running] at hstop
  | sweep hth | force hth | swept hth | ended hth =>
    have hidx := hs.thread
    rw [hth] at hidx
    exact hidx.elim

theorem Timed.asleep (h : Timed s e t) (hf : s.sleep f = .asleep idx) :
    t.sleep f = .asleep idx ∧ t.wakeUpTs f = s.wakeUpTs f ∨ t.sleep f = .committed := by
  have hother : ∀ {g : Nat} {σ : Sleep}, s.sleep g = σ → (∀ i, σ ≠ .asleep i) → f ≠ g := by
    intro g σ hg hσ heq
    exact hσ idx (hg.symm.trans (heq ▸ hf))
  have hset : ∀ {g : Nat} (σ : Sleep), f ≠ g → Function.update s.sleep g σ f = .asleep idx :=
    fun σ hne => (Function.update_of_ne hne ..).trans hf
  cases h with
  | past hg | register hg =>
    have hne := hother hg (by simp)
    exact .inl ⟨hset _ hne,Function.update_of_ne hne ..⟩
  | miss hg | append hg | commit hg | resume hg =>
    exact .inl ⟨hset _ (hother hg (by simp)),rfl⟩
  | @wake k g q hth | @force k g q hth =>
    by_cases hg : f = g
    · rw [hg]
      exact .inr (TimeThread.setSleep_self ..)
    · exact .inl ⟨hset _ hg,rfl⟩
  | _ => exact .inl ⟨hf,rfl⟩

theorem Timed.entered (h : Timed s e t) (hb : s.Bedded) (hf : s.sleep f = .entered idx) :
    t.sleep f = .entered idx ∧ e.agent ≠ some (.frame f) ∨ t.sleep f = .missAwaken ∨
      t.sleep f = .asleep idx := by
  have hset : ∀ {g : Nat} {σ : Sleep} (τ : Sleep), s.sleep g = σ → σ ≠ .entered idx →
      Function.update s.sleep g τ f = .entered idx ∧ f ≠ g := by
    intro g σ τ hg hσ
    have hne : f ≠ g := fun heq => hσ (hg.symm.trans (heq ▸ hf))
    exact ⟨(Function.update_of_ne hne ..).trans hf,hne⟩
  cases h with
  | past hg | register hg | resume hg =>
    exact .inl ⟨(hset _ hg (by simp)).1,by simp [TimeEvent.agent]⟩
  | commit hg =>
    obtain ⟨hsame,hne⟩ := hset .committed hg (by simp)
    exact .inl ⟨hsame,by simp [TimeEvent.agent,Ne.symm hne]⟩
  | @miss g k hg hover =>
    by_cases heq : f = g
    · rw [heq]
      exact .inr (.inl (TimeThread.setSleep_self ..))
    · exact .inl ⟨(Function.update_of_ne heq ..).trans hf,by simp [TimeEvent.agent,Ne.symm heq]⟩
  | @append g k hg hover =>
    by_cases heq : f = g
    · cases (heq ▸ hg).symm.trans hf
      rw [heq]
      exact .inr (.inr (TimeThread.setSleep_self ..))
    · exact .inl ⟨(Function.update_of_ne heq ..).trans hf,by simp [TimeEvent.agent,Ne.symm heq]⟩
  | @wake k g q hth | @force k g q hth =>
    have hin : g ∈ s.held none := by
      show g ∈ s.thread.ready
      rw [hth]
      exact List.mem_cons_self
    obtain ⟨i,hg⟩ := hb.places.live none g hin
    exact .inl ⟨(hset _ hg (by simp)).1,by simp [TimeEvent.agent]⟩
  | _ => exact .inl ⟨hf,by simp [TimeEvent.agent]⟩

theorem Timed.missed (h : Timed s e t) (hf : s.sleep f = .missAwaken) :
    t.sleep f = .missAwaken ∧ e.agent ≠ some (.frame f) ∨ t.sleep f = .committed := by
  have hset : ∀ {g : Nat} {σ : Sleep} (τ : Sleep), s.sleep g = σ → σ ≠ .missAwaken →
      Function.update s.sleep g τ f = .missAwaken ∧ f ≠ g := by
    intro g σ τ hg hσ
    have hne : f ≠ g := fun heq => hσ (hg.symm.trans (heq ▸ hf))
    exact ⟨(Function.update_of_ne hne ..).trans hf,hne⟩
  cases h with
  | past hg | register hg | resume hg =>
    exact .inl ⟨(hset _ hg (by simp)).1,by simp [TimeEvent.agent]⟩
  | @miss g k hg =>
    obtain ⟨hsame,hne⟩ := hset .missAwaken hg (by simp)
    exact .inl ⟨hsame,by simp [TimeEvent.agent,Ne.symm hne]⟩
  | @append g k hg =>
    obtain ⟨hsame,hne⟩ := hset (.asleep k) hg (by simp)
    exact .inl ⟨hsame,by simp [TimeEvent.agent,Ne.symm hne]⟩
  | @commit g hg =>
    by_cases heq : f = g
    · rw [heq]
      exact .inr (TimeThread.setSleep_self ..)
    · exact .inl ⟨(Function.update_of_ne heq ..).trans hf,by simp [TimeEvent.agent,Ne.symm heq]⟩
  | @wake k g q hth | @force k g q hth =>
    by_cases heq : f = g
    · rw [heq]
      exact .inr (TimeThread.setSleep_self ..)
    · exact .inl ⟨(Function.update_of_ne heq ..).trans hf,by simp [TimeEvent.agent]⟩
  | _ => exact .inl ⟨hf,by simp [TimeEvent.agent]⟩

theorem Timed.waits (h : Timed s e t) (hf : f ∈ s.waiting idx) :
    f ∈ t.waiting idx ∨ e = .loop ∧ f ∈ t.thread.ready := by
  have hfetch : ∀ (u : ListThread) (k : Nat) (forceAwake : Bool)
      (next : listQueues.Queue → Thread listQueues), (∀ q, (next q).ready = q) →
      f ∈ u.waiting idx → f ∈ (u.fetch k forceAwake next).waiting idx ∨
        f ∈ (u.fetch k forceAwake next).thread.ready := by
    intro u k forceAwake next hnext hin
    rw [TimeThread.fetch_waiting]
    by_cases hk : idx = k
    · subst hk
      cases hdue : u.due forceAwake f with
      | true =>
        have htaken : f ∈ (u.waiting idx).filter (u.due forceAwake) :=
          List.mem_filter.mpr ⟨hin,hdue⟩
        rw [← hnext ((u.waiting idx).filter (u.due forceAwake))] at htaken
        exact .inr htaken
      | false =>
        rw [if_pos rfl]
        exact .inl (List.mem_filter.mpr ⟨hin,by rw [hdue]; rfl⟩)
    · rw [if_neg hk]
      exact .inl hin
  cases h with
  | @append g k hg =>
    rw [TimeThread.append_waiting]
    split
    · rename_i heq
      rw [← heq]
      exact .inl (List.mem_append_left _ hf)
    · exact .inl hf
  | scan hth => exact (hfetch _ _ _ _ (fun _ => rfl) hf).imp_right (fun h => ⟨rfl,h⟩)
  | sweep hth => exact (hfetch _ _ _ _ (fun _ => rfl) hf).imp_right (fun h => ⟨rfl,h⟩)
  | _ => exact .inl hf

theorem Timed.scanned (h : Timed s .loop t) (hth : s.thread = .scan idx) (hf : f ∈ s.waiting idx)
    (hdue : s.wakeUpTs f ≤ s.clock) : f ∈ t.thread.ready := by
  cases h with
  | @scan k hk =>
    cases hth.symm.trans hk
    exact List.mem_filter.mpr ⟨hf,by simp [TimeThread.due,hdue]⟩
  | turn hk | revolve hk | store hk | wake hk | woken hk | late hk | early hk | wait hk | again hk
  | stopped hk | sweep hk | force hk | swept hk | ended hk => cases hth.symm.trans hk

structure TimeThread.Rests (s : ListThread) (f idx : Nat) : Prop where
  turning : s.Turning
  waits : f ∈ s.waiting idx
  due : s.wakeUpTs f ≤ s.clock

/-- Such a frame is taken, or the loop comes closer. -/
theorem Timed.rests (h : Timed s e t) (hb : s.Bedded) (hs : s.Rests f idx) (he : e ≠ .stop) :
    t.Turning ∧ (f ∈ t.thread.ready ∨ t.Rests f idx ∧
      (e ≠ .loop ∧ t.thread = s.thread ∨ t.thread.toGo idx < s.thread.toGo idx)) := by
  have hturning := h.turning hs.turning he
  have hasleep := hb.home idx f hs.waits
  refine ⟨hturning,?_⟩
  rcases h.waits hs.waits with hin | ⟨_,hready⟩
  · have htime : t.wakeUpTs f = s.wakeUpTs f := by
      rcases h.asleep hasleep with ⟨_,heq⟩ | hcommitted
      · exact heq
      · rw [(h.bedded hb).home idx f hin] at hcommitted
        cases hcommitted
    have hrests : t.Rests f idx :=
      ⟨hturning,hin,htime ▸ BitVec.le_trans hs.due h.clock_le⟩
    by_cases hloop : e = .loop
    · subst hloop
      by_cases hscan : s.thread = .scan idx
      · exact .inl (h.scanned hscan hs.waits hs.due)
      · exact .inr ⟨hrests,.inr (h.toGo_lt hs.turning.thread hs.turning.running
          (hs.turning.range f idx (.inr hasleep)) hscan)⟩
    · exact .inr ⟨hrests,.inl ⟨hloop,h.thread_eq hloop⟩⟩
  · exact .inl hready

/-- A frame that a scan has taken is committed, or those before it are fewer. -/
theorem Timed.taken (h : Timed s e t) (hf : f ∈ s.thread.ready) :
    t.sleep f = .committed ∨ f ∈ t.thread.ready ∧ (e ≠ .loop ∧ t.thread = s.thread ∨
      t.thread.ready.length < s.thread.ready.length) := by
  by_cases hloop : e = .loop
  · subst hloop
    cases h with
    | @wake k g q hth | @force k g q hth =>
      rw [hth] at hf ⊢
      rcases List.mem_cons.mp hf with rfl | hin
      · exact .inl (TimeThread.setSleep_self ..)
      · exact .inr ⟨hin,.inr (Nat.lt_succ_self _)⟩
    | turn hth | revolve hth | store hth | scan hth | woken hth | late hth | early hth | wait hth
    | again hth | stopped hth | sweep hth | swept hth | ended hth =>
      rw [hth] at hf
      cases hf
  · have hsame := h.thread_eq hloop
    exact .inr ⟨hsame ▸ hf,.inl ⟨hloop,hsame⟩⟩

end

section
variable {ndebug : Bool} {s t : LinkThread ndebug} {l : ListThread}

def TimeThread.ListedAs (s : LinkThread ndebug) (l : ListThread) : Prop :=
  ∃ waiting thread, s.Mirrors waiting thread ∧ l = s.listed waiting thread

theorem TimeThread.ListedAs.bedded (h : s.ListedAs l) : l.Bedded := by
  obtain ⟨waiting,thread,hm,rfl⟩ := h
  exact hm.bedded

theorem TimeThread.ListedAs.sleep (h : s.ListedAs l) : l.sleep = s.sleep := by
  obtain ⟨waiting,thread,hm,rfl⟩ := h
  rfl

theorem TimeThread.ListedAs.wakeUpTs (h : s.ListedAs l) : l.wakeUpTs = s.wakeUpTs := by
  obtain ⟨waiting,thread,hm,rfl⟩ := h
  rfl

theorem TimeThread.ListedAs.clock (h : s.ListedAs l) : l.clock = s.clock := by
  obtain ⟨waiting,thread,hm,rfl⟩ := h
  rfl

theorem TimeThread.ListedAs.wait (h : s.ListedAs l) {idx : Nat} {nextRunTs : Ts}
    (hth : l.thread = .wait idx nextRunTs) : s.thread = .wait idx nextRunTs := by
  obtain ⟨waiting,thread,hm,rfl⟩ := h
  have halike := hm.alike
  rw [show thread = .wait idx nextRunTs from hth] at halike
  generalize s.thread = a at halike
  cases halike
  rfl

theorem TimeThread.ListedAs.step (h : s.ListedAs l) {e : TimeEvent} (hok : turnsOn s e = true)
    (he : s.step e = some t) : ∃ m, t.ListedAs m ∧ Timed l e m ∧ e ≠ .stop := by
  obtain ⟨waiting,thread,hm,rfl⟩ := h
  obtain ⟨htail,hstop⟩ := Bool.and_eq_true_iff.mp hok
  obtain ⟨waiting',thread',htimed,hm'⟩ := hm.step htail he
  refine ⟨_,⟨waiting',thread',hm',rfl⟩,htimed,fun heq => ?_⟩
  rw [heq] at hstop
  cases hstop

theorem TimeThread.Mirrors.scan_isSome {waiting : Nat → List Nat} {thread : Thread listQueues}
    (h : s.Mirrors waiting thread) (idx : Nat) :
    ({ s with scans := s.scans + 1 }.scan idx false (.waking idx)).isSome = true := by
  have hempty : TargetHolds s.heap [] (some .empty) := CoroutineQueue.empty_holds s.heap
  obtain ⟨link',q',target',hfetch,hf,_⟩ := (h.lists idx).fetchNodes hempty
    (fun _ _ => List.not_mem_nil) ndebug ((s.listed waiting thread).due false)
  obtain ⟨r,rfl⟩ := Option.isSome_iff_exists.mp (hf.isSome.trans rfl)
  have hqueue : CoroutineQueue.fetchNodes ndebug (fun f => decide (s.wakeUpTs f ≤ s.clock) ||
      false) s.heap (s.buckets idx).waitingQueue (some .empty) = some (link',q',some r) := hfetch
  simp only [TimeThread.scan,hqueue,Option.isSome_some]

theorem TimeThread.ListedAs.loop_enabled (h : s.ListedAs l) (hturns : l.thread.turns)
    (hwait : ∀ idx nextRunTs, l.thread = .wait idx nextRunTs → nextRunTs ≤ l.clock) :
    Enabled TimeThread.step TimeEvent.agent .timer s := by
  refine ⟨.loop,rfl,?_⟩
  obtain ⟨waiting,thread,hm,rfl⟩ := h
  have halike := hm.alike
  show s.loop.isSome = true
  change thread.turns at hturns
  cases hth : s.thread with
  | turn idx | store now | pace idx | test idx => simp [TimeThread.loop,hth]
  | scan idx =>
    obtain ⟨t,ht⟩ := Option.isSome_iff_exists.mp (hm.scan_isSome idx)
    simp only [TimeThread.loop,hth]
    exact Option.isSome_of_eq_some ht
  | waking idx q =>
    rw [hth] at halike
    cases halike with
    | @waking _ _ xs hq =>
      cases xs with
      | nil =>
        have hnone : (q.size == 0) = true := by simp [hq.size]
        simp [TimeThread.loop,hth,hnone]
      | cons f xs =>
        have hsome : (q.size == 0) = false := by simp [hq.size]
        obtain ⟨q',hpop,_⟩ := hq.popFromHead ndebug
        have hu : NewRpc.unlinked ndebug (Function.update s.heap f none) f = true := by
          simp [NewRpc.unlinked]
        simp [TimeThread.loop,hth,hsome,TimeThread.wake,hpop,TimeThread.commit,TimeThread.goto,hu]
  | wait idx nextRunTs =>
    rw [hth] at halike
    cases halike
    have hle := hwait idx nextRunTs rfl
    change nextRunTs ≤ s.clock at hle
    simp [TimeThread.loop,hth,hle]
  | sweep idx | sweeping idx q | ended =>
    rw [hth] at halike
    cases halike
    exact hturns.elim

theorem TimeThread.ListedAs.lock_enabled (h : s.ListedAs l) {f idx : Nat}
    (hf : s.sleep f = .entered idx) : Enabled TimeThread.step TimeEvent.agent (.frame f) s := by
  refine ⟨.lock f,rfl,?_⟩
  obtain ⟨waiting,thread,hm,rfl⟩ := h
  have hu : NewRpc.unlinked ndebug s.heap f = true := by
    simp [NewRpc.unlinked,hm.fresh f (by rw [hf]; rfl)]
  have hsome : (CoroutineQueue.appendToTail ndebug s.heap (s.buckets idx).waitingQueue f).isSome
      = true := by
    have hsize := (hm.lists idx).size
    by_cases hnone : waiting idx = []
    · rw [hnone] at hsize
      simp [CoroutineQueue.appendToTail,hu,hsize]
    · obtain ⟨tail,htail,_⟩ := hm.tail idx hnone
      have hne : CoroutineQueue.size (s.buckets idx).waitingQueue ≠ 0 := by
        rw [hsize]
        simpa using hnone
      simp [CoroutineQueue.appendToTail,hu,hne,htail]
  obtain ⟨⟨link',q'⟩,happ⟩ := Option.isSome_iff_exists.mp hsome
  simp only [TimeThread.step,hf,TimeThread.lock]
  split
  · rfl
  · simp only [happ,Option.isSome_some]

theorem TimeThread.ListedAs.commit_enabled (h : s.ListedAs l) {f : Nat}
    (hf : s.sleep f = .missAwaken) : Enabled TimeThread.step TimeEvent.agent (.frame f) s := by
  refine ⟨.commit f,rfl,?_⟩
  obtain ⟨waiting,thread,hm,rfl⟩ := h
  have hu : NewRpc.unlinked ndebug s.heap f = true := by
    simp [NewRpc.unlinked,hm.fresh f (by rw [hf]; rfl)]
  simp [TimeThread.step,hf,TimeThread.commit,hu]

end

section
variable {ndebug : Bool} {f : Nat}

abbrev TimerRun (ndebug : Bool) :=
  Run (TimeThread.step (Q := linkedQueues ndebug)) turnsOn

def TimeThread.Goes (s : LinkThread ndebug) : Prop := ∃ l, s.ListedAs l ∧ l.Turning

theorem TimerRun.goes {r : TimerRun ndebug} {precision : Ts} {precise : precision ≠ 0} {now : Ts}
    (hstart : r.state 0 = .start (linkedQueues ndebug) precision precise now) (i : Nat) :
    (r.state i).Goes := by
  have hreach := r.reaches i
  rw [hstart] at hreach
  refine hreach.invariant (I := TimeThread.Goes) (fun s e t hs hok he => ?_) ?_
  · obtain ⟨l,hl,hturning⟩ := hs
    obtain ⟨m,hm,htimed,hstop⟩ := hl.step hok he
    exact ⟨m,hm,htimed.turning hturning hstop⟩
  · refine ⟨_,⟨fun _ => [],.turn 0,TimeThread.start_mirrors precision precise now,rfl⟩,rfl,?_,?_⟩
    · show 0 < bucketNum
      decide
    · rintro f idx (hf | hf)
      · cases hf
      · cases hf

def TimeThread.Taken (s : LinkThread ndebug) (f : Nat) : Prop :=
  ∃ l, s.ListedAs l ∧ l.Turning ∧ f ∈ l.thread.ready

variable {r : TimerRun ndebug}

theorem entered_registered (hgoes : ∀ i, (r.state i).Goes)
    (hfair : r.Fair TimeEvent.agent (.frame f)) (idx : Nat) :
    r.LeadsTo (fun s => s.sleep f = .entered idx)
      (fun s => s.sleep f = .missAwaken ∨ s.sleep f = .asleep idx) := by
  have hmoves : ∀ (s : LinkThread ndebug) e t, s.Goes → s.sleep f = .entered idx → turnsOn s e = true →
      s.step e = some t → t.sleep f = .entered idx ∧ e.agent ≠ some (.frame f) ∨
        t.sleep f = .missAwaken ∨ t.sleep f = .asleep idx := by
    rintro s e t ⟨l,hl,_⟩ hf hok he
    obtain ⟨m,hm,htimed,_⟩ := hl.step hok he
    rw [← hm.sleep]
    exact htimed.entered hl.bedded (hl.sleep ▸ hf)
  refine Run.leadsTo_of_helper hgoes hfair (fun s ⟨l,hl,_⟩ hf => hl.lock_enabled hf)
    (fun s e t hs hf hok he => (hmoves s e t hs hf hok he).imp_left And.left)
    (fun s e t hs hf ha hok he => ?_)
  rcases hmoves s e t hs hf hok he with ⟨_,hne⟩ | hgone
  · exact absurd ha hne
  · exact hgone

theorem missed_committed (hgoes : ∀ i, (r.state i).Goes)
    (hfair : r.Fair TimeEvent.agent (.frame f)) :
    r.LeadsTo (fun s => s.sleep f = .missAwaken) (fun s => s.sleep f = .committed) := by
  have hmoves : ∀ (s : LinkThread ndebug) e t, s.Goes → s.sleep f = .missAwaken → turnsOn s e = true →
      s.step e = some t → t.sleep f = .missAwaken ∧ e.agent ≠ some (.frame f) ∨
        t.sleep f = .committed := by
    rintro s e t ⟨l,hl,_⟩ hf hok he
    obtain ⟨m,hm,htimed,_⟩ := hl.step hok he
    rw [← hm.sleep]
    exact htimed.missed (hl.sleep ▸ hf)
  refine Run.leadsTo_of_helper hgoes hfair (fun s ⟨l,hl,_⟩ hf => hl.commit_enabled hf)
    (fun s e t hs hf hok he => (hmoves s e t hs hf hok he).imp_left And.left)
    (fun s e t hs hf ha hok he => ?_)
  rcases hmoves s e t hs hf hok he with ⟨_,hne⟩ | hgone
  · exact absurd ha hne
  · exact hgone

/-- While the frame sleeps, the clock comes to its time and to those the loop waits for. -/
def ClockGoes (r : TimerRun ndebug) (f : Nat) : Prop :=
  ∀ i idx, (r.state i).sleep f = .asleep idx → ∀ ts,
    (ts = (r.state i).wakeUpTs f ∨ ∃ k, (r.state i).thread = .wait k ts) →
      ∃ j, i ≤ j ∧ ts ≤ (r.state j).clock

theorem asleep_due (hgoes : ∀ i, (r.state i).Goes) (hclock : ClockGoes r f) (idx : Nat) :
    r.LeadsTo (fun s => s.sleep f = .asleep idx) (fun s => s.sleep f = .committed ∨
      s.sleep f = .asleep idx ∧ s.wakeUpTs f ≤ s.clock) := by
  intro i hf
  obtain ⟨j,hij,hle⟩ := hclock i idx hf _ (.inl rfl)
  have hkeeps := Run.keeps_unless (r := r) (Q := fun s => s.sleep f = .committed)
    (P := fun s => s.sleep f = .asleep idx ∧ s.wakeUpTs f = (r.state i).wakeUpTs f) hij ⟨hf,rfl⟩
    (fun k e _ _ hp hok he => ?_)
  · rcases hkeeps with ⟨hasleep,htime⟩ | ⟨k,hik,hq⟩
    · exact ⟨j,hij,.inr ⟨hasleep,htime ▸ hle⟩⟩
    · exact ⟨k,hik,.inl hq⟩
  · obtain ⟨l,hl,_⟩ := hgoes k
    obtain ⟨m,hm,htimed,_⟩ := hl.step hok he
    rw [← hl.sleep,← hl.wakeUpTs] at hp
    rw [← hm.sleep,← hm.wakeUpTs]
    exact (htimed.asleep hp.1).imp_left (fun h => ⟨h.1,h.2.trans hp.2⟩)

def TimeThread.RestsAt (s : LinkThread ndebug) (f idx : Nat) (b : Nat ×ₗ Nat) : Prop :=
  ∃ l, s.ListedAs l ∧ l.Rests f idx ∧ l.thread.toGo idx = b

theorem TimeThread.ListedAs.rests_step {s t : LinkThread ndebug} {l : ListThread} {e : TimeEvent}
    {idx : Nat} (h : s.ListedAs l) (hr : l.Rests f idx) (hok : turnsOn s e = true)
    (he : s.step e = some t) : (∃ m, t.ListedAs m ∧ m.Rests f idx ∧ e ≠ .loop ∧
      m.thread = l.thread ∧ l.clock ≤ m.clock) ∨
      t.Taken f ∨ ∃ c, c < l.thread.toGo idx ∧ t.RestsAt f idx c := by
  obtain ⟨m,hm,htimed,hstop⟩ := h.step hok he
  obtain ⟨hturning,hready | ⟨hrests,⟨hloop,hsame⟩ | hlt⟩⟩ := htimed.rests h.bedded hr hstop
  · exact .inr (.inl ⟨m,hm,hturning,hready⟩)
  · exact .inl ⟨m,hm,hrests,hloop,hsame,htimed.clock_le⟩
  · exact .inr (.inr ⟨_,hlt,m,hm,hrests,rfl⟩)

/-- The loop does not stay where it is. -/
theorem rests_closer (hgoes : ∀ i, (r.state i).Goes) (hfair : r.Fair TimeEvent.agent .timer)
    (idx : Nat) (th : Thread listQueues) :
    r.LeadsTo (fun s => ∃ l, s.ListedAs l ∧ l.Rests f idx ∧ l.thread = th ∧
        ∀ k ts, th = .wait k ts → ts ≤ l.clock)
      (fun s => s.Taken f ∨ ∃ c, c < th.toGo idx ∧ s.RestsAt f idx c) := by
  refine Run.leadsTo_of_helper hgoes hfair ?_ ?_ ?_
  · rintro s _ ⟨l,hl,hr,hth,hwait⟩
    exact hl.loop_enabled hr.turning.thread (fun k ts hk => hwait k ts (hth.symm.trans hk))
  · rintro s e t _ ⟨l,hl,hr,hth,hwait⟩ hok he
    rcases hl.rests_step hr hok he with ⟨m,hm,hrests,_,hsame,hle⟩ | hgone
    · exact .inl ⟨m,hm,hrests,hsame.trans hth,
        fun k ts hk => BitVec.le_trans (hwait k ts hk) hle⟩
    · exact .inr (hth ▸ hgone)
  · rintro s e t _ ⟨l,hl,hr,hth,hwait⟩ ha hok he
    rcases hl.rests_step hr hok he with ⟨_,_,_,hloop,_⟩ | hgone
    · cases e with
      | loop => exact absurd rfl hloop
      | _ => cases ha
    · exact hth ▸ hgone

/-- The induction is on how far the loop is from the bucket; where it waits, the clock comes
to its time first. -/
theorem rests_taken (hgoes : ∀ i, (r.state i).Goes) (hfair : r.Fair TimeEvent.agent .timer)
    (hclock : ClockGoes r f) (idx : Nat) (b : Nat ×ₗ Nat) :
    r.LeadsTo (fun s => s.RestsAt f idx b) (fun s => s.Taken f) := by
  refine Run.leadsTo_of_descent (P := fun b (s : LinkThread ndebug) => s.RestsAt f idx b)
    (fun b => ?_) b
  rintro i ⟨l,hl,hr,rfl⟩
  have hcloser := rests_closer (f := f) hgoes hfair idx l.thread
  cases hth : l.thread with
  | wait k ts =>
    have hasleep : (r.state i).sleep f = .asleep idx := by
      rw [← hl.sleep]
      exact hl.bedded.home idx f hr.waits
    obtain ⟨j,hij,hle⟩ := hclock i idx hasleep ts (.inr ⟨k,hl.wait hth⟩)
    have hkeeps := Run.keeps_unless (r := r)
      (Q := fun s => s.Taken f ∨ ∃ c, c < l.thread.toGo idx ∧ s.RestsAt f idx c)
      (P := fun s => ∃ m, s.ListedAs m ∧ m.Rests f idx ∧ m.thread = l.thread) hij ⟨l,hl,hr,rfl⟩
      (fun n e _ _ hp hok he => ?_)
    · rw [← hth]
      rcases hkeeps with ⟨m,hm,hrests,hsame⟩ | hgone
      · have hwait : ∀ k' ts', l.thread = .wait k' ts' → ts' ≤ m.clock := by
          intro k' ts' heq
          cases hth.symm.trans heq
          rw [hm.clock]
          exact hle
        obtain ⟨n,hjn,hn⟩ := hcloser j ⟨m,hm,hrests,hsame,hwait⟩
        exact ⟨n,Nat.le_trans hij hjn,hn⟩
      · exact hgone
    · obtain ⟨m,hm,hrests,hsame⟩ := hp
      rcases hm.rests_step hrests hok he with ⟨m',hm',hrests',_,hsame',_⟩ | hgone
      · exact .inl ⟨m',hm',hrests',hsame'.trans hsame⟩
      · exact .inr (hsame ▸ hgone)
  | _ =>
    rw [← hth]
    exact hcloser i ⟨l,hl,hr,rfl,by simp [hth]⟩

theorem due_taken (hgoes : ∀ i, (r.state i).Goes) (hfair : r.Fair TimeEvent.agent .timer)
    (hclock : ClockGoes r f) (idx : Nat) :
    r.LeadsTo (fun s => s.sleep f = .asleep idx ∧ s.wakeUpTs f ≤ s.clock)
      (fun s => s.Taken f) := by
  rintro i ⟨hf,hdue⟩
  obtain ⟨l,hl,hturning⟩ := hgoes i
  rw [← hl.sleep] at hf
  rw [← hl.wakeUpTs,← hl.clock] at hdue
  obtain ⟨p,hp⟩ := hl.bedded.places.placed f ⟨idx,hf⟩
  cases p with
  | none => exact ⟨i,Nat.le_refl i,l,hl,hturning,hp⟩
  | some k =>
    cases (hl.bedded.home k f hp).symm.trans hf
    exact rests_taken hgoes hfair hclock idx _ i ⟨l,hl,⟨hturning,hp,hdue⟩,rfl⟩

theorem taken_committed (hgoes : ∀ i, (r.state i).Goes)
    (hfair : r.Fair TimeEvent.agent .timer) :
    r.LeadsTo (fun s => s.Taken f) (fun s => s.sleep f = .committed) := by
  have hdown : ∀ n, r.LeadsTo (fun s => ∃ l, s.ListedAs l ∧ l.Turning ∧ f ∈ l.thread.ready ∧
      l.thread.ready.length = n) (fun s => s.sleep f = .committed) := by
    refine Run.leadsTo_of_descent (fun n => ?_)
    have hmoves : ∀ (s : LinkThread ndebug) e t, (∃ l, s.ListedAs l ∧ l.Turning ∧ f ∈ l.thread.ready ∧
        l.thread.ready.length = n) → turnsOn s e = true → s.step e = some t →
        (e ≠ .loop ∧ ∃ l, t.ListedAs l ∧ l.Turning ∧ f ∈ l.thread.ready ∧
          l.thread.ready.length = n) ∨ t.sleep f = .committed ∨ ∃ c, c < n ∧ ∃ l, t.ListedAs l ∧
            l.Turning ∧ f ∈ l.thread.ready ∧ l.thread.ready.length = c := by
      rintro s e t ⟨l,hl,hturning,hf,hn⟩ hok he
      obtain ⟨m,hm,htimed,hstop⟩ := hl.step hok he
      have hturning' := htimed.turning hturning hstop
      rcases htimed.taken hf with hq | ⟨hin,⟨hloop,hsame⟩ | hlt⟩
      · exact .inr (.inl (hm.sleep ▸ hq))
      · exact .inl ⟨hloop,m,hm,hturning',hin,hsame ▸ hn⟩
      · exact .inr (.inr ⟨_,hn ▸ hlt,m,hm,hturning',hin,rfl⟩)
    refine Run.leadsTo_of_helper hgoes hfair ?_
      (fun s e t _ hp hok he => (hmoves s e t hp hok he).imp_left And.right)
      (fun s e t _ hp ha hok he => ?_)
    · rintro s _ ⟨l,hl,hturning,hf,_⟩
      refine hl.loop_enabled hturning.thread (fun k ts hk => ?_)
      rw [hk] at hf
      cases hf
    · rcases hmoves s e t hp hok he with ⟨hloop,_⟩ | hgone
      · cases e with
        | loop => exact absurd rfl hloop
        | _ => cases ha
      · exact hgone
  rintro i ⟨l,hl,hturning,hf⟩
  exact hdown _ i ⟨l,hl,hturning,hf,rfl⟩

/-- Whoever goes to sleep is committed sooner or later: the thread of the timer and those in
`register_frame` go on, and so does the clock. -/
theorem sleepers_committed (precision : Ts) (precise : precision ≠ 0) (now : Ts)
    (r : TimerRun ndebug) (hstart : r.state 0 = .start (linkedQueues ndebug) precision precise now)
    (hfair : ∀ a, r.Fair TimeEvent.agent a) (f : Nat) (hclock : ClockGoes r f) :
    r.LeadsTo (fun s => s.sleep f ≠ .awake) (fun s => s.sleep f = .committed) := by
  have hgoes := TimerRun.goes hstart
  have hmissed := missed_committed hgoes (hfair (.frame f))
  have hasleep : ∀ idx, r.LeadsTo (fun s => s.sleep f = .asleep idx)
      (fun s => s.sleep f = .committed) := by
    intro idx i hi
    obtain ⟨j,hij,hq | hdue⟩ := asleep_due hgoes hclock idx i hi
    · exact ⟨j,hij,hq⟩
    · obtain ⟨k,hjk,hk⟩ := (due_taken hgoes (hfair .timer) hclock idx).trans
        (taken_committed hgoes (hfair .timer)) j hdue
      exact ⟨k,Nat.le_trans hij hjk,hk⟩
  intro i hi
  cases hs : (r.state i).sleep f with
  | awake => exact absurd hs hi
  | entered idx =>
    obtain ⟨j,hij,hm | ha⟩ := entered_registered hgoes (hfair (.frame f)) idx i hs
    · obtain ⟨k,hjk,hk⟩ := hmissed j hm
      exact ⟨k,Nat.le_trans hij hjk,hk⟩
    · obtain ⟨k,hjk,hk⟩ := hasleep idx j ha
      exact ⟨k,Nat.le_trans hij hjk,hk⟩
  | missAwaken => exact hmissed i hs
  | asleep idx => exact hasleep idx i hs
  | committed => exact ⟨i,Nat.le_refl i,hs⟩

end

def sleepsThenWakes : List TimeEvent :=
  [.enter 1 (2 * millisecond),.lock 1,.loop,.loop,.loop,.loop,.tick (2 * millisecond),.loop,.loop,
    .loop,.loop,.loop,.loop,.loop]

def TimeThread.waitsForTwo (s : LinkThread false) : Bool :=
  match s.sleep 1, s.thread with
  | .asleep _, .wait _ nextRunTs =>
      decide (s.wakeUpTs 1 ≤ 2 * millisecond ∧ nextRunTs ≤ 2 * millisecond)
  | .asleep _, _ => decide (s.wakeUpTs 1 ≤ 2 * millisecond)
  | _, _ => true

theorem sleepsThenWakes_states : ∀ i < 15, (Run.after TimeThread.step
    (stillThread (linkedQueues false)) sleepsThenWakes i).waitsForTwo = true := by
  decide +kernel

theorem sleepsThenWakes_committed : ∃ r : TimerRun false,
    (r.state 1).sleep 1 = .entered 2 ∧ ∃ j, 1 ≤ j ∧ (r.state j).sleep 1 = .committed := by
  have hrun : (Transition.run TimeThread.step turnsOn (stillThread (linkedQueues false))
      sleepsThenWakes).map (fun s => (s.stopFlag,s.clock,s.sleep)) = some (false,2 * millisecond,
        Function.update (Function.update (Function.update (fun _ => .awake) 1 (.entered 2)) 1
          (.asleep 2)) 1 .committed) := by rfl
  have hwait : (Transition.run TimeThread.step turnsOn (stillThread (linkedQueues false))
      sleepsThenWakes).map (fun s => s.thread) = some (.wait 2 (3 * millisecond)) := by rfl
  obtain ⟨t,ht,heq⟩ := Option.map_eq_some_iff.mp hrun
  rw [ht,Option.map_some,Option.some.injEq] at hwait
  simp only [Prod.mk.injEq] at heq
  obtain ⟨hstop,hclock,hsleep⟩ := heq
  have hend : ∀ i, 14 ≤ i → (Run.ofEvents ht).state i = t := fun i hi => Run.after_end ht hi
  have hentered : ((Run.ofEvents ht).state 1).sleep 1 = .entered 2 := by rfl
  refine ⟨Run.ofEvents ht,hentered,sleepers_committed millisecond millisecond_ne_zero 0
    (Run.ofEvents ht) rfl (fun a => Run.ofEvents_fair ht ?_) 1 (fun i idx hf ts hts => ?_) 1
    (by simp [hentered])⟩
  · rintro ⟨e,ha,he⟩
    have hframe : ∀ f, t.sleep f = .committed ∨ t.sleep f = .awake := by
      intro f
      by_cases hf : f = 1
      · simp [hsleep,hf]
      · simp [hsleep,hf]
    cases e with
    | lock f | commit f => rcases hframe f with hf | hf <;> simp [TimeThread.step,hf] at he
    | loop =>
      have hearly : ¬ (false = true ∨ 2 * millisecond ≥ 3 * millisecond) := by decide
      simp only [TimeThread.step,TimeThread.loop,hwait,hstop,hclock,if_neg hearly] at he
      cases he
    | _ => cases ha
  · refine ⟨max i 14,Nat.le_max_left .., ?_⟩
    rw [hend _ (Nat.le_max_right ..),hclock]
    have hi : i < 15 := by
      by_contra hlt
      rw [hend i (by omega),hsleep] at hf
      cases hf
    have hstate : ((Run.ofEvents ht).state i).waitsForTwo = true := sleepsThenWakes_states i hi
    rcases hts with rfl | ⟨k,hk⟩
    · simp only [TimeThread.waitsForTwo,hf] at hstate
      split at hstate
      · exact (of_decide_eq_true hstate).1
      · exact of_decide_eq_true hstate
      · rename_i hnot _
        exact absurd rfl (hnot _)
    · simp only [TimeThread.waitsForTwo,hf,hk,decide_eq_true_eq] at hstate
      exact hstate.2

end NewRpc.Time
