import NewRpc.Sleepers
import NewRpc.TimeLists

/-!
The sweep that ends the timer, and the frames that come to bed behind it.
-/

set_option autoImplicit false

namespace NewRpc.Time

def Thread.swept {Q : Queues} : Thread Q → Nat → Bool
  | .sweep j, idx => decide (idx < j)
  | .sweeping j _, idx => decide (idx ≤ j)
  | .ended, idx => decide (idx < bucketNum)
  | _, _ => false

/-- What is registered in a bucket that was swept is due at its scan. -/
def dueIfSwept (s : ListThread) : TimeEvent → Bool
  | .lock f => match s.sleep f with
      | .entered idx =>
          !s.thread.swept idx || decide ((s.buckets idx).scanOverTs ≥ s.wakeUpTs f)
      | _ => true
  | _ => true

structure TimeThread.AllUp (s : ListThread) : Prop where
  waiting : ∀ idx < bucketNum, s.waiting idx = []
  asleep : ∀ f, ¬ s.Asleep f

structure TimeThread.Cleared (s : ListThread) : Prop where
  range : ∀ f idx, s.sleep f = .entered idx ∨ s.sleep f = .asleep idx → idx < bucketNum
  empty : ∀ idx, s.thread.swept idx = true → s.waiting idx = []

section
variable {s t : ListThread}

theorem TimeThread.Cleared.congr (h : s.Cleared) (hs : t.sleep = s.sleep)
    (hb : ∀ idx, t.waiting idx = s.waiting idx)
    (ht : ∀ idx, t.thread.swept idx = true → s.thread.swept idx = true) : t.Cleared := by
  refine ⟨fun f idx hf => h.range f idx (hs ▸ hf),fun idx hi => ?_⟩
  rw [hb]
  exact h.empty idx (ht idx hi)

theorem TimeThread.Cleared.setSleep (h : s.Cleared) {f : Nat} {σ : Sleep}
    (hσ : ∀ idx, σ = .entered idx ∨ σ = .asleep idx → idx < bucketNum) :
    (s.setSleep f σ).Cleared := by
  refine ⟨fun g idx hg => ?_,h.empty⟩
  by_cases hgf : g = f
  · rw [hgf,setSleep_self] at hg
    exact hσ idx hg
  · rw [setSleep_ne s σ hgf] at hg
    exact h.range g idx hg

theorem realBucketIdx_lt (calculatedBucketIdx : Ts) :
    (calculatedBucketIdx &&& 4095).toNat < bucketNum := by
  rw [BitVec.toNat_and]
  exact Nat.lt_of_le_of_lt Nat.and_le_right (by decide)

theorem TimeThread.Cleared.goto (h : s.Cleared) {thread : Thread listQueues}
    (ht : ∀ idx, thread.swept idx = true → s.thread.swept idx = true) : (s.goto thread).Cleared :=
  h.congr rfl (fun _ => rfl) ht

theorem Timed.cleared {e : TimeEvent} (h : Timed s e t) (hs : s.Cleared)
    (hok : dueIfSwept s e = true) : t.Cleared := by
  cases h with
  | tick | stop | schedule => exact hs.congr rfl (fun _ => rfl) (fun _ hi => hi)
  | past hf hpast =>
    refine TimeThread.Cleared.setSleep ?_ (by simp)
    exact hs.congr rfl (fun _ => rfl) (fun _ hi => hi)
  | @register f wakeUpTs hf hlater =>
    refine TimeThread.Cleared.setSleep ?_ (fun idx hi => ?_)
    · exact hs.congr rfl (fun _ => rfl) (fun _ hi => hi)
    · have hidx : (s.calculatedBucketIdx wakeUpTs &&& 4095).toNat = idx := by simpa using hi
      rw [← hidx]
      exact realBucketIdx_lt _
  | miss hf hover => exact hs.setSleep (by simp)
  | @append f idx hf hover =>
    have hlt := hs.range f idx (.inl hf)
    have hnot : s.thread.swept idx = false := by
      simpa [dueIfSwept,hf,BitVec.not_le.mpr hover] using hok
    refine ⟨fun g i hg => ?_,fun i hi => ?_⟩
    · by_cases hgf : g = f
      · have hi : idx = i := by simpa [TimeThread.append_sleep,hgf] using hg
        rw [← hi]
        exact hlt
      · rw [TimeThread.append_sleep,Function.update_of_ne hgf] at hg
        exact hs.range g i hg
    · have hne : i ≠ idx := by
        intro heq
        have hswept : s.thread.swept i = true := hi
        rw [heq,hnot] at hswept
        cases hswept
      rw [TimeThread.append_waiting,if_neg hne]
      exact hs.empty i hi
  | commit hf =>
    refine TimeThread.Cleared.setSleep ?_ (by simp)
    exact hs.congr rfl (fun _ => rfl) (fun _ hi => hi)
  | resume hf => exact hs.setSleep (by simp)
  | turn hth | revolve hth | store hth | woken hth | late hth | early hth | wait hth
  | again hth => exact hs.congr rfl (fun _ => rfl) (fun idx hi => by cases hi)
  | scan hth => exact ⟨hs.range,fun idx hi => by cases hi⟩
  | wake hth | force hth =>
    refine TimeThread.Cleared.setSleep ?_ (by simp)
    refine hs.congr rfl (fun _ => rfl) (fun idx hi => ?_)
    rw [hth]
    exact hi
  | stopped hth => exact hs.goto (fun idx hi => by simp [Thread.swept] at hi)
  | @sweep idx hth =>
    refine ⟨hs.range,fun i hi => ?_⟩
    rw [TimeThread.fetch_waiting]
    by_cases hidx : i = idx
    · rw [if_pos hidx]
      simp [TimeThread.due]
    · rw [if_neg hidx]
      have hle : i ≤ idx := by simpa [Thread.swept,TimeThread.fetch,TimeThread.goto] using hi
      refine hs.empty i ?_
      rw [hth]
      exact decide_eq_true (Nat.lt_of_le_of_ne hle hidx)
  | @swept idx hth hlt =>
    refine hs.goto (fun i hi => ?_)
    have hle : i < idx + 1 := by simpa [Thread.swept] using hi
    rw [hth]
    exact decide_eq_true (Nat.le_of_lt_succ hle)
  | @ended idx hth hlast =>
    refine hs.goto (fun i hi => ?_)
    have hlt : i < bucketNum := by simpa [Thread.swept] using hi
    rw [hth]
    exact decide_eq_true (Nat.le_of_lt_succ (Nat.lt_of_lt_of_le hlt hlast))

theorem TimeThread.Bedded.allUp (h : s.Bedded) (hc : s.Cleared) (hend : s.thread = .ended) :
    s.AllUp := by
  have hempty : ∀ idx < bucketNum, s.waiting idx = [] := by
    intro idx hlt
    refine hc.empty idx ?_
    rw [hend]
    exact decide_eq_true hlt
  refine ⟨hempty,fun f hf => ?_⟩
  obtain ⟨p,hp⟩ := h.places.placed f hf
  cases p with
  | none =>
    have hin : f ∈ s.thread.ready := hp
    rw [hend] at hin
    cases hin
  | some idx =>
    have hin : f ∈ s.waiting idx := hp
    rw [hempty idx (hc.range f idx (.inr (h.home idx f hin)))] at hin
    cases hin

end

/-- Nobody is left asleep, as long as nobody goes to sleep in a bucket that was swept. -/
theorem allUp_of_dueIfSwept (precision : Ts) (precise : precision ≠ 0) (now : Ts) (s : ListThread)
    (h : Transition.Reaches TimeThread.step dueIfSwept
      (.start listQueues precision precise now) s) (hend : s.thread = .ended) : s.AllUp := by
  have hinv : s.Bedded ∧ s.Cleared := by
    refine h.invariant (I := fun s => s.Bedded ∧ s.Cleared) ?_ ?_
    · intro s e t hs hok he
      have ht := TimeThread.step_timed he
      exact ⟨ht.bedded hs.1,ht.cleared hs.2 hok⟩
    · refine ⟨TimeThread.start_bedded precision precise now,?_,?_⟩
      · simp [TimeThread.start]
      · simp [TimeThread.start,Thread.swept]
  exact hinv.1.allUp hinv.2 hend

abbrev Goes (s t : ListThread) : Prop := Transition.Reaches TimeThread.step dueIfSwept s t

theorem Goes.loop {s t : ListThread} (h : s.loop = some t) : Goes s t :=
  .single ⟨.loop,rfl,h⟩

theorem goes_sweeping {s : ListThread} {idx : Nat} {q : List Nat}
    (hth : s.thread = .sweeping idx q) : ∃ t : ListThread, Goes s t ∧
      t.thread = .sweeping idx [] ∧ ∀ i, t.waiting i = s.waiting i := by
  induction q generalizing s with
  | nil => exact ⟨s,.refl,hth,fun _ => rfl⟩
  | cons f q ih =>
    have hloop : s.loop = some ((s.goto (.sweeping idx q)).fire f) := by
      simp only [TimeThread.loop,hth]
      rfl
    obtain ⟨t,hgo,ht,hw⟩ := ih (s := (s.goto (.sweeping idx q)).fire f) rfl
    exact ⟨t,(Goes.loop hloop).trans hgo,ht,hw⟩

theorem goes_sweep {s : ListThread} {idx : Nat} (hth : s.thread = .sweep idx) :
    ∃ t : ListThread, Goes s t ∧
      t.thread = (if idx + 1 < bucketNum then .sweep (idx + 1) else .ended) ∧
      ∀ i, i ≠ idx → t.waiting i = s.waiting i := by
  have hloop : s.loop = some (s.fetch idx true (.sweeping idx)) := by
    simp only [TimeThread.loop,hth]
    rfl
  obtain ⟨u,hgo,hu,hw⟩ := goes_sweeping (s := s.fetch idx true (.sweeping idx)) rfl
  have hnext : u.loop =
      some (u.goto (if idx + 1 < bucketNum then .sweep (idx + 1) else .ended)) := by
    simp only [TimeThread.loop,hu]
    rfl
  refine ⟨_,((Goes.loop hloop).trans hgo).trans (Goes.loop hnext),rfl,fun i hi => ?_⟩
  show u.waiting i = _
  rw [hw,TimeThread.fetch_waiting,if_neg hi]

/-- The sweep ends, and does not come back to a bucket. -/
theorem goes_ended {s : ListThread} {n idx : Nat} (hn : idx + n + 1 = bucketNum)
    (hth : s.thread = .sweep idx) : ∃ t : ListThread, Goes s t ∧ t.thread = .ended ∧
      ∀ i < idx, t.waiting i = s.waiting i := by
  induction n generalizing s idx with
  | zero =>
    obtain ⟨t,hgo,ht,hw⟩ := goes_sweep hth
    rw [if_neg (by omega)] at ht
    exact ⟨t,hgo,ht,fun i hi => hw i (Nat.ne_of_lt hi)⟩
  | succ n ih =>
    obtain ⟨u,hgo,hu,hw⟩ := goes_sweep hth
    rw [if_pos (by omega)] at hu
    obtain ⟨t,hgo',ht,hw'⟩ := ih (by omega) hu
    refine ⟨t,hgo.trans hgo',ht,fun i hi => ?_⟩
    rw [hw' i (Nat.lt_succ_of_lt hi),hw i (Nat.ne_of_lt hi)]

theorem millisecond_ne_zero : millisecond ≠ 0 := by decide

def stillThread (Q : Queues) : TimeThread Q := .start Q millisecond millisecond_ne_zero 0

def stopsSoon : List TimeEvent :=
  [.enter 1 (5 * millisecond),.lock 1,.stop,.loop,.loop,.loop,.loop,.loop,.loop]

theorem stopsSoon_allUp : ∃ s : ListThread, s.thread = .ended ∧ s.AllUp := by
  have hrun : (Transition.run TimeThread.step dueIfSwept (stillThread listQueues)
      stopsSoon).map TimeThread.thread = some (.sweep 0) := by rfl
  obtain ⟨s,hs,hth⟩ := Option.map_eq_some_iff.mp hrun
  obtain ⟨t,hgo,hend,_⟩ := goes_ended (n := 4095) rfl hth
  exact ⟨t,hend,allUp_of_dueIfSwept millisecond _ 0 t
    ((Transition.reaches_of_run hs).trans hgo) hend⟩

def sleepsBehind : List TimeEvent :=
  stopsSoon ++ [.loop,.loop,.enter 2 (4096 * millisecond),.lock 2]

theorem sleepsBehind_not_allUp : ∃ s : ListThread,
    Transition.Reaches TimeThread.step (fun _ _ => true) (stillThread listQueues) s ∧
      s.thread = .ended ∧ s.waiting 0 = [2] ∧ ¬ s.AllUp := by
  have hrun : (Transition.run TimeThread.step (fun _ _ => true) (stillThread listQueues)
      sleepsBehind).map (fun s => (s.thread,s.waiting 0)) = some (.sweep 1,[2]) := by rfl
  obtain ⟨s,hs,heq⟩ := Option.map_eq_some_iff.mp hrun
  obtain ⟨hth,hw⟩ := Prod.mk.inj heq
  obtain ⟨t,hgo,hend,hkeep⟩ := goes_ended (n := 4094) rfl hth
  have hwt : t.waiting 0 = [2] := (hkeep 0 Nat.one_pos).trans hw
  refine ⟨t,(Transition.reaches_of_run hs).trans (hgo.mono (fun _ _ _ => rfl)),hend,hwt,
    fun hup => ?_⟩
  rw [hup.waiting 0 (by decide)] at hwt
  cases hwt

end NewRpc.Time
