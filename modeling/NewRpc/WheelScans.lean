import NewRpc.Sweep

/-!
When the wheel comes by a frame: the scan that a frame is registered for finds it due,
except that the first scan comes too early.
-/

set_option autoImplicit false

namespace NewRpc.Time

def firstInTime (s : ListThread) : TimeEvent → Bool
  | .loop => match s.thread with
      | .scan idx => s.scans != 0 ||
          (s.waiting idx).all (fun f => s.target f != 1 || decide (s.wakeUpTs f ≤ s.clock))
      | _ => true
  | .lock f => match s.sleep f with
      | .entered idx => s.target f != 1 || s.scans == 0 ||
          decide ((s.buckets idx).scanOverTs ≥ s.wakeUpTs f)
      | _ => true
  | _ => true

/-- Scan `k` visits bucket `k mod BUCKET_NUM` in revolution `k div BUCKET_NUM`, and no frame
waits in a bucket when the scan that it was registered for is over. -/
structure TimeThread.InTurn (s : ListThread) : Prop where
  numbered : ∀ idx, s.thread = .scan idx → idx = (s.scans + 1) % bucketNum ∧
    s.revolution = (s.scans + 1) / bucketNum
  served : ∀ idx, ∀ f ∈ s.waiting idx, s.scans < s.target f

theorem calculatedBucketIdx_spec (s : ListThread) {wakeUpTs : Ts}
    (h : s.startBukcetRunTs < wakeUpTs) : 1 ≤ (s.calculatedBucketIdx wakeUpTs).toNat ∧
      wakeUpTs.toNat ≤ s.startBukcetRunTs.toNat +
        (s.calculatedBucketIdx wakeUpTs).toNat * s.precision.toNat := by
  have hlt : s.startBukcetRunTs.toNat < wakeUpTs.toNat := BitVec.lt_def.mp h
  have hp : 0 < s.precision.toNat := by
    refine Nat.pos_of_ne_zero (fun hz => s.precise ?_)
    exact BitVec.eq_of_toNat_eq hz
  have hsub : (wakeUpTs - s.startBukcetRunTs).toNat =
      wakeUpTs.toNat - s.startBukcetRunTs.toNat := BitVec.toNat_sub_of_le (BitVec.le_of_lt h)
  have hone : (wakeUpTs - s.startBukcetRunTs - 1).toNat =
      wakeUpTs.toNat - s.startBukcetRunTs.toNat - 1 := by
    rw [BitVec.toNat_sub_of_le (by rw [BitVec.le_def,hsub]; show 1 ≤ _; omega),hsub]
    rfl
  have hbound := wakeUpTs.isLt
  have hdiv := Nat.div_le_self (wakeUpTs.toNat - s.startBukcetRunTs.toNat - 1) s.precision.toNat
  have hc : (s.calculatedBucketIdx wakeUpTs).toNat =
      (wakeUpTs.toNat - s.startBukcetRunTs.toNat - 1) / s.precision.toNat + 1 := by
    unfold TimeThread.calculatedBucketIdx
    rw [BitVec.toNat_add,BitVec.toNat_udiv,hone]
    exact Nat.mod_eq_of_lt (by show _ + 1 < _; omega)
  have hceil := Nat.lt_mul_div_succ (wakeUpTs.toNat - s.startBukcetRunTs.toNat - 1) hp
  rw [hc]
  refine ⟨Nat.le_add_left 1 _,?_⟩
  rw [Nat.mul_comm] at hceil
  omega

theorem realBucketIdx_eq (calculatedBucketIdx : Ts) :
    (calculatedBucketIdx &&& 4095).toNat = calculatedBucketIdx.toNat % bucketNum := by
  rw [BitVec.toNat_and]
  exact Nat.and_two_pow_sub_one_eq_mod _ 12

structure TimeThread.Bounded (s : ListThread) : Prop where
  precision : s.precision.toNat * bucketNum < 2 ^ 63
  clock : s.clock.toNat < 2 ^ 63
  base : s.startBukcetRunTs.toNat ≤ s.clock.toNat
  scanned : ∀ idx, (s.buckets idx).scanOverTs.toNat ≤ s.clock.toNat

def TimeThread.dueTime (s : ListThread) (idx : Nat) : Nat :=
  s.startBukcetRunTs.toNat + idx * s.precision.toNat

theorem TimeThread.Bounded.nextRunTs {s : ListThread} (h : s.Bounded) {idx : Nat}
    (hidx : idx < bucketNum) : (s.nextRunTs idx).toNat = s.dueTime (idx + 1) := by
  have hle : s.precision.toNat * (idx + 1) ≤ s.precision.toNat * bucketNum :=
    Nat.mul_le_mul_left _ hidx
  have hp := h.precision
  have hc := h.clock
  have hb := h.base
  have hN : bucketNum = 4096 := rfl
  have hmul : (s.precision * BitVec.ofNat 64 (idx + 1)).toNat = s.precision.toNat * (idx + 1) := by
    rw [BitVec.toNat_mul,BitVec.toNat_ofNat,Nat.mod_eq_of_lt (by omega : idx + 1 < 2 ^ 64)]
    exact Nat.mod_eq_of_lt (by omega)
  unfold TimeThread.nextRunTs TimeThread.dueTime
  rw [BitVec.toNat_add,hmul,Nat.mul_comm (idx + 1)]
  exact Nat.mod_eq_of_lt (by omega)

/-- The number of scans at a place in the loop, and how late it is there. Only the first scan
does not wait for its time. -/
def TimeThread.Position (s : ListThread) : Thread listQueues → Prop
  | .turn idx => idx < bucketNum ∧ s.scans = s.revolution * bucketNum + idx ∧
      (s.scans = 0 ∨ s.dueTime (idx + 1) ≤ s.clock.toNat)
  | .store now => s.scans + 1 = (s.revolution + 1) * bucketNum ∧
      s.dueTime bucketNum ≤ now.toNat ∧ now.toNat ≤ s.clock.toNat
  | .scan idx => idx < bucketNum ∧ s.scans + 1 = s.revolution * bucketNum + idx ∧
      (s.scans = 0 ∨ s.dueTime idx ≤ s.clock.toNat)
  | .waking idx _ | .pace idx => idx < bucketNum ∧ s.scans = s.revolution * bucketNum + idx
  | .wait idx nextRunTs => idx < bucketNum ∧ s.scans = s.revolution * bucketNum + idx ∧
      nextRunTs.toNat = s.dueTime (idx + 1)
  | .test idx => idx < bucketNum ∧ s.scans = s.revolution * bucketNum + idx ∧
      (s.stopFlag = true ∨ s.dueTime (idx + 1) ≤ s.clock.toNat)
  | _ => s.scans < (s.revolution + 1) * bucketNum

structure TimeThread.Paced (s : ListThread) : Prop where
  bounded : s.Bounded
  position : s.Position s.thread

section
variable {s t : ListThread}

theorem TimeThread.Paced.scans_lt (h : s.Paced) : s.scans < (s.revolution + 1) * bucketNum := by
  have hpos := h.position
  cases hth : s.thread with
  | turn idx | waking idx _ | pace idx | wait idx _ | test idx | scan idx =>
    rw [hth] at hpos
    simp only [Position,bucketNum] at hpos ⊢
    omega
  | store now =>
    rw [hth] at hpos
    simp only [Position,bucketNum] at hpos ⊢
    omega
  | sweep _ | sweeping _ _ | ended =>
    rw [hth] at hpos
    exact hpos

theorem TimeThread.Position.congr {thread : Thread listQueues} (h : s.Position thread)
    (hbase : t.startBukcetRunTs = s.startBukcetRunTs) (hprec : t.precision = s.precision)
    (hclock : s.clock.toNat ≤ t.clock.toNat) (hstop : s.stopFlag = true → t.stopFlag = true)
    (hscans : t.scans = s.scans) (hrev : t.revolution = s.revolution) : t.Position thread := by
  have hdue : ∀ idx, t.dueTime idx = s.dueTime idx := by
    intro idx
    unfold dueTime
    rw [hbase,hprec]
  have hlate : ∀ idx, s.dueTime idx ≤ s.clock.toNat → s.dueTime idx ≤ t.clock.toNat :=
    fun idx hle => Nat.le_trans hle hclock
  cases thread with
  | turn idx | scan idx =>
    simp only [Position,hdue,hscans,hrev] at h ⊢
    exact ⟨h.1,h.2.1,h.2.2.imp_right (hlate _)⟩
  | test idx =>
    simp only [Position,hdue,hscans,hrev] at h ⊢
    exact ⟨h.1,h.2.1,h.2.2.imp hstop (hlate _)⟩
  | store now =>
    simp only [Position,hdue,hscans,hrev] at h ⊢
    exact ⟨h.1,h.2.1,Nat.le_trans h.2.2 hclock⟩
  | _ =>
    simp only [Position,hdue,hscans,hrev] at h ⊢
    exact h

theorem TimeThread.Paced.congr (h : s.Paced) (hb : t.Bounded)
    (hbase : t.startBukcetRunTs = s.startBukcetRunTs) (hprec : t.precision = s.precision)
    (hclock : s.clock.toNat ≤ t.clock.toNat) (hstop : s.stopFlag = true → t.stopFlag = true)
    (hscans : t.scans = s.scans) (hrev : t.revolution = s.revolution)
    (hth : t.thread = s.thread) : t.Paced := by
  refine ⟨hb,?_⟩
  rw [hth]
  exact h.position.congr hbase hprec hclock hstop hscans hrev

theorem TimeThread.Bounded.setBucket (h : s.Bounded) (idx : Nat) (q : List Nat) :
    (s.setBucket idx ⟨s.clock,q⟩ : ListThread).Bounded := by
  refine ⟨h.precision,h.clock,h.base,fun i => ?_⟩
  by_cases hi : i = idx
  · simp [TimeThread.setBucket,hi]
  · simp only [TimeThread.setBucket,Function.update_of_ne hi]
    exact h.scanned i

theorem TimeThread.Paced.goto (h : s.Paced) {thread : Thread listQueues}
    (hpos : s.Position thread) : (s.goto thread).Paced := by
  have hb := h.bounded
  refine ⟨⟨hb.precision,hb.clock,hb.base,hb.scanned⟩,?_⟩
  cases thread <;> exact hpos

theorem Timed.paced {e : TimeEvent} (h : Timed s e t) (hs : s.Paced) : t.Paced := by
  have hb := hs.bounded
  have hpos := hs.position
  have hle := Nat.le_refl s.clock.toNat
  cases h with
  | tick hle' hnow =>
    have hclock := BitVec.le_def.mp hle'
    exact hs.congr ⟨hb.precision,hnow,Nat.le_trans hb.base hclock,
      fun i => Nat.le_trans (hb.scanned i) hclock⟩ rfl rfl hclock id rfl rfl rfl
  | stop =>
    have hstop : s.stopFlag = true → true = true := fun _ => rfl
    exact hs.congr ⟨hb.precision,hb.clock,hb.base,hb.scanned⟩ rfl rfl hle hstop rfl rfl rfl
  | past | register | miss | commit | resume =>
    exact hs.congr ⟨hb.precision,hb.clock,hb.base,hb.scanned⟩ rfl rfl hle id rfl rfl rfl
  | schedule => exact hs
  | @append f idx hf hover =>
    refine hs.congr ⟨hb.precision,hb.clock,hb.base,fun i => ?_⟩ rfl rfl hle id rfl rfl rfl
    rw [TimeThread.append_over]
    exact hb.scanned i
  | @turn idx hth hnext =>
    rw [hth] at hpos
    refine hs.goto ?_
    simp only [TimeThread.Position,bucketNum] at hpos hnext ⊢
    have hlt : (idx + 1) % 4096 = idx + 1 := by omega
    rw [hlt]
    exact ⟨by omega,by omega,hpos.2.2⟩
  | @revolve idx hth hnext =>
    rw [hth] at hpos
    refine hs.goto ?_
    simp only [TimeThread.Position,bucketNum] at hpos hnext ⊢
    have hidx : idx = 4095 := by omega
    subst hidx
    refine ⟨by omega,?_,hle⟩
    rcases hpos.2.2 with hz | hlate
    · omega
    · exact hlate
  | @store now hth =>
    rw [hth] at hpos
    simp only [TimeThread.Position] at hpos
    obtain ⟨hcount,_,hnow⟩ := hpos
    refine ⟨⟨hb.precision,hb.clock,hnow,hb.scanned⟩,?_⟩
    simp only [TimeThread.Position,TimeThread.goto,TimeThread.dueTime,Nat.zero_mul,Nat.add_zero]
    exact ⟨by simp [bucketNum],hcount,.inr hnow⟩
  | @scan idx hth =>
    rw [hth] at hpos
    refine ⟨?_,hpos.1,hpos.2.1⟩
    have hsame : ({ s with scans := s.scans + 1 } : ListThread).Bounded :=
      ⟨hb.precision,hb.clock,hb.base,hb.scanned⟩
    have hset := hsame.setBucket idx
      ((s.waiting idx).filter (fun f => !s.due false f))
    exact ⟨hset.precision,hset.clock,hset.base,hset.scanned⟩
  | wake hth =>
    rw [hth] at hpos
    exact ⟨⟨hb.precision,hb.clock,hb.base,hb.scanned⟩,hpos⟩
  | woken hth =>
    rw [hth] at hpos
    exact hs.goto hpos
  | @late idx hth hlate =>
    rw [hth] at hpos
    refine hs.goto ⟨hpos.1,hpos.2,.inr ?_⟩
    rw [← hb.nextRunTs hpos.1]
    exact BitVec.le_def.mp hlate
  | @early idx hth =>
    rw [hth] at hpos
    exact hs.goto ⟨hpos.1,hpos.2,hb.nextRunTs hpos.1⟩
  | @wait idx nextRunTs hth hover =>
    rw [hth] at hpos
    refine hs.goto ⟨hpos.1,hpos.2.1,hover.imp_right (fun hle' => ?_)⟩
    rw [← hpos.2.2]
    exact BitVec.le_def.mp hle'
  | @again idx hth hrun =>
    rw [hth] at hpos
    refine hs.goto ⟨hpos.1,hpos.2.1,.inr ?_⟩
    rcases hpos.2.2 with hstop | hlate
    · rw [hrun] at hstop
      cases hstop
    · exact hlate
  | stopped hth => exact hs.goto hs.scans_lt
  | @sweep idx hth =>
    refine ⟨?_,hs.scans_lt⟩
    have hset := hb.setBucket idx ((s.waiting idx).filter (fun f => !s.due true f))
    exact ⟨hset.precision,hset.clock,hset.base,hset.scanned⟩
  | force hth => exact ⟨⟨hb.precision,hb.clock,hb.base,hb.scanned⟩,hs.scans_lt⟩
  | swept hth | ended hth => exact hs.goto hs.scans_lt

structure TimeThread.Targeted (s : ListThread) : Prop where
  frames : ∀ f idx, s.sleep f = .entered idx ∨ s.sleep f = .asleep idx →
    s.target f % bucketNum = idx ∧
      (s.wakeUpTs f).toNat + s.revolution * bucketNum * s.precision.toNat ≤
        s.dueTime (s.target f)
  recent : ∀ j, 1 ≤ j → s.revolution * bucketNum + j ≤ s.scans →
    s.revolution * bucketNum + j ≠ 1 → s.dueTime j ≤ (s.buckets j).scanOverTs.toNat
  passed : ∀ f idx, s.sleep f = .entered idx → s.target f ≤ s.scans → s.target f ≠ 1 →
    (s.wakeUpTs f).toNat ≤ (s.buckets idx).scanOverTs.toNat
  ahead : ∀ idx, ∀ f ∈ s.waiting idx, s.scans < s.target f

theorem TimeThread.dueTime_add (s : ListThread) (n j : Nat) :
    s.dueTime (n + j) = s.dueTime j + n * s.precision.toNat := by
  unfold dueTime
  rw [Nat.add_mul]
  omega

theorem TimeThread.dueTime_mono (s : ListThread) {m n : Nat} (h : m ≤ n) :
    s.dueTime m ≤ s.dueTime n := Nat.add_le_add_left (Nat.mul_le_mul_right _ h) _

/-- When a scan is due, so are the frames registered for it and for those before it. -/
theorem TimeThread.Targeted.due (h : s.Targeted) {f idx j : Nat}
    (hf : s.sleep f = .entered idx ∨ s.sleep f = .asleep idx)
    (ht : s.target f ≤ s.revolution * bucketNum + j) : (s.wakeUpTs f).toNat ≤ s.dueTime j := by
  have hwake := (h.frames f idx hf).2
  have hle := s.dueTime_mono ht
  rw [s.dueTime_add] at hle
  omega

theorem TimeThread.Targeted.congr (h : s.Targeted)
    (hsleep : ∀ f idx, (t.sleep f = .entered idx → s.sleep f = .entered idx) ∧
      (t.sleep f = .asleep idx → s.sleep f = .asleep idx))
    (hbase : t.startBukcetRunTs = s.startBukcetRunTs) (hprec : t.precision = s.precision)
    (hrev : t.revolution = s.revolution) (hscans : t.scans = s.scans)
    (hframe : ∀ f idx, t.sleep f = .entered idx ∨ t.sleep f = .asleep idx →
      t.wakeUpTs f = s.wakeUpTs f ∧ t.target f = s.target f)
    (hover : ∀ idx, (s.buckets idx).scanOverTs.toNat ≤ (t.buckets idx).scanOverTs.toNat)
    (hwaiting : ∀ idx, ∀ f ∈ t.waiting idx, f ∈ s.waiting idx ∧ t.target f = s.target f) :
    t.Targeted := by
  have hdue : ∀ n, t.dueTime n = s.dueTime n := by
    intro n
    unfold dueTime
    rw [hbase,hprec]
  refine ⟨fun f idx hf => ?_,fun j hj hle hne => ?_,fun f idx hf hle hne => ?_,
    fun idx f hf => ?_⟩
  · obtain ⟨hw,ht⟩ := hframe f idx hf
    rw [hw,ht,hdue,hrev,hprec]
    exact h.frames f idx (hf.imp (hsleep f idx).1 (hsleep f idx).2)
  · rw [hrev,hscans] at hle
    rw [hrev] at hne
    rw [hdue]
    exact Nat.le_trans (h.recent j hj hle hne) (hover j)
  · obtain ⟨hw,ht⟩ := hframe f idx (.inl hf)
    rw [ht,hscans] at hle
    rw [ht] at hne
    rw [hw]
    exact Nat.le_trans (h.passed f idx ((hsleep f idx).1 hf) hle hne) (hover idx)
  · obtain ⟨hin,ht⟩ := hwaiting idx f hf
    rw [ht,hscans]
    exact h.ahead idx f hin

theorem TimeThread.Targeted.up (h : s.Targeted) {f : Nat} {σ : Sleep}
    (hσ : ∀ idx, σ ≠ .entered idx ∧ σ ≠ .asleep idx)
    (hsleep : t.sleep = Function.update s.sleep f σ)
    (hwake : ∀ g, g ≠ f → t.wakeUpTs g = s.wakeUpTs g) (htarget : t.target = s.target)
    (hbase : t.startBukcetRunTs = s.startBukcetRunTs) (hprec : t.precision = s.precision)
    (hrev : t.revolution = s.revolution) (hscans : t.scans = s.scans)
    (hbuckets : t.buckets = s.buckets) : t.Targeted := by
  have hself : t.sleep f = σ := by rw [hsleep,Function.update_self]
  have hne : ∀ g idx, t.sleep g = .entered idx ∨ t.sleep g = .asleep idx → g ≠ f := by
    intro g idx hg heq
    rw [heq,hself] at hg
    exact hg.elim (hσ idx).1 (hσ idx).2
  have hother : ∀ g, g ≠ f → t.sleep g = s.sleep g := by
    intro g hg
    rw [hsleep,Function.update_of_ne hg]
  refine h.congr (fun g idx => ⟨fun hg => ?_,fun hg => ?_⟩) hbase hprec hrev hscans
    (fun g idx hg => ⟨hwake g (hne g idx hg),by rw [htarget]⟩) (fun idx => ?_) (fun idx g hg => ?_)
  · rw [← hother g (hne g idx (.inl hg))]
    exact hg
  · rw [← hother g (hne g idx (.inr hg))]
    exact hg
  · rw [hbuckets]
  · refine ⟨?_,by rw [htarget]⟩
    unfold waiting at hg ⊢
    rw [← hbuckets]
    exact hg

/-- A frame is registered with the base of this revolution. If its scan is over, the bucket
was scanned late enough. -/
theorem TimeThread.Targeted.register (h : s.Targeted) (hb : s.Bedded) (hp : s.Paced) {f : Nat}
    {wakeUpTs : Ts} (hf : s.sleep f = .awake) (hlater : s.startBukcetRunTs < wakeUpTs) :
    (s.register f wakeUpTs).Targeted := by
  obtain ⟨hpos,hceil⟩ := calculatedBucketIdx_spec s hlater
  have hlt := hp.scans_lt
  let c := (s.calculatedBucketIdx wakeUpTs).toNat
  let t := s.register f wakeUpTs
  have hself : t.sleep f = .entered (c % bucketNum) := by
    rw [← realBucketIdx_eq]
    exact setSleep_self _ _ _
  have htarget : t.target f = s.revolution * bucketNum + c := Function.update_self ..
  have hwake : t.wakeUpTs f = wakeUpTs := Function.update_self ..
  have hother : ∀ g, g ≠ f → t.sleep g = s.sleep g ∧ t.target g = s.target g ∧
      t.wakeUpTs g = s.wakeUpTs g := fun g hg => ⟨Function.update_of_ne hg _ _,
        Function.update_of_ne hg _ _,Function.update_of_ne hg _ _⟩
  have hdue : ∀ n, t.dueTime n = s.dueTime n := fun _ => rfl
  refine ⟨fun g idx hg => ?_,h.recent,fun g idx hg hle hne => ?_,fun idx g hg => ?_⟩
  · by_cases hgf : g = f
    · rw [hgf,hself] at hg
      have hidx : c % bucketNum = idx := by simpa using hg
      show t.target g % bucketNum = idx ∧ (t.wakeUpTs g).toNat + s.revolution * bucketNum *
        s.precision.toNat ≤ t.dueTime (t.target g)
      rw [hgf,htarget,hwake,hdue,s.dueTime_add]
      refine ⟨?_,Nat.add_le_add_right hceil _⟩
      rw [Nat.add_comm,Nat.add_mul_mod_self_right]
      exact hidx
    · obtain ⟨hs,ht,hw⟩ := hother g hgf
      rw [hs] at hg
      show t.target g % bucketNum = idx ∧ (t.wakeUpTs g).toNat + s.revolution * bucketNum *
        s.precision.toNat ≤ t.dueTime (t.target g)
      rw [ht,hw,hdue]
      exact h.frames g idx hg
  · by_cases hgf : g = f
    · rw [hgf,hself] at hg
      have hidx : c % bucketNum = idx := by simpa using hg
      rw [show (s.register f wakeUpTs).target g = s.revolution * bucketNum + c by
        rw [hgf]; exact htarget] at hle hne
      have hle' : s.revolution * bucketNum + c ≤ s.scans := hle
      have hc : c < bucketNum := by
        rw [Nat.add_mul,Nat.one_mul] at hlt
        omega
      have hrecent := h.recent c hpos hle' hne
      rw [← hidx,Nat.mod_eq_of_lt hc,hgf]
      show (t.wakeUpTs f).toNat ≤ (s.buckets c).scanOverTs.toNat
      rw [hwake]
      exact Nat.le_trans hceil hrecent
    · obtain ⟨hs,ht,hw⟩ := hother g hgf
      rw [show (s.register f wakeUpTs).target g = s.target g from ht] at hle hne
      rw [show (s.register f wakeUpTs).wakeUpTs g = s.wakeUpTs g from hw]
      exact h.passed g idx (hs.symm.trans hg) hle hne
  · have hin : g ∈ s.waiting idx := hg
    have hne : g ≠ f := by
      intro heq
      have hasleep := hb.home idx g hin
      rw [heq,hf] at hasleep
      cases hasleep
    rw [show (s.register f wakeUpTs).target g = s.target g from (hother g hne).2.1]
    exact h.ahead idx g hin

theorem TimeThread.Targeted.append (h : s.Targeted) {f idx : Nat}
    (hf : s.sleep f = .entered idx) (hover : (s.buckets idx).scanOverTs < s.wakeUpTs f)
    (hok : firstInTime s (.lock f) = true) : (s.append f idx).Targeted := by
  have hlate := BitVec.lt_def.mp hover
  have hahead : s.scans < s.target f := by
    by_contra hle
    have hle' := Nat.le_of_not_lt hle
    by_cases hone : s.target f = 1
    · rw [hone] at hle'
      have hfirst : s.scans = 0 := by
        simpa [firstInTime,hf,hone,BitVec.not_le.mpr hover] using hok
      omega
    · exact absurd (h.passed f idx hf hle' hone) (Nat.not_le.mpr hlate)
  have hbucket := TimeThread.append_over s f idx
  refine ⟨fun g i hg => ?_,fun j hj hle hne => ?_,fun g i hg hle hne => ?_,fun i g hg => ?_⟩
  · refine h.frames g i ?_
    by_cases hgf : g = f
    · rw [TimeThread.append_sleep,hgf,Function.update_self] at hg
      rw [hgf]
      have hi : idx = i := by simpa using hg
      exact .inl (hi ▸ hf)
    · rw [TimeThread.append_sleep,Function.update_of_ne hgf] at hg
      exact hg
  · rw [hbucket]
    exact h.recent j hj hle hne
  · rw [hbucket]
    by_cases hgf : g = f
    · rw [TimeThread.append_sleep,hgf,Function.update_self] at hg
      cases hg
    · rw [TimeThread.append_sleep,Function.update_of_ne hgf] at hg
      exact h.passed g i hg hle hne
  · rw [TimeThread.append_waiting] at hg
    show s.scans < s.target g
    split at hg
    · rcases List.mem_append.mp hg with hin | heq
      · exact h.ahead idx g hin
      · rw [List.mem_singleton.mp heq]
        exact hahead
    · exact h.ahead i g hg

theorem TimeThread.Targeted.store (h : s.Targeted) (hp : s.Paced) {now : Ts}
    (hth : s.thread = .store now) :
    ({ s with startBukcetRunTs := now, revolution := s.revolution + 1 }.goto
      (.scan 0) : ListThread).Targeted := by
  have hpos := hp.position
  rw [hth] at hpos
  simp only [Position] at hpos
  obtain ⟨hcount,hlate,_⟩ := hpos
  refine ⟨fun f idx hf => ?_,fun j hj hle hne => ?_,h.passed,h.ahead⟩
  · obtain ⟨hmod,hwake⟩ := h.frames f idx hf
    refine ⟨hmod,?_⟩
    show (s.wakeUpTs f).toNat + (s.revolution + 1) * bucketNum * s.precision.toNat ≤
      now.toNat + s.target f * s.precision.toNat
    have hmul : (s.revolution + 1) * bucketNum * s.precision.toNat =
        s.revolution * bucketNum * s.precision.toNat + bucketNum * s.precision.toNat := by
      rw [Nat.add_mul,Nat.add_mul,Nat.one_mul]
    unfold dueTime at hlate hwake
    omega
  · have hle' : (s.revolution + 1) * bucketNum + j ≤ s.scans := hle
    omega

theorem TimeThread.fetch_over_le (hb : s.Bounded) (idx : Nat) (forceAwake : Bool)
    (next : listQueues.Queue → Thread listQueues) (i : Nat) : (s.buckets i).scanOverTs.toNat ≤
      ((s.fetch idx forceAwake next).buckets i).scanOverTs.toNat := by
  rw [fetch_over]
  split
  · exact hb.scanned i
  · exact Nat.le_refl _

theorem TimeThread.Targeted.sweep (h : s.Targeted) (hb : s.Bounded) (idx : Nat) :
    (s.fetch idx true (.sweeping idx)).Targeted := by
  refine h.congr (fun _ _ => ⟨id,id⟩) rfl rfl rfl rfl (fun _ _ _ => ⟨rfl,rfl⟩)
    (fetch_over_le hb idx true _) (fun i f hf => ⟨?_,rfl⟩)
  rw [fetch_waiting] at hf
  split at hf
  · rename_i hi
    rw [hi]
    exact (List.mem_filter.mp hf).1
  · exact hf

/-- The scan takes the frames that it is the scan of. -/
theorem TimeThread.Targeted.scan (h : s.Targeted) (hb : s.Bedded) (hp : s.Paced) {idx : Nat}
    (hth : s.thread = .scan idx) (hok : firstInTime s .loop = true) :
    ({ s with scans := s.scans + 1 }.fetch idx false (.waking idx) : ListThread).Targeted := by
  have hpos := hp.position
  rw [hth] at hpos
  simp only [Position] at hpos
  obtain ⟨hidx,hcount,hlate⟩ := hpos
  let t : ListThread := { s with scans := s.scans + 1 }.fetch idx false (.waking idx)
  have hover : ∀ i, (t.buckets i).scanOverTs = if i = idx then s.clock
      else (s.buckets i).scanOverTs := fetch_over _ idx false _
  have hmono : ∀ i, (s.buckets i).scanOverTs.toNat ≤ (t.buckets i).scanOverTs.toNat := by
    intro i
    rw [hover]
    split
    · exact hp.bounded.scanned i
    · exact Nat.le_refl _
  have hnow : ((t.buckets idx).scanOverTs) = s.clock := by rw [hover,if_pos rfl]
  have htime : s.scans ≠ 0 → s.dueTime idx ≤ s.clock.toNat := fun hne => hlate.resolve_left hne
  -- a frame that this scan is the scan of
  have hdue : ∀ f i, s.sleep f = .entered i ∨ s.sleep f = .asleep i → s.scans ≠ 0 →
      s.target f ≤ s.scans + 1 → (s.wakeUpTs f).toNat ≤ s.clock.toNat := by
    intro f i hf hne hle
    rw [hcount] at hle
    exact Nat.le_trans (h.due hf hle) (htime hne)
  have hmod : (s.scans + 1) % bucketNum = idx := by
    rw [hcount,Nat.add_comm,Nat.add_mul_mod_self_right,Nat.mod_eq_of_lt hidx]
  refine ⟨h.frames,fun j hj hle hne => ?_,fun f i hf hle hne => ?_,fun i f hf => ?_⟩
  · have hle' : s.revolution * bucketNum + j ≤ s.scans + 1 := hle
    rcases Nat.lt_or_ge s.scans (s.revolution * bucketNum + j) with hlt | hge
    · have hjdx : j = idx := by omega
      rw [hjdx]
      show s.dueTime idx ≤ (t.buckets idx).scanOverTs.toNat
      rw [hnow]
      refine htime (fun hz => hne ?_)
      show s.revolution * bucketNum + j = 1
      omega
    · exact Nat.le_trans (h.recent j hj hge hne) (hmono j)
  · have hle' : s.target f ≤ s.scans + 1 := hle
    rcases Nat.lt_or_ge s.scans (s.target f) with hlt | hge
    · have htarget : s.target f = s.scans + 1 := by omega
      have hi : i = idx := by
        rw [← (h.frames f i (.inl hf)).1,htarget,hmod]
      rw [hi]
      show (s.wakeUpTs f).toNat ≤ (t.buckets idx).scanOverTs.toNat
      rw [hnow]
      refine hdue f i (.inl hf) (fun hz => hne ?_) hle'
      show s.target f = 1
      omega
    · exact Nat.le_trans (h.passed f i hf hge hne) (hmono i)
  · have hin : f ∈ s.waiting i := by
      rw [fetch_waiting] at hf
      split at hf
      · rename_i hi
        rw [hi]
        exact (List.mem_filter.mp hf).1
      · exact hf
    have hahead := h.ahead i f hin
    have hasleep := hb.home i f hin
    show s.scans + 1 < s.target f
    refine Nat.lt_of_le_of_ne hahead (fun heq => ?_)
    have hi : i = idx := by
      rw [← (h.frames f i (.inr hasleep)).1,← heq,hmod]
    rw [fetch_waiting,if_pos hi] at hf
    have hnot := (List.mem_filter.mp hf).2
    have hlater : s.clock < s.wakeUpTs f := by simpa [TimeThread.due] using hnot
    have hlater' := BitVec.lt_def.mp hlater
    by_cases hz : s.scans = 0
    · have hall : ∀ g ∈ s.waiting idx, s.target g ≠ 1 ∨ s.wakeUpTs g ≤ s.clock := by
        simpa [firstInTime,hth,hz] using hok
      rw [hi] at hin
      rcases hall f hin with hone | hle
      · omega
      · exact absurd (BitVec.le_def.mp hle) (Nat.not_le.mpr hlater')
    · have hle := hdue f i (.inr hasleep) hz (Nat.le_of_eq heq.symm)
      omega

theorem Timed.targeted {e : TimeEvent} (h : Timed s e t) (hs : s.Targeted) (hb : s.Bedded)
    (hp : s.Paced) (hok : firstInTime s e = true) : t.Targeted := by
  cases h with
  | past hf hpast =>
    exact hs.up (σ := .missAwaken) (by simp) rfl (fun g hg => Function.update_of_ne hg _ _) rfl
      rfl rfl rfl rfl rfl
  | register hf hlater => exact hs.register hb hp hf hlater
  | append hf hover => exact hs.append hf hover hok
  | miss | commit | resume | wake | force =>
    exact hs.up (by simp) rfl (fun _ _ => rfl) rfl rfl rfl rfl rfl rfl
  | store hth => exact hs.store hp hth
  | scan hth => exact hs.scan hb hp hth hok
  | sweep hth => exact hs.sweep hp.bounded _
  | _ => exact ⟨hs.frames,hs.recent,hs.passed,hs.ahead⟩

end

theorem TimeThread.start_paced {precision : Ts} (precise : precision ≠ 0) {now : Ts}
    (hprecision : precision.toNat * bucketNum < 2 ^ 63) (hnow : now.toNat < 2 ^ 63) :
    (start listQueues precision precise now).Paced := by
  refine ⟨⟨hprecision,hnow,Nat.le_refl _,fun _ => Nat.zero_le _⟩,?_⟩
  simp [Position,start,bucketNum]

theorem TimeThread.start_targeted (precision : Ts) (precise : precision ≠ 0) (now : Ts) :
    (start listQueues precision precise now).Targeted := by
  refine ⟨by simp [start],fun j hj hle => ?_,by simp [start],by simp [start,waiting]⟩
  have hzero : 0 * bucketNum + j ≤ 0 := hle
  omega

theorem TimeThread.Targeted.inTurn {s : ListThread} (h : s.Targeted) (hp : s.Paced) :
    s.InTurn := by
  refine ⟨fun idx hth => ?_,h.ahead⟩
  have hpos := hp.position
  rw [hth] at hpos
  simp only [Position] at hpos
  obtain ⟨hidx,hcount,_⟩ := hpos
  rw [hcount]
  simp only [bucketNum] at hidx ⊢
  omega

/-- The wheel serves every frame by the scan that it is registered for, unless the first scan
is too early for it. -/
theorem inTurn_of_firstInTime (precision : Ts) (precise : precision ≠ 0) (now : Ts)
    (hprecision : precision.toNat * bucketNum < 2 ^ 63) (hnow : now.toNat < 2 ^ 63)
    (s : ListThread) (h : Transition.Reaches TimeThread.step firstInTime
      (.start listQueues precision precise now) s) : s.InTurn := by
  have hinv : s.Bedded ∧ s.Paced ∧ s.Targeted := by
    refine h.invariant (I := fun s => s.Bedded ∧ s.Paced ∧ s.Targeted) ?_ ?_
    · intro s e t hs hok he
      obtain ⟨hb,hp,ht⟩ := hs
      have hstep := TimeThread.step_timed he
      exact ⟨hstep.bedded hb,hstep.paced hp,hstep.targeted ht hb hp hok⟩
    · exact ⟨TimeThread.start_bedded precision precise now,
        TimeThread.start_paced precise hprecision hnow,
        TimeThread.start_targeted precision precise now⟩
  exact hinv.2.2.inTurn hinv.2.1

def sleepsTwo : List TimeEvent :=
  [.enter 1 (2 * millisecond),.lock 1,.loop,.loop,.loop,.loop,.tick (2 * millisecond),.loop,.loop,
    .loop,.loop]

theorem sleepsTwo_inTurn : ∃ s : ListThread, s.scans = 2 ∧ s.waiting 2 = [] ∧ s.InTurn := by
  have hrun : (Transition.run TimeThread.step firstInTime (stillThread listQueues)
      sleepsTwo).map (fun s => (s.scans,s.waiting 2)) = some (2,[]) := by rfl
  obtain ⟨s,hs,heq⟩ := Option.map_eq_some_iff.mp hrun
  obtain ⟨hscans,hw⟩ := Prod.mk.inj heq
  exact ⟨s,hscans,hw,inTurn_of_firstInTime millisecond _ 0 (by decide) (by decide) s
    (Transition.reaches_of_run hs)⟩

def sleepsOne : List TimeEvent := [.enter 1 millisecond,.lock 1,.loop,.loop]

/-- The next scan of bucket 1 is scan 4097. -/
theorem sleepsOne_not_inTurn : ∃ s : ListThread,
    Transition.run TimeThread.step (fun _ _ => true) (stillThread listQueues) sleepsOne = some s ∧
      s.scans = 1 ∧ s.target 1 = 1 ∧ s.waiting 1 = [1] ∧ ¬ s.InTurn := by
  have hrun : (Transition.run TimeThread.step (fun _ _ => true) (stillThread listQueues)
      sleepsOne).map (fun s => (s.scans,s.target 1,s.waiting 1)) = some (1,1,[1]) := by rfl
  obtain ⟨s,hs,heq⟩ := Option.map_eq_some_iff.mp hrun
  simp only [Prod.mk.injEq] at heq
  obtain ⟨hscans,htarget,hw⟩ := heq
  refine ⟨s,hs,hscans,htarget,hw,fun hturn => ?_⟩
  have hlt := hturn.served 1 1 (by rw [hw]; exact List.mem_singleton_self 1)
  omega

end NewRpc.Time
