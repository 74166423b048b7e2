import NewRpc.Custody
import NewRpc.TimeThread

/-!
The timer with lists for queues: what its steps come to, and where its frames are.
-/

set_option autoImplicit false

namespace NewRpc.Time

abbrev ListThread := TimeThread listQueues

def TimeThread.waiting (s : ListThread) (idx : Nat) : List Nat := (s.buckets idx).waitingQueue

def Thread.ready : Thread listQueues → List Nat
  | .waking _ readyQueue | .sweeping _ readyQueue => readyQueue
  | _ => []

def TimeThread.past (s : ListThread) (f : Nat) (wakeUpTs : Ts) : ListThread :=
  { s with wakeUpTs := Function.update s.wakeUpTs f wakeUpTs }.setSleep f .missAwaken

def TimeThread.register (s : ListThread) (f : Nat) (wakeUpTs : Ts) : ListThread :=
  let calculatedBucketIdx := s.calculatedBucketIdx wakeUpTs
  { s with
    wakeUpTs := Function.update s.wakeUpTs f wakeUpTs
    target := Function.update s.target f
      (s.revolution * bucketNum + calculatedBucketIdx.toNat) }.setSleep f
    (.entered (calculatedBucketIdx &&& 4095).toNat)

def TimeThread.append (s : ListThread) (f idx : Nat) : ListThread :=
  (s.setBucket idx ⟨(s.buckets idx).scanOverTs,s.waiting idx ++ [f]⟩).setSleep f (.asleep idx)

def TimeThread.due (s : ListThread) (forceAwake : Bool) (f : Nat) : Bool :=
  decide (s.wakeUpTs f ≤ s.clock) || forceAwake

def TimeThread.fetch (s : ListThread) (idx : Nat) (forceAwake : Bool)
    (next : listQueues.Queue → Thread listQueues) : ListThread :=
  (s.setBucket idx ⟨s.clock,(s.waiting idx).filter (fun f => !s.due forceAwake f)⟩).goto
    (next ((s.waiting idx).filter (s.due forceAwake)))

theorem TimeThread.enter_eq (s : ListThread) (f : Nat) (wakeUpTs : Ts) : s.enter f wakeUpTs =
    if s.startBukcetRunTs ≥ wakeUpTs then s.past f wakeUpTs else s.register f wakeUpTs := rfl

theorem TimeThread.lock_eq (s : ListThread) (f idx : Nat) : s.lock f idx =
    some (if (s.buckets idx).scanOverTs ≥ s.wakeUpTs f then s.setSleep f .missAwaken
      else s.append f idx) := by
  by_cases hover : (s.buckets idx).scanOverTs ≥ s.wakeUpTs f
  · simp only [TimeThread.lock,if_pos hover]
  · simp only [TimeThread.lock,if_neg hover]
    rfl

theorem TimeThread.commit_eq (s : ListThread) (f : Nat) : s.commit f = some (s.fire f) := rfl

theorem TimeThread.scan_eq (s : ListThread) (idx : Nat) (forceAwake : Bool)
    (next : listQueues.Queue → Thread listQueues) : s.scan idx forceAwake next =
      some (s.fetch idx forceAwake next) := rfl

inductive Timed (s : ListThread) : TimeEvent → ListThread → Prop
  | tick {now : Ts} (h : s.clock ≤ now) (hnow : now.toNat < 2 ^ 63) :
      Timed s (.tick now) { s with clock := now }
  | stop : Timed s .stop { s with stopFlag := true }
  | past {f : Nat} {wakeUpTs : Ts} (h : s.sleep f = .awake)
      (hpast : wakeUpTs ≤ s.startBukcetRunTs) : Timed s (.enter f wakeUpTs) (s.past f wakeUpTs)
  | register {f : Nat} {wakeUpTs : Ts} (h : s.sleep f = .awake)
      (hlater : s.startBukcetRunTs < wakeUpTs) :
      Timed s (.enter f wakeUpTs) (s.register f wakeUpTs)
  | miss {f idx : Nat} (h : s.sleep f = .entered idx)
      (hover : s.wakeUpTs f ≤ (s.buckets idx).scanOverTs) :
      Timed s (.lock f) (s.setSleep f .missAwaken)
  | append {f idx : Nat} (h : s.sleep f = .entered idx)
      (hover : (s.buckets idx).scanOverTs < s.wakeUpTs f) : Timed s (.lock f) (s.append f idx)
  | commit {f : Nat} (h : s.sleep f = .missAwaken) : Timed s (.commit f) (s.fire f)
  | resume {f : Nat} (h : s.sleep f = .committed) : Timed s (.resume f) (s.setSleep f .awake)
  | schedule {f : Nat} {next : Option Nat} (h : s.sleep f = .committed) :
      Timed s (.schedule f next) s
  | turn {idx : Nat} (h : s.thread = .turn idx) (hnext : (idx + 1) % bucketNum ≠ 0) :
      Timed s .loop (s.goto (.scan ((idx + 1) % bucketNum)))
  | revolve {idx : Nat} (h : s.thread = .turn idx) (hnext : (idx + 1) % bucketNum = 0) :
      Timed s .loop (s.goto (.store s.clock))
  | store {now : Ts} (h : s.thread = .store now) : Timed s .loop
      ({ s with startBukcetRunTs := now, revolution := s.revolution + 1 }.goto (.scan 0))
  | scan {idx : Nat} (h : s.thread = .scan idx) :
      Timed s .loop ({ s with scans := s.scans + 1 }.fetch idx false (.waking idx))
  | wake {idx f : Nat} {q : List Nat} (h : s.thread = .waking idx (f :: q)) :
      Timed s .loop ((s.goto (.waking idx q)).fire f)
  | woken {idx : Nat} (h : s.thread = .waking idx []) : Timed s .loop (s.goto (.pace idx))
  | late {idx : Nat} (h : s.thread = .pace idx) (hlate : s.nextRunTs idx ≤ s.clock) :
      Timed s .loop (s.goto (.test idx))
  | early {idx : Nat} (h : s.thread = .pace idx) :
      Timed s .loop (s.goto (.wait idx (s.nextRunTs idx)))
  | wait {idx : Nat} {nextRunTs : Ts} (h : s.thread = .wait idx nextRunTs)
      (hover : s.stopFlag = true ∨ nextRunTs ≤ s.clock) : Timed s .loop (s.goto (.test idx))
  | again {idx : Nat} (h : s.thread = .test idx) (hrun : s.stopFlag = false) :
      Timed s .loop (s.goto (.turn idx))
  | stopped {idx : Nat} (h : s.thread = .test idx) (hstop : s.stopFlag = true) :
      Timed s .loop (s.goto (.sweep 0))
  | sweep {idx : Nat} (h : s.thread = .sweep idx) :
      Timed s .loop (s.fetch idx true (.sweeping idx))
  | force {idx f : Nat} {q : List Nat} (h : s.thread = .sweeping idx (f :: q)) :
      Timed s .loop ((s.goto (.sweeping idx q)).fire f)
  | swept {idx : Nat} (h : s.thread = .sweeping idx []) (hlt : idx + 1 < bucketNum) :
      Timed s .loop (s.goto (.sweep (idx + 1)))
  | ended {idx : Nat} (h : s.thread = .sweeping idx []) (hlast : bucketNum ≤ idx + 1) :
      Timed s .loop (s.goto .ended)

theorem round_robin (idx : Nat) : (idx + 1) &&& (bucketNum - 1) = (idx + 1) % bucketNum :=
  Nat.and_two_pow_sub_one_eq_mod (idx + 1) 12

theorem TimeThread.loop_timed {s t : ListThread} (h : s.loop = some t) : Timed s .loop t := by
  unfold TimeThread.loop at h
  split at h
  · rename_i idx hth
    rw [round_robin] at h
    by_cases hz : (idx + 1) % bucketNum = 0
    · simp only [hz,if_true,Option.some.injEq] at h
      rw [← h]
      exact .revolve hth hz
    · simp only [hz,if_false,Option.some.injEq] at h
      rw [← h]
      exact .turn hth hz
  · rename_i now hth
    cases h
    exact .store hth
  · rename_i idx hth
    rw [scan_eq] at h
    cases h
    exact .scan hth
  · rename_i idx q hth
    cases q with
    | nil =>
      cases h
      exact .woken hth
    | cons f q =>
      cases h
      exact .wake hth
  · rename_i idx hth
    cases h
    by_cases hlate : s.clock ≥ s.nextRunTs idx
    · rw [if_pos hlate]
      exact .late hth hlate
    · rw [if_neg hlate]
      exact .early hth
  · rename_i idx next hth
    obtain ⟨hover,heq⟩ := Option.ite_none_right_eq_some.mp h
    cases heq
    exact .wait hth hover
  · rename_i idx hth
    cases h
    cases hstop : s.stopFlag with
    | true => exact .stopped hth hstop
    | false => exact .again hth hstop
  · rename_i idx hth
    rw [scan_eq] at h
    cases h
    exact .sweep hth
  · rename_i idx q hth
    cases q with
    | nil =>
      cases h
      by_cases hlt : idx + 1 < bucketNum
      · rw [if_pos hlt]
        exact .swept hth hlt
      · rw [if_neg hlt]
        exact .ended hth (Nat.le_of_not_lt hlt)
    | cons f q =>
      cases h
      exact .force hth
  · cases h

theorem TimeThread.step_timed {s t : ListThread} {e : TimeEvent} (h : s.step e = some t) :
    Timed s e t := by
  cases e with
  | tick now =>
    obtain ⟨⟨hle,hnow⟩,heq⟩ := Option.ite_none_right_eq_some.mp h
    cases heq
    exact .tick hle hnow
  | stop =>
    cases h
    exact .stop
  | enter f wakeUpTs =>
    obtain ⟨hf,heq⟩ := Option.ite_none_right_eq_some.mp h
    rw [enter_eq] at heq
    cases heq
    by_cases hpast : s.startBukcetRunTs ≥ wakeUpTs
    · rw [if_pos hpast]
      exact .past hf hpast
    · rw [if_neg hpast]
      exact .register hf (BitVec.not_le.mp hpast)
  | lock f =>
    simp only [TimeThread.step] at h
    split at h
    · rename_i idx hf
      rw [lock_eq] at h
      cases h
      by_cases hover : (s.buckets idx).scanOverTs ≥ s.wakeUpTs f
      · rw [if_pos hover]
        exact .miss hf hover
      · rw [if_neg hover]
        exact .append hf (BitVec.not_le.mp hover)
    · cases h
  | commit f =>
    obtain ⟨hf,heq⟩ := Option.ite_none_right_eq_some.mp h
    rw [commit_eq] at heq
    cases heq
    exact .commit hf
  | resume f =>
    obtain ⟨hf,heq⟩ := Option.ite_none_right_eq_some.mp h
    cases heq
    exact .resume hf
  | schedule f next =>
    obtain ⟨hf,heq⟩ := Option.ite_none_right_eq_some.mp h
    cases heq
    exact .schedule hf
  | loop => exact loop_timed h

def TimeThread.held (s : ListThread) : Option Nat → List Nat
  | some idx => s.waiting idx
  | none => s.thread.ready

def TimeThread.Asleep (s : ListThread) (f : Nat) : Prop := ∃ idx, s.sleep f = .asleep idx

structure TimeThread.Bedded (s : ListThread) : Prop where
  places : Custody.Exclusive s.held s.Asleep
  home : ∀ idx, ∀ f ∈ s.waiting idx, s.sleep f = .asleep idx

section
variable {s t : ListThread}

theorem TimeThread.held_congr (hb : ∀ idx, t.waiting idx = s.waiting idx)
    (hr : t.thread.ready = s.thread.ready) : t.held = s.held := by
  funext p
  cases p with
  | none => exact hr
  | some idx => exact hb idx

theorem TimeThread.Bedded.congr (h : s.Bedded) (hb : ∀ idx, t.waiting idx = s.waiting idx)
    (hr : t.thread.ready = s.thread.ready) (hs : t.sleep = s.sleep) : t.Bedded := by
  refine ⟨?_,fun idx f hf => ?_⟩
  · rw [held_congr hb hr]
    refine h.places.perm (fun _ => .refl _) (fun f => ?_)
    unfold Asleep
    rw [hs]
  · rw [hb] at hf
    rw [hs]
    exact h.home idx f hf

theorem TimeThread.setSleep_self (s : ListThread) (f : Nat) (σ : Sleep) :
    (s.setSleep f σ).sleep f = σ := Function.update_self ..

theorem TimeThread.setSleep_ne (s : ListThread) {f g : Nat} (σ : Sleep) (h : g ≠ f) :
    (s.setSleep f σ).sleep g = s.sleep g := Function.update_of_ne h _ _

theorem TimeThread.setSleep_asleep (s : ListThread) {f : Nat} {σ : Sleep}
    (hnew : ∀ idx, σ ≠ .asleep idx) (g : Nat) :
    (s.setSleep f σ).Asleep g ↔ s.Asleep g ∧ g ≠ f := by
  by_cases hg : g = f
  · subst hg
    simp [Asleep,setSleep_self,hnew]
  · simp [Asleep,setSleep_ne s σ hg,hg]

theorem TimeThread.Bedded.setSleep (h : s.Bedded) {f : Nat} {σ : Sleep} (hold : ¬ s.Asleep f)
    (hnew : ∀ idx, σ ≠ .asleep idx) : (s.setSleep f σ).Bedded := by
  refine ⟨h.places.perm (fun _ => .refl _) (fun g => ?_),fun idx g hg => ?_⟩
  · rw [setSleep_asleep s hnew]
    exact ⟨fun hg => hg.1,fun hg => ⟨hg,fun heq => hold (heq ▸ hg)⟩⟩
  · have hne : g ≠ f := fun heq => hold ⟨idx,heq ▸ h.home idx g hg⟩
    rw [setSleep_ne s σ hne]
    exact h.home idx g hg

theorem TimeThread.append_waiting (s : ListThread) (f idx i : Nat) :
    (s.append f idx).waiting i = if i = idx then s.waiting idx ++ [f] else s.waiting i := by
  by_cases hi : i = idx
  · subst hi
    rw [if_pos rfl]
    simp [waiting,append,TimeThread.setBucket,TimeThread.setSleep]
  · rw [if_neg hi]
    simp [waiting,append,TimeThread.setBucket,TimeThread.setSleep,hi]

theorem TimeThread.append_over (s : ListThread) (f idx i : Nat) :
    ((s.append f idx).buckets i).scanOverTs = (s.buckets i).scanOverTs := by
  by_cases hi : i = idx
  · rw [hi]
    simp [append,TimeThread.setBucket,TimeThread.setSleep]
  · simp [append,TimeThread.setBucket,TimeThread.setSleep,hi]

theorem TimeThread.append_sleep (s : ListThread) (f idx : Nat) :
    (s.append f idx).sleep = Function.update s.sleep f (.asleep idx) := rfl

theorem TimeThread.append_held (s : ListThread) (f idx : Nat) : (s.append f idx).held =
    Function.update s.held (some idx) (s.held (some idx) ++ [f]) := by
  funext p
  cases p with
  | none => rfl
  | some i =>
    show (s.append f idx).waiting i = _
    rw [append_waiting]
    by_cases hi : i = idx
    · subst hi
      rw [if_pos rfl,Function.update_self]
      rfl
    · rw [if_neg hi,Function.update_of_ne (by simp [hi])]
      rfl

theorem TimeThread.Bedded.append (h : s.Bedded) {f idx : Nat} (hf : ¬ s.Asleep f) :
    (s.append f idx).Bedded := by
  refine ⟨h.places.insert (q := some idx) hf (.of_eq ?_) (fun r hr => ?_) (fun g => ?_),?_⟩
  · rw [append_held,Function.update_self]
  · rw [append_held,Function.update_of_ne hr]
  · by_cases hg : g = f
    · simp [Asleep,append_sleep,hg]
    · simp [Asleep,append_sleep,hg]
  · intro i g hg
    rw [append_waiting] at hg
    by_cases hgf : g = f
    · subst hgf
      split at hg
      · rename_i heq
        rw [append_sleep,Function.update_self,heq]
      · exact absurd ⟨i,h.home i g hg⟩ hf
    · rw [append_sleep,Function.update_of_ne hgf]
      split at hg
      · rename_i heq
        rw [heq]
        exact h.home idx g (by simpa [hgf] using hg)
      · exact h.home i g hg

theorem TimeThread.fetch_waiting (s : ListThread) (idx : Nat) (forceAwake : Bool)
    (next : listQueues.Queue → Thread listQueues) (i : Nat) :
    (s.fetch idx forceAwake next).waiting i = if i = idx then
      (s.waiting idx).filter (fun f => !s.due forceAwake f) else s.waiting i := by
  by_cases hi : i = idx
  · subst hi
    rw [if_pos rfl]
    simp [waiting,fetch,TimeThread.setBucket,TimeThread.goto]
  · rw [if_neg hi]
    simp [waiting,fetch,TimeThread.setBucket,TimeThread.goto,hi]

theorem TimeThread.fetch_over (s : ListThread) (idx : Nat) (forceAwake : Bool)
    (next : listQueues.Queue → Thread listQueues) (i : Nat) :
    ((s.fetch idx forceAwake next).buckets i).scanOverTs =
      if i = idx then s.clock else (s.buckets i).scanOverTs := by
  by_cases hi : i = idx
  · rw [if_pos hi,hi]
    simp [fetch,TimeThread.setBucket,TimeThread.goto]
  · rw [if_neg hi]
    simp [fetch,TimeThread.setBucket,TimeThread.goto,hi]

theorem TimeThread.fetch_held (s : ListThread) (idx : Nat) (forceAwake : Bool)
    (next : listQueues.Queue → Thread listQueues) (hnext : ∀ q, (next q).ready = q) :
    (s.fetch idx forceAwake next).held = Function.update (Function.update s.held
      (some idx) ((s.held (some idx)).filter (fun f => !s.due forceAwake f))) none
        ((s.held (some idx)).filter (s.due forceAwake)) := by
  funext p
  cases p with
  | none =>
    rw [Function.update_self]
    exact hnext _
  | some i =>
    show (s.fetch idx forceAwake next).waiting i = _
    rw [fetch_waiting,Function.update_of_ne (by simp)]
    by_cases hi : i = idx
    · subst hi
      rw [if_pos rfl,Function.update_self]
      rfl
    · rw [if_neg hi,Function.update_of_ne (by simp [hi])]
      rfl

theorem TimeThread.fire_held (s : ListThread) {f : Nat} {rest : List Nat}
    {thread : Thread listQueues} (ht : thread.ready = rest) :
    ((s.goto thread).fire f).held = Function.update s.held none rest := by
  funext p
  cases p with
  | none =>
    rw [Function.update_self]
    exact ht
  | some i => rfl

/-- What a step of the loop does to the frames: nothing, or it takes the due ones out of a
bucket, or it awakens the first of those that it has taken. -/
inductive Ticked (s t : ListThread) : Prop
  | idle (hheld : t.held = s.held) (hsleep : t.sleep = s.sleep) (hfired : t.fired = s.fired)
  | scan {idx : Nat} {due : Nat → Bool} (hempty : s.held none = [])
      (hheld : t.held = Function.update (Function.update s.held (some idx)
        ((s.held (some idx)).filter (fun f => !due f))) none ((s.held (some idx)).filter due))
      (hsleep : t.sleep = s.sleep) (hfired : t.fired = s.fired)
  | wake {fired : Fired} {rest : List Nat} (htaken : s.held none = fired.frame :: rest)
      (hheld : t.held = Function.update s.held none rest)
      (hsleep : t.sleep = Function.update s.sleep fired.frame .committed)
      (hfired : t.fired = s.fired ++ [fired])

theorem Timed.ticked (h : Timed s .loop t) : Ticked s t := by
  cases h with
  | scan hth =>
    have hempty : s.held none = [] := by
      show s.thread.ready = []
      rw [hth]
      rfl
    let u : ListThread := { s with scans := s.scans + 1 }
    exact .scan hempty (u.fetch_held _ _ _ (fun _ => rfl)) rfl rfl
  | sweep hth =>
    have hempty : s.held none = [] := by
      show s.thread.ready = []
      rw [hth]
      rfl
    exact .scan hempty (s.fetch_held _ _ _ (fun _ => rfl)) rfl rfl
  | @wake idx f q hth | @force idx f q hth =>
    let fired : Fired := ⟨f,s.wakeUpTs f,s.clock⟩
    have htaken : s.held none = fired.frame :: q := by
      show s.thread.ready = f :: q
      rw [hth]
      rfl
    exact .wake htaken (s.fire_held rfl) rfl rfl
  | turn hth | revolve hth | store hth | woken hth | late hth | early hth | wait hth
  | again hth | stopped hth | swept hth | ended hth =>
    refine .idle (TimeThread.held_congr (fun _ => rfl) ?_) rfl rfl
    rw [hth]
    rfl

theorem Ticked.bedded (h : Ticked s t) (hs : s.Bedded) : t.Bedded := by
  cases h with
  | idle hheld hsleep =>
    exact hs.congr (fun idx => congrFun hheld (some idx)) (congrFun hheld none) hsleep
  | @scan idx due hempty hheld hsleep =>
    have hasleep : ∀ f, t.Asleep f ↔ s.Asleep f := by
      intro f
      unfold TimeThread.Asleep
      rw [hsleep]
    refine ⟨hs.places.part (p := some idx) (q := none) hempty due ?_ ?_ (fun r hr hrn => ?_)
      hasleep,fun i f hf => ?_⟩
    · rw [hheld,Function.update_of_ne (by simp),Function.update_self]
    · rw [hheld,Function.update_self]
    · rw [hheld,Function.update_of_ne hrn,Function.update_of_ne hr]
    · change f ∈ t.held (some i) at hf
      rw [hheld,Function.update_of_ne (by simp)] at hf
      rw [hsleep]
      by_cases hi : i = idx
      · subst hi
        rw [Function.update_self] at hf
        exact hs.home i f (List.mem_filter.mp hf).1
      · rw [Function.update_of_ne (by simp [hi])] at hf
        exact hs.home i f hf
  | @wake fired rest htaken hheld hsleep =>
    have hin : fired.frame ∈ s.held none := by simp [htaken]
    refine ⟨hs.places.remove hin (.of_eq ?_) (fun r hr => ?_) (fun g => ?_),fun i g hg => ?_⟩
    · rw [hheld,Function.update_self,htaken,List.erase_cons_head]
    · rw [hheld,Function.update_of_ne hr]
    · by_cases hg : g = fired.frame
      · simp [TimeThread.Asleep,hsleep,hg]
      · simp [TimeThread.Asleep,hsleep,hg]
    · change g ∈ t.held (some i) at hg
      rw [hheld,Function.update_of_ne (by simp)] at hg
      have hne : g ≠ fired.frame := by
        intro heq
        have hapart := hs.places.apart (some i) none fired.frame (heq ▸ hg) hin
        cases hapart
      rw [hsleep,Function.update_of_ne hne]
      exact hs.home i g hg

theorem TimeThread.not_asleep {f : Nat} {σ : Sleep} (h : s.sleep f = σ)
    (hσ : ∀ idx, σ ≠ .asleep idx) : ¬ s.Asleep f := fun ⟨idx,hf⟩ => hσ idx (h.symm.trans hf)

theorem Timed.bedded {e : TimeEvent} (h : Timed s e t) (hs : s.Bedded) : t.Bedded := by
  cases e with
  | tick | stop | schedule =>
    cases h
    exact hs.congr (fun _ => rfl) rfl rfl
  | enter f wakeUpTs =>
    cases h with
    | past hf | register hf =>
      refine TimeThread.Bedded.setSleep ?_ (TimeThread.not_asleep hf (by simp)) (by simp)
      exact hs.congr (fun _ => rfl) rfl rfl
  | lock f =>
    cases h with
    | miss hf => exact hs.setSleep (TimeThread.not_asleep hf (by simp)) (by simp)
    | append hf => exact hs.append (TimeThread.not_asleep hf (by simp))
  | commit f =>
    cases h with
    | commit hf =>
      refine TimeThread.Bedded.setSleep ?_ (TimeThread.not_asleep hf (by simp)) (by simp)
      exact hs.congr (fun _ => rfl) rfl rfl
  | resume f =>
    cases h with
    | resume hf => exact hs.setSleep (TimeThread.not_asleep hf (by simp)) (by simp)
  | loop => exact h.ticked.bedded hs

theorem TimeThread.start_bedded (precision : Ts) (precise : precision ≠ 0) (now : Ts) :
    (start listQueues precision precise now).Bedded := by
  refine ⟨Custody.exclusive_empty ?_ ?_,?_⟩
  · simp [Asleep,start]
  · intro p
    cases p with
    | none => rfl
    | some idx => rfl
  · simp [waiting,start]

end

end NewRpc.Time
