import NewRpc.Reclamation

/-!
Programs over `CoroTask` variables: what the counter of a coroutine says about them, and
what a variable refers to after an assignment.
-/

set_option autoImplicit false

namespace NewRpc.Task
open Net

inductive Operation (V : Type) where
  | step (e : Event V)
  | copyAssign (t source : Nat)
  | moveAssign (t source : Nat)

def Coroutines.setTask {V : Type} (s : Coroutines V) (t : Nat) (promise : Option Nat) :
    Coroutines V :=
  { s with tasks := s.tasks.set t (.handle promise) }

/-- `CoroTask<Ret> &operator=(const CoroTask<Ret> &rhs)`: an empty `rhs` is a null pointer
that is followed to its counter. -/
def Coroutines.copyAssign {V : Type} (s : Coroutines V) (t source : Nat) :
    Option (Coroutines V) :=
  match s.tasks[t]?, s.tasks[source]? with
  | some (.handle _), some (.handle promise) =>
      if t = source then some s
      else promise.map (fun f => (s.setTask t (some f)).inc f)
  | _, _ => none

def Coroutines.moveAssign {V : Type} (s : Coroutines V) (t source : Nat) :
    Option (Coroutines V) :=
  match s.tasks[t]?, s.tasks[source]? with
  | some (.handle _), some (.handle _) =>
      if t = source then some s else some (s.setTask source none)
  | _, _ => none

def Coroutines.operate {V : Type} (s : Coroutines V) : Operation V → Option (Coroutines V)
  | .step e => s.step e
  | .copyAssign t source => s.copyAssign t source
  | .moveAssign t source => s.moveAssign t source

def Coroutines.refersTo {V : Type} (s : Coroutines V) (t : Nat) : Option (Option Nat) :=
  match s.tasks[t]? with
  | some (.handle promise) => some promise
  | _ => none

/-- The operations of a program: its variables may be empty. `commit` is `for first time
schedule root frame`. -/
def Coroutines.allowed {V : Type} (s : Coroutines V) : Operation V → Bool
  | .step (.copy t) => (s.refersTo t).isSome
  | .step e => (s.step e).isSome
  | .copyAssign t source => (s.refersTo t).isSome && (s.refersTo source).isSome
  | .moveAssign t source => (s.refersTo t).isSome && (s.refersTo source).isSome

def Coroutines.Counted {V : Type} (s : Coroutines V) : Prop :=
  ∀ f < s.count, (s.frames f).refCnt.sharedCnt = s.handles f + s.scheduled f

def Coroutines.Assigned {V : Type} (s t : Coroutines V) : Operation V → Prop
  | .step _ => True
  | .copyAssign target source =>
      t.refersTo target = s.refersTo source ∧ t.refersTo source = s.refersTo source
  | .moveAssign target source => t.refersTo target = s.refersTo source ∧
      (target ≠ source → t.refersTo source = some none)

/-- A copy is made of a variable that is not empty, a copy is assigned to one that is; a
move assignment has nothing to do; a coroutine that ends has been committed. -/
def Coroutines.keepsAccount {V : Type} (s : Coroutines V) : Operation V → Bool
  | .step (.copy t) => s.refersTo t != some none
  | .step (.release f) => (s.frames f).frameRunningCnt
  | .step _ => true
  | .copyAssign t source =>
      t == source || (s.refersTo t == some none && s.refersTo source != some none)
  | .moveAssign t source =>
      t == source || (s.refersTo t == some none && s.refersTo source == some none)

theorem Coroutines.refersTo_some {V : Type} {s : Coroutines V} {t : Nat} {promise : Option Nat} :
    s.refersTo t = some promise ↔ s.tasks[t]? = some (.handle promise) := by
  unfold Coroutines.refersTo
  cases s.tasks[t]? with
  | none => simp
  | some task => cases task <;> simp

theorem Coroutines.Ledger.counted_iff {V : Type} {s : Coroutines V} (h : s.Ledger) :
    s.Counted ↔ ∀ f < s.count, ¬ s.EndedAlone f := by
  refine forall₂_congr (fun f hf => ?_)
  have hr := (h.balanced f hf).refCnt
  have ho : s.owners f = s.handles f + s.scheduled f := rfl
  by_cases hea : s.EndedAlone f
  · rw [if_pos hea] at hr
    refine iff_of_false (fun heq => ?_) (fun hn => hn hea)
    omega
  · rw [if_neg hea] at hr
    refine iff_of_true ?_ hea
    omega

def Coroutines.NoneAlone {V : Type} (s : Coroutines V) : Prop := ∀ f < s.count, ¬ s.EndedAlone f

theorem Coroutines.Same.noneAlone {V : Type} {s t : Coroutines V} (h : s.Same t) :
    t.NoneAlone ↔ s.NoneAlone := by
  unfold NoneAlone
  simp only [h.count,h.endedAlone]

theorem Coroutines.Elsewhere.noneAlone {V : Type} {s t : Coroutines V} {f : Nat}
    (h : s.Elsewhere t f) (hf : f < s.count) (hs : s.NoneAlone) :
    t.NoneAlone ↔ ¬ t.EndedAlone f := by
  refine ⟨fun ht => ht f (h.count ▸ hf),fun ht g hg => ?_⟩
  by_cases hgf : g = f
  · exact hgf ▸ ht
  · rw [h.endedAlone hgf]
    exact hs g (h.count ▸ hg)

theorem Coroutines.keepsAccount_plain {V : Type} (s : Coroutines V) {e : Event V}
    (he : e.plain = true) : s.keepsAccount (.step e) = true := by
  cases e <;> first | rfl | cases he

/-- The only step that drops a reference which nobody has taken is the end of a coroutine
that was not committed. -/
theorem Coroutines.noneAlone_iff {V : Type} {s t : Coroutines V} {e : Event V} (hl : s.Ledger)
    (hs : s.NoneAlone) (h : s.Acts e t) :
    t.NoneAlone ↔ s.keepsAccount (.step e) = true := by
  cases he : e.plain with
  | true => exact iff_of_true ((h.same he).noneAlone.mpr hs) (s.keepsAccount_plain he)
  | false =>
    cases h with
    | create =>
      refine iff_of_true (fun g hg => ?_) rfl
      by_cases hgc : g = s.count
      · rw [hgc]
        simp [EndedAlone,s.create_new.2]
      · rw [s.create_endedAlone hgc]
        have hlt : g < s.count + 1 := hg
        exact hs g (by omega)
    | @copy p f hp =>
      have hf := hl.handled f (Nat.ne_of_gt (handles_pos hp (by simp [CoroTask.pointsTo_handle])))
      have hok : s.keepsAccount (.step (.copy p)) = true := by
        simp [keepsAccount,refersTo,hp]
      refine iff_of_true (((s.copy_elsewhere f).noneAlone hf hs).mpr ?_) hok
      rw [copy_endedAlone]
      exact hs f hf
    | @drop p promise hp =>
      refine iff_of_true ?_ rfl
      cases promise with
      | none => exact (Same.drop hp).noneAlone.mpr hs
      | some f =>
        have hpoints := CoroTask.pointsTo_handle f
        have hf := hl.handled f (Nat.ne_of_gt (handles_pos hp (by simp [hpoints])))
        refine ((drop_elsewhere hp hpoints).noneAlone hf hs).mpr ?_
        rw [drop_endedAlone]
        exact hs f hf
    | refused => exact iff_of_true hs rfl
    | @commit p f hp hf hstop =>
      refine iff_of_true (((commit_elsewhere hstop f).noneAlone (hl.started f (by simp [hf]))
        hs).mpr ?_) rfl
      simp [EndedAlone,commit_stage hstop]
    | @back f p child hf hp =>
      have hpoints : ∀ g, CoroTask.pointsTo g (.middle child) = decide (g = child) :=
        CoroTask.pointsTo_handle child
      have hc := hl.handled child (Nat.ne_of_gt (handles_pos hp (by simp [hpoints])))
      refine iff_of_true ((back_same hf).noneAlone.mpr ?_) rfl
      refine ((drop_elsewhere hp hpoints).noneAlone hc hs).mpr ?_
      rw [drop_endedAlone]
      exact hs child hc
    | @release f hf =>
      rw [(s.end_elsewhere f).noneAlone (hl.started f (by simp [hf])) hs,end_endedAlone]
      simp [keepsAccount]
    | _ => cases he

theorem Coroutines.setTask_handles {V : Type} {s : Coroutines V} {t : Nat}
    {old : Option Nat} (ht : s.tasks[t]? = some (.handle old)) (new : Option Nat) (g : Nat) :
    (s.setTask t new).handles g + (if old = some g then 1 else 0) =
      s.handles g + if new = some g then 1 else 0 := by
  obtain ⟨hlt,hget⟩ := List.getElem?_eq_some_iff.mp ht
  have hle : (if old = some g then 1 else 0) ≤ s.tasks.countP (CoroTask.pointsTo g) := by
    split
    · rename_i hp
      exact List.countP_pos_iff.mpr ⟨.handle old,hget ▸ List.getElem_mem hlt,by
        simp [CoroTask.pointsTo,hp]⟩
    · exact Nat.zero_le _
  simp only [Coroutines.handles,setTask,List.countP_set hlt,hget,CoroTask.pointsTo,beq_iff_eq]
  omega

theorem Coroutines.setTask_refersTo {V : Type} {s : Coroutines V} {t : Nat}
    {old : Option Nat} (ht : s.tasks[t]? = some (.handle old)) (new : Option Nat) (i : Nat) :
    (s.setTask t new).refersTo i = if i = t then some new else s.refersTo i := by
  obtain ⟨hlt,_⟩ := List.getElem?_eq_some_iff.mp ht
  unfold Coroutines.refersTo setTask
  by_cases hi : i = t
  · subst hi
    simp [List.getElem?_set_self hlt]
  · rw [if_neg hi,List.getElem?_set_ne (Ne.symm hi)]

theorem Coroutines.inc_refCnt {V : Type} (s : Coroutines V) (f g : Nat) :
    ((s.inc f).frames g).refCnt.sharedCnt =
      (s.frames g).refCnt.sharedCnt + if g = f then 1 else 0 := by
  by_cases hg : g = f
  · subst hg
    simp [inc,setFrame,RefCount.inc]
  · simp [inc,setFrame,hg]

theorem Coroutines.inc_scheduled {V : Type} (s : Coroutines V) (f g : Nat) :
    (s.inc f).scheduled g = s.scheduled g := by
  unfold scheduled
  by_cases hg : g = f
  · subst hg
    simp [inc,setFrame]
  · simp [inc,setFrame,hg]

/-- After a copy assignment the counter of a coroutine is right if and only if the target
has not referred to it. -/
theorem Coroutines.Counted.copyAssign {V : Type} {s : Coroutines V} (h : s.Counted)
    (hl : s.Ledger) {t f : Nat} {old : Option Nat} (ht : s.tasks[t]? = some (.handle old)) :
    ((s.setTask t (some f)).inc f).Counted ↔ old = none := by
  have hcnt : ∀ g < s.count, ((((s.setTask t (some f)).inc f).frames g).refCnt.sharedCnt =
      ((s.setTask t (some f)).inc f).handles g + ((s.setTask t (some f)).inc f).scheduled g ↔
      old ≠ some g) := by
    intro g hg
    have hg' := h g hg
    have hh := s.setTask_handles ht (some f) g
    have hsame : ((s.setTask t (some f)).inc f).handles g = (s.setTask t (some f)).handles g := rfl
    have hsched : (s.setTask t (some f)).scheduled g = s.scheduled g := rfl
    have hframes : (s.setTask t (some f)).frames g = s.frames g := rfl
    have hnew : (if some f = some g then 1 else 0) = if g = f then 1 else 0 := by
      simp [eq_comm]
    rw [inc_refCnt,inc_scheduled,hsame,hsched,hframes]
    rw [hnew] at hh
    by_cases hgf : g = f
    · rw [if_pos hgf] at hh ⊢
      by_cases ho : old = some g
      · rw [if_pos ho] at hh
        exact iff_of_false (fun heq => by omega) (fun hn => hn ho)
      · rw [if_neg ho] at hh
        exact iff_of_true (by omega) ho
    · rw [if_neg hgf] at hh ⊢
      by_cases ho : old = some g
      · rw [if_pos ho] at hh
        exact iff_of_false (fun heq => by omega) (fun hn => hn ho)
      · rw [if_neg ho] at hh
        exact iff_of_true (by omega) ho
  constructor
  · intro hc
    cases old with
    | none => rfl
    | some g =>
      have hpos := handles_pos ht (CoroTask.pointsTo_handle g g ▸ decide_eq_true rfl)
      have hg := hl.handled g (Nat.ne_of_gt hpos)
      exact absurd rfl ((hcnt g hg).mp (hc g hg))
  · intro hold g hg
    exact (hcnt g hg).mpr (by simp [hold])

/-- After a move assignment it is right if and only if the source was empty. -/
theorem Coroutines.Counted.moveAssign {V : Type} {s : Coroutines V} (h : s.Counted)
    (hl : s.Ledger) {source : Nat} {old : Option Nat}
    (ht : s.tasks[source]? = some (.handle old)) : (s.setTask source none).Counted ↔ old = none := by
  constructor
  · intro hc
    cases old with
    | none => rfl
    | some g =>
      have hpos := handles_pos ht (CoroTask.pointsTo_handle g g ▸ decide_eq_true rfl)
      have hg := hl.handled g (Nat.ne_of_gt hpos)
      have hg' := h g hg
      have hcg : (s.frames g).refCnt.sharedCnt = (s.setTask source none).handles g + s.scheduled g :=
        hc g hg
      have hh := s.setTask_handles ht none g
      simp only [if_true,reduceCtorEq,if_false] at hh
      omega
  · intro hold g hg
    have hh := s.setTask_handles ht none g
    simp only [hold,reduceCtorEq,if_false] at hh
    have hg' := h g hg
    show (s.frames g).refCnt.sharedCnt = (s.setTask source none).handles g + s.scheduled g
    omega

theorem Coroutines.Ledger.assign {V : Type} {s : Coroutines V} (h : s.Ledger) {t f : Nat}
    (ht : s.tasks[t]? = some (.handle none)) (hpos : 0 < s.handles f) :
    ((s.setTask t (some f)).inc f).Ledger := by
  have hf := h.handled f (Nat.ne_of_gt hpos)
  let u := (s.setTask t (some f)).inc f
  have hhandles : ∀ g, u.handles g = s.handles g + if g = f then 1 else 0 := by
    intro g
    have hh := s.setTask_handles ht (some f) g
    have hnone : (if (none : Option Nat) = some g then 1 else 0) = 0 := by simp
    have hnew : (if some f = some g then 1 else 0) = if g = f then 1 else 0 := by simp [eq_comm]
    rw [hnone,hnew,Nat.add_zero] at hh
    exact hh
  have helse : s.Elsewhere u f := by
    refine ⟨rfl,fun g hg => ?_,fun g hg => ?_,fun _ _ => rfl,fun _ _ => rfl⟩
    · rw [hhandles,if_neg hg,Nat.add_zero]
    · exact Function.update_of_ne hg _ _
  have hframe : u.frames f = { s.frames f with refCnt := (s.frames f).refCnt.inc } :=
    Function.update_self ..
  have howners : u.owners f = s.owners f + 1 := by
    have hs : u.scheduled f = s.scheduled f := inc_scheduled _ f f
    simp only [Coroutines.owners,hhandles,hs,if_pos]
    omega
  have halone : u.EndedAlone f ↔ s.EndedAlone f := by
    unfold EndedAlone
    rw [hframe]
    rfl
  have hb := h.balanced f hf
  refine h.of_elsewhere helse hf ⟨?_,?_⟩ ?_
  · have hr := hb.refCnt
    show (u.frames f).refCnt.sharedCnt = u.owners f - (if u.EndedAlone f then 1 else 0)
    rw [hframe,howners]
    simp only [halone,RefCount.inc]
    omega
  · have hd := hb.destroyed
    have hne : s.owners f ≠ 0 := Nat.ne_of_gt (Nat.add_pos_left hpos _)
    rw [if_neg (fun hz => hne hz.1)] at hd
    rw [howners,if_neg (fun hz => by omega)]
    exact hd
  · rw [hframe]
    exact h.fresh f

theorem Coroutines.refersTo_isSome {V : Type} {s : Coroutines V} {t : Nat}
    (h : (s.refersTo t).isSome = true) : ∃ promise, s.refersTo t = some promise ∧
      s.tasks[t]? = some (.handle promise) := by
  obtain ⟨promise,hp⟩ := Option.isSome_iff_exists.mp h
  exact ⟨promise,hp,refersTo_some.mp hp⟩

def Coroutines.Meets {V : Type} (s : Coroutines V) (op : Operation V) : Prop :=
  ∃ t, s.operate op = some t ∧ t.Counted ∧ s.Assigned t op

theorem Coroutines.meets_copyAssign {V : Type} {s : Coroutines V} (h : s.Counted) (hl : s.Ledger)
    {t source : Nat} (hok : s.allowed (.copyAssign t source) = true) :
    s.Meets (.copyAssign t source) ↔ s.keepsAccount (.copyAssign t source) = true := by
  obtain ⟨h1,h2⟩ := Bool.and_eq_true_iff.mp hok
  obtain ⟨old,hold,ht⟩ := refersTo_isSome h1
  obtain ⟨new,hnew,hsource⟩ := refersTo_isSome h2
  by_cases hself : t = source
  · subst hself
    have hop : s.operate (.copyAssign t t) = some s := by
      simp [Coroutines.operate,Coroutines.copyAssign,ht]
    exact iff_of_true ⟨s,hop,h,rfl,rfl⟩ (by simp [keepsAccount])
  · have hop : s.operate (.copyAssign t source) = new.map (fun f => (s.setTask t (some f)).inc f) := by
      simp [Coroutines.operate,Coroutines.copyAssign,ht,hsource,hself]
    have hkeeps : s.keepsAccount (.copyAssign t source) = true ↔ old = none ∧ new ≠ none := by
      simp [keepsAccount,hself,hold,hnew]
    rw [hkeeps]
    cases new with
    | none =>
      refine iff_of_false (fun hm => ?_) (fun hn => hn.2 rfl)
      obtain ⟨u,hu,_⟩ := hm
      rw [hop] at hu
      cases hu
    | some f =>
      constructor
      · intro hm
        obtain ⟨u,hu,hcounted,_⟩ := hm
        rw [hop] at hu
        cases hu
        exact ⟨(h.copyAssign hl ht).mp hcounted,by simp⟩
      · intro hk
        have hrefers := fun i => s.setTask_refersTo ht (some f) i
        refine ⟨_,hop,(h.copyAssign hl ht).mpr hk.1,?_,?_⟩
        · show (s.setTask t (some f)).refersTo t = s.refersTo source
          rw [hrefers,if_pos rfl,hnew]
        · show (s.setTask t (some f)).refersTo source = s.refersTo source
          rw [hrefers,if_neg (Ne.symm hself)]

theorem Coroutines.meets_moveAssign {V : Type} {s : Coroutines V} (h : s.Counted) (hl : s.Ledger)
    {t source : Nat} (hok : s.allowed (.moveAssign t source) = true) :
    s.Meets (.moveAssign t source) ↔ s.keepsAccount (.moveAssign t source) = true := by
  obtain ⟨h1,h2⟩ := Bool.and_eq_true_iff.mp hok
  obtain ⟨old,hold,ht⟩ := refersTo_isSome h1
  obtain ⟨new,hnew,hsource⟩ := refersTo_isSome h2
  by_cases hself : t = source
  · subst hself
    have hop : s.operate (.moveAssign t t) = some s := by
      simp [Coroutines.operate,Coroutines.moveAssign,ht]
    exact iff_of_true ⟨s,hop,h,rfl,fun hne => absurd rfl hne⟩ (by simp [keepsAccount])
  · have hop : s.operate (.moveAssign t source) = some (s.setTask source none) := by
      simp [Coroutines.operate,Coroutines.moveAssign,ht,hsource,hself]
    have hkeeps : s.keepsAccount (.moveAssign t source) = true ↔ old = none ∧ new = none := by
      simp [keepsAccount,hself,hold,hnew]
    have hrefers := fun i => s.setTask_refersTo hsource none i
    rw [hkeeps]
    constructor
    · intro hm
      obtain ⟨u,hu,hcounted,hassigned,_⟩ := hm
      rw [hop] at hu
      cases hu
      have hnone := (h.moveAssign hl hsource).mp hcounted
      rw [hrefers,if_neg hself,hold,hnew,hnone] at hassigned
      exact ⟨Option.some.inj hassigned,hnone⟩
    · intro hk
      refine ⟨_,hop,(h.moveAssign hl hsource).mpr hk.2,?_,fun _ => ?_⟩
      · rw [hrefers,if_neg hself,hold,hnew,hk.1,hk.2]
      · rw [hrefers,if_pos rfl]

theorem Coroutines.meets_step {V : Type} {s : Coroutines V} (hs : s.Counted) (hl : s.Ledger)
    {e : Event V} (hok : s.allowed (.step e) = true) :
    s.Meets (.step e) ↔ s.keepsAccount (.step e) = true := by
  have hnone : s.NoneAlone := hl.counted_iff.mp hs
  cases hstep : s.step e with
  | some t =>
    have hacts := step_acts hstep
    have hledger := (step_took hstep).ledger hl
    rw [← noneAlone_iff hl hnone hacts]
    constructor
    · intro hm
      obtain ⟨u,hu,hcounted,_⟩ := hm
      have heq : s.step e = some u := hu
      rw [hstep] at heq
      cases heq
      exact hledger.counted_iff.mp hcounted
    · intro ht
      exact ⟨t,hstep,hledger.counted_iff.mpr ht,trivial⟩
  | none =>
    -- only the copy of an empty variable is asked for and cannot be made
    have hnot : ¬ s.Meets (.step e) := by
      intro hm
      obtain ⟨u,hu,_⟩ := hm
      have heq : s.step e = some u := hu
      rw [hstep] at heq
      cases heq
    refine iff_of_false hnot (fun hk => ?_)
    cases e with
    | copy t =>
      obtain ⟨promise,hp,ht⟩ := refersTo_isSome hok
      cases promise with
      | none => simp [keepsAccount,hp] at hk
      | some f => simp [Coroutines.step,ht] at hstep
    | _ => simp [allowed,hstep] at hok

theorem Coroutines.meets_iff {V : Type} {s : Coroutines V} (h : s.Counted) (hl : s.Ledger)
    {op : Operation V} (hok : s.allowed op = true) :
    s.Meets op ↔ s.keepsAccount op = true := by
  cases op with
  | step e => exact meets_step h hl hok
  | copyAssign t source => exact meets_copyAssign h hl hok
  | moveAssign t source => exact meets_moveAssign h hl hok

theorem Coroutines.Ledger.operate {V : Type} {s t : Coroutines V} (h : s.Ledger)
    {op : Operation V} (hok : s.keepsAccount op = true) (hop : s.operate op = some t) :
    t.Ledger := by
  cases op with
  | step e => exact (step_took hop).ledger h
  | copyAssign i source =>
    simp only [Coroutines.operate,Coroutines.copyAssign] at hop
    split at hop
    · rename_i old promise ht hsource
      split at hop
      · cases hop
        exact h
      · rename_i hself
        obtain ⟨f,hf,heq⟩ := Option.map_eq_some_iff.mp hop
        subst hf
        have hold : old = none := by
          have hrefers : s.refersTo i = some old := refersTo_some.mpr ht
          simp only [keepsAccount,hself,hrefers,beq_iff_eq,Bool.or_eq_true,Bool.and_eq_true,
            Option.some.injEq,false_or] at hok
          exact hok.1
        rw [← heq]
        exact h.assign (hold ▸ ht) (handles_pos hsource (CoroTask.pointsTo_handle f f ▸
          decide_eq_true rfl))
    · cases hop
  | moveAssign i source =>
    simp only [Coroutines.operate,Coroutines.moveAssign] at hop
    split at hop
    · rename_i old promise ht hsource
      split at hop
      · cases hop
        exact h
      · rename_i hself
        have hnone : promise = none := by
          have hrefers : s.refersTo source = some promise := refersTo_some.mpr hsource
          simp only [keepsAccount,hself,hrefers,beq_iff_eq,Bool.or_eq_true,Bool.and_eq_true,
            Option.some.injEq,false_or] at hok
          exact hok.2
        have hsame : s.setTask source none = s := by
          obtain ⟨hlt,hget⟩ := List.getElem?_eq_some_iff.mp hsource
          unfold setTask
          rw [← hnone,← hget,List.set_getElem_self]
        cases hop
        rw [hsame]
        exact h
    · cases hop

theorem Coroutines.allowed_of_operate {V : Type} {s t : Coroutines V} {op : Operation V}
    (hop : s.operate op = some t) : s.allowed op = true := by
  cases op with
  | step e =>
    have hstep : s.step e = some t := hop
    cases e with
    | copy i =>
      cases step_acts hstep with
      | copy ht => simp [Coroutines.allowed,Coroutines.refersTo,ht]
    | _ => simp [Coroutines.allowed,hstep]
  | copyAssign i source =>
    simp only [Coroutines.operate,Coroutines.copyAssign] at hop
    split at hop
    · rename_i ht hsource
      simp [Coroutines.allowed,Coroutines.refersTo,ht,hsource]
    · cases hop
  | moveAssign i source =>
    simp only [Coroutines.operate,Coroutines.moveAssign] at hop
    split at hop
    · rename_i ht hsource
      simp [Coroutines.allowed,Coroutines.refersTo,ht,hsource]
    · cases hop

/-- The counters are right as long as every operation meets the condition, and the first
that does not breaks the law: it leaves a wrong counter, a target that refers to something
else, or does not come to an end. -/
theorem handles_counted_iff {V : Type} (s : Coroutines V)
    (h : Transition.Reaches Coroutines.operate Coroutines.keepsAccount Coroutines.start s) :
    s.Counted ∧ ∀ op, s.allowed op = true → (s.Meets op ↔ s.keepsAccount op = true) := by
  have hinv : s.Ledger ∧ s.Counted := by
    refine h.invariant (I := fun s => s.Ledger ∧ s.Counted) ?_ ?_
    · intro s op t hi hok hop
      have hallowed := Coroutines.allowed_of_operate hop
      obtain ⟨u,hu,hcounted,_⟩ := (Coroutines.meets_iff hi.2 hi.1 hallowed).mpr hok
      rw [hop] at hu
      cases hu
      exact ⟨hi.1.operate hok hop,hcounted⟩
    · exact ⟨Coroutines.start_ledger,fun f hf => absurd hf (Nat.not_lt_zero _)⟩
  exact ⟨hinv.2,fun op hok => Coroutines.meets_iff hinv.2 hinv.1 hok⟩

def assignedBack : List (Operation Int) :=
  [.step .create,.step (.move 0),.copyAssign 0 1,.moveAssign 0 0,.step (.commit 0),.step (.drop 1)]

theorem assignedBack_counted : ∃ s : Coroutines Int,
    (s.frames 0).refCnt.sharedCnt = 2 ∧ s.handles 0 = 1 ∧ s.Counted := by
  have hrun : (Transition.run Coroutines.operate Coroutines.keepsAccount .start assignedBack).map
      (fun s => ((s.frames 0).refCnt.sharedCnt,s.handles 0)) = some (2,1) := by decide
  obtain ⟨s,hs,heq⟩ := Option.map_eq_some_iff.mp hrun
  simp only [Prod.mk.injEq] at heq
  exact ⟨s,heq.1,heq.2,(handles_counted_iff s (Transition.reaches_of_run hs)).1⟩

/-- A variable that refers to a coroutine is assigned: by copy, it keeps a reference that
nobody holds; by move, it keeps its coroutine, and that of the source is lost. -/
theorem assignedOnto_not_counted : ∃ s t u : Coroutines Int,
    Transition.run Coroutines.operate (fun _ _ => true) .start
      [.step .create,.step .create] = some s ∧
      (s.operate (.copyAssign 0 1) = some t ∧ (t.frames 0).refCnt.sharedCnt = 1 ∧
        t.handles 0 = 0 ∧ ¬ t.Counted) ∧
      s.operate (.moveAssign 0 1) = some u ∧ ¬ s.Assigned u (.moveAssign 0 1) := by
  let s : Coroutines Int := Coroutines.start.create.create
  refine ⟨s,(s.setTask 0 (some 1)).inc 1,s.setTask 1 none,rfl,⟨rfl,rfl,rfl,fun hc => ?_⟩,rfl,
    fun ha => ?_⟩
  · have h0 := hc 0 (by decide)
    exact absurd h0 (by decide)
  · exact absurd ha.1 (by decide)

end NewRpc.Task
