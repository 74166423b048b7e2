import NewRpc.DoneFlag
import NewRpc.Latch
import NewRpc.Termination

/-!
`CoroTask::wait`: threads outside the scheduler that wait for the end of a coroutine.
-/

set_option autoImplicit false

namespace NewRpc.Task
open Resumable Transition

structure Waits (L V A : Type) where
  programs : Programs L V A
  waiters : List (Latch.Waiter (Nat × Nat))

/-- `look` evaluates the predicate once, under `lock_`; `wake` is a wake-up without a cause. -/
inductive WaitEvent (L V A : Type) where
  | code (a : Action L V A)
  | wait (t : Nat)
  | look (i : Nat)
  | wake (i : Nat)

section
variable {L V A : Type}

def Event.takes : Event V → Option Nat
  | .await _ t | .drop t | .move t => some t
  | _ => none

def Action.takes : Action L V A → Option Nat
  | .await _ t => some t
  | .other e => e.takes
  | _ => none

def Programs.notifies (s t : Programs L V A) (k : Nat × Nat) : Bool :=
  (t.coro.frames k.2).doneFlag && !(s.coro.frames k.2).doneFlag

def Waits.latch (w : Waits L V A) : Latch.State (Nat × Nat) :=
  ⟨fun k => (w.programs.coro.frames k.2).doneFlag,w.waiters⟩

variable [DecidableEq L] (P : Program L (Option V) A)

def Waits.step (w : Waits L V A) : WaitEvent L V A → Option (Waits L V A)
  | .code a => (w.programs.step P a).map (fun programs =>
      ⟨programs,w.waiters.map (Latch.Waiter.notified (w.programs.notifies programs))⟩)
  | .wait t => match w.programs.coro.tasks[t]? with
      | some (.handle (some coro)) =>
          some { w with waiters := w.waiters ++ [⟨(t,coro),.entering⟩] }
      | _ => none
  | .look i => (w.latch.step (.look i)).map (fun l => { w with waiters := l.waiters })
  | .wake i => (w.latch.step (.wake i)).map (fun l => { w with waiters := l.waiters })

omit [DecidableEq L] in
/-- A task is neither moved away nor destroyed while a thread is in its `wait`. -/
def Waits.keepsTasks (w : Waits L V A) : WaitEvent L V A → Bool
  | .code a => a.takes.all (fun t => w.waiters.all (fun x => x.key.1 != t || x.phase == .through))
  | _ => true

omit [DecidableEq L] in
def Waits.start : Waits L V A := ⟨.start,[]⟩

def Waits.shown (w : Waits L V A) : WaitEvent L V A → Option (Latch.Event (Nat × Nat))
  | .code a => (w.programs.step P a).map (fun programs => .raise (w.programs.notifies programs))
  | .wait t => match w.programs.coro.tasks[t]? with
      | some (.handle (some coro)) => some (.call (t,coro))
      | _ => none
  | .look i => some (.look i)
  | .wake i => some (.wake i)

variable {P} {s t : Programs L V A}

theorem append_kept {α : Type} {l l' : List α} {i : Nat} {x : α} (hi : l[i]? = some x) :
    (l ++ l')[i]? = some x := by
  rw [List.getElem?_append_left (List.getElem?_eq_some_iff.mp hi).1]
  exact hi

omit [DecidableEq L] in
theorem Coroutines.Acts.handle {s t : Coroutines V} {e : Event V} (h : s.Acts e t) {i f : Nat}
    (hi : s.tasks[i]? = some (.handle (some f))) (he : e.takes ≠ some i) :
    t.tasks[i]? = some (.handle (some f)) := by
  have hset : ∀ {j : Nat} {new : CoroTask}, j ≠ i →
      (s.tasks.set j new)[i]? = some (.handle (some f)) :=
    fun hj => (List.getElem?_set_ne hj).trans hi
  have htake : ∀ {j : Nat}, some j ≠ some i → j ≠ i := fun hne heq => hne (congrArg some heq)
  cases h with
  | create | copy => exact append_kept hi
  | move => exact append_kept (hset (htake he))
  | drop =>
    rw [s.drop_tasks]
    exact hset (htake he)
  | request | refused | stop | suspend | wake | run | giveBack | release => exact hi
  | commit =>
    rw [s.commit_tasks]
    exact hi
  | resume | start =>
    rw [begin_tasks]
    exact hi
  | await =>
    rw [begin_tasks]
    exact append_kept (hset (htake he))
  | @back _ j _ _ ht =>
    -- the task of a `co_await` is no variable
    refine hset (fun heq => ?_)
    rw [heq,hi] at ht
    cases ht
  | complete =>
    rw [complete_tasks]
    exact hi

theorem Programs.step_handle {a : Action L V A} (h : s.step P a = some t) {i f : Nat}
    (hi : s.coro.tasks[i]? = some (.handle (some f))) (ha : a.takes ≠ some i) :
    t.coro.tasks[i]? = some (.handle (some f)) := by
  have hperforms : ∀ {s t : Programs L V A} {a : Action L V A}, s.Performs P a t →
      s.coro.tasks[i]? = some (.handle (some f)) → a.takes ≠ some i →
        t.coro.tasks[i]? = some (.handle (some f)) := by
    intro s t a hp hi ha
    cases hp with
    | create hs => exact (Coroutines.step_acts (Audit.step_coro hs)).handle hi nofun
    | await _ _ _ hs => exact (Coroutines.step_acts (Audit.step_coro hs)).handle hi ha
    | back _ _ hs => exact (Coroutines.step_acts (Audit.step_coro hs)).handle hi nofun
    | suspend _ hs => exact (Coroutines.step_acts (Audit.step_coro hs)).handle hi nofun
    | run _ hs => exact (Coroutines.step_acts (Audit.step_coro hs)).handle hi nofun
    | finish _ hs => exact (Coroutines.step_acts (Audit.step_coro hs)).handle hi nofun
    | other _ hs => exact (Coroutines.step_acts (Audit.step_coro hs)).handle hi ha
  rcases step_performs h with hp | ⟨g,callee,u,rfl,hcreate,hawait⟩
  · exact hperforms hp hi ha
  · refine hperforms hawait (hperforms hcreate hi nofun) (fun heq => ?_)
    have hlt := (List.getElem?_eq_some_iff.mp hi).1
    have hlen : s.coro.tasks.length = i := Option.some.inj heq
    omega

theorem Programs.Sound.completed (h : s.Sound P) {a : Action L V A} (he : s.step P a = some t)
    {f : Nat} (hf : s.coro.completed f) : t.coro.completed f := by
  obtain ⟨hlt,hstage⟩ := hf
  have hfresh : s.coro.stage f ≠ .fresh := by
    rcases hstage with hs | hs <;> simp [hs]
  have hcalled : f < t.coro.count := by
    rcases step_performs he with hp | ⟨g,callee,u,_,hcreate,hawait⟩
    · exact Nat.lt_of_lt_of_le hlt hp.lasts.count
    · exact Nat.lt_of_lt_of_le hlt (Nat.le_trans hcreate.lasts.count hawait.lasts.count)
  refine ⟨hcalled,?_⟩
  have hgoes := h.goes he hlt hfresh
  generalize a.agent = agent at hgoes
  cases hgoes with
  | stays _ hs =>
    rw [hs]
    exact hstage
  | release _ hnext => exact .inr hnext
  | onward hs => rcases hs with hs | ⟨_,hs⟩ <;> simp [hs] at hstage
  | given hs | start hs | suspend hs | wake hs | call hs | finish hs => simp [hs] at hstage

theorem Programs.step_request {a : Action L V A} (he : s.step P a = some t) {f : Nat}
    (hlt : f < s.coro.count) (hf : s.coro.stage f ≠ .fresh) :
    t.audit.requested f = s.audit.requested f := by
  rcases step_performs he with hp | ⟨g,callee,u,_,hcreate,hawait⟩
  · obtain ⟨e,ha⟩ := hp.event
    exact Audit.step_requested ha hf
  · obtain ⟨e,ha⟩ := hcreate.event
    obtain ⟨e',ha'⟩ := hawait.event
    have hstage := (create_stays hcreate hlt).1
    exact (Audit.step_requested ha' (hstage ▸ hf)).trans (Audit.step_requested ha hf)

/-- A flag that is set stays so. -/
theorem Programs.Sound.done (h : s.Sound P) (hv : s.audit.Valued) {a : Action L V A}
    (he : s.step P a = some t) {f : Nat} (hf : (s.coro.frames f).doneFlag = true) :
    (t.coro.frames f).doneFlag = true := by
  obtain ⟨hover,hrequest⟩ := (hv.done_iff f).mp hf
  refine ((step_valued h hv he).done_iff f).mpr ⟨h.completed he hover,?_⟩
  have hfresh : s.coro.stage f ≠ .fresh := by
    rcases hover.2 with hs | hs <;> simp [hs]
  exact (step_request he hover.1 hfresh).trans hrequest

structure Waits.Sound (P : Program L (Option V) A) (w : Waits L V A) : Prop where
  programs : w.programs.Sound P
  valued : w.programs.audit.Valued
  latch : w.latch.Sound
  held : ∀ x ∈ w.waiters, x.phase ≠ .through →
    w.programs.coro.tasks[x.key.1]? = some (.handle (some x.key.2))

theorem Waits.Sound.shown {w u : Waits L V A} (h : w.Sound P) {e : WaitEvent L V A}
    (he : w.step P e = some u) : ∃ d, w.shown P e = some d ∧ w.latch.step d = some u.latch := by
  cases e with
  | code a =>
    obtain ⟨programs,hp,rfl⟩ := Option.map_eq_some_iff.mp he
    refine ⟨.raise (w.programs.notifies programs),by simp only [Waits.shown,hp,Option.map_some],?_⟩
    have hraised : (fun k => w.latch.raised k || w.programs.notifies programs k) =
        fun k : Nat × Nat => (programs.coro.frames k.2).doneFlag := by
      funext k
      show ((w.programs.coro.frames k.2).doneFlag || _) = _
      cases hk : (w.programs.coro.frames k.2).doneFlag with
      | true => rw [Bool.true_or,h.programs.done h.valued hp hk]
      | false => simp [Programs.notifies,hk]
    simp only [Latch.State.step,hraised]
    rfl
  | wait t =>
    simp only [step] at he
    split at he
    · rename_i coro ht
      cases he
      exact ⟨.call (t,coro),by simp only [Waits.shown,ht],rfl⟩
    · cases he
  | look i | wake i =>
    obtain ⟨l,hl,rfl⟩ := Option.map_eq_some_iff.mp he
    refine ⟨_,rfl,hl.trans ?_⟩
    simp only [Latch.State.step] at hl
    split at hl
    · cases hl
    · obtain ⟨_,hl⟩ := Option.ite_none_right_eq_some.mp hl
      cases hl
      rfl

theorem Waits.Sound.step {w u : Waits L V A} {e : WaitEvent L V A} (h : w.Sound P)
    (hok : w.keepsTasks e = true) (he : w.step P e = some u) : u.Sound P := by
  obtain ⟨d,_,hlatch⟩ := h.shown he
  have hsound := h.latch.step hlatch
  -- a thread that was there before is not further in its `wait` than it is now
  have hold : ∀ {x : Latch.Waiter (Nat × Nat)} {i : Nat}, u.waiters[i]? = some x →
      x.phase ≠ .through → (∃ v ∈ w.waiters, v.phase ≠ .through ∧ v.key = x.key) ∨
        w.waiters[i]? = none := by
    intro x i hi hx
    cases hv : w.waiters[i]? with
    | none => exact .inr rfl
    | some v =>
      obtain ⟨x',hx',hgoes⟩ := Latch.State.step_goes hlatch hv
      cases hi.symm.trans hx'
      refine .inl ⟨v,List.mem_of_getElem? hv,fun hthrough => ?_,hgoes.key.symm⟩
      cases hgoes with
      | stays => exact hx hthrough
      | looked hlooks =>
        rw [hthrough] at hlooks
        cases hlooks
      | woken hblocked => cases hblocked.symm.trans hthrough
  have hsame : u.waiters.length = w.waiters.length →
      (∀ v ∈ w.waiters, v.phase ≠ .through →
        u.programs.coro.tasks[v.key.1]? = some (.handle (some v.key.2))) →
      ∀ x ∈ u.waiters, x.phase ≠ .through →
        u.programs.coro.tasks[x.key.1]? = some (.handle (some x.key.2)) := by
    intro hlen hkept x hin hx
    obtain ⟨i,hi⟩ := List.mem_iff_getElem?.mp hin
    rcases hold hi hx with ⟨v,hv,hphase,hkey⟩ | hnone
    · rw [← hkey]
      exact hkept v hv hphase
    · have hlt := (List.getElem?_eq_some_iff.mp hi).1
      rw [List.getElem?_eq_none_iff,← hlen] at hnone
      omega
  cases e with
  | code a =>
    obtain ⟨programs,hp,rfl⟩ := Option.map_eq_some_iff.mp he
    refine ⟨Programs.step_sound h.programs hp,Programs.step_valued h.programs h.valued hp,hsound,
      hsame (List.length_map _) (fun v hv hphase => ?_)⟩
    refine Programs.step_handle hp (h.held v hv hphase) (fun htakes => ?_)
    simp only [keepsTasks,htakes,Option.all_some,List.all_eq_true,Bool.or_eq_true,
      beq_iff_eq] at hok
    exact hphase ((hok v hv).resolve_left (by simp))
  | wait t =>
    simp only [Waits.step] at he
    split at he
    · rename_i coro ht
      cases he
      refine ⟨h.programs,h.valued,hsound,fun x hin hx => ?_⟩
      rcases List.mem_append.mp hin with hin | hin
      · exact h.held x hin hx
      · rw [List.mem_singleton.mp hin]
        exact ht
    · cases he
  | look i | wake i =>
    obtain ⟨l,hl,rfl⟩ := Option.map_eq_some_iff.mp he
    refine ⟨h.programs,h.valued,hsound,hsame ?_ h.held⟩
    simp only [Latch.State.step] at hl
    split at hl
    · cases hl
    · obtain ⟨_,hl⟩ := Option.ite_none_right_eq_some.mp hl
      cases hl
      exact List.length_set

omit [DecidableEq L] in
theorem Waits.start_sound : (start : Waits L V A).Sound P :=
  ⟨Programs.start_sound,Audit.start_valued,⟨fun _ h => absurd h List.not_mem_nil,
    fun _ h => absurd h List.not_mem_nil⟩,fun _ h => absurd h List.not_mem_nil⟩

theorem Waits.reaches_sound {w : Waits L V A}
    (h : Transition.Reaches (Waits.step P) Waits.keepsTasks .start w) : w.Sound P :=
  h.invariant (I := Waits.Sound P) (fun _ _ _ hi hok he => hi.step hok he) start_sound

omit [DecidableEq L] in
theorem Coroutines.Ledger.alive {s : Coroutines V} (h : s.Ledger) {i f : Nat}
    (hi : s.tasks[i]? = some (.handle (some f))) : f ∉ s.destroyed := by
  have hpos : 0 < s.handles f := Coroutines.handles_pos hi (by simp [CoroTask.pointsTo])
  have hcount := (h.balanced f (h.handled f (by omega))).destroyed
  rw [if_neg (fun hand => by unfold Coroutines.owners at hand; omega)] at hcount
  exact List.count_eq_zero.mp hcount

def addWaited : List (WaitEvent ExampleFrame ExampleValue Unit) :=
  [.code (.create (.add 1 2)),.code (.other (.commit 0)),.wait 0,.look 0,
    .code (.other (.start 0)),.code (.suspend 0),.wake 0,.look 0,.code (.other (.wake 0)),
    .code (.run 0 ()),.code (.finish 0),.look 0,.code (.other (.release 0))]

/-- A thread in `wait` uses a frame that is alive, and blocks only as long as its coroutine has
not ended; `wait` returns for a coroutine that nothing has called and no request was made for,
and that has ended with what its body computes. -/
theorem waits_for_results (P : Program L (Option V) A) (w : Waits L V A)
    (h : Transition.Reaches (Waits.step P) Waits.keepsTasks .start w) :
    ∀ x ∈ w.waiters,
      (x.phase ≠ .through → w.programs.coro.tasks[x.key.1]? = some (.handle (some x.key.2)) ∧
        x.key.2 ∉ w.programs.coro.destroyed) ∧
      (x.phase = .blocked → w.programs.audit.requested x.key.2 = none →
        ¬ w.programs.coro.completed x.key.2) ∧
      (x.phase = .through → w.programs.coro.completed x.key.2 ∧
        w.programs.audit.requested x.key.2 = none ∧
          ∃ l, w.programs.entry x.key.2 = some l ∧
            Computes P l (w.programs.answers x.key.2) (w.programs.coro.result x.key.2)) := by
  have hs := Waits.reaches_sound h
  intro x hx
  refine ⟨fun hphase => ?_,fun hphase hrequest hover => ?_,fun hphase => ?_⟩
  · have hheld := hs.held x hx hphase
    exact ⟨hheld,hs.programs.ledger.alive hheld⟩
  · have hdown : (w.programs.coro.frames x.key.2).doneFlag = false :=
      hs.latch.blocked x hx hphase
    have hset := (hs.valued.done_iff x.key.2).mpr ⟨hover,hrequest⟩
    cases hdown.symm.trans hset
  · have hset : (w.programs.coro.frames x.key.2).doneFlag = true :=
      hs.latch.through x hx hphase
    obtain ⟨hover,hrequest⟩ := (hs.valued.done_iff x.key.2).mp hset
    refine ⟨hover,hrequest,hs.programs.faithful.computes hover.1 ?_⟩
    rcases hover.2 with hst | hst <;> rw [hst] <;> rfl

theorem addWaited_results : ∃ w : Waits ExampleFrame ExampleValue Unit,
    w.waiters = [⟨(0,0),.through⟩] ∧ w.programs.coro.result 0 = some (.int64 3) ∧
      ∃ l, w.programs.entry 0 = some l ∧
        Computes exampleRpc l (w.programs.answers 0) (w.programs.coro.result 0) := by
  have hrun : (Transition.run (Waits.step exampleRpc) Waits.keepsTasks .start addWaited).map
      (fun w => (w.waiters,w.programs.coro.result 0)) =
        some ([⟨(0,0),.through⟩],some (.int64 3)) := by decide
  obtain ⟨w,hw,heq⟩ := Option.map_eq_some_iff.mp hrun
  simp only [Prod.mk.injEq] at heq
  obtain ⟨hwaiters,hresult⟩ := heq
  have hresults := waits_for_results exampleRpc w (Transition.reaches_of_run hw) ⟨(0,0),.through⟩
    (by rw [hwaiters]; exact List.mem_singleton_self _)
  exact ⟨w,hwaiters,hresult,(hresults.2.2 rfl).2.2⟩

def WaitEvent.frame : WaitEvent L V A → Option Nat
  | .code a => a.agent
  | _ => none

def WaitEvent.thread : WaitEvent L V A → Option Nat
  | .look i => some i
  | _ => none

def Waits.acted (_ : Waits L V A) : WaitEvent L V A → Option (Action L V A)
  | .code a => some a
  | _ => none

theorem Waits.step_quiet {w u : Waits L V A} {e : WaitEvent L V A} (h : w.step P e = some u)
    (he : w.acted e = none) : u.programs = w.programs := by
  cases e with
  | code a => cases he
  | wait t =>
    simp only [step] at h
    split at h
    · cases h
      rfl
    · cases h
  | look i | wake i =>
    obtain ⟨l,_,rfl⟩ := Option.map_eq_some_iff.mp h
    rfl

theorem Waits.step_acted {w u : Waits L V A} {e : WaitEvent L V A} {a : Action L V A}
    (h : w.step P e = some u) (he : w.acted e = some a) :
    w.programs.step P a = some u.programs := by
  cases e with
  | code a' =>
    cases he
    obtain ⟨programs,hp,rfl⟩ := Option.map_eq_some_iff.mp h
    exact hp
  | _ => cases he

variable {r : Run (Waits.step P) Waits.keepsTasks}

theorem Waits.acted_shown : r.Shown (Programs.step P) (fun _ _ => true) Waits.programs
    Waits.acted :=
  ⟨fun _ _ he hg => step_quiet (Run.event_next he).2 hg,
    fun _ _ _ he hg => ⟨rfl,step_acted (Run.event_next he).2 hg⟩⟩

theorem Waits.latch_shown (hsound : ∀ i, (r.state i).Sound P) :
    r.Shown Latch.State.step (fun _ _ => true) Waits.latch (Waits.shown P) := by
  refine ⟨fun i e he hg => ?_,fun i e d he hg => ?_⟩
  · obtain ⟨d,hd,_⟩ := (hsound i).shown (Run.event_next he).2
    cases hg.symm.trans hd
  · obtain ⟨d',hd,hlatch⟩ := (hsound i).shown (Run.event_next he).2
    cases hg.symm.trans hd
    exact ⟨rfl,hlatch⟩

theorem Waits.acted_fair {f : Nat} (hfair : r.Fair WaitEvent.frame f) :
    (r.image Waits.acted_shown).Fair Action.agent f := by
  refine Run.image_fair _ hfair (fun i henabled => ?_) (fun w e he => ?_)
  · obtain ⟨a,ha,hs⟩ := henabled
    exact ⟨.code a,ha,by simp only [step,Option.isSome_map]; exact hs⟩
  · cases e with
    | code a => exact ⟨a,rfl,he⟩
    | _ => cases he

theorem Waits.latch_fair (hsound : ∀ i, (r.state i).Sound P) {n : Nat}
    (hfair : r.Fair WaitEvent.thread n) :
    (r.image (Waits.latch_shown hsound)).Fair Latch.Event.agent n := by
  refine Run.image_fair _ hfair (fun i henabled => ?_) (fun w e he => ?_)
  · obtain ⟨d,hd,hs⟩ := henabled
    cases d with
    | look j =>
      cases hd
      exact ⟨.look n,rfl,by simp only [step,Option.isSome_map]; exact hs⟩
    | _ => cases hd
  · cases e with
    | look j => exact ⟨.look j,rfl,he⟩
    | _ => cases he

theorem Waits.committed_done [Nonempty A] (hsound : ∀ i, (r.state i).Sound P)
    (hframes : ∀ f, r.Fair WaitEvent.frame f) {i f : Nat} {l : L}
    (hf : (r.state i).programs.Committed f none)
    (hentry : (r.state i).programs.entry f = some l) (hl : Terminates P l) :
    ∃ j, i ≤ j ∧ ((r.state j).programs.coro.frames f).doneFlag = true := by
  have hprograms : ∀ j, ((r.image Waits.acted_shown).state j).Sound P :=
    fun j => (hsound j).programs
  obtain ⟨j,hij,hover,hcalled⟩ := Programs.started_ends hprograms (fun f => acted_fair (hframes f))
    ⟨hf.born,hentry⟩ hl hf.started
  have hkept : ((r.image Waits.acted_shown).state j).Committed f none :=
    Run.keeps (P := fun s : Programs L V A => s.Committed f none) hij hf
      (fun _ _ _ _ hp he => Programs.step_committed he hp)
  refine ⟨j,hij,((hsound j).valued.done_iff f).mpr ⟨⟨hcalled.born,?_⟩,hkept.requested⟩⟩
  have hreturned := ((hsound j).valued.counted hkept.counted).2
  have hstage : ((r.state j).programs.coro.stage f).over = true := hover
  cases hst : (r.state j).programs.coro.stage f <;> simp [hst,Stage.over] at hstage hreturned ⊢

theorem Waits.rested_fair {es : List (WaitEvent L V A)} {w : Waits L V A}
    (h : Transition.run (Waits.step P) Waits.keepsTasks .start es = some w)
    (hframes : ∀ f < w.programs.coro.count, (w.programs.coro.stage f).rests = true)
    (hthreads : ∀ x ∈ w.waiters, x.phase.looks = false) (n : Nat) :
    (Run.ofEvents h).Fair WaitEvent.frame n ∧ (Run.ofEvents h).Fair WaitEvent.thread n := by
  refine ⟨Run.ofEvents_fair h ?_,Run.ofEvents_fair h ?_⟩
  · rintro ⟨e,he,hs⟩
    cases e with
    | code a =>
      simp only [step,Option.isSome_map] at hs
      have hledger := (reaches_sound (Transition.reaches_of_run h)).programs.ledger
      exact Programs.rests_disabled (hledger.rests hframes n) ⟨a,he,hs⟩
    | _ => cases he
  · rintro ⟨e,he,hs⟩
    cases e with
    | look i =>
      simp only [step,Option.isSome_map,Latch.State.step] at hs
      split at hs
      · cases hs
      · rename_i x hx
        rw [hthreads x (List.mem_of_getElem? hx)] at hs
        cases hs
    | _ => cases he

/-- A thread that waits for a coroutine that was committed goes on if and only if no request
was made for it, when each frame and each thread that can go on does so and the body
terminates. -/
theorem waits_return [Nonempty A] (r : Run (Waits.step P) Waits.keepsTasks)
    (hstart : r.state 0 = .start) (hframes : ∀ f, r.Fair WaitEvent.frame f)
    (hthreads : ∀ n, r.Fair WaitEvent.thread n) (i n : Nat) (x : Latch.Waiter (Nat × Nat))
    (hx : (r.state i).waiters[n]? = some x)
    (hcommitted : ((r.state i).programs.coro.frames x.key.2).frameRunningCnt = true) (l : L)
    (hentry : (r.state i).programs.entry x.key.2 = some l) (hl : Terminates P l) :
    (∃ j, i ≤ j ∧ (r.state j).waiters[n]? = some ⟨x.key,.through⟩) ↔
      (r.state i).programs.audit.requested x.key.2 = none := by
  have hsound : ∀ i, (r.state i).Sound P := fun i => Waits.reaches_sound (hstart ▸ r.reaches i)
  have hvalued := (hsound i).valued
  have hat : (r.state i).programs.Committed x.key.2
      ((r.state i).programs.audit.requested x.key.2) := by
    refine ⟨(hvalued.counted hcommitted).1,fun hfresh => ?_,hcommitted,rfl⟩
    cases hcommitted.symm.trans ((hsound i).programs.ledger.fresh _ hfresh)
  constructor
  · rintro ⟨j,hij,hj⟩
    have hkept : ((r.image Waits.acted_shown).state j).Committed x.key.2 _ :=
      Run.keeps (P := fun s : Programs L V A => s.Committed x.key.2 _) hij hat
        (fun _ _ _ _ hp he => Programs.step_committed he hp)
    have hdone := (hsound j).latch.through _ (List.mem_of_getElem? hj) rfl
    rw [← hkept.requested]
    exact (((hsound j).valued.done_iff _).mp hdone).2
  · intro hrequest
    rw [hrequest] at hat
    obtain ⟨j,hij,hdone⟩ := Waits.committed_done hsound hframes hat hentry hl
    have hkey : ∃ w, ((r.image (Waits.latch_shown hsound)).state j).waiters[n]? = some w ∧
        w.key = x.key := by
      refine Run.keeps (P := fun s : Latch.State (Nat × Nat) => ∃ w, s.waiters[n]? = some w ∧
        w.key = x.key) hij ⟨x,hx,rfl⟩ (fun _ _ _ _ hp he => ?_)
      obtain ⟨w,hw,hk⟩ := hp
      obtain ⟨w',hw',hgoes⟩ := Latch.State.step_goes he hw
      exact ⟨w',hw',hgoes.key.trans hk⟩
    obtain ⟨k,hjk,hk⟩ := Latch.raised_leadsTo_through (hsound 0).latch
      (Waits.latch_fair hsound (hthreads n)) x.key j ⟨hdone,hkey⟩
    exact ⟨k,Nat.le_trans hij hjk,hk⟩

def addCalled : Waits ExampleFrame ExampleValue Unit :=
  Run.after (Waits.step exampleRpc) .start addWaited 3

theorem addWaited_returns : ∃ (r : Run (Waits.step exampleRpc) Waits.keepsTasks) (j : Nat),
    (r.state 3).waiters = [⟨(0,0),.entering⟩] ∧ 3 ≤ j ∧
      (r.state j).waiters[0]? = some ⟨(0,0),.through⟩ := by
  have hrun : (Transition.run (Waits.step exampleRpc) Waits.keepsTasks .start addWaited).map
      (fun w => (decide (∀ f < w.programs.coro.count, (w.programs.coro.stage f).rests = true),
        w.waiters)) = some (true,[⟨(0,0),.through⟩]) := by decide
  obtain ⟨w,hw,heq⟩ := Option.map_eq_some_iff.mp hrun
  simp only [Prod.mk.injEq,decide_eq_true_eq] at heq
  obtain ⟨hrests,hwaiters⟩ := heq
  have hfair := Waits.rested_fair hw hrests (fun x hx => by
    rw [hwaiters] at hx
    rw [List.mem_singleton.mp hx]
    rfl)
  have hcalled : addCalled.waiters = [⟨(0,0),.entering⟩] := by decide
  have hcounted : (addCalled.programs.coro.frames 0).frameRunningCnt = true := by decide
  have hentry : addCalled.programs.entry 0 = some (.add 1 2) := by decide
  obtain ⟨j,hij,hj⟩ := (waits_return (Run.ofEvents hw) rfl (fun f => (hfair f).1)
    (fun n => (hfair n).2) 3 0 ⟨(0,0),.entering⟩ rfl hcounted (.add 1 2) hentry
    (exampleRpc_terminates _)).mpr rfl
  exact ⟨Run.ofEvents hw,j,hcalled,hij,hj⟩

end

end NewRpc.Task
