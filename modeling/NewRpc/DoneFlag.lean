import NewRpc.Programs

/-!
When `done_flag_` is set: at the end of a coroutine that has no caller and serves no request,
whether it returns a value or not. A coroutine of type `void` is looked at as one that returns
nothing as its value, which changes only the responses.
-/

set_option autoImplicit false

namespace NewRpc.Task
open Codec Net Resumable

def Event.valued {V : Type} : Event V → Event (Option V)
  | .create => .create
  | .copy t => .copy t
  | .move t => .move t
  | .drop t => .drop t
  | .request t info => .request t info
  | .commit t => .commit t
  | .stop => .stop
  | .resume t => .resume t
  | .start f => .start f
  | .suspend f => .suspend f
  | .wake f => .wake f
  | .run f => .run f
  | .await f t => .await f t
  | .back f => .back f
  | .finish f result => .finish f (some result)
  | .release f => .release f

/-- The same process, with other results and responses. -/
def Coroutines.valued {V : Type} (s : Coroutines V) (result : Nat → Option (Option V))
    (sent : List (ResponseInfo × Option V)) : Coroutines (Option V) where
  frames := s.frames
  stage := s.stage
  result := result
  count := s.count
  tasks := s.tasks
  locals := s.locals
  nextId := s.nextId
  runningCoroCnt := s.runningCoroCnt
  stopFlag := s.stopFlag
  destroyed := s.destroyed
  deleted := s.deleted
  sent := sent

section
variable {V : Type} (s : Coroutines V) (result : Nat → Option (Option V))
  (sent : List (ResponseInfo × Option V))

theorem Coroutines.valued_drop (t : Nat) (promise : Option Nat) :
    (s.valued result sent).drop t promise = (s.drop t promise).valued result sent := by
  cases promise <;> rfl

theorem Coroutines.valued_begin (f : Nat) :
    (s.valued result sent).begin f = (s.begin f).valued result sent := by
  unfold Coroutines.begin
  show (if (s.frames f).coroLocalVar.isNone then _ else _ : Coroutines (Option V)).setStage f _ = _
  split <;> rfl

theorem Coroutines.valued_commit (f : Nat) :
    (s.valued result sent).commit f = (s.commit f).valued result sent := by
  unfold Coroutines.commit
  show (if s.stopFlag = true then _ else _) = _
  split <;> rfl

theorem Coroutines.valued_countDown (f : Nat) :
    (s.valued result sent).countDown f = (s.countDown f).valued result sent := by
  unfold Coroutines.countDown
  show (if (s.frames f).frameRunningCnt = true then _ else _) = _
  split <;> rfl

theorem Coroutines.valued_deleteLocal (f : Nat) :
    (s.valued result sent).deleteLocal f = (s.deleteLocal f).valued result sent := by
  have hvar : ((s.valued result sent).frames f).coroLocalVar = (s.frames f).coroLocalVar := rfl
  unfold Coroutines.deleteLocal
  rw [hvar]
  cases (s.frames f).coroLocalVar <;> rfl

theorem Coroutines.valued_report (f : Nat) {value : Option V} (hf : result f = some value) :
    ∃ sent', (s.valued result sent).report f = (s.report f).valued result sent' := by
  have hinfo : (((s.valued result sent).frames f).coroLocalVar.bind
      (s.valued result sent).locals).bind CoroLocalVar.responseInfo =
        ((s.frames f).coroLocalVar.bind s.locals).bind CoroLocalVar.responseInfo := rfl
  have hresult : (s.valued result sent).result f = some value := hf
  unfold Coroutines.report
  rw [hinfo,hresult]
  cases ((s.frames f).coroLocalVar.bind s.locals).bind CoroLocalVar.responseInfo with
  | none => exact ⟨sent,rfl⟩
  | some info => cases s.result f <;> exact ⟨sent ++ [(info,value)],rfl⟩

theorem Coroutines.valued_complete (f : Nat) (value : Option V) :
    ∃ sent', (((s.valued result sent).returning f (some value)).complete f) =
      ((s.returning f value).complete f).valued (Function.update result f (some value))
        sent' := by
  obtain ⟨sent',hreport⟩ := ((s.returning f value).countDown f).valued_report
    (Function.update result f (some value)) sent f (Function.update_self ..)
  refine ⟨sent',?_⟩
  unfold Coroutines.complete
  have hreturning : (s.valued result sent).returning f (some value) =
      (s.returning f value).valued (Function.update result f (some value)) sent := rfl
  rw [hreturning,valued_countDown,hreport,valued_deleteLocal]
  rfl

end

theorem Coroutines.Acts.valued {V : Type} {s t : Coroutines V} {e : Event V} (h : s.Acts e t)
    (result : Nat → Option (Option V)) (sent : List (ResponseInfo × Option V)) :
    ∃ result' sent', (s.valued result sent).Acts e.valued (t.valued result' sent') := by
  cases h with
  | create => exact ⟨result,sent,.create⟩
  | copy ht => exact ⟨result,sent,.copy ht⟩
  | move ht => exact ⟨result,sent,.move ht⟩
  | drop ht => exact ⟨result,sent,s.valued_drop result sent _ _ ▸ .drop ht⟩
  | request ht hf hvar => exact ⟨result,sent,.request ht hf hvar⟩
  | refused hstop => exact ⟨result,sent,.refused hstop⟩
  | commit ht hf hstop => exact ⟨result,sent,s.valued_commit result sent _ ▸ .commit ht hf hstop⟩
  | stop => exact ⟨result,sent,.stop⟩
  | resume ht hf => exact ⟨result,sent,s.valued_begin result sent _ ▸ .resume ht hf⟩
  | start hf => exact ⟨result,sent,s.valued_begin result sent _ ▸ .start hf⟩
  | suspend hf => exact ⟨result,sent,.suspend hf⟩
  | wake hf => exact ⟨result,sent,.wake hf⟩
  | run hf => exact ⟨result,sent,.run hf⟩
  | @await f i child frames hf ht hc hlink =>
    exact ⟨result,sent,(s.called frames f i child).valued_begin result sent child ▸
      .await hf ht hc hlink⟩
  | back hf ht => exact ⟨result,sent,.back hf ht⟩
  | @complete f value hf hroot =>
    obtain ⟨sent',heq⟩ := s.valued_complete result sent f value
    refine ⟨Function.update result f (some value),sent',?_⟩
    rw [← heq]
    exact .complete hf hroot
  | @giveBack f caller i value frames hf hroot hprev hc hunlink =>
    exact ⟨Function.update result f (some value),sent,.giveBack hf hroot hprev hc hunlink⟩
  | release hf => exact ⟨result,sent,.release hf⟩

theorem Coroutines.Ledger.valued {V : Type} {s : Coroutines V} (h : s.Ledger)
    (result : Nat → Option (Option V)) (sent : List (ResponseInfo × Option V)) :
    (s.valued result sent).Ledger :=
  ⟨fun f hf => ⟨(h.balanced f hf).refCnt,(h.balanced f hf).destroyed⟩,h.handled,h.started,h.dead,
    h.fresh⟩

def Audit.Valued {V : Type} (a : Audit V) : Prop :=
  ∃ (b : Audit (Option V)) (stack : Nat → List Nat),
    b.coro = a.coro.valued b.coro.result b.coro.sent ∧ b.requested = a.requested ∧ b.Sound stack

theorem Audit.Valued.step {V : Type} {a t : Audit V} {e : Event V} (h : a.Valued)
    (hl : a.coro.Ledger) (he : a.step e = some t) : t.Valued := by
  obtain ⟨b,stack,hcoro,hrequested,hb⟩ := h
  obtain ⟨u,hu,rfl⟩ := Option.map_eq_some_iff.mp he
  obtain ⟨result,sent,hacts⟩ :=
    (Coroutines.step_acts hu).valued b.coro.result b.coro.sent
  rw [← hcoro] at hacts
  have hledger : b.coro.Ledger := hcoro ▸ hl.valued b.coro.result b.coro.sent
  have hok : b.returnsValue e.valued = true := by
    cases e <;> rfl
  obtain ⟨stack',hs⟩ := hb.step hledger hok hacts
  refine ⟨_,stack',rfl,?_,hs⟩
  cases e with
  | request i info =>
    have hstart : b.coro.startable i = a.coro.startable i := by
      rw [hcoro]
      rfl
    simp only [record,Event.valued,hstart,hrequested]
  | _ => exact hrequested

theorem Audit.start_valued {V : Type} : (start : Audit V).Valued :=
  ⟨start,_,rfl,rfl,start_sound⟩

/-- The flag of a coroutine is set when it has ended without a caller and serves no request. -/
theorem Audit.Valued.done_iff {V : Type} {a : Audit V} (h : a.Valued) (f : Nat) :
    (a.coro.frames f).doneFlag = true ↔ a.coro.completed f ∧ a.requested f = none := by
  obtain ⟨b,stack,hcoro,hrequested,hb⟩ := h
  have hflag : (a.coro.frames f).doneFlag = (b.coro.frames f).doneFlag := by
    rw [hcoro]
    rfl
  have hover : a.coro.completed f ↔ b.coro.completed f := by
    rw [hcoro]
    rfl
  rw [hflag,hover,← hrequested]
  by_cases hf : b.coro.completed f
  · obtain ⟨value,v,_,_,heffects⟩ := hb.books.finished f hf
    rw [hb.books.notified,heffects]
    cases hr : b.requested f <;> simp [hf,completion]
  · simp [hb.books.waiting f hf,hf]

theorem Audit.Valued.counted {V : Type} {a : Audit V} (h : a.Valued) {f : Nat}
    (hf : (a.coro.frames f).frameRunningCnt = true) :
    f < a.coro.count ∧ a.coro.stage f ≠ .returned := by
  obtain ⟨b,stack,hcoro,_,hb⟩ := h
  have hleft := hb.vars.left f
  have hunborn := hb.vars.unborn f
  rw [hcoro] at hleft hunborn
  refine ⟨?_,fun hstage => ?_⟩
  · by_contra hnot
    have hcnt := congrArg (fun x => x.2.2) (hunborn (Nat.le_of_not_lt hnot))
    cases hf.symm.trans hcnt
  · cases hf.symm.trans (hleft hstage)

section
variable {L V A : Type} [DecidableEq L] {P : Program L (Option V) A} {s t : Programs L V A}

theorem Programs.step_valued {a : Action L V A} (h : s.Sound P) (hv : s.audit.Valued)
    (he : s.step P a = some t) : t.audit.Valued := by
  rcases step_performs he with hp | ⟨f,callee,u,_,hcreate,hawait⟩
  · obtain ⟨e,ha⟩ := hp.event
    exact hv.step h.ledger ha
  · obtain ⟨e,ha⟩ := hcreate.event
    obtain ⟨e',ha'⟩ := hawait.event
    exact (hv.step h.ledger ha).step (hcreate.sound h).ledger ha'

end

end NewRpc.Task
