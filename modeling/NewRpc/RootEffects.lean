import NewRpc.Chains
import NewRpc.Custody

/-!
What the end of a root does, once: the response or the done flag, the shared
`CoroLocalVar`, and the number of the coroutines that run.
-/

set_option autoImplicit false

namespace NewRpc.Task
open Codec Net

inductive Effect (V : Type) where
  | respond (info : ResponseInfo) (value : V)
  | notify
  | deleteLocal (v : Nat)

/-- A process with a record of its past: the request that a root was created for, the
last `CoroLocalVar` of a frame, and what the final suspensions did, by frame. -/
structure Audit (V : Type) where
  coro : Coroutines V
  requested : Nat → Option ResponseInfo
  localOf : Nat → Option Nat
  log : List (Nat × Effect V)

def Coroutines.effects {V : Type} (s t : Coroutines V) (f : Nat) : List (Effect V) :=
  (t.sent.drop s.sent.length).map (fun m => .respond m.1 m.2) ++
    (if (t.frames f).doneFlag && !(s.frames f).doneFlag then [.notify] else []) ++
    (t.deleted.drop s.deleted.length).map .deleteLocal

def Audit.record {V : Type} (a : Audit V) (e : Event V) (t : Coroutines V) : Audit V where
  coro := t
  requested := match e with
    | .request i info => match a.coro.startable i with
        | some f => Function.update a.requested f (some info)
        | none => a.requested
    | _ => a.requested
  localOf := fun f => (t.frames f).coroLocalVar.or (a.localOf f)
  log := match e with
    | .finish f _ => a.log ++ (a.coro.effects t f).map (fun x => (f,x))
    | _ => a.log

def Audit.step {V : Type} (a : Audit V) (e : Event V) : Option (Audit V) :=
  (a.coro.step e).map (a.record e)

def Audit.start {V : Type} : Audit V := ⟨.start,fun _ => none,fun _ => none,[]⟩

def Audit.returnsValue {V : Type} (a : Audit V) : Event V → Bool
  | .finish f none => !(a.coro.frames f).empty f
  | _ => true

def Audit.effectsOf {V : Type} (a : Audit V) (f : Nat) : List (Effect V) :=
  a.log.filterMap (fun x => if x.1 = f then some x.2 else none)

def Effect.sent? {V : Type} : Effect V → Option (ResponseInfo × V)
  | .respond info value => some (info,value)
  | _ => none

def Effect.deleted? {V : Type} : Effect V → Option Nat
  | .deleteLocal v => some v
  | _ => none

def completion {V : Type} (request : Option ResponseInfo) (value : V) : Effect V :=
  match request with
  | some info => .respond info value
  | none => .notify

structure Audit.RootsComplete {V : Type} (a : Audit V) : Prop where
  running : Custody.Numbers (fun f => f < a.coro.count ∧
    (a.coro.frames f).frameRunningCnt = true ∧ ¬ a.coro.completed f) a.coro.runningCoroCnt
  committed : ∀ f, (a.coro.frames f).frameRunningCnt = true →
    a.coro.stage f ≠ .returned ∧ ∀ p, a.coro.callee p ≠ some f
  nonneg : 0 ≤ a.coro.runningCoroCnt
  ends : ∀ f value, a.coro.stage f = .running → (∀ p, a.coro.callee p ≠ some f) →
    ∃ b, a.step (.finish f (some value)) = some b ∧ b.coro.completed f ∧ b.coro.result f = some value
  finished : ∀ f, a.coro.completed f → ∃ value v, a.coro.result f = some value ∧
    a.localOf f = some v ∧
      a.effectsOf f = [completion (a.requested f) value,.deleteLocal v]
  others : ∀ f, ¬ a.coro.completed f → a.effectsOf f = []
  shared : ∀ r l, a.coro.CallStack r l → ∀ f ∈ l, a.localOf f = a.localOf r
  once : a.coro.deleted.Nodup
  /-- The log leaves nothing out. -/
  sent : a.coro.sent = a.log.filterMap (fun x => x.2.sent?)
  deleted : a.coro.deleted = a.log.filterMap (fun x => x.2.deleted?)
  notified : ∀ f, (a.coro.frames f).doneFlag = true ↔ Effect.notify ∈ a.effectsOf f

structure Audit.Vars {V : Type} (a : Audit V) (stack : Nat → List Nat) : Prop where
  shared : ∀ r, ∀ f ∈ stack r, (a.coro.frames f).coroLocalVar = (a.coro.frames r).coroLocalVar
  begun : ∀ f, (a.coro.stage f).begun = true → (a.coro.frames f).coroLocalVar ≠ none
  own : ∀ r v, stack r ≠ [] → (a.coro.frames r).coroLocalVar = some v →
    v < a.coro.nextId ∧ v ∉ a.coro.deleted ∧
      ∃ i, a.coro.locals v = some ⟨i,a.requested r⟩
  apart : ∀ r q v, stack r ≠ [] → stack q ≠ [] → (a.coro.frames r).coroLocalVar = some v →
    (a.coro.frames q).coroLocalVar = some v → r = q
  past : ∀ v ∈ a.coro.deleted, v < a.coro.nextId
  once : a.coro.deleted.Nodup
  unrequested : ∀ f, ¬ a.coro.completed f → (a.coro.frames f).coroLocalVar = none →
    a.requested f = none
  completed : ∀ f, a.coro.completed f → (a.coro.frames f).coroLocalVar = none
  unborn : ∀ f, a.coro.count ≤ f → (a.coro.frames f).data = (none,false,false)
  heads : ∀ r, ∀ f ∈ stack r, (a.coro.frames f).frameRunningCnt = true → f = r
  left : ∀ f, a.coro.stage f = .returned → (a.coro.frames f).frameRunningCnt = false

structure Audit.Books {V : Type} (a : Audit V) : Prop where
  running : Custody.Numbers (fun f => f < a.coro.count ∧
    (a.coro.frames f).frameRunningCnt = true ∧ ¬ a.coro.completed f) a.coro.runningCoroCnt
  waiting : ∀ f, ¬ a.coro.completed f → (a.coro.frames f).doneFlag = false
  finished : ∀ f, a.coro.completed f → ∃ value v, a.coro.result f = some value ∧
    a.localOf f = some v ∧
      a.effectsOf f = [completion (a.requested f) value,.deleteLocal v]
  others : ∀ f, ¬ a.coro.completed f → a.effectsOf f = []
  known : ∀ f v, (a.coro.frames f).coroLocalVar = some v → a.localOf f = some v
  unknown : ∀ f, ¬ a.coro.completed f → (a.coro.frames f).coroLocalVar = none → a.localOf f = none
  sent : a.coro.sent = a.log.filterMap (fun x => x.2.sent?)
  deleted : a.coro.deleted = a.log.filterMap (fun x => x.2.deleted?)
  notified : ∀ f, (a.coro.frames f).doneFlag = true ↔ Effect.notify ∈ a.effectsOf f

def Audit.after {V : Type} (a : Audit V) (t : Coroutines V)
    (requested : Nat → Option ResponseInfo) (log : List (Nat × Effect V)) : Audit V :=
  ⟨t,requested,fun f => (t.frames f).coroLocalVar.or (a.localOf f),log⟩

theorem Audit.Vars.chained {V : Type} {a : Audit V} {stack : Nat → List Nat} (h : a.Vars stack)
    (hs : a.coro.Stacks stack) : a.coro.Chained stack :=
  ⟨hs,h.shared,h.begun,fun r v hr hv => (h.own r v hr hv).1,h.apart,h.heads,h.left⟩

theorem Audit.Vars.keep {V : Type} {a : Audit V} {t : Coroutines V} {stack stack' : Nat → List Nat}
    (h : a.Vars stack) (hc : t.Chained stack') (hlocals : t.locals = a.coro.locals)
    (hnext : t.nextId = a.coro.nextId) (hdel : t.deleted = a.coro.deleted)
    (hcount : a.coro.count ≤ t.count) (hover : ∀ f, t.completed f ↔ a.coro.completed f)
    (hroot : ∀ r, stack' r ≠ [] →
      stack r ≠ [] ∧ (t.frames r).coroLocalVar = (a.coro.frames r).coroLocalVar)
    (hvar : ∀ f, (t.frames f).coroLocalVar = (a.coro.frames f).coroLocalVar ∨
      (¬ a.coro.completed f ∧ (t.frames f).coroLocalVar ≠ none))
    (hborn : ∀ f, t.count ≤ f → (t.frames f).data = (a.coro.frames f).data)
    (log : List (Nat × Effect V)) : (a.after t a.requested log).Vars stack' := by
  refine ⟨hc.shared,hc.begun,fun r v hr hv => ?_,hc.apart,?_,?_,fun f hf hv => ?_,fun f hf => ?_,
    fun f hf => ?_,hc.heads,hc.left⟩
  · simp only [after,(hroot r hr).2] at hv
    simp only [after,hnext,hdel,hlocals]
    exact h.own r v (hroot r hr).1 hv
  · simp only [after,hdel,hnext]
    exact h.past
  · simp only [after,hdel]
    exact h.once
  · simp only [after,hover] at hf hv
    rcases hvar f with heq | ⟨_,hsome⟩
    · exact h.unrequested f hf (heq.symm.trans hv)
    · exact absurd hv hsome
  · simp only [after,hover] at hf ⊢
    rcases hvar f with heq | ⟨hnot,_⟩
    · exact heq.trans (h.completed f hf)
    · exact absurd hf hnot
  · simp only [after] at hf ⊢
    exact (hborn f hf).trans (h.unborn f (Nat.le_trans hcount hf))

theorem Audit.Vars.quiet {V : Type} {a : Audit V} {t : Coroutines V} {stack stack' : Nat → List Nat}
    (h : a.Vars stack) (hc : t.Chained stack') (hk : a.coro.Keeps t)
    (hcount : a.coro.count ≤ t.count) (hover : ∀ f, t.completed f ↔ a.coro.completed f)
    (hstack : ∀ r, ∀ f ∈ stack' r, f ∈ stack r) (log : List (Nat × Effect V)) :
    (a.after t a.requested log).Vars stack' := by
  refine h.keep hc hk.locals hk.nextId hk.deleted hcount hover (fun r hr => ?_)
    (fun f => .inl (data_var (hk.data f))) (fun f _ => hk.data f) log
  obtain ⟨f,hf⟩ := List.exists_mem_of_ne_nil _ hr
  exact ⟨List.ne_nil_of_mem (hstack r f hf),data_var (hk.data r)⟩

theorem or_known {α : Type} {x y : Option α} (h : ∀ v, x = some v → y = some v) :
    x.or y = y := by
  cases x with
  | none => rfl
  | some v => rw [h v rfl,Option.some_or]

theorem Audit.Books.keep {V : Type} {a : Audit V} {t : Coroutines V}
    {requested : Nat → Option ResponseInfo} (h : a.Books)
    (hrunning : Custody.Numbers (fun f => f < t.count ∧
      (t.frames f).frameRunningCnt = true ∧ ¬ t.completed f) t.runningCoroCnt)
    (hover : ∀ f, t.completed f ↔ a.coro.completed f)
    (hdone : ∀ f, (t.frames f).doneFlag = (a.coro.frames f).doneFlag)
    (hvar : ∀ f, (t.frames f).coroLocalVar = (a.coro.frames f).coroLocalVar ∨
      (¬ a.coro.completed f ∧ (t.frames f).coroLocalVar ≠ none))
    (hrequested : ∀ f, a.coro.completed f → requested f = a.requested f)
    (hresult : ∀ f, a.coro.completed f → t.result f = a.coro.result f)
    (hsent : t.sent = a.coro.sent) (hdel : t.deleted = a.coro.deleted) :
    (a.after t requested a.log).Books := by
  have hlocal : ∀ f, (t.frames f).coroLocalVar = (a.coro.frames f).coroLocalVar →
      (a.after t requested a.log).localOf f = a.localOf f := by
    intro f heq
    simp only [after,heq]
    exact or_known (h.known f)
  refine ⟨hrunning,fun f hf => ?_,fun f hf => ?_,fun f hf => ?_,fun f v hv => ?_,fun f hf hv => ?_,
    ?_,?_,fun f => ?_⟩
  · simp only [after,hover,hdone] at hf ⊢
    exact h.waiting f hf
  · simp only [after,hover] at hf
    have heq := (hvar f).resolve_right (fun hnot => hnot.1 hf)
    rw [hlocal f heq]
    simp only [after,hrequested f hf,hresult f hf]
    exact h.finished f hf
  · simp only [after,hover] at hf
    exact h.others f hf
  · simp only [after] at hv ⊢
    rw [hv,Option.some_or]
  · simp only [after,hover] at hf hv
    rcases hvar f with heq | ⟨_,hsome⟩
    · rw [hlocal f heq]
      exact h.unknown f hf (heq.symm.trans hv)
    · exact absurd hv hsome
  · simp only [after,hsent]
    exact h.sent
  · simp only [after,hdel]
    exact h.deleted
  · simp only [after,hdone]
    exact h.notified f

theorem Audit.Books.quiet {V : Type} {a : Audit V} {t : Coroutines V} {stack : Nat → List Nat}
    (h : a.Books) (hv : a.Vars stack) (hk : a.coro.Keeps t) (hcount : a.coro.count ≤ t.count)
    (hover : ∀ f, t.completed f ↔ a.coro.completed f)
    (hresult : ∀ f, a.coro.completed f → t.result f = a.coro.result f) :
    (a.after t a.requested a.log).Books := by
  refine h.keep ?_ hover (fun f => data_done (hk.data f)) (fun f => .inl (data_var (hk.data f)))
    (fun _ _ => rfl) hresult hk.sent hk.deleted
  rw [hk.runningCoroCnt]
  refine h.running.congr (fun f => ?_)
  rw [data_count (hk.data f),hover]
  by_cases hf : f < a.coro.count
  · simp [hf,Nat.lt_of_lt_of_le hf hcount]
  · have hcnt := congrArg (fun x => x.2.2) (hv.unborn f (Nat.le_of_not_lt hf))
    simp only [LinkedCoroutine.data] at hcnt
    simp [hf,hcnt]

theorem Audit.Vars.newLocal {V : Type} {a : Audit V} {stack : Nat → List Nat} (h : a.Vars stack)
    (hs : a.coro.Stacks stack) {f : Nat} (hf : f < a.coro.count) (hover : ¬ a.coro.completed f)
    (halone : stack f = [f]) (info : Option ResponseInfo) (log : List (Nat × Effect V)) :
    (a.after (a.coro.newLocal f info) (Function.update a.requested f info) log).Vars stack := by
  have hvar := a.coro.newLocal_var f info
  have hc := (h.chained hs).newLocal halone info
  refine ⟨hc.shared,hc.begun,fun r v hr hv => ?_,hc.apart,?_,h.once,fun g hg hv => ?_,fun g hg => ?_,
    fun g hg => ?_,hc.heads,hc.left⟩
  · simp only [after,hvar] at hv ⊢
    by_cases hrf : r = f
    · rw [if_pos hrf] at hv
      cases hv
      refine ⟨Nat.lt_succ_self _,fun hin => Nat.lt_irrefl _ (h.past _ hin),
        BitVec.ofNat _ a.coro.nextId,?_⟩
      simp only [Coroutines.newLocal,Coroutines.setFrame,hrf,Function.update_self]
    · rw [if_neg hrf] at hv
      obtain ⟨hlt,hdel,i,hi⟩ := h.own r v hr hv
      refine ⟨Nat.lt_succ_of_lt hlt,hdel,i,?_⟩
      simp only [Coroutines.newLocal,Coroutines.setFrame,Function.update_of_ne (Nat.ne_of_lt hlt),
        Function.update_of_ne hrf]
      exact hi
  · intro v hv
    exact Nat.lt_succ_of_lt (h.past v hv)
  · simp only [after,hvar] at hv ⊢
    by_cases hgf : g = f
    · rw [if_pos hgf] at hv
      cases hv
    · rw [if_neg hgf] at hv
      rw [Function.update_of_ne hgf]
      exact h.unrequested g hg hv
  · have hgf : g ≠ f := fun heq => hover (heq ▸ hg)
    simp only [after,hvar,if_neg hgf]
    exact h.completed g hg
  · have hgf : g ≠ f := fun heq => absurd hf (Nat.not_lt_of_le (heq ▸ hg))
    have hu := h.unborn g hg
    simp only [after,LinkedCoroutine.data,hvar,if_neg hgf,Coroutines.newLocal_done,
      Coroutines.newLocal_count]
    exact hu

theorem Audit.Books.newLocal {V : Type} {a : Audit V} (h : a.Books) {f : Nat}
    (hover : ¬ a.coro.completed f) (info : Option ResponseInfo) :
    (a.after (a.coro.newLocal f info) (Function.update a.requested f info) a.log).Books := by
  refine h.keep ?_ (fun _ => Iff.rfl) (a.coro.newLocal_done f info) (fun g => ?_) (fun g hg => ?_)
    (fun _ _ => rfl) rfl rfl
  · refine h.running.congr (fun g => ?_)
    simp only [Coroutines.newLocal_count]
    rfl
  · rw [Coroutines.newLocal_var]
    by_cases hgf : g = f
    · rw [hgf,if_pos rfl]
      exact .inr ⟨hover,by simp⟩
    · rw [if_neg hgf]
      exact .inl rfl
  · have hgf : g ≠ f := fun heq => hover (heq ▸ hg)
    rw [Function.update_of_ne hgf]

theorem Audit.Vars.called {V : Type} {a : Audit V} {t : Coroutines V} {stack : Nat → List Nat}
    (h : a.Vars stack) {r f child : Nat} (hc : t.Chained (Ring.pushed stack r child))
    (hr : stack r ≠ []) (hne : r ≠ child) (hf : (a.coro.frames f).coroLocalVar ≠ none)
    (hlt : child < a.coro.count) (hover : ¬ a.coro.completed child) (ht : a.coro.Shares t f child)
    (log : List (Nat × Effect V)) :
    (a.after t a.requested log).Vars (Ring.pushed stack r child) := by
  have hlocals : t.locals = a.coro.locals := congrArg Prod.fst ht.globals
  have hnext : t.nextId = a.coro.nextId := congrArg (fun x => x.2.1) ht.globals
  have hdel : t.deleted = a.coro.deleted := congrArg (fun x => x.2.2.2.1) ht.globals
  refine h.keep hc hlocals hnext hdel (Nat.le_of_eq ht.count.symm) ht.completed (fun q hq => ?_)
    (fun g => ?_) (fun g hg => ?_) log
  · obtain ⟨hq',hqc⟩ := Ring.of_pushed hr hne hq
    exact ⟨hq',by rw [ht.var,if_neg hqc]⟩
  · rw [ht.var]
    by_cases hgc : g = child
    · rw [hgc,if_pos rfl]
      exact .inr ⟨hover,hf⟩
    · rw [if_neg hgc]
      exact .inl rfl
  · rw [ht.count] at hg
    have hgc : g ≠ child := fun heq => absurd hlt (Nat.not_lt_of_le (heq ▸ hg))
    simp only [LinkedCoroutine.data,ht.var,ht.done,ht.cnt,if_neg hgc]

theorem Audit.Books.called {V : Type} {a : Audit V} {t : Coroutines V} (h : a.Books)
    {f child : Nat} (hf : (a.coro.frames f).coroLocalVar ≠ none)
    (hover : ¬ a.coro.completed child) (ht : a.coro.Shares t f child) :
    (a.after t a.requested a.log).Books := by
  have hrun : t.runningCoroCnt = a.coro.runningCoroCnt := congrArg (fun x => x.2.2.1) ht.globals
  have hdel : t.deleted = a.coro.deleted := congrArg (fun x => x.2.2.2.1) ht.globals
  have hsent : t.sent = a.coro.sent := congrArg (fun x => x.2.2.2.2) ht.globals
  refine h.keep ?_ ht.completed ht.done (fun g => ?_) (fun _ _ => rfl)
    (fun g _ => congrFun ht.result g) hsent hdel
  · rw [hrun]
    refine h.running.congr (fun g => ?_)
    rw [ht.cnt,ht.completed,ht.count]
  · rw [ht.var]
    by_cases hgc : g = child
    · rw [hgc,if_pos rfl]
      exact .inr ⟨hover,hf⟩
    · rw [if_neg hgc]
      exact .inl rfl

theorem Audit.Vars.commit {V : Type} {a : Audit V} {stack : Nat → List Nat} (h : a.Vars stack)
    (hstop : a.coro.stopFlag = false) {f : Nat} (hc : (a.coro.commit f).Chained stack)
    (hf : a.coro.stage f = .fresh) (hlt : f < a.coro.count) (log : List (Nat × Effect V)) :
    (a.after (a.coro.commit f) a.requested log).Vars stack := by
  have hglobals := Coroutines.commit_globals hstop f
  have hlocals : (a.coro.commit f).locals = a.coro.locals := congrArg Prod.fst hglobals
  have hnext : (a.coro.commit f).nextId = a.coro.nextId := congrArg (fun x => x.2.1) hglobals
  have hdel : (a.coro.commit f).deleted = a.coro.deleted :=
    congrArg (fun x => x.2.2.2.1) hglobals
  have hcount : (a.coro.commit f).count = a.coro.count := a.coro.commit_births f
  refine h.keep hc hlocals hnext hdel (Nat.le_of_eq hcount.symm)
    (Coroutines.commit_completed hstop hf) (fun r hr => ⟨hr,Coroutines.commit_var hstop f r⟩)
    (fun g => .inl (Coroutines.commit_var hstop f g)) (fun g hg => ?_) log
  rw [hcount] at hg
  have hgf : g ≠ f := fun heq => absurd hlt (Nat.not_lt_of_le (heq ▸ hg))
  rw [Coroutines.commit_other hstop hgf]

theorem Audit.Books.commit {V : Type} {a : Audit V} (h : a.Books)
    (hstop : a.coro.stopFlag = false) {f : Nat} (hf : a.coro.stage f = .fresh)
    (hlt : f < a.coro.count) (hnew : (a.coro.frames f).frameRunningCnt = false) :
    (a.after (a.coro.commit f) a.requested a.log).Books := by
  have hglobals := Coroutines.commit_globals hstop f
  have hrun : (a.coro.commit f).runningCoroCnt = a.coro.runningCoroCnt + 1 :=
    congrArg (fun x => x.2.2.1) hglobals
  have hdel : (a.coro.commit f).deleted = a.coro.deleted :=
    congrArg (fun x => x.2.2.2.1) hglobals
  have hsent : (a.coro.commit f).sent = a.coro.sent := congrArg (fun x => x.2.2.2.2) hglobals
  have hover := Coroutines.commit_completed hstop hf
  have hcount : (a.coro.commit f).count = a.coro.count := a.coro.commit_births f
  refine h.keep ?_ hover (Coroutines.commit_done hstop f)
    (fun g => .inl (Coroutines.commit_var hstop f g)) (fun _ _ => rfl)
    (fun g _ => congrFun (a.coro.commit_result f) g) hsent hdel
  rw [hrun]
  refine h.running.insert (x := f) (fun hin => ?_) (fun g => ?_)
  · rw [hnew] at hin
    cases hin.2.1
  · rw [hcount,hover,Coroutines.commit_cnt hstop]
    by_cases hgf : g = f
    · have hnot : ¬ a.coro.completed f := by simp [Coroutines.completed,hf]
      simp [hgf,hlt,hnot]
    · simp [hgf]

structure Coroutines.Ends {V : Type} (s t : Coroutines V) (f v : Nat)
    (info : Option ResponseInfo) (value : V) : Prop where
  data : ∀ g, (t.frames g).data = if g = f then
    (none,(s.frames f).doneFlag || info.isNone,(s.frames f).frameRunningCnt)
      else (s.frames g).data
  locals : t.locals = Function.update s.locals v none
  nextId : t.nextId = s.nextId
  running : t.runningCoroCnt = s.runningCoroCnt - if (s.frames f).frameRunningCnt then 1 else 0
  deleted : t.deleted = s.deleted ++ [v]
  sent : t.sent = s.sent ++ (completion info value).sent?.toList
  result : t.result = Function.update s.result f (some value)
  stage : t.stage = Function.update s.stage f .ending
  count : t.count = s.count

theorem Coroutines.report_request {V : Type} {s : Coroutines V} {f v : Nat} {i : Word .w64}
    {info : ResponseInfo} {value : V} (hvar : (s.frames f).coroLocalVar = some v)
    (hlocal : s.locals v = some ⟨i,some info⟩) (hresult : s.result f = some value) :
    s.report f = { s with sent := s.sent ++ [(info,value)] } := by
  simp [Coroutines.report,hvar,hlocal,hresult]

theorem Coroutines.report_local {V : Type} {s : Coroutines V} {f v : Nat} {i : Word .w64}
    (hvar : (s.frames f).coroLocalVar = some v) (hlocal : s.locals v = some ⟨i,none⟩) :
    s.report f = s.setFrame f { s.frames f with doneFlag := true } := by
  simp [Coroutines.report,hvar,hlocal]

theorem Coroutines.deleteLocal_some {V : Type} {s : Coroutines V} {f v : Nat}
    (hvar : (s.frames f).coroLocalVar = some v) : s.deleteLocal f = { s with
      locals := Function.update s.locals v none
      deleted := s.deleted ++ [v] }.setFrame f { s.frames f with coroLocalVar := none } := by
  simp [Coroutines.deleteLocal,hvar]

theorem Coroutines.complete_ends {V : Type} (s : Coroutines V) {f v : Nat} {i : Word .w64}
    {info : Option ResponseInfo} (value : V) (hvar : (s.frames f).coroLocalVar = some v)
    (hlocal : s.locals v = some ⟨i,info⟩) :
    s.Ends ((s.returning f (some value)).complete f) f v info value := by
  let c : Coroutines V := { s.returning f (some value) with runningCoroCnt :=
    s.runningCoroCnt - if (s.frames f).frameRunningCnt then 1 else 0 }
  have hresult : c.result f = some value := Function.update_self ..
  have hc : (s.returning f (some value)).countDown f = c := countDown_eq _ f
  unfold Coroutines.complete
  rw [hc]
  cases info with
  | some request =>
    have hreport := report_request (s := c) hvar hlocal hresult
    rw [hreport,deleteLocal_some (s := { c with sent := c.sent ++ [(request,value)] }) hvar]
    refine ⟨fun g => ?_,rfl,rfl,rfl,rfl,rfl,rfl,rfl,rfl⟩
    by_cases hg : g = f
    · subst hg
      simp [Coroutines.setStage,setFrame,c,returning,LinkedCoroutine.data]
    · simp [Coroutines.setStage,setFrame,c,returning,hg]
  | none =>
    have hreport := report_local (s := c) hvar hlocal
    have hvar' : ((c.setFrame f { c.frames f with doneFlag := true }).frames f).coroLocalVar =
        some v := by
      simp [setFrame,c,returning,hvar]
    rw [hreport,deleteLocal_some hvar']
    refine ⟨fun g => ?_,rfl,rfl,rfl,rfl,(List.append_nil _).symm,rfl,rfl,rfl⟩
    by_cases hg : g = f
    · subst hg
      simp [Coroutines.setStage,setFrame,c,returning,LinkedCoroutine.data]
    · simp [Coroutines.setStage,setFrame,c,returning,hg]

/-- The log of the end, in order. -/
theorem Coroutines.Ends.effects {V : Type} {s t : Coroutines V} {f v : Nat}
    {info : Option ResponseInfo} {value : V} (h : s.Ends t f v info value)
    (hdone : (s.frames f).doneFlag = false) :
    s.effects t f = [completion info value,.deleteLocal v] := by
  have hdata := h.data f
  rw [if_pos rfl,hdone,Bool.false_or] at hdata
  have hflag : (t.frames f).doneFlag = info.isNone := congrArg (fun x => x.2.1) hdata
  unfold Coroutines.effects
  rw [h.sent,h.deleted,hflag,hdone,List.drop_left,List.drop_left]
  cases info with
  | some request => rfl
  | none => rfl

theorem Coroutines.Ends.completed {V : Type} {s t : Coroutines V} {f v : Nat}
    {info : Option ResponseInfo} {value : V} (h : s.Ends t f v info value)
    (hlt : f < s.count) (g : Nat) : t.completed g ↔ s.completed g ∨ g = f := by
  unfold Coroutines.completed
  rw [h.count,h.stage]
  by_cases hg : g = f
  · simp [hg,hlt]
  · simp [hg]

theorem Coroutines.Ends.other {V : Type} {s t : Coroutines V} {f v : Nat}
    {info : Option ResponseInfo} {value : V} (h : s.Ends t f v info value) {g : Nat}
    (hg : g ≠ f) : (t.frames g).data = (s.frames g).data := by
  rw [h.data,if_neg hg]

theorem Coroutines.Ends.var {V : Type} {s t : Coroutines V} {f v : Nat}
    {info : Option ResponseInfo} {value : V} (h : s.Ends t f v info value) :
    (t.frames f).coroLocalVar = none := by
  have hdata := h.data f
  rw [if_pos rfl] at hdata
  exact congrArg Prod.fst hdata

theorem Coroutines.Ends.cnt {V : Type} {s t : Coroutines V} {f v : Nat}
    {info : Option ResponseInfo} {value : V} (h : s.Ends t f v info value) (g : Nat) :
    (t.frames g).frameRunningCnt = (s.frames g).frameRunningCnt := by
  have hdata := h.data g
  by_cases hg : g = f
  · rw [hg,if_pos rfl] at hdata
    rw [hg]
    exact congrArg (fun x => x.2.2) hdata
  · exact data_count (h.other hg)

theorem Coroutines.Ends.some_var {V : Type} {s t : Coroutines V} {f v : Nat}
    {info : Option ResponseInfo} {value : V} (h : s.Ends t f v info value) {g w : Nat}
    (hw : (t.frames g).coroLocalVar = some w) :
    g ≠ f ∧ (s.frames g).coroLocalVar = some w := by
  have hg : g ≠ f := by
    intro heq
    rw [heq,h.var] at hw
    cases hw
  exact ⟨hg,(data_var (h.other hg)).symm.trans hw⟩

theorem Audit.Vars.ends {V : Type} {a : Audit V} {t : Coroutines V} {stack : Nat → List Nat}
    (h : a.Vars stack) (hc : t.Chained stack) {f v : Nat} {value : V}
    (hlt : f < a.coro.count) (halone : stack f = [f])
    (hvar : (a.coro.frames f).coroLocalVar = some v)
    (ht : a.coro.Ends t f v (a.requested f) value) (log : List (Nat × Effect V)) :
    (a.after t a.requested log).Vars stack := by
  obtain ⟨hvlt,hvdel,_⟩ := h.own f v (by simp [halone]) hvar
  refine ⟨hc.shared,hc.begun,fun r w hr hw => ?_,hc.apart,fun w hw => ?_,?_,fun g hg hw => ?_,
    fun g hg => ?_,fun g hg => ?_,hc.heads,hc.left⟩
  · obtain ⟨hrf,hw'⟩ := ht.some_var hw
    obtain ⟨hwlt,hwdel,i,hi⟩ := h.own r w hr hw'
    have hwv : w ≠ v := by
      intro heq
      exact hrf (h.apart r f v hr (by simp [halone]) (heq ▸ hw') hvar)
    refine ⟨by simp only [after,ht.nextId]; exact hwlt,?_,i,?_⟩
    · simp only [after,ht.deleted]
      simp [hwdel,hwv]
    · simp only [after,ht.locals,Function.update_of_ne hwv]
      exact hi
  · simp only [after,ht.deleted,ht.nextId] at hw ⊢
    rcases List.mem_append.mp hw with hw | hw
    · exact h.past w hw
    · rw [List.mem_singleton.mp hw]
      exact hvlt
  · simp only [after,ht.deleted]
    refine List.nodup_append.mpr ⟨h.once,by simp,fun x hx y hy heq => ?_⟩
    rw [heq,List.mem_singleton.mp hy] at hx
    exact hvdel hx
  · simp only [after,ht.completed hlt,not_or] at hg
    simp only [after,data_var (ht.other hg.2)] at hw
    exact h.unrequested g hg.1 hw
  · simp only [after,ht.completed hlt] at hg ⊢
    by_cases hgf : g = f
    · rw [hgf]
      exact ht.var
    · rw [data_var (ht.other hgf)]
      exact h.completed g (hg.resolve_right hgf)
  · simp only [after,ht.count] at hg ⊢
    have hgf : g ≠ f := fun heq => absurd hlt (Nat.not_lt_of_le (heq ▸ hg))
    rw [ht.other hgf]
    exact h.unborn g hg

theorem Audit.effectsOf_append {V : Type} {a b : Audit V} {f : Nat} {l : List (Effect V)}
    (h : b.log = a.log ++ l.map (fun x => (f,x))) (g : Nat) :
    b.effectsOf g = a.effectsOf g ++ if g = f then l else [] := by
  unfold Audit.effectsOf
  rw [h,List.filterMap_append,List.filterMap_map]
  congr 1
  by_cases hg : g = f
  · simp [hg]
  · simp [Ne.symm hg,hg]

theorem Audit.Books.ends {V : Type} {a : Audit V} {t : Coroutines V} (h : a.Books) {f v : Nat}
    {value : V} (hf : a.coro.stage f = .running)
    (hlt : f < a.coro.count) (hvar : (a.coro.frames f).coroLocalVar = some v)
    (ht : a.coro.Ends t f v (a.requested f) value) :
    (a.after t a.requested (a.log ++ (a.coro.effects t f).map (fun x => (f,x)))).Books := by
  have hover := ht.completed hlt
  have hnot : ¬ a.coro.completed f := by simp [Coroutines.completed,hf]
  have heffects := ht.effects (h.waiting f hnot)
  have hlog := fun g => @effectsOf_append V a
    (a.after t a.requested (a.log ++ (a.coro.effects t f).map (fun x => (f,x)))) f _ rfl g
  have hlocal : ∀ g, (t.frames g).coroLocalVar.or (a.localOf g) = a.localOf g := by
    intro g
    exact or_known (fun w hw => h.known g w (ht.some_var hw).2)
  rw [heffects] at hlog ⊢
  constructor
  · simp only [after,ht.running]
    cases hc : (a.coro.frames f).frameRunningCnt with
    | true =>
      refine h.running.remove (x := f) ⟨hlt,hc,hnot⟩ (fun g => ?_)
      rw [ht.count,ht.cnt,hover]
      simp only [not_or,and_assoc]
    | false =>
      simp only [Bool.false_eq_true,if_false,Int.sub_zero]
      refine h.running.congr (fun g => ?_)
      rw [ht.count,ht.cnt,hover]
      by_cases hg : g = f
      · simp [hg,hc]
      · simp [hg]
  · intro g hg
    simp only [after,hover,not_or] at hg
    simp only [after,data_done (ht.other hg.2)]
    exact h.waiting g hg.1
  · intro g hg
    simp only [after,hover] at hg
    rw [hlog]
    simp only [after,hlocal,ht.result]
    by_cases hgf : g = f
    · rw [hgf,Function.update_self,h.others f hnot,if_pos rfl]
      exact ⟨value,v,rfl,h.known f v hvar,rfl⟩
    · rw [Function.update_of_ne hgf,if_neg hgf,List.append_nil]
      exact h.finished g (hg.resolve_right hgf)
  · intro g hg
    simp only [after,hover,not_or] at hg
    rw [hlog,if_neg hg.2,List.append_nil]
    exact h.others g hg.1
  · intro g w hw
    simp only [after,hlocal] at hw ⊢
    exact h.known g w (ht.some_var hw).2
  · intro g hg hw
    simp only [after,hover,not_or] at hg
    simp only [after,hlocal,data_var (ht.other hg.2)] at hw ⊢
    exact h.unknown g hg.1 hw
  · simp only [after,ht.sent,h.sent,List.filterMap_append]
    congr 1
  · simp only [after,ht.deleted,h.deleted,List.filterMap_append]
    congr 1
    cases a.requested f <;> rfl
  · intro g
    rw [hlog]
    by_cases hgf : g = f
    · rw [hgf,h.others f hnot,if_pos rfl]
      have hdata := ht.data f
      rw [if_pos rfl,h.waiting f hnot,Bool.false_or] at hdata
      have hflag : (t.frames f).doneFlag = (a.requested f).isNone :=
        congrArg (fun x => x.2.1) hdata
      simp only [after,hflag]
      cases a.requested f <;> simp [completion]
    · rw [if_neg hgf,List.append_nil]
      simp only [after,data_done (ht.other hgf)]
      exact h.notified g

structure Audit.Sound {V : Type} (a : Audit V) (stack : Nat → List Nat) : Prop where
  threads : a.coro.Stacks stack
  vars : a.Vars stack
  books : a.Books

theorem Audit.Sound.chained {V : Type} {a : Audit V} {stack : Nat → List Nat}
    (h : a.Sound stack) : a.coro.Chained stack := h.vars.chained h.threads

theorem Audit.Sound.quiet {V : Type} {a : Audit V} {t : Coroutines V} {stack stack' : Nat → List Nat}
    (h : a.Sound stack) (hc : t.Chained stack') (hk : a.coro.Keeps t)
    (hcount : a.coro.count ≤ t.count) (hover : ∀ f, t.completed f ↔ a.coro.completed f)
    (hstack : ∀ r, ∀ f ∈ stack' r, f ∈ stack r)
    (hresult : ∀ f, a.coro.completed f → t.result f = a.coro.result f) :
    (a.after t a.requested a.log).Sound stack' :=
  ⟨hc.threads,h.vars.quiet hc hk hcount hover hstack _,h.books.quiet h.vars hk hcount hover hresult⟩

theorem Audit.Sound.still {V : Type} {a : Audit V} {t : Coroutines V} {stack : Nat → List Nat}
    (h : a.Sound stack) (ht : t.Stacks stack) (hk : a.coro.Keeps t)
    (hstage : t.stage = a.coro.stage) (hcount : t.count = a.coro.count)
    (hresult : t.result = a.coro.result) : (a.after t a.requested a.log).Sound stack := by
  refine h.quiet (h.chained.still ht hk hstage) hk (Nat.le_of_eq hcount.symm) (fun f => ?_)
    (fun _ _ hin => hin) (fun f _ => congrFun hresult f)
  simp only [Coroutines.completed,hstage,hcount]

theorem Audit.Sound.moves {V : Type} {a : Audit V} {t : Coroutines V} {stack : Nat → List Nat}
    {f : Nat} {stage : Stage} (h : a.Sound stack) (ht : t.Stacks stack) (hk : a.coro.Keeps t)
    (hstage : t.stage = Function.update a.coro.stage f stage) (hcount : t.count = a.coro.count)
    (hended : stage.ended = (a.coro.stage f).ended)
    (hbegun : stage.begun = true →
      (a.coro.stage f).begun = true ∨ (a.coro.frames f).coroLocalVar ≠ none)
    (hleft : stage ≠ .returned) (hresult : t.result = a.coro.result) :
    (a.after t a.requested a.log).Sound stack := by
  refine h.quiet (h.chained.moves ht hk hstage hbegun hleft) hk (Nat.le_of_eq hcount.symm)
    (fun g => ?_) (fun _ _ hin => hin) (fun g _ => congrFun hresult g)
  rw [Coroutines.completed_iff,Coroutines.completed_iff,hstage,hcount]
  by_cases hgf : g = f
  · rw [hgf,Function.update_self,hended]
  · rw [Function.update_of_ne hgf]

theorem Audit.after_after {V : Type} (a : Audit V) {t u : Coroutines V}
    (requested : Nat → Option ResponseInfo) (log : List (Nat × Effect V))
    (h : ∀ f, (t.frames f).coroLocalVar = (u.frames f).coroLocalVar) :
    (a.after u requested log).after t requested log = a.after t requested log := by
  unfold after
  congr 1
  funext f
  simp only [h]
  cases (u.frames f).coroLocalVar <;> rfl

theorem Audit.Sound.begin {V : Type} {a : Audit V} {stack : Nat → List Nat} (h : a.Sound stack)
    {f : Nat} (hlt : f < a.coro.count)
    (hf : a.coro.stage f = .fresh ∨ a.coro.stage f = .committed) :
    (a.after (a.coro.begin f) a.requested a.log).Sound stack := by
  have hplain : (a.coro.stage f).task = none ∧ a.coro.stage f ≠ .returned := by
    rcases hf with hf | hf <;> simp [hf,Stage.task]
  have hidle : (a.coro.stage f).idle = true := by
    rcases hf with hf | hf <;> simp [hf,Stage.idle]
  have hended : (a.coro.stage f).ended = false := by
    rcases hf with hf | hf <;> simp [hf,Stage.ended]
  have hover : ¬ a.coro.completed f := by simp [Coroutines.completed_iff,hended]
  have hstacks := h.threads.begin hplain
  cases hvar : (a.coro.frames f).coroLocalVar with
  | some v =>
    have hsome : (a.coro.frames f).coroLocalVar ≠ none := by simp [hvar]
    rw [Coroutines.begin_some hsome] at hstacks ⊢
    exact h.moves hstacks ⟨fun _ => rfl,rfl⟩ rfl rfl hended.symm (fun _ => .inr hsome)
      (by simp) rfl
  | none =>
    rw [Coroutines.begin_none hvar] at hstacks ⊢
    have hreq : Function.update a.requested f none = a.requested := by
      rw [← h.vars.unrequested f hover hvar,Function.update_eq_self]
    have hnew : (a.after (a.coro.newLocal f none) a.requested a.log).Sound stack := by
      have hv := h.vars.newLocal h.threads hlt hover (h.threads.idle f hidle) none a.log
      have hb := h.books.newLocal hover none
      rw [hreq] at hv hb
      exact ⟨h.threads.of_links (a.coro.newLocal_links f none) rfl (fun _ _ hi => hi),hv,hb⟩
    have htwice := a.after_after (t := (a.coro.newLocal f none).setStage f .running)
      (u := a.coro.newLocal f none) a.requested a.log (fun _ => rfl)
    rw [← htwice]
    refine hnew.moves hstacks ⟨fun _ => rfl,rfl⟩ rfl rfl hended.symm (fun _ => .inr ?_)
      (by simp) rfl
    simp [after,Coroutines.newLocal_var]

theorem Audit.Sound.call {V : Type} {a : Audit V} {t : Coroutines V} {stack : Nat → List Nat}
    {f i : Nat} (h : a.Sound stack) (hl : a.coro.Ledger) (he : a.coro.Acts (.await f i) t) :
    ∃ stack', (a.after t a.requested a.log).Sound stack' := by
  cases he with
  | @await _ _ child frames hf ht hc hlink =>
    obtain ⟨r,l,hr⟩ := h.threads.top (f := f) (by simp [hf]) (by simp [hf])
    have hb : (a.coro.stage f).begun = true := by rw [hf]; rfl
    have hvar := h.vars.begun f hb
    have hshares := Coroutines.called_shares (t := i) hf hc hvar hlink
    have hchild : stack child = [child] := h.threads.idle child (by rw [hc]; rfl)
    have hover : ¬ a.coro.completed child := by simp [Coroutines.completed_iff,hc,Stage.ended]
    have hne : r ≠ child := h.threads.root_ne (f := f) (by simp [hr]) (by simp [hf]) hc
    have hstacks := h.threads.called hf ht hc hlink hr
    have hchained := h.chained.called hb hr hchild hne (hl.fresh child hc) hshares hstacks
    exact ⟨_,hstacks,h.vars.called hchained (by simp [hr]) hne hvar
      (hl.started child (by simp [hc])) hover hshares a.log,h.books.called hvar hover hshares⟩

theorem Coroutines.Keeps.effects {V : Type} {s t : Coroutines V} (h : s.Keeps t) (f : Nat) :
    s.effects t f = [] := by
  unfold Coroutines.effects
  rw [h.sent,h.deleted,data_done (h.data f),List.drop_length,List.drop_length]
  cases (s.frames f).doneFlag <;> rfl

/-- A child that returns has no effect besides the return. -/
theorem Audit.Sound.giveBack {V : Type} {a : Audit V} {t : Coroutines V}
    {stack : Nat → List Nat} {f : Nat} {result : Option V} (h : a.Sound stack)
    (he : a.coro.Acts (.finish f result) t) (hroot : (a.coro.frames f).empty f = false) :
    a.coro.Keeps t ∧ ∃ stack', (a.after t a.requested a.log).Sound stack' := by
  obtain ⟨hkeeps,stack',hchained,hsub,hended⟩ := h.chained.giveBack he hroot
  cases he with
  | complete _ hroot' =>
    rw [hroot] at hroot'
    cases hroot'
  | giveBack hf =>
    refine ⟨hkeeps,_,h.quiet hchained hkeeps (Nat.le_refl _) (fun g => ?_) hsub (fun g hg => ?_)⟩
    · rw [Coroutines.completed_iff,Coroutines.completed_iff,hended]
      rfl
    · have hgf : g ≠ f := by
        intro heq
        simp [Coroutines.completed_iff,heq,hf,Stage.ended] at hg
      exact Function.update_of_ne hgf _ _

theorem Audit.Sound.complete {V : Type} {a : Audit V} {stack : Nat → List Nat} {f : Nat}
    {value : V} (h : a.Sound stack) (hl : a.coro.Ledger) (hnext : a.coro.stage a.coro.count = .done)
    (hf : a.coro.stage f = .running) (hroot : (a.coro.frames f).empty f = true) :
    (a.record (.finish f (some value)) ((a.coro.returning f (some value)).complete f)).Sound
      stack := by
  have halone := (h.threads.alone_iff (by simp [hf])).mp hroot
  have hlt := hl.started f (by simp [hf])
  cases hvar : (a.coro.frames f).coroLocalVar with
  | none => exact absurd hvar (h.vars.begun f (by rw [hf]; rfl))
  | some v =>
    obtain ⟨_,_,i,hi⟩ := h.vars.own f v (by simp [halone]) hvar
    have hends := a.coro.complete_ends value hvar hi
    have hacts : a.coro.Acts (.finish f (some value)) _ := .complete hf hroot
    have hstacks := h.threads.keep hnext hacts hroot
    have hchained := h.chained.complete halone hstacks
    exact ⟨hstacks,h.vars.ends hchained hlt halone hvar hends _,h.books.ends hf hlt hvar hends⟩

theorem Audit.Sound.create {V : Type} {a : Audit V} {stack : Nat → List Nat} (h : a.Sound stack)
    (hnext : a.coro.stage a.coro.count = .done) :
    (a.after a.coro.create a.requested a.log).Sound stack := by
  have hkeeps := Coroutines.Keeps.create (h.vars.unborn _ (Nat.le_refl _))
  refine h.quiet (h.chained.create hnext) hkeeps (Nat.le_succ _) (fun g => ?_)
    (fun _ _ hin => hin) (fun _ _ => rfl)
  rw [Coroutines.completed_iff,Coroutines.completed_iff]
  by_cases hgc : g = a.coro.count
  · rw [hgc,a.coro.create_new.2]
    simp [Stage.ended]
  · rw [(a.coro.create_old hgc).2]
    show g < a.coro.count + 1 ∧ _ ↔ _
    have hlt : g < a.coro.count + 1 ↔ g < a.coro.count := by omega
    rw [hlt]

theorem Audit.record_finish {V : Type} (a : Audit V) (f : Nat) (result : Option V)
    (t : Coroutines V) : a.record (.finish f result) t =
      a.after t a.requested (a.log ++ (a.coro.effects t f).map (fun x => (f,x))) := rfl

theorem Audit.Sound.step {V : Type} {a : Audit V} {t : Coroutines V} {stack : Nat → List Nat}
    {e : Event V} (h : a.Sound stack) (hl : a.coro.Ledger) (hok : a.returnsValue e = true)
    (he : a.coro.Acts e t) : ∃ stack', (a.record e t).Sound stack' := by
  have hnext := hl.next_done
  have hkeep := fun hk => h.threads.keep hnext he hk
  cases he with
  | create => exact ⟨stack,h.create hnext⟩
  | @copy i f ht =>
    have hframe := Coroutines.Keeps.setFrame { a.coro with
      tasks := a.coro.tasks ++ [CoroTask.handle (some f)] } f
        { a.coro.frames f with refCnt := (a.coro.frames f).refCnt.inc } rfl
    exact ⟨stack,h.still (hkeep rfl) ⟨hframe.data,hframe.globals⟩ rfl rfl rfl⟩
  | move ht => exact ⟨stack,h.still (hkeep rfl) ⟨fun _ => rfl,rfl⟩ rfl rfl rfl⟩
  | @drop i promise ht =>
    have hcount : (a.coro.drop i promise).count = a.coro.count := by
      cases promise <;> rfl
    exact ⟨stack,h.still (hkeep rfl) (.drop a.coro i promise) (a.coro.drop_stage i promise) hcount
      (a.coro.drop_result i promise)⟩
  | @request i f info ht hf hvar =>
    have hover : ¬ a.coro.completed f := by simp [Coroutines.completed_iff,hf,Stage.ended]
    have hstart : a.coro.startable i = some f := by simp [Coroutines.startable,ht,hf]
    have hrec : a.record (.request i info) (a.coro.newLocal f (some info)) =
        a.after (a.coro.newLocal f (some info))
          (Function.update a.requested f (some info)) a.log := by
      simp only [record,after,hstart]
    rw [hrec]
    exact ⟨stack,hkeep rfl,h.vars.newLocal h.threads (hl.started f (by simp [hf])) hover
      (h.threads.idle f (by rw [hf]; rfl)) _ a.log,h.books.newLocal hover _⟩
  | refused => exact ⟨stack,h.still h.threads (.refl _) rfl rfl rfl⟩
  | @commit i f ht hf hstop =>
    have hlt := hl.started f (by simp [hf])
    have hchained := h.chained.commit hf hstop (hkeep rfl)
    exact ⟨stack,hkeep rfl,h.vars.commit hstop hchained hf hlt a.log,
      h.books.commit hstop hf hlt (hl.fresh f hf)⟩
  | stop => exact ⟨stack,h.still (hkeep rfl) ⟨fun _ => rfl,rfl⟩ rfl rfl rfl⟩
  | @resume i f ht hf => exact ⟨stack,h.begin (hl.started f (by simp [hf])) (.inl hf)⟩
  | @start f hf => exact ⟨stack,h.begin (hl.started f (by simp [hf])) (.inr hf)⟩
  | @suspend f hf =>
    exact ⟨stack,h.moves (hkeep rfl) ⟨fun _ => rfl,rfl⟩ rfl rfl (by rw [hf]; rfl)
      (fun _ => .inl (by rw [hf]; rfl)) (by simp) rfl⟩
  | @wake f hf =>
    exact ⟨stack,h.moves (hkeep rfl) ⟨fun _ => rfl,rfl⟩ rfl rfl (by rw [hf]; rfl)
      (fun _ => .inl (by rw [hf]; rfl)) (by simp) rfl⟩
  | @run f hf =>
    exact ⟨stack,h.moves (hkeep rfl) ⟨fun _ => rfl,rfl⟩ rfl rfl (by rw [hf]; rfl)
      (fun _ => .inl (by rw [hf]; rfl)) (by simp) rfl⟩
  | @await f i child frames hf ht hc hlink => exact h.call hl (.await hf ht hc hlink)
  | @back f i child hf ht =>
    have hdrop := Coroutines.Keeps.drop a.coro i (some child)
    exact ⟨stack,h.moves (hkeep rfl) ⟨hdrop.data,hdrop.globals⟩ rfl rfl (by rw [hf]; rfl)
      (fun _ => .inl (by rw [hf]; rfl)) (by simp) rfl⟩
  | @complete f result hf hroot =>
    cases result with
    | none =>
      simp only [returnsValue,hroot] at hok
      cases hok
    | some value => exact ⟨stack,h.complete hl hnext hf hroot⟩
  | @giveBack f caller i result frames hf hroot hprev hc hunlink =>
    obtain ⟨hkeeps,stack',hs⟩ := h.giveBack (.giveBack hf hroot hprev hc hunlink) hroot
    refine ⟨stack',?_⟩
    have hrec : a.record (.finish f result)
        ((a.coro.returning f result).giveBack frames f caller i) =
        a.after ((a.coro.returning f result).giveBack frames f caller i) a.requested a.log := by
      rw [a.record_finish,hkeeps.effects f,List.map_nil,List.append_nil]
    rw [hrec]
    exact hs
  | @release f hf =>
    have hframe := Coroutines.Keeps.setFrame a.coro f
      { a.coro.frames f with refCnt := (a.coro.frames f).refCnt.dec.2 } rfl
    exact ⟨stack,h.moves (hkeep rfl) ⟨hframe.data,hframe.globals⟩ rfl rfl (by rw [hf]; rfl)
      (fun hb => by cases hb) (by simp) rfl⟩

theorem Audit.start_sound {V : Type} : (start : Audit V).Sound (fun f => [f]) := by
  refine ⟨Coroutines.start_stacks,?_,?_⟩
  · have hover : ∀ f, ¬ (start : Audit V).coro.completed f := fun f hf => absurd hf.1 (Nat.not_lt_zero _)
    constructor
    · intro r f hf
      rfl
    · intro f hf
      cases hf
    · intro r v _ hv
      cases hv
    · intro r q v _ _ hv
      cases hv
    · intro v hv
      cases hv
    · exact List.nodup_nil
    · exact fun f _ _ => rfl
    · exact fun f hf => absurd hf (hover f)
    · exact fun f _ => rfl
    · intro r f _ hc
      cases hc
    · intro f hf
      cases hf
  · have hover : ∀ f, ¬ (start : Audit V).coro.completed f := fun f hf => absurd hf.1 (Nat.not_lt_zero _)
    constructor
    · exact Custody.numbers_none (fun f hf => absurd hf.1 (Nat.not_lt_zero _))
    · exact fun f _ => rfl
    · exact fun f hf => absurd hf (hover f)
    · exact fun f _ => rfl
    · intro f v hv
      cases hv
    · exact fun f _ _ => rfl
    · rfl
    · rfl
    · intro f
      simp [start,Coroutines.start,LinkedCoroutine.new,effectsOf]

theorem Audit.Sound.ends {V : Type} {a : Audit V} {stack : Nat → List Nat} (h : a.Sound stack)
    (hl : a.coro.Ledger) {f : Nat} (value : V) (hf : a.coro.stage f = .running)
    (hcaller : ∀ p, a.coro.callee p ≠ some f) : ∃ b, a.step (.finish f (some value)) = some b ∧
      b.coro.completed f ∧ b.coro.result f = some value := by
  have hroot : (a.coro.frames f).empty f = true := by
    by_cases hroot : (a.coro.frames f).empty f = true
    · exact hroot
    · obtain ⟨r,l,p,t,_,hp,ht,_⟩ := h.threads.below hf (Bool.eq_false_iff.mpr hroot)
      exact absurd (Coroutines.callee_awaiting hp ht) (hcaller p)
  let u := (a.coro.returning f (some value)).complete f
  have hstep : a.coro.step (.finish f (some value)) = some u := by
    rw [Coroutines.step,if_pos hf,Coroutines.finalSuspend]
    exact if_pos hroot
  refine ⟨a.record (.finish f (some value)) u,by rw [Audit.step,hstep]; rfl,?_,?_⟩
  · refine (u.completed_iff f).mpr ⟨?_,?_⟩
    · show f < u.count
      rw [Coroutines.complete_births]
      exact hl.started f (by simp [hf])
    · rw [Coroutines.complete_stage,Function.update_self]
      rfl
  · show u.result f = some value
    rw [Coroutines.complete_result]
    exact Function.update_self ..

theorem Audit.Sound.rootsComplete {V : Type} {a : Audit V} {stack : Nat → List Nat}
    (h : a.Sound stack) (hl : a.coro.Ledger) : a.RootsComplete := by
  refine ⟨h.books.running,?_,h.books.running.nonneg,fun _ value => h.ends hl value,
    h.books.finished,h.books.others,?_,h.vars.once,h.books.sent,h.books.deleted,h.books.notified⟩
  · intro f hcnt
    have hret : a.coro.stage f ≠ .returned := by
      intro hf
      rw [h.vars.left f hf] at hcnt
      cases hcnt
    refine ⟨hret,fun p hp => ?_⟩
    obtain ⟨r,l,m,hr⟩ := h.threads.caller hp
    have hfr := h.vars.heads r f (by simp [hr]) hcnt
    have hstack := h.threads.callStack (r := r) (by simp [hr])
    exact hstack.2.2.1 p (hfr ▸ hp)
  · intro r l hl f hf
    obtain ⟨hne,heq⟩ := h.threads.eq_of_callStack hl
    rw [heq] at hf
    have hshared := h.vars.shared r f hf
    cases hv : (a.coro.frames r).coroLocalVar with
    | some v => rw [h.books.known f v (hshared.trans hv),h.books.known r v hv]
    | none =>
      -- without a local variable a root has not been started or is over: it is alone
      have hidle : ∀ g ∈ stack r, (a.coro.stage g).begun = false := by
        intro g hg
        rw [Bool.eq_false_iff]
        exact fun hb => h.vars.begun g hb ((h.vars.shared r g hg).trans hv)
      have hidle' : (a.coro.stage r).idle = true := by
        have hb := hidle r (h.threads.threaded.root_mem hne)
        have hret := hl.2.1
        cases hs : a.coro.stage r <;> simp_all [Stage.begun,Stage.idle]
      rw [h.threads.idle r hidle'] at hf
      rw [List.mem_singleton.mp hf]

theorem Audit.reaches_sound {V : Type} {a : Audit V}
    (h : Transition.Reaches Audit.step Audit.returnsValue Audit.start a) :
    a.coro.Ledger ∧ ∃ stack, a.Sound stack := by
  refine h.invariant (I := fun a => a.coro.Ledger ∧ ∃ stack, a.Sound stack) ?_ ?_
  · intro a e b hi hok he
    obtain ⟨hledger,stack,hs⟩ := hi
    obtain ⟨t,ht,heq⟩ := Option.map_eq_some_iff.mp he
    obtain ⟨stack',hs'⟩ := hs.step hledger hok (Coroutines.step_acts ht)
    subst heq
    exact ⟨(Coroutines.step_took ht).ledger hledger,stack',hs'⟩
  · exact ⟨Coroutines.start_ledger,_,Audit.start_sound⟩

/-- The response of a root is sent wherever it fits the heap: to the endpoint of its request,
with the request's id and the root's result. -/
theorem roots_complete {R : Reflection} (a : Audit ((t : Ty R.Name) × Val R t))
    (h : Transition.Reaches Audit.step Audit.returnsValue Audit.start a) :
    a.RootsComplete ∧ ∀ (p : Platform) (ndebug : Bool) (listenPort : Word .w16), ∀ x ∈ a.log,
      ∀ info value, x.2 = .respond info value →
        (32 + getSerializeSize value.2 ≤ p.heap → ∃ header : PackageHeader,
          header.rpcId = info.responseToCoroId ∧ sendResponse p ndebug info listenPort value.2 =
            .ok (info.responseToEndPoint,header.bytes ++ encode value.2)) ∧
        (p.heap < 32 + getSerializeSize value.2 →
          sendResponse p ndebug info listenPort value.2 = .error .abort) := by
  obtain ⟨hledger,stack,hs⟩ := Audit.reaches_sound h
  refine ⟨hs.rootsComplete hledger,?_⟩
  intro p ndebug listenPort x _ info value _
  rw [sendResponse_eq]
  refine ⟨fun hfits => ?_,fun hlarge => if_pos hlarge⟩
  rw [if_neg (by omega)]
  exact ⟨_,rfl,rfl⟩

def servedAndCommitted : List (Event ((t : Ty personReflection.Name) × Val personReflection t)) :=
  [.create,.request 0 ⟨EndPoint.v4 1 8000,5,1⟩,.commit 0,.start 0,.create,.await 0 1,
    .finish 1 (some ⟨.string,.string [104]⟩),.back 0,.create,.commit 3,
    .finish 0 (some ⟨.string,.string [104,105]⟩),.release 0,.start 2,
    .finish 2 (some ⟨.string,.string []⟩)]

theorem servedAndCommitted_complete :
    ∃ a : Audit ((t : Ty personReflection.Name) × Val personReflection t),
      a.log.map Prod.fst = [0,0,2,2] ∧ a.coro.sent.length = 1 ∧ a.coro.deleted = [0,1] ∧
        (a.coro.frames 2).doneFlag = true ∧ a.coro.runningCoroCnt = 0 ∧ a.RootsComplete := by
  have hrun : (Transition.run Audit.step Audit.returnsValue .start servedAndCommitted).map
      (fun a => (a.log.map Prod.fst,a.coro.sent.length,a.coro.deleted,(a.coro.frames 2).doneFlag,
        a.coro.runningCoroCnt)) = some ([0,0,2,2],1,[0,1],true,0) := by decide
  obtain ⟨a,ha,heq⟩ := Option.map_eq_some_iff.mp hrun
  simp only [Prod.mk.injEq] at heq
  obtain ⟨h1,h2,h3,h4,h5⟩ := heq
  exact ⟨a,h1,h2,h3,h4,h5,(roots_complete a (Transition.reaches_of_run ha)).1⟩

end NewRpc.Task
