import NewRpc.Resumable
import NewRpc.RootEffects

/-!
Coroutines with bodies: what they compute does not depend on the frames, the scheduling
and the other coroutines that run beside them.
-/

set_option autoImplicit false

namespace NewRpc.Task
open Resumable

/-- `entry` is the call that a frame was created by and `place` where its body is now;
`answers` is what its asynchronous actions and those of the children it has awaited have
given it. A coroutine of type `void` returns `none`. -/
structure Programs (L V A : Type) where
  audit : Audit V
  entry : Nat → Option L
  place : Nat → Option L
  answers : Nat → List A

inductive Action (L V A : Type) where
  | create (callee : L)
  | await (f t : Nat)
  | call (f : Nat)
  | back (f : Nat)
  | suspend (f : Nat)
  | run (f : Nat) (answer : A)
  | finish (f : Nat)
  | other (e : Event V)

def Event.bodiless {V : Type} : Event V → Bool
  | .create | .await _ _ | .back _ | .suspend _ | .run _ | .finish _ _ => false
  | _ => true

def Coroutines.returner {V : Type} (s : Coroutines V) (f : Nat) : Option Nat :=
  match s.stage f with
  | .back t => match s.tasks[t]? with
      | some (.middle child) => some child
      | _ => none
  | _ => none

section
variable {L V A : Type}

abbrev Programs.coro (s : Programs L V A) : Coroutines V := s.audit.coro

def Programs.lift (s : Programs L V A) (e : Event V) : Option (Programs L V A) :=
  (s.audit.step e).map (fun audit => { s with audit := audit })

def Programs.moved (s : Programs L V A) (f : Nat) (l : L) (answers : List A) : Programs L V A :=
  { s with
    place := Function.update s.place f (some l)
    answers := Function.update s.answers f (s.answers f ++ answers) }

def Programs.born (s : Programs L V A) (f : Nat) (l : L) : Programs L V A :=
  { s with
    entry := Function.update s.entry f (some l)
    place := Function.update s.place f (some l)
    answers := Function.update s.answers f [] }

variable [DecidableEq L] (P : Program L (Option V) A)

def Programs.command (s : Programs L V A) (f : Nat) : Option (Command L (Option V) A) :=
  (s.place f).map P

def Programs.create (s : Programs L V A) (callee : L) : Option (Programs L V A) :=
  (s.lift .create).map (fun t => t.born s.coro.count callee)

def Programs.await (s : Programs L V A) (f t : Nat) : Option (Programs L V A) :=
  match s.command P f, s.coro.startable t with
  | some (.call callee _), some child =>
      if s.entry child = some callee then s.lift (.await f t) else none
  | _, _ => none

/-- A frame runs as its body says. A call is that of a coroutine function and its `co_await`;
a coroutine that was created before may be awaited as well. -/
def Programs.step (s : Programs L V A) : Action L V A → Option (Programs L V A)
  | .create callee => s.create callee
  | .await f t => s.await P f t
  | .call f => match s.command P f with
      | some (.call callee _) =>
          (s.create callee).bind (fun t => t.await P f s.coro.tasks.length)
      | _ => none
  | .back f => match s.command P f, s.coro.returner f with
      | some (.call _ rest), some child => (s.lift (.back f)).map (fun t =>
          t.moved f (rest (s.coro.result child)) (s.answers child))
      | _, _ => none
  | .suspend f => match s.command P f with
      | some (.ask _) => s.lift (.suspend f)
      | _ => none
  | .run f answer => match s.command P f with
      | some (.ask rest) => (s.lift (.run f)).map (fun t => t.moved f (rest answer) [answer])
      | _ => none
  | .finish f => match s.command P f with
      | some (.ret value) => s.lift (.finish f value)
      | _ => none
  | .other e => if e.bodiless then s.lift e else none

omit [DecidableEq L] in
def Programs.start : Programs L V A := ⟨.start,fun _ => none,fun _ => none,fun _ => []⟩

end

def Stage.over : Stage → Bool
  | .returned | .ending | .done => true
  | _ => false

def Stage.asks : Stage → Bool
  | .suspended | .queued => true
  | _ => false

def Stage.waits : Stage → Bool
  | .fresh | .committed => true
  | _ => false

structure Coroutines.Plain {V : Type} (s t : Coroutines V) : Prop where
  count : t.count = s.count
  result : t.result = s.result
  task : ∀ f, (t.stage f).task = (s.stage f).task
  ended : ∀ f, (t.stage f).over = (s.stage f).over
  asks : ∀ f, (t.stage f).asks = true → (s.stage f).asks = true
  waits : ∀ f, (t.stage f).waits = true → (s.stage f).waits = true
  middle : ∀ (i c : Nat), t.tasks[i]? = some (.middle c) → s.tasks[i]? = some (.middle c)

theorem middle_of_append {tasks : List CoroTask} {i c : Nat} {new : CoroTask}
    (hnew : ∀ c, new ≠ .middle c) (hi : (tasks ++ [new])[i]? = some (.middle c)) :
    tasks[i]? = some (.middle c) := by
  rw [List.getElem?_append] at hi
  split at hi
  · exact hi
  · rw [List.getElem?_singleton] at hi
    split at hi
    · exact absurd (Option.some.inj hi) (hnew c)
    · cases hi

theorem middle_of_set {tasks : List CoroTask} {t i c : Nat} {new : CoroTask}
    (hnew : ∀ c, new ≠ .middle c) (hi : (tasks.set t new)[i]? = some (.middle c)) :
    tasks[i]? = some (.middle c) := by
  rw [List.getElem?_set] at hi
  split at hi
  · split at hi
    · exact absurd (Option.some.inj hi) (hnew c)
    · cases hi
  · exact hi

theorem Coroutines.plain_stage {V : Type} {s t : Coroutines V} {f : Nat} {stage : Stage}
    (hcount : t.count = s.count) (hresult : t.result = s.result) (htasks : t.tasks = s.tasks)
    (hstage : t.stage = Function.update s.stage f stage)
    (htask : stage.task = (s.stage f).task) (hover : stage.over = (s.stage f).over)
    (hasks : stage.asks = true → (s.stage f).asks = true)
    (hwaits : stage.waits = true → (s.stage f).waits = true) : s.Plain t := by
  refine ⟨hcount,hresult,fun g => ?_,fun g => ?_,fun g hg => ?_,fun g hg => ?_,
    fun i c hi => htasks ▸ hi⟩
  · rw [hstage]
    by_cases hg : g = f
    · subst hg
      rw [Function.update_self]
      exact htask
    · rw [Function.update_of_ne hg]
  · rw [hstage]
    by_cases hg : g = f
    · subst hg
      rw [Function.update_self]
      exact hover
    · rw [Function.update_of_ne hg]
  · rw [hstage] at hg
    by_cases hgf : g = f
    · subst hgf
      rw [Function.update_self] at hg
      exact hasks hg
    · rw [Function.update_of_ne hgf] at hg
      exact hg
  · rw [hstage] at hg
    by_cases hgf : g = f
    · subst hgf
      rw [Function.update_self] at hg
      exact hwaits hg
    · rw [Function.update_of_ne hgf] at hg
      exact hg

theorem Coroutines.begin_births {V : Type} (s : Coroutines V) (f : Nat) :
    (s.begin f).count = s.count := by
  unfold Coroutines.begin
  split <;> rfl

theorem Coroutines.drop_births {V : Type} (s : Coroutines V) (t : Nat) (promise : Option Nat) :
    (s.drop t promise).count = s.count := by
  cases promise <;> rfl

theorem Coroutines.Acts.plain {V : Type} {s t : Coroutines V} {e : Event V} (h : s.Acts e t)
    (he : e.bodiless = true) : s.Plain t := by
  have hbegin : ∀ f, (s.stage f = .fresh ∨ s.stage f = .committed) → s.Plain (s.begin f) := by
    intro f hf
    refine plain_stage (s.begin_births f) (s.begin_result f) (s.begin_tasks f) (s.begin_stage f)
      ?_ ?_ (by simp [Stage.asks]) (by simp [Stage.waits])
    · rcases hf with hf | hf <;> rw [hf] <;> rfl
    · rcases hf with hf | hf <;> rw [hf] <;> rfl
  cases h with
  | copy ht =>
    exact ⟨rfl,rfl,fun _ => rfl,fun _ => rfl,fun _ h => h,fun _ h => h,
      fun i c hi => middle_of_append (by simp) hi⟩
  | move ht =>
    exact ⟨rfl,rfl,fun _ => rfl,fun _ => rfl,fun _ h => h,fun _ h => h,
      fun i c hi => middle_of_set (by simp) (middle_of_append (by simp) hi)⟩
  | @drop i promise ht =>
    refine ⟨s.drop_births i promise,s.drop_result i promise,fun f => ?_,fun f => ?_,
      fun f hf => ?_,fun f hf => ?_,fun j c hj => ?_⟩
    · rw [s.drop_stage]
    · rw [s.drop_stage]
    · rw [s.drop_stage] at hf
      exact hf
    · rw [s.drop_stage] at hf
      exact hf
    · rw [s.drop_tasks] at hj
      exact middle_of_set (by simp) hj
  | request | refused | stop =>
    exact ⟨rfl,rfl,fun _ => rfl,fun _ => rfl,fun _ h => h,fun _ h => h,fun _ _ hi => hi⟩
  | @commit i f ht hf hstop =>
    exact plain_stage (s.commit_births f) (s.commit_result f) (s.commit_tasks f)
      (commit_stage hstop f) (by rw [hf]; rfl) (by rw [hf]; rfl) (by simp [Stage.asks])
      (fun _ => by rw [hf]; rfl)
  | resume ht hf => exact hbegin _ (.inl hf)
  | start hf => exact hbegin _ (.inr hf)
  | wake hf =>
    exact plain_stage rfl rfl rfl rfl (by rw [hf]; rfl) (by rw [hf]; rfl)
      (fun _ => by rw [hf]; rfl) (by simp [Stage.waits])
  | release hf =>
    exact plain_stage rfl rfl rfl rfl (by rw [hf]; rfl) (by rw [hf]; rfl) (by simp [Stage.asks])
      (by simp [Stage.waits])
  | create | suspend | run | await | back | complete | giveBack => cases he

section
variable {L V A : Type} {P : Program L (Option V) A} {s t : Programs L V A}

inductive Programs.Performs (P : Program L (Option V) A) (s : Programs L V A) :
    Action L V A → Programs L V A → Prop
  | create {callee : L} {audit : Audit V} (ha : s.audit.step .create = some audit) :
      Performs P s (.create callee) ({ s with audit := audit }.born s.coro.count callee)
  | await {f t child : Nat} {callee : L} {rest : Option V → L} {audit : Audit V}
      (hf : s.command P f = some (.call callee rest)) (hc : s.entry child = some callee)
      (ht : s.coro.startable t = some child) (ha : s.audit.step (.await f t) = some audit) :
      Performs P s (.await f t) { s with audit := audit }
  | back {f child : Nat} {callee : L} {rest : Option V → L} {audit : Audit V}
      (hf : s.command P f = some (.call callee rest)) (hc : s.coro.returner f = some child)
      (ha : s.audit.step (.back f) = some audit) : Performs P s (.back f)
        ({ s with audit := audit }.moved f (rest (s.coro.result child)) (s.answers child))
  | suspend {f : Nat} {rest : A → L} {audit : Audit V} (hf : s.command P f = some (.ask rest))
      (ha : s.audit.step (.suspend f) = some audit) :
      Performs P s (.suspend f) { s with audit := audit }
  | run {f : Nat} {rest : A → L} {answer : A} {audit : Audit V}
      (hf : s.command P f = some (.ask rest)) (ha : s.audit.step (.run f) = some audit) :
      Performs P s (.run f answer) ({ s with audit := audit }.moved f (rest answer) [answer])
  | finish {f : Nat} {value : Option V} {audit : Audit V}
      (hf : s.command P f = some (.ret value)) (ha : s.audit.step (.finish f value) = some audit) :
      Performs P s (.finish f) { s with audit := audit }
  | other {e : Event V} {audit : Audit V} (he : e.bodiless = true)
      (ha : s.audit.step e = some audit) : Performs P s (.other e) { s with audit := audit }

theorem Programs.lift_some {e : Event V} (h : s.lift e = some t) :
    ∃ audit, s.audit.step e = some audit ∧ t = { s with audit := audit } := by
  obtain ⟨audit,ha,heq⟩ := Option.map_eq_some_iff.mp h
  exact ⟨audit,ha,heq.symm⟩

theorem Programs.create_performs {callee : L} (h : s.create callee = some t) :
    s.Performs P (.create callee) t := by
  obtain ⟨u,hu,rfl⟩ := Option.map_eq_some_iff.mp h
  obtain ⟨audit,ha,rfl⟩ := lift_some hu
  exact .create ha

theorem Programs.await_performs [DecidableEq L] {f i : Nat} (h : s.await P f i = some t) :
    s.Performs P (.await f i) t := by
  unfold await at h
  split at h
  · rename_i callee rest child hf ht
    obtain ⟨hc,hl⟩ := Option.ite_none_right_eq_some.mp h
    obtain ⟨audit,ha,rfl⟩ := lift_some hl
    exact .await hf hc ht ha
  · cases h

/-- A call is two steps. -/
theorem Programs.step_performs [DecidableEq L] {a : Action L V A} (h : s.step P a = some t) :
    s.Performs P a t ∨ ∃ f callee u, a = .call f ∧ s.Performs P (.create callee) u ∧
      u.Performs P (.await f s.coro.tasks.length) t := by
  cases a with
  | create callee => exact .inl (create_performs h)
  | await f i => exact .inl (await_performs h)
  | call f =>
    simp only [step] at h
    split at h
    · rename_i callee rest hf
      obtain ⟨u,hu,ht⟩ := Option.bind_eq_some_iff.mp h
      exact .inr ⟨f,callee,u,rfl,create_performs hu,await_performs ht⟩
    · cases h
  | back f =>
    simp only [step] at h
    split at h
    · rename_i callee rest child hf hc
      obtain ⟨u,hu,rfl⟩ := Option.map_eq_some_iff.mp h
      obtain ⟨audit,ha,rfl⟩ := lift_some hu
      exact .inl (.back hf hc ha)
    · cases h
  | suspend f =>
    simp only [step] at h
    split at h
    · rename_i rest hf
      obtain ⟨audit,ha,rfl⟩ := lift_some h
      exact .inl (.suspend hf ha)
    · cases h
  | run f answer =>
    simp only [step] at h
    split at h
    · rename_i rest hf
      obtain ⟨u,hu,rfl⟩ := Option.map_eq_some_iff.mp h
      obtain ⟨audit,ha,rfl⟩ := lift_some hu
      exact .inl (.run hf ha)
    · cases h
  | finish f =>
    simp only [step] at h
    split at h
    · rename_i value hf
      obtain ⟨audit,ha,rfl⟩ := lift_some h
      exact .inl (.finish hf ha)
    · cases h
  | other e =>
    obtain ⟨he,hl⟩ := Option.ite_none_right_eq_some.mp h
    obtain ⟨audit,ha,rfl⟩ := lift_some hl
    exact .inl (.other he ha)

theorem Audit.step_coro {a b : Audit V} {e : Event V} (h : a.step e = some b) :
    a.coro.step e = some b.coro := by
  obtain ⟨c,hc,rfl⟩ := Option.map_eq_some_iff.mp h
  exact hc

theorem Coroutines.returner_some {s : Coroutines V} {f child : Nat}
    (h : s.returner f = some child) :
    ∃ t, s.stage f = .back t ∧ s.tasks[t]? = some (.middle child) := by
  unfold returner at h
  split at h
  · rename_i t hf
    split at h
    · rename_i c ht
      cases h
      exact ⟨t,hf,ht⟩
    · cases h
  · cases h

/-- The bodies and the frames agree: what has been computed, what is awaited and where the
frames are. -/
structure Programs.Faithful (P : Program L (Option V) A) (s : Programs L V A) : Prop where
  bodied : ∀ f < s.coro.count, ∃ l m, s.entry f = some l ∧ s.place f = some m ∧
    Leaves P l (s.answers f) m
  ended : ∀ f < s.coro.count, (s.coro.stage f).over = true →
    s.command P f = some (.ret (s.coro.result f))
  awaited : ∀ p t c, (s.coro.stage p).task = some t → s.coro.tasks[t]? = some (.middle c) →
    c < s.coro.count ∧ ∃ callee rest, s.command P p = some (.call callee rest) ∧
      s.entry c = some callee
  asks : ∀ f, (s.coro.stage f).asks = true → ∃ rest, s.command P f = some (.ask rest)
  waits : ∀ f, (s.coro.stage f).waits = true → s.place f = s.entry f

/-- A frame that has ended has computed what it was called for. -/
theorem Programs.Faithful.computes (h : s.Faithful P) {f : Nat} (hf : f < s.coro.count)
    (hend : (s.coro.stage f).over = true) :
    ∃ l, s.entry f = some l ∧ Computes P l (s.answers f) (s.coro.result f) := by
  obtain ⟨l,m,hl,hm,hleaves⟩ := h.bodied f hf
  have hret := h.ended f hf hend
  simp only [command,hm,Option.map_some,Option.some.injEq] at hret
  exact ⟨l,hl,hleaves.returns hret⟩

theorem Programs.Faithful.of_plain (h : s.Faithful P) {audit : Audit V}
    (hp : s.coro.Plain audit.coro) : ({ s with audit := audit } : Programs L V A).Faithful P := by
  have hlt : ∀ {f : Nat}, f < audit.coro.count → f < s.coro.count := fun hf => hp.count ▸ hf
  refine ⟨fun f hf => h.bodied f (hlt hf),fun f hf hend => ?_,fun p t c ht hc => ?_,
    fun f hf => h.asks f (hp.asks f hf),fun f hf => h.waits f (hp.waits f hf)⟩
  · have hret := h.ended f (hlt hf) (hp.ended f ▸ hend)
    rw [← hp.result] at hret
    exact hret
  · obtain ⟨hc',callee,rest,hcall⟩ := h.awaited p t c (hp.task p ▸ ht) (hp.middle t c hc)
    exact ⟨hp.count.symm ▸ hc',callee,rest,hcall⟩

theorem Programs.Faithful.create (h : s.Faithful P) {audit : Audit V}
    (hc : audit.coro = s.coro.create) (callee : L) :
    ({ s with audit := audit }.born s.coro.count callee).Faithful P := by
  let u := { s with audit := audit }.born s.coro.count callee
  have hcount : u.coro.count = s.coro.count + 1 := by
    show audit.coro.count = _
    rw [hc]
    rfl
  have hresult : u.coro.result = s.coro.result := by
    show audit.coro.result = _
    rw [hc]
    rfl
  have hstage : u.coro.stage = Function.update s.coro.stage s.coro.count .fresh := by
    show audit.coro.stage = _
    rw [hc]
    rfl
  have htasks : ∀ i c : Nat, u.coro.tasks[i]? = some (.middle c) →
      s.coro.tasks[i]? = some (.middle c) := by
    intro i c hi
    have hi' : s.coro.create.tasks[i]? = some (.middle c) := hc ▸ hi
    exact middle_of_append (by simp) hi'
  have hold : ∀ f, f ≠ s.coro.count → u.entry f = s.entry f ∧ u.command P f = s.command P f ∧
      u.answers f = s.answers f ∧ u.place f = s.place f ∧ u.coro.stage f = s.coro.stage f := by
    intro f hf
    have hplace : u.place f = s.place f := Function.update_of_ne hf ..
    refine ⟨Function.update_of_ne hf ..,?_,Function.update_of_ne hf ..,hplace,?_⟩
    · simp only [command,hplace]
    · rw [hstage,Function.update_of_ne hf]
  have hnew : u.coro.stage s.coro.count = .fresh := by rw [hstage,Function.update_self]
  show u.Faithful P
  refine ⟨fun f hf => ?_,fun f hf hend => ?_,fun p t c ht hi => ?_,fun f hf => ?_,fun f hf => ?_⟩
  · by_cases heq : f = s.coro.count
    · rw [heq]
      refine ⟨callee,callee,Function.update_self ..,Function.update_self ..,?_⟩
      rw [show u.answers s.coro.count = [] from Function.update_self ..]
      exact .refl
    · obtain ⟨hentry,_,hanswers,hplace,_⟩ := hold f heq
      rw [hentry,hanswers,hplace]
      exact h.bodied f (by omega)
  · by_cases heq : f = s.coro.count
    · rw [heq,hnew] at hend
      cases hend
    · obtain ⟨_,hcommand,_,_,hst⟩ := hold f heq
      rw [hcommand,hresult]
      exact h.ended f (by omega) (hst ▸ hend)
  · have hp : p ≠ s.coro.count := by
      intro heq
      rw [heq,hnew] at ht
      cases ht
    obtain ⟨_,hcommand,_,_,hst⟩ := hold p hp
    obtain ⟨hlt,callee',rest,hcall,hentry⟩ := h.awaited p t c (hst ▸ ht) (htasks t c hi)
    refine ⟨by omega,callee',rest,hcommand.trans hcall,?_⟩
    rw [(hold c (Nat.ne_of_lt hlt)).1]
    exact hentry
  · have hp : f ≠ s.coro.count := by
      intro heq
      rw [heq,hnew] at hf
      cases hf
    obtain ⟨_,hcommand,_,_,hst⟩ := hold f hp
    rw [hcommand]
    exact h.asks f (hst ▸ hf)
  · by_cases heq : f = s.coro.count
    · have hplace : u.place s.coro.count = some callee := Function.update_self ..
      have hentry : u.entry s.coro.count = some callee := Function.update_self ..
      rw [heq]
      exact hplace.trans hentry.symm
    · obtain ⟨hentry,_,_,hplace,hst⟩ := hold f heq
      rw [hentry,hplace]
      exact h.waits f (hst ▸ hf)

theorem Programs.Faithful.await (h : s.Faithful P) (hl : s.coro.Ledger)
    {stack : Nat → List Nat} (hs : s.coro.Stacks stack) {audit : Audit V} {f i child : Nat}
    {frames : Frames} {callee : L} {rest : Option V → L}
    (hc : audit.coro = (s.coro.called frames f i child).begin child)
    (hrun : s.coro.stage f = .running) (hfresh : s.coro.stage child = .fresh)
    (hf : s.command P f = some (.call callee rest)) (hentry : s.entry child = some callee) :
    ({ s with audit := audit } : Programs L V A).Faithful P := by
  let u : Programs L V A := { s with audit := audit }
  have hcf : child ≠ f := by
    intro heq
    rw [heq,hrun] at hfresh
    cases hfresh
  obtain ⟨hchild,hcaller,hother⟩ := s.coro.called_stages frames i hcf
  have hcount : u.coro.count = s.coro.count := by
    show audit.coro.count = _
    rw [hc,Coroutines.begin_births]
    rfl
  have hresult : u.coro.result = s.coro.result := by
    show audit.coro.result = _
    rw [hc,Coroutines.begin_result]
    rfl
  have htasks : u.coro.tasks = s.coro.tasks.set i (.handle none) ++ [.middle child] := by
    show audit.coro.tasks = _
    rw [hc,Coroutines.begin_tasks]
    rfl
  rw [← hc] at hchild hcaller hother
  have hlt : child < s.coro.count := hl.started child (by rw [hfresh]; simp)
  show u.Faithful P
  have hne : ∀ {g : Nat} {Q : Stage → Prop}, Q (u.coro.stage g) →
      (∀ i, ¬ Q (.awaiting i)) → ¬ Q .running → Q (s.coro.stage g) := by
    intro g Q hq hawaiting hrunning
    have hgf : g ≠ f := by
      intro heq
      rw [heq,show u.coro.stage f = _ from hcaller] at hq
      exact hawaiting _ hq
    have hgc : g ≠ child := by
      intro heq
      rw [heq,show u.coro.stage child = _ from hchild] at hq
      exact hrunning hq
    rw [show u.coro.stage g = _ from hother g hgf hgc] at hq
    exact hq
  refine ⟨fun g hg => h.bodied g (hcount ▸ hg),fun g hg hend => ?_,fun p t c ht hi => ?_,
    fun g hg => ?_,fun g hg => ?_⟩
  · rw [hresult]
    exact h.ended g (hcount ▸ hg)
      (hne (Q := fun σ => σ.over = true) hend (by simp [Stage.over]) (by simp [Stage.over]))
  · rw [htasks,List.getElem?_append] at hi
    by_cases hpf : p = f
    · subst hpf
      rw [show u.coro.stage p = _ from hcaller] at ht
      cases ht
      rw [if_neg (by simp)] at hi
      simp only [List.length_set,Nat.sub_self,List.getElem?_cons_zero,Option.some.injEq,
        CoroTask.middle.injEq] at hi
      subst hi
      exact ⟨hcount ▸ hlt,callee,rest,hf,hentry⟩
    · have hpc : p ≠ child := by
        intro heq
        rw [heq,show u.coro.stage child = _ from hchild] at ht
        cases ht
      rw [show u.coro.stage p = _ from hother p hpf hpc] at ht
      obtain ⟨c',hc'⟩ := hs.kept p t ht
      obtain ⟨hin,_⟩ := List.getElem?_eq_some_iff.mp hc'
      rw [if_pos (by simpa using hin)] at hi
      obtain ⟨hclt,hcall⟩ := h.awaited p t c ht (middle_of_set (by simp) hi)
      exact ⟨hcount ▸ hclt,hcall⟩
  · exact h.asks g
      (hne (Q := fun σ => σ.asks = true) hg (by simp [Stage.asks]) (by simp [Stage.asks]))
  · exact h.waits g
      (hne (Q := fun σ => σ.waits = true) hg (by simp [Stage.waits]) (by simp [Stage.waits]))

/-- The body of one frame goes on, in a step that leaves the others where they are. -/
theorem Programs.Faithful.moved (h : s.Faithful P) {audit : Audit V} {f : Nat} {l : L}
    {as : List A} (hcount : audit.coro.count = s.coro.count)
    (hresult : audit.coro.result = s.coro.result)
    (hstage : audit.coro.stage = Function.update s.coro.stage f .running)
    (htasks : ∀ i c : Nat, audit.coro.tasks[i]? = some (.middle c) →
      s.coro.tasks[i]? = some (.middle c))
    (hleaves : ∀ e m, s.entry f = some e → s.place f = some m → Leaves P e (s.answers f) m →
      Leaves P e (s.answers f ++ as) l) :
    ({ s with audit := audit }.moved f l as).Faithful P := by
  let u := { s with audit := audit }.moved f l as
  have hself : u.coro.stage f = .running := by
    show audit.coro.stage f = _
    rw [hstage,Function.update_self]
  have hold : ∀ g, g ≠ f → u.command P g = s.command P g ∧ u.answers g = s.answers g ∧
      u.place g = s.place g ∧ u.coro.stage g = s.coro.stage g := by
    intro g hg
    have hplace : u.place g = s.place g := Function.update_of_ne hg ..
    refine ⟨by simp only [command,hplace],Function.update_of_ne hg ..,hplace,?_⟩
    show audit.coro.stage g = _
    rw [hstage,Function.update_of_ne hg]
  have hne : ∀ {g : Nat} {Q : Stage → Prop}, Q (u.coro.stage g) → ¬ Q .running → g ≠ f := by
    intro g Q hq hnot heq
    rw [heq,hself] at hq
    exact hnot hq
  show u.Faithful P
  refine ⟨fun g hg => ?_,fun g hg hend => ?_,fun p t c ht hi => ?_,fun g hg => ?_,fun g hg => ?_⟩
  · obtain ⟨e,m,he,hm,hl⟩ := h.bodied g (hcount ▸ hg)
    by_cases hgf : g = f
    · subst hgf
      refine ⟨e,l,he,Function.update_self ..,?_⟩
      rw [show u.answers g = s.answers g ++ as from Function.update_self ..]
      exact hleaves e m he hm hl
    · obtain ⟨_,hanswers,hplace,_⟩ := hold g hgf
      rw [hanswers,hplace]
      exact ⟨e,m,he,hm,hl⟩
  · have hgf := hne (Q := fun σ => σ.over = true) hend (by simp [Stage.over])
    obtain ⟨hcommand,_,_,hst⟩ := hold g hgf
    rw [hcommand,show u.coro.result = _ from hresult]
    exact h.ended g (hcount ▸ hg) (hst ▸ hend)
  · have hpf := hne (Q := fun σ => σ.task = some t) ht (by simp [Stage.task])
    obtain ⟨hcommand,_,_,hst⟩ := hold p hpf
    rw [hcommand]
    obtain ⟨hlt,hcall⟩ := h.awaited p t c (hst ▸ ht) (htasks t c hi)
    exact ⟨hcount ▸ hlt,hcall⟩
  · have hgf := hne (Q := fun σ => σ.asks = true) hg (by simp [Stage.asks])
    obtain ⟨hcommand,_,_,hst⟩ := hold g hgf
    rw [hcommand]
    exact h.asks g (hst ▸ hg)
  · have hgf := hne (Q := fun σ => σ.waits = true) hg (by simp [Stage.waits])
    obtain ⟨_,_,hplace,hst⟩ := hold g hgf
    rw [hplace]
    exact h.waits g (hst ▸ hg)

theorem Programs.Faithful.finish (h : s.Faithful P) {audit : Audit V} {f : Nat} {value : Option V}
    (hf : s.command P f = some (.ret value)) (hrun : s.coro.stage f = .running)
    (ha : s.coro.Acts (.finish f value) audit.coro) :
    ({ s with audit := audit } : Programs L V A).Faithful P := by
  have hcount : audit.coro.count = s.coro.count := by
    generalize audit.coro = c at ha
    cases ha with
    | complete => exact Coroutines.complete_births ..
    | giveBack => rfl
  have hresult : audit.coro.result = Function.update s.coro.result f value := by
    generalize audit.coro = c at ha
    cases ha with
    | complete => exact Coroutines.complete_result ..
    | giveBack => rfl
  have htasks : audit.coro.tasks = s.coro.tasks := by
    generalize audit.coro = c at ha
    cases ha with
    | complete => exact Coroutines.complete_tasks ..
    | giveBack => rfl
  have hkinds : ∀ g, (g ≠ f → (audit.coro.stage g).over = true → (s.coro.stage g).over = true) ∧
      (∀ t, (audit.coro.stage g).task = some t → (s.coro.stage g).task = some t) ∧
      ((audit.coro.stage g).asks = true → (s.coro.stage g).asks = true) ∧
      ((audit.coro.stage g).waits = true → (s.coro.stage g).waits = true) := by
    intro g
    generalize audit.coro = c at ha
    cases ha with
    | complete hf' hroot =>
      rw [Coroutines.complete_stage]
      by_cases hg : g = f
      · rw [hg,Function.update_self]
        exact ⟨fun hne => absurd rfl hne,by simp [Stage.task],by simp [Stage.asks],
          by simp [Stage.waits]⟩
      · rw [Function.update_of_ne hg]
        exact ⟨fun _ hend => hend,fun _ ht => ht,fun has => has,fun hw => hw⟩
    | @giveBack _ caller i _ frames hf' hroot hprev hcaller hunlink =>
      have hpf : caller ≠ f := by
        intro heq
        rw [heq,hrun] at hcaller
        cases hcaller
      obtain ⟨hback,hleft,hother⟩ := (s.coro.returning f value).giveBack_stages frames i hpf
      by_cases hgp : g = caller
      · rw [hgp,hback,hcaller]
        exact ⟨fun _ => by simp [Stage.over],fun _ ht => ht,by simp [Stage.asks],
          by simp [Stage.waits]⟩
      · by_cases hg : g = f
        · rw [hg,hleft]
          exact ⟨fun hne => absurd rfl hne,by simp [Stage.task],by simp [Stage.asks],
            by simp [Stage.waits]⟩
        · rw [hother g hg hgp]
          exact ⟨fun _ hend => hend,fun _ ht => ht,fun has => has,fun hw => hw⟩
  refine ⟨fun g hg => h.bodied g (hcount ▸ hg),fun g hg hend => ?_,fun p t c ht hi => ?_,
    fun g hg => h.asks g ((hkinds g).2.2.1 hg),fun g hg => h.waits g ((hkinds g).2.2.2 hg)⟩
  · show s.command P g = some (.ret (audit.coro.result g))
    rw [hresult]
    by_cases hgf : g = f
    · rw [hgf,Function.update_self]
      exact hf
    · rw [Function.update_of_ne hgf]
      exact h.ended g (hcount ▸ hg) ((hkinds g).1 hgf hend)
  · obtain ⟨hlt,hcall⟩ := h.awaited p t c ((hkinds p).2.1 t ht) (htasks ▸ hi)
    exact ⟨hcount.symm ▸ hlt,hcall⟩

theorem Programs.Faithful.suspend (h : s.Faithful P) {audit : Audit V} {f : Nat} {rest : A → L}
    (hc : audit.coro = s.coro.setStage f .suspended) (hf : s.command P f = some (.ask rest)) :
    ({ s with audit := audit } : Programs L V A).Faithful P := by
  have hstage : audit.coro.stage = Function.update s.coro.stage f .suspended := by
    rw [hc]
    rfl
  have hcount : audit.coro.count = s.coro.count := by
    rw [hc]
    rfl
  have hne : ∀ {g : Nat} {Q : Stage → Prop}, Q (audit.coro.stage g) → ¬ Q .suspended →
      g ≠ f ∧ Q (s.coro.stage g) := by
    intro g Q hq hnot
    have hgf : g ≠ f := by
      intro heq
      rw [heq,hstage,Function.update_self] at hq
      exact hnot hq
    rw [hstage,Function.update_of_ne hgf] at hq
    exact ⟨hgf,hq⟩
  refine ⟨fun g hg => h.bodied g (hcount ▸ hg),fun g hg hend => ?_,fun p t c ht hi => ?_,
    fun g hg => ?_,fun g hg => ?_⟩
  · obtain ⟨_,hend'⟩ := hne (Q := fun σ => σ.over = true) hend (by simp [Stage.over])
    rw [show audit.coro.result = s.coro.result by rw [hc]; rfl]
    exact h.ended g (hcount ▸ hg) hend'
  · obtain ⟨_,ht'⟩ := hne (Q := fun σ => σ.task = some t) ht (by simp [Stage.task])
    rw [show audit.coro.tasks = s.coro.tasks by rw [hc]; rfl] at hi
    obtain ⟨hlt,hcall⟩ := h.awaited p t c ht' hi
    exact ⟨hcount.symm ▸ hlt,hcall⟩
  · by_cases hgf : g = f
    · rw [hgf]
      exact ⟨rest,hf⟩
    · have hold : audit.coro.stage g = s.coro.stage g := by
        rw [hstage,Function.update_of_ne hgf]
      exact h.asks g (hold ▸ hg)
  · exact h.waits g (hne (Q := fun σ => σ.waits = true) hg (by simp [Stage.waits])).2

/-- A child that control comes back from has ended, so what its caller receives is what the
call computes. -/
theorem Programs.Faithful.back (h : s.Faithful P) {stack : Nat → List Nat}
    (hs : s.coro.Stacks stack) {audit : Audit V} {f i child : Nat} {callee : L}
    {rest : Option V → L}
    (hc : audit.coro = (s.coro.drop i (some child)).setStage f .running)
    (hf : s.command P f = some (.call callee rest)) (hback : s.coro.stage f = .back i)
    (hi : s.coro.tasks[i]? = some (.middle child)) :
    ({ s with audit := audit }.moved f (rest (s.coro.result child)) (s.answers child)).Faithful
      P := by
  have hret := hs.handed f i child hback hi
  obtain ⟨hlt,callee',rest',hcall,hentry⟩ := h.awaited f i child (by rw [hback]; rfl) hi
  obtain ⟨l,hl',hcomputes⟩ := h.computes hlt (by rw [hret]; rfl)
  cases hf.symm.trans hcall
  cases hentry.symm.trans hl'
  refine h.moved ?_ ?_ ?_ (fun j c hj => ?_) (fun e m he hm hleaves => ?_)
  · rw [hc]
    exact s.coro.drop_births i (some child)
  · rw [hc]
    exact s.coro.drop_result i (some child)
  · rw [hc]
    rfl
  · rw [hc] at hj
    exact middle_of_set (by simp) hj
  · refine hleaves.call (c := callee) ?_ hcomputes
    simpa only [command,hm,Option.map_some,Option.some.injEq] using hf

theorem Programs.Performs.faithful {a : Action L V A} (hp : s.Performs P a t)
    (h : s.Faithful P) (hl : s.coro.Ledger) {stack : Nat → List Nat} (hs : s.coro.Stacks stack) :
    t.Faithful P := by
  cases hp with
  | @create callee audit ha =>
    have hacts := Coroutines.step_acts (Audit.step_coro ha)
    generalize hc : audit.coro = c at hacts
    cases hacts
    exact h.create hc _
  | @await f i child callee rest audit hf hentry ht ha =>
    have hacts := Coroutines.step_acts (Audit.step_coro ha)
    generalize hc : audit.coro = c at hacts
    cases hacts with
    | await hrun hi hfresh hlink =>
      obtain ⟨hi',_⟩ := Coroutines.startable_some ht
      cases hi.symm.trans hi'
      exact h.await hl hs hc hrun hfresh hf hentry
  | @back f child callee rest audit hf hchild ha =>
    obtain ⟨j,hj,hj'⟩ := Coroutines.returner_some hchild
    have hacts := Coroutines.step_acts (Audit.step_coro ha)
    generalize hc : audit.coro = c at hacts
    cases hacts with
    | back hback hi =>
      cases hback.symm.trans hj
      cases hi.symm.trans hj'
      exact h.back hs hc hf hback hi
  | @suspend f rest audit hf ha =>
    have hacts := Coroutines.step_acts (Audit.step_coro ha)
    generalize hc : audit.coro = c at hacts
    cases hacts
    exact h.suspend hc hf
  | @run f rest answer audit hf ha =>
    have hacts := Coroutines.step_acts (Audit.step_coro ha)
    generalize hc : audit.coro = c at hacts
    cases hacts
    refine h.moved ?_ ?_ ?_ (fun j c hj => ?_) (fun e m he hm hleaves => ?_)
    · rw [hc]
      rfl
    · rw [hc]
      rfl
    · rw [hc]
      rfl
    · rw [hc] at hj
      exact hj
    · refine hleaves.ask ?_ answer
      simpa only [command,hm,Option.map_some,Option.some.injEq] using hf
  | @finish f value audit hf ha =>
    have hacts := Coroutines.step_acts (Audit.step_coro ha)
    refine h.finish hf ?_ hacts
    generalize audit.coro = c at hacts
    cases hacts with
    | complete hrun => exact hrun
    | giveBack hrun => exact hrun
  | other he ha =>
    exact h.of_plain ((Coroutines.step_acts (Audit.step_coro ha)).plain he)

theorem Programs.Performs.event {a : Action L V A} (hp : s.Performs P a t) :
    ∃ e, s.audit.step e = some t.audit := by
  cases hp with
  | create ha => exact ⟨_,ha⟩
  | await _ _ _ ha => exact ⟨_,ha⟩
  | back _ _ ha => exact ⟨_,ha⟩
  | suspend _ ha => exact ⟨_,ha⟩
  | run _ ha => exact ⟨_,ha⟩
  | finish _ ha => exact ⟨_,ha⟩
  | other _ ha => exact ⟨_,ha⟩

structure Programs.Sound (P : Program L (Option V) A) (s : Programs L V A) : Prop where
  ledger : s.coro.Ledger
  nested : ∃ stack, s.coro.Stacks stack
  faithful : s.Faithful P

theorem Programs.start_sound : (Programs.start : Programs L V A).Sound P := by
  refine ⟨Coroutines.start_ledger,⟨_,Coroutines.start_stacks⟩,fun f hf => ?_,fun f hf => ?_,
    fun p t c ht => ?_,fun f hf => ?_,fun f hf => ?_⟩
  · cases hf
  · cases hf
  · cases ht
  · cases hf
  · cases hf

theorem Programs.Performs.sound {a : Action L V A} (hp : s.Performs P a t) (h : s.Sound P) :
    t.Sound P := by
  obtain ⟨hl,⟨stack,hs⟩,hfaithful⟩ := h
  obtain ⟨e,ha⟩ := hp.event
  have hbase := Audit.step_coro ha
  exact ⟨(Coroutines.step_took hbase).ledger hl,
    hs.step hl.next_done (Coroutines.step_acts hbase),hp.faithful hfaithful hl hs⟩

def Programs.returnsValue (P : Program L (Option V) A) (s : Programs L V A) :
    Action L V A → Bool
  | .finish f => match s.command P f with
      | some (.ret value) => s.audit.returnsValue (.finish f value)
      | _ => true
  | _ => true

theorem Programs.Performs.returns {a : Action L V A} (hp : s.Performs P a t)
    (hok : s.returnsValue P a = true) :
    ∃ e, s.audit.returnsValue e = true ∧ s.audit.step e = some t.audit := by
  cases hp with
  | create ha => exact ⟨_,rfl,ha⟩
  | await _ _ _ ha => exact ⟨_,rfl,ha⟩
  | back _ _ ha => exact ⟨_,rfl,ha⟩
  | suspend _ ha => exact ⟨_,rfl,ha⟩
  | run _ ha => exact ⟨_,rfl,ha⟩
  | finish hf ha =>
    simp only [returnsValue,hf] at hok
    exact ⟨_,hok,ha⟩
  | @other e audit he ha =>
    refine ⟨e,?_,ha⟩
    cases e with
    | finish => cases he
    | _ => rfl

inductive ExampleFrame where
  | add (a b : Codec.Word .w64)
  | added (ret : Codec.Word .w64)
  | echo
  | echoed
  | addPoint (a b : Codec.Word .w64 × Codec.Word .w64)
  deriving DecidableEq

inductive ExampleValue where
  | int64 (v : Codec.Word .w64)
  | point (p : Codec.Word .w64 × Codec.Word .w64)
  deriving DecidableEq

/-- The sums wrap around, where C++ leaves an overflow of `int64_t` undefined. -/
def exampleRpc : Program ExampleFrame (Option ExampleValue) Unit
  | .add a b => .ask (fun _ => .added (a + b))
  | .added ret => .ret (some (.int64 ret))
  | .echo => .ask (fun _ => .echoed)
  | .echoed => .ret (some (.int64 0))
  | .addPoint a b => .ret (some (.point (a.1 + b.1,a.2 + b.2)))

def addServed : List (Action ExampleFrame ExampleValue Unit) :=
  [.create (.add 1 2),.other (.request 0 ⟨Net.EndPoint.v4 1 8000,5,1⟩),.other (.commit 0),
    .other (.start 0),.suspend 0,.other (.wake 0),.run 0 (),.finish 0]

variable [DecidableEq L]

theorem Programs.step_sound {a : Action L V A} (h : s.Sound P) (he : s.step P a = some t) :
    t.Sound P := by
  rcases step_performs he with hp | ⟨f,callee,u,_,hcreate,hawait⟩
  · exact hp.sound h
  · exact hawait.sound (hcreate.sound h)

theorem Programs.reaches_sound {ok : Programs L V A → Action L V A → Bool}
    (h : Transition.Reaches (Programs.step P) ok .start s) : s.Sound P :=
  h.invariant (I := Programs.Sound P) (fun _ _ _ hi _ he => step_sound hi he) start_sound

/-- However the coroutines are scheduled, one that has ended has for its result what its body
computes from what its own asynchronous actions, and those of the children it has awaited,
have given it. -/
theorem bodies_computed (P : Program L (Option V) A) (s : Programs L V A)
    (h : Transition.Reaches (Programs.step P) (fun _ _ => true) .start s) (f : Nat)
    (hf : f < s.coro.count) (hend : (s.coro.stage f).over = true) :
    ∃ l, s.entry f = some l ∧ Computes P l (s.answers f) (s.coro.result f) :=
  (Programs.reaches_sound h).faithful.computes hf hend

theorem addServed_computed : ∃ s : Programs ExampleFrame ExampleValue Unit,
    s.coro.result 0 = some (.int64 3) ∧ s.answers 0 = [()] ∧
      ∃ l, s.entry 0 = some l ∧ Computes exampleRpc l (s.answers 0) (s.coro.result 0) := by
  have hrun : (Transition.run (Programs.step exampleRpc) (fun _ _ => true) .start addServed).map
      (fun s => (s.coro.stage 0,s.coro.result 0,s.answers 0,s.coro.count)) =
        some (.ending,some (.int64 3),[()],1) := by decide
  obtain ⟨s,hs,heq⟩ := Option.map_eq_some_iff.mp hrun
  simp only [Prod.mk.injEq] at heq
  obtain ⟨hend,hresult,hanswers,hcount⟩ := heq
  exact ⟨s,hresult,hanswers,bodies_computed exampleRpc s (Transition.reaches_of_run hs) 0
    (by rw [hcount]; decide) (by rw [hend]; rfl)⟩

theorem Programs.audited (h : Transition.Reaches (Programs.step P) (Programs.returnsValue P)
    .start s) : Transition.Reaches Audit.step Audit.returnsValue .start s.audit := by
  refine h.invariant (I := fun s => Transition.Reaches Audit.step Audit.returnsValue .start
    s.audit) (fun s a t hi hok he => ?_) .refl
  rcases Programs.step_performs he with hp | ⟨f,callee,u,_,hcreate,hawait⟩
  · exact hi.tail (hp.returns hok)
  · exact (hi.tail (hcreate.returns rfl)).tail (hawait.returns rfl)

/-- A response carries what the body computes that was called for its request. -/
theorem responses_computed (P : Program L (Option V) A) (s : Programs L V A)
    (h : Transition.Reaches (Programs.step P) (Programs.returnsValue P) .start s) (f : Nat)
    (info : Net.ResponseInfo) (value : V) (hsent : (f,.respond info value) ∈ s.audit.log) :
    s.audit.requested f = some info ∧ ∃ l, s.entry f = some l ∧
      Computes P l (s.answers f) (some value) := by
  obtain ⟨hl,stack,hs⟩ := Audit.reaches_sound (Programs.audited h)
  have hroots := hs.rootsComplete hl
  have hin : .respond info value ∈ s.audit.effectsOf f :=
    List.mem_filterMap.mpr ⟨_,hsent,by simp⟩
  have hover : s.coro.completed f := by
    by_contra hnot
    rw [hroots.others f hnot] at hin
    cases hin
  obtain ⟨value',v,hresult,_,heffects⟩ := hroots.finished f hover
  have hresponds : s.audit.requested f = some info ∧ value' = value := by
    rw [heffects] at hin
    cases hr : s.audit.requested f with
    | none => simp [hr,completion] at hin
    | some info' =>
      simp only [hr,completion,List.mem_cons,Effect.respond.injEq,List.not_mem_nil,or_false,
        reduceCtorEq] at hin
      rw [hin.1,hin.2]
      exact ⟨rfl,rfl⟩
  obtain ⟨hrequested,rfl⟩ := hresponds
  refine ⟨hrequested,?_⟩
  rw [← hresult]
  have hend : (s.coro.stage f).over = true := by
    rcases hover.2 with heq | heq <;> rw [heq] <;> rfl
  exact (Programs.reaches_sound h).faithful.computes hover.1 hend

theorem addServed_responds : ∃ s : Programs ExampleFrame ExampleValue Unit,
    s.audit.requested 0 = some ⟨Net.EndPoint.v4 1 8000,5,1⟩ ∧ ∃ l, s.entry 0 = some l ∧
      Computes exampleRpc l (s.answers 0) (some (.int64 3)) := by
  have hrun : (Transition.run (Programs.step exampleRpc) (Programs.returnsValue exampleRpc) .start
      addServed).map (fun s => s.audit.log) =
        some [(0,.respond ⟨Net.EndPoint.v4 1 8000,5,1⟩ (.int64 3)),(0,.deleteLocal 0)] := by rfl
  obtain ⟨s,hs,heq⟩ := Option.map_eq_some_iff.mp hrun
  exact ⟨s,responses_computed exampleRpc s (Transition.reaches_of_run hs) 0 _ (.int64 3)
    (by simp [heq])⟩

inductive Programs.CanGo (P : Program L (Option V) A) (s : Programs L V A) (f : Nat) : Prop
  | wake (h : (s.step P (.other (.wake f))).isSome = true)
  | run (h : ∀ answer, (s.step P (.run f answer)).isSome = true)
  | back (h : (s.step P (.back f)).isSome = true)
  | suspend (h : (s.step P (.suspend f)).isSome = true)
  | finish (h : (s.step P (.finish f)).isSome = true)
  | call (h : (s.step P (.call f)).isSome = true)

omit [DecidableEq L] in
theorem Programs.lift_isSome {e : Event V} (h : (s.coro.step e).isSome = true) :
    (s.lift e).isSome = true := by
  simpa [lift,Audit.step] using h

theorem Programs.calls (hl : s.coro.Ledger) {stack : Nat → List Nat} (hs : s.coro.Stacks stack)
    {f : Nat} {callee : L} {rest : Option V → L} (hf : s.coro.stage f = .running)
    (hcmd : s.command P f = some (.call callee rest)) : s.CanGo P f := by
  let n := s.coro.count
  have hne : f ≠ n := Nat.ne_of_lt (hl.started f (by rw [hf]; simp))
  let t : Programs L V A :=
    ({ s with audit := s.audit.record .create s.coro.create } : Programs L V A).born n callee
  have hcreate : s.create callee = some t := rfl
  have hstacks := hs.create hl.next_done
  have hfresh : s.coro.create.stage n = .fresh := s.coro.create_new.2
  have hrun : s.coro.create.stage f = .running := (s.coro.create_old hne).2.trans hf
  obtain ⟨r,l,hr⟩ := hstacks.top (f := f) (by rw [hrun]; simp) (by rw [hrun]; simp)
  have halone : stack n = [n] := hstacks.idle n (by rw [hfresh]; rfl)
  have hroot : r ≠ n :=
    hstacks.root_ne (f := f) (by simp [hr]) (by rw [hrun]; simp) hfresh
  obtain ⟨frames,hlink,_⟩ := hstacks.linkNext hr halone hroot
  have htask : s.coro.create.tasks[s.coro.tasks.length]? = some (.handle (some n)) := by
    show (s.coro.tasks ++ [.handle (some n)])[s.coro.tasks.length]? = _
    simp
  have hstart : t.coro.startable s.coro.tasks.length = some n := by
    show s.coro.create.startable s.coro.tasks.length = some n
    simp [Coroutines.startable,htask,hfresh]
  have hcommand : t.command P f = some (.call callee rest) := by
    have hplace : t.place f = s.place f := Function.update_of_ne hne ..
    simpa only [command,hplace] using hcmd
  have hentry : t.entry n = some callee := Function.update_self ..
  refine .call ?_
  simp only [step,hcmd,hcreate,Option.bind_some,await,hcommand,hstart,hentry,if_true]
  refine lift_isSome ?_
  show (s.coro.create.step (.await f s.coro.tasks.length)).isSome = true
  have hstart' : s.coro.create.startable s.coro.tasks.length = some n := hstart
  simp [Coroutines.step,hstart',hrun,Coroutines.await,hlink]

theorem Programs.Faithful.canGo (h : s.Faithful P) (hl : s.coro.Ledger)
    {stack : Nat → List Nat} (hs : s.coro.Stacks stack) {f : Nat}
    (hbegun : (s.coro.stage f).begun = true) (hleaf : s.coro.callee f = none) : s.CanGo P f := by
  cases hst : s.coro.stage f with
  | running =>
    obtain ⟨e,m,_,hplace,_⟩ := h.bodied f (hl.started f (by rw [hst]; simp))
    have hcmd : s.command P f = some (P m) := by simp [command,hplace]
    cases hm : P m with
    | ret value =>
      refine .finish ?_
      rw [hm] at hcmd
      simp only [step,hcmd]
      refine lift_isSome ?_
      cases hroot : (s.coro.frames f).empty f with
      | true => rw [s.coro.step_complete value hst hroot]; rfl
      | false =>
        obtain ⟨frames,p,t,_,_,_,_,hgive⟩ := hs.step_giveBack value hst hroot
        rw [hgive]
        rfl
    | call callee rest => exact calls hl hs hst (hcmd.trans (by rw [hm]))
    | ask rest =>
      refine .suspend ?_
      rw [hm] at hcmd
      simp only [step,hcmd]
      exact lift_isSome (by simp [Coroutines.step,hst])
  | suspended =>
    refine .wake ?_
    simp only [step,Event.bodiless,if_true]
    exact lift_isSome (by simp [Coroutines.step,hst])
  | queued =>
    obtain ⟨rest,hask⟩ := h.asks f (by rw [hst]; rfl)
    refine .run (fun answer => ?_)
    simp only [step,hask,Option.isSome_map]
    exact lift_isSome (by simp [Coroutines.step,hst])
  | awaiting t =>
    obtain ⟨c,hc⟩ := hs.kept f t (by rw [hst]; rfl)
    rw [Coroutines.callee_awaiting hst hc] at hleaf
    cases hleaf
  | back t =>
    obtain ⟨c,hc⟩ := hs.kept f t (by rw [hst]; rfl)
    obtain ⟨_,callee,rest,hcall,_⟩ := h.awaited f t c (by rw [hst]; rfl) hc
    have hreturner : s.coro.returner f = some c := by simp [Coroutines.returner,hst,hc]
    refine .back ?_
    simp only [step,hcall,hreturner,Option.isSome_map]
    exact lift_isSome (by simp [Coroutines.step,hst,hc])
  | fresh | committed | returned | ending | done =>
    rw [hst] at hbegun
    cases hbegun

/-- A chain of calls that has been started and has not ended can go on, at the innermost of
its calls. -/
theorem chains_go_on (P : Program L (Option V) A) (s : Programs L V A)
    (h : Transition.Reaches (Programs.step P) (fun _ _ => true) .start s) (r : Nat)
    (l : List Nat) (hchain : s.coro.CallStack r l) (hbegun : (s.coro.stage r).begun = true) :
    ∃ f ∈ l.getLast?, s.CanGo P f := by
  obtain ⟨hl,⟨stack,hs⟩,hfaithful⟩ := Programs.reaches_sound h
  obtain ⟨hne,rfl⟩ := hs.eq_of_callStack hchain
  obtain ⟨f,hlast⟩ := Option.isSome_iff_exists.mp (List.getLast?_isSome.mpr hne)
  refine ⟨f,hlast,?_⟩
  have hin : f ∈ stack r := List.mem_of_getLast? hlast
  refine hfaithful.canGo hl hs ?_ (hs.leaf r f hlast)
  by_contra hnot
  have hidle : (s.coro.stage f).idle = true := by
    have hret := (hs.active f).mpr ⟨r,hin⟩
    cases hst : s.coro.stage f <;> simp [hst,Stage.begun,Stage.idle] at hnot hret ⊢
  -- such a frame is the whole of its chain
  have halone := hs.idle f hidle
  have heq := hs.threaded.apart r f f hin (by rw [halone]; simp)
  rw [← heq] at hnot
  exact hnot hbegun

theorem addServed_goes_on : ∃ s : Programs ExampleFrame ExampleValue Unit,
    s.coro.stage 0 = .suspended ∧ s.CanGo exampleRpc 0 := by
  have hrun : (Transition.run (Programs.step exampleRpc) (fun _ _ => true) .start
      (addServed.take 5)).map (fun s => (s.coro.stage 0,s.coro.count,s.coro.tasks)) =
        some (.suspended,1,[.handle (some 0)]) := by decide
  obtain ⟨s,hs,heq⟩ := Option.map_eq_some_iff.mp hrun
  simp only [Prod.mk.injEq] at heq
  obtain ⟨hst,_,htasks⟩ := heq
  have hnone : ∀ p c, s.coro.callee p ≠ some c := by
    intro p c hp
    obtain ⟨i,_,hi⟩ := Coroutines.callee_some hp
    rw [htasks,List.getElem?_singleton] at hi
    split at hi <;> simp at hi
  have hchain : s.coro.CallStack 0 [0] :=
    ⟨rfl,by simp [hst],fun p => hnone p 0,.singleton 0,fun a _ => by
      cases hc : s.coro.callee a with
      | none => rfl
      | some c => exact absurd hc (hnone a c)⟩
  obtain ⟨f,hf,hgo⟩ := chains_go_on exampleRpc s (Transition.reaches_of_run hs) 0 [0] hchain
    (by rw [hst]; rfl)
  cases hf
  exact ⟨s,hst,hgo⟩

end

end NewRpc.Task
