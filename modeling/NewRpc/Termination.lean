import NewRpc.Fairness
import NewRpc.Programs

/-!
Coroutines that come to their end: when every frame that can go on does so, a body that
terminates ends, and a request that was committed is answered.
-/

set_option autoImplicit false

namespace NewRpc.Task
open Resumable Transition

section
variable {L V A : Type} {P : Program L (Option V) A} {s t : Programs L V A}

def Action.agent : Action L V A → Option Nat
  | .await f _ | .call f | .back f | .suspend f | .run f _ | .finish f => some f
  | .other (.start f) | .other (.wake f) | .other (.release f) => some f
  | _ => none

inductive Programs.Goes (P : Program L (Option V) A) (s t : Programs L V A) (f : Nat) :
    Option Nat → Prop
  | stays {agent : Option Nat} (hagent : agent ≠ some f)
      (hstage : t.coro.stage f = s.coro.stage f) (hplace : t.place f = s.place f) :
      Goes P s t f agent
  | given {agent : Option Nat} {i : Nat} (hstage : s.coro.stage f = .awaiting i)
      (hnext : t.coro.stage f = .back i) (hplace : t.place f = s.place f) : Goes P s t f agent
  | start (hstage : s.coro.stage f = .committed) (hnext : t.coro.stage f = .running)
      (hplace : t.place f = s.place f) : Goes P s t f (some f)
  | suspend {rest : A → L} (hstage : s.coro.stage f = .running)
      (hf : s.command P f = some (.ask rest)) (hnext : t.coro.stage f = .suspended)
      (hplace : t.place f = s.place f) : Goes P s t f (some f)
  | wake (hstage : s.coro.stage f = .suspended) (hnext : t.coro.stage f = .queued)
      (hplace : t.place f = s.place f) : Goes P s t f (some f)
  | call {callee : L} {rest : Option V → L} {i : Nat} (hstage : s.coro.stage f = .running)
      (hf : s.command P f = some (.call callee rest)) (hnext : t.coro.stage f = .awaiting i)
      (hplace : t.place f = s.place f) : Goes P s t f (some f)
  | onward {l m : L} (hstage : s.coro.stage f = .queued ∨ ∃ i, s.coro.stage f = .back i)
      (hf : s.place f = some l) (hnext : t.coro.stage f = .running)
      (hplace : t.place f = some m) (hbelow : Below P m l) : Goes P s t f (some f)
  | finish {value : Option V} (hstage : s.coro.stage f = .running)
      (hf : s.command P f = some (.ret value)) (hnext : (t.coro.stage f).over = true)
      (hplace : t.place f = s.place f) : Goes P s t f (some f)
  | release (hstage : s.coro.stage f = .ending) (hnext : t.coro.stage f = .done)
      (hplace : t.place f = s.place f) : Goes P s t f (some f)

theorem Coroutines.begin_other {s : Coroutines V} {f g : Nat} (h : f ≠ g) :
    (s.begin g).stage f = s.stage f := by
  rw [s.begin_stage,Function.update_of_ne h]

theorem Coroutines.setStage_other {s : Coroutines V} {f g : Nat} {stage : Stage} (h : f ≠ g) :
    (s.setStage g stage).stage f = s.stage f :=
  Function.update_of_ne h ..

/-- The events that no body decides about. -/
theorem Programs.goes_other {audit : Audit V} {e : Event V} {f : Nat}
    (ha : s.coro.Acts e audit.coro) (he : e.bodiless = true) (hf : s.coro.stage f ≠ .fresh) :
    s.Goes P { s with audit := audit } f (Action.agent (.other e : Action L V A)) := by
  have hstays : audit.coro.stage f = s.coro.stage f →
      Action.agent (.other e : Action L V A) ≠ some f →
      s.Goes P { s with audit := audit } f (Action.agent (.other e : Action L V A)) :=
    fun hstage hagent => .stays hagent hstage rfl
  generalize hc : audit.coro = c at ha hstays
  cases ha with
  | copy | move | request | refused | stop => exact hstays rfl (by simp [Action.agent])
  | drop ht => exact hstays (by rw [s.coro.drop_stage]) (by simp [Action.agent])
  | @commit i g ht hg hstop =>
    have hne : f ≠ g := fun heq => hf (heq ▸ hg)
    refine hstays ?_ (by simp [Action.agent])
    rw [Coroutines.commit_stage hstop,Function.update_of_ne hne]
  | @resume i g ht hg =>
    have hne : f ≠ g := fun heq => hf (heq ▸ hg)
    exact hstays (Coroutines.begin_other hne) (by simp [Action.agent])
  | @start g hg =>
    by_cases hne : f = g
    · subst hne
      refine .start hg ?_ rfl
      show audit.coro.stage f = _
      rw [hc,s.coro.begin_stage,Function.update_self]
    · exact hstays (Coroutines.begin_other hne) (by simpa [Action.agent] using Ne.symm hne)
  | @wake g hg =>
    by_cases hne : f = g
    · subst hne
      refine .wake hg ?_ rfl
      show audit.coro.stage f = _
      rw [hc]
      exact Function.update_self ..
    · exact hstays (Coroutines.setStage_other hne) (by simpa [Action.agent] using Ne.symm hne)
  | @release g hg =>
    by_cases hne : f = g
    · subst hne
      refine .release hg ?_ rfl
      show audit.coro.stage f = _
      rw [hc]
      exact Function.update_self ..
    · exact hstays (Coroutines.setStage_other hne) (by simpa [Action.agent] using Ne.symm hne)
  | create | suspend | run | await | back | complete | giveBack => cases he

theorem Programs.moved_other {f g : Nat} {l : L} {answers : List A} (h : f ≠ g) :
    (s.moved g l answers).place f = s.place f :=
  Function.update_of_ne h ..

theorem Programs.moved_self {f : Nat} {l : L} {answers : List A} :
    (s.moved f l answers).place f = some l :=
  Function.update_self ..

theorem Programs.goes_finish {audit : Audit V} {g f : Nat} {value : Option V}
    (hg : s.command P g = some (.ret value)) (ha : s.coro.Acts (.finish g value) audit.coro) :
    s.Goes P { s with audit := audit } f (some g) := by
  generalize hc : audit.coro = c at ha
  cases ha with
  | complete hrun hroot =>
    have hstage := (s.coro.returning g value).complete_stage g
    rw [← hc] at hstage
    by_cases hne : f = g
    · subst hne
      refine .finish hrun hg ?_ rfl
      show (audit.coro.stage f).over = true
      rw [hstage,Function.update_self]
      rfl
    · refine .stays (by simpa using Ne.symm hne) ?_ rfl
      show audit.coro.stage f = _
      rw [hstage,Function.update_of_ne hne]
      rfl
  | @giveBack _ caller i _ frames hrun hroot hprev hcaller hunlink =>
    have hpg : caller ≠ g := by
      intro heq
      rw [heq,hrun] at hcaller
      cases hcaller
    obtain ⟨hback,hleft,hother⟩ := (s.coro.returning g value).giveBack_stages frames i hpg
    rw [← hc] at hback hleft hother
    by_cases hne : f = g
    · subst hne
      refine .finish hrun hg ?_ rfl
      show (audit.coro.stage f).over = true
      rw [hleft]
      rfl
    · by_cases hfc : f = caller
      · subst hfc
        exact .given hcaller hback rfl
      · exact .stays (by simpa using Ne.symm hne) (hother f hne hfc) rfl

theorem Programs.command_some {f : Nat} {c : Command L (Option V) A}
    (h : s.command P f = some c) : ∃ l, s.place f = some l ∧ P l = c :=
  Option.map_eq_some_iff.mp h

/-- What a body receives from the child that it called is what the call computes. -/
theorem Programs.Sound.below (h : s.Sound P) {f i c : Nat} {l : L} {callee : L}
    {rest : Option V → L} (hback : s.coro.stage f = .back i)
    (hi : s.coro.tasks[i]? = some (.middle c)) (hf : s.place f = some l)
    (hl : P l = .call callee rest) : Below P (rest (s.coro.result c)) l := by
  obtain ⟨stack,hs⟩ := h.nested
  obtain ⟨hlt,callee',rest',hcall,hentry⟩ := h.faithful.awaited f i c (by rw [hback]; rfl) hi
  have hret := hs.handed f i c hback hi
  obtain ⟨e,he,hcomputes⟩ := h.faithful.computes hlt (by rw [hret]; rfl)
  obtain ⟨l',hl',hcall'⟩ := command_some hcall
  cases hf.symm.trans hl'
  cases hl.symm.trans hcall'
  cases hentry.symm.trans he
  exact .value hl hcomputes

theorem Programs.Performs.goes {a : Action L V A} (hp : s.Performs P a t) (h : s.Sound P)
    {f : Nat} (hlt : f < s.coro.count) (hf : s.coro.stage f ≠ .fresh) :
    s.Goes P t f a.agent := by
  cases hp with
  | @create callee audit ha =>
    have hne : f ≠ s.coro.count := Nat.ne_of_lt hlt
    have hacts := Coroutines.step_acts (Audit.step_coro ha)
    generalize hc : audit.coro = c at hacts
    cases hacts
    refine .stays (by simp [Action.agent]) ?_ (Function.update_of_ne hne ..)
    show audit.coro.stage f = _
    rw [hc]
    exact Function.update_of_ne hne ..
  | @await g i child callee rest audit hg hentry ht ha =>
    have hacts := Coroutines.step_acts (Audit.step_coro ha)
    generalize hc : audit.coro = c at hacts
    cases hacts with
    | @await _ _ child' frames hrun hi hfresh hlink =>
      have hcg : child' ≠ g := by
        intro heq
        rw [heq,hrun] at hfresh
        cases hfresh
      obtain ⟨hchild,hcaller,hother⟩ := s.coro.called_stages frames i hcg
      rw [← hc] at hchild hcaller hother
      by_cases hne : f = g
      · subst hne
        exact .call hrun hg hcaller rfl
      · have hfc : f ≠ child' := fun heq => hf (heq ▸ hfresh)
        exact .stays (by simpa [Action.agent] using Ne.symm hne) (hother f hne hfc) rfl
  | @back g child callee rest audit hg hchild ha =>
    obtain ⟨j,hj,hj'⟩ := Coroutines.returner_some hchild
    have hacts := Coroutines.step_acts (Audit.step_coro ha)
    generalize hc : audit.coro = c at hacts
    cases hacts with
    | back hback hi =>
      by_cases hne : f = g
      · subst hne
        obtain ⟨l,hl,hcall⟩ := command_some hg
        refine .onward (.inr ⟨j,hj⟩) hl ?_ moved_self (h.below hj hj' hl hcall)
        show audit.coro.stage f = _
        rw [hc]
        exact Function.update_self ..
      · refine .stays (by simpa [Action.agent] using Ne.symm hne) ?_ (moved_other hne)
        show audit.coro.stage f = _
        rw [hc,Coroutines.setStage_other hne,s.coro.drop_stage]
  | @suspend g rest audit hg ha =>
    have hacts := Coroutines.step_acts (Audit.step_coro ha)
    generalize hc : audit.coro = c at hacts
    cases hacts with
    | suspend hrun =>
      by_cases hne : f = g
      · subst hne
        refine .suspend hrun hg ?_ rfl
        show audit.coro.stage f = _
        rw [hc]
        exact Function.update_self ..
      · refine .stays (by simpa [Action.agent] using Ne.symm hne) ?_ rfl
        show audit.coro.stage f = _
        rw [hc]
        exact Coroutines.setStage_other hne
  | @run g rest answer audit hg ha =>
    have hacts := Coroutines.step_acts (Audit.step_coro ha)
    generalize hc : audit.coro = c at hacts
    cases hacts with
    | run hqueued =>
      by_cases hne : f = g
      · subst hne
        obtain ⟨l,hl,hask⟩ := command_some hg
        refine .onward (.inl hqueued) hl ?_ moved_self (.answer hask answer)
        show audit.coro.stage f = _
        rw [hc]
        exact Function.update_self ..
      · refine .stays (by simpa [Action.agent] using Ne.symm hne) ?_ (moved_other hne)
        show audit.coro.stage f = _
        rw [hc]
        exact Coroutines.setStage_other hne
  | finish hg ha => exact goes_finish hg (Coroutines.step_acts (Audit.step_coro ha))
  | other he ha => exact goes_other (Coroutines.step_acts (Audit.step_coro ha)) he hf

theorem Coroutines.Acts.middle {s t : Coroutines V} {e : Event V} (h : s.Acts e t) {i c : Nat}
    (hi : i < s.tasks.length) (ht : t.tasks[i]? = some (.middle c)) :
    s.tasks[i]? = some (.middle c) := by
  cases h with
  | create => exact middle_of_append (by simp) ht
  | suspend | run => exact ht
  | @await f j child frames hrun hj hfresh hlink =>
    rw [Coroutines.begin_tasks] at ht
    change (s.tasks.set j (.handle none) ++ [.middle child])[i]? = some (.middle c) at ht
    rw [List.getElem?_append_left (by simpa using hi)] at ht
    exact middle_of_set (by simp) ht
  | back hf hj => exact middle_of_set (by simp) ht
  | complete hf hroot =>
    rw [Coroutines.complete_tasks] at ht
    exact ht
  | giveBack => exact ht
  | copy hj => exact ((Acts.copy hj).plain rfl).middle i c ht
  | move hj => exact ((Acts.move hj).plain rfl).middle i c ht
  | drop hj => exact ((Acts.drop hj).plain rfl).middle i c ht
  | request hj hf hvar => exact ht
  | refused | stop => exact ht
  | @commit _ f hj hf hstop =>
    rw [s.commit_tasks f] at ht
    exact ht
  | resume hj hf | start hf =>
    rw [Coroutines.begin_tasks] at ht
    exact ht
  | wake hf => exact ht
  | release hf => exact ht

theorem Programs.Performs.callee_kept {a : Action L V A} (hp : s.Performs P a t)
    (h : s.Sound P) {f c i : Nat} (hs : s.coro.stage f = .awaiting i)
    (hc : s.coro.callee f = some c) (hnext : t.coro.stage f = .awaiting i) :
    t.coro.callee f = some c := by
  obtain ⟨stack,hstacks⟩ := (hp.sound h).nested
  obtain ⟨e,ha⟩ := hp.event
  obtain ⟨j,hj,hin⟩ := Coroutines.callee_some hc
  cases hs.symm.trans hj
  obtain ⟨c',hc'⟩ := hstacks.kept f i (by rw [hnext]; rfl)
  obtain ⟨hlt,_⟩ := List.getElem?_eq_some_iff.mp hin
  have hacts := Coroutines.step_acts (Audit.step_coro ha)
  cases hin.symm.trans (hacts.middle hlt hc')
  exact Coroutines.callee_awaiting hnext hc'

theorem Programs.create_stays {callee : L} (hp : s.Performs P (.create callee) t) {f : Nat}
    (hlt : f < s.coro.count) : t.coro.stage f = s.coro.stage f ∧ t.place f = s.place f ∧
      f < t.coro.count := by
  have hne : f ≠ s.coro.count := Nat.ne_of_lt hlt
  cases hp with
  | @create _ audit ha =>
    have hacts := Coroutines.step_acts (Audit.step_coro ha)
    generalize hc : audit.coro = c at hacts
    cases hacts
    refine ⟨?_,Function.update_of_ne hne ..,?_⟩
    · show audit.coro.stage f = _
      rw [hc]
      exact Function.update_of_ne hne ..
    · show f < audit.coro.count
      rw [hc]
      exact Nat.lt_succ_of_lt hlt

theorem Programs.Goes.of_same {u : Programs L V A} {f : Nat} {agent : Option Nat}
    (h : u.Goes P t f agent) (hstage : u.coro.stage f = s.coro.stage f)
    (hplace : u.place f = s.place f) : s.Goes P t f agent := by
  have hcommand : u.command P f = s.command P f := by simp only [command,hplace]
  cases h with
  | stays ha hs hp => exact .stays ha (hs.trans hstage) (hp.trans hplace)
  | given hs hn hp => exact .given (hstage ▸ hs) hn (hp.trans hplace)
  | start hs hn hp => exact .start (hstage ▸ hs) hn (hp.trans hplace)
  | suspend hs hf hn hp => exact .suspend (hstage ▸ hs) (hcommand ▸ hf) hn (hp.trans hplace)
  | wake hs hn hp => exact .wake (hstage ▸ hs) hn (hp.trans hplace)
  | call hs hf hn hp => exact .call (hstage ▸ hs) (hcommand ▸ hf) hn (hp.trans hplace)
  | onward hs hf hn hp hb => exact .onward (hstage ▸ hs) (hplace ▸ hf) hn hp hb
  | finish hs hf hn hp => exact .finish (hstage ▸ hs) (hcommand ▸ hf) hn (hp.trans hplace)
  | release hs hn hp => exact .release (hstage ▸ hs) hn (hp.trans hplace)

theorem Coroutines.Stacks.callee_begun {s : Coroutines V} {stack : Nat → List Nat}
    (h : s.Stacks stack) {p c : Nat} (hc : s.callee p = some c) :
    (s.stage c).begun = true := by
  obtain ⟨r,l,m,hr⟩ := h.caller hc
  have hin : c ∈ stack r := by simp [hr]
  have hret := (h.active c).mpr ⟨r,hin⟩
  have hidle : (s.stage c).idle = false := by
    rw [Bool.eq_false_iff]
    intro hidle
    -- a frame that is idle is alone in its stack
    have halone := h.idle c hidle
    have heq := h.threaded.apart r c c hin (by simp [halone])
    rw [heq,halone] at hr
    have hlen := congrArg List.length hr
    simp only [List.length_append,List.length_cons,List.length_nil] at hlen
    omega
  cases hst : s.stage c <;> simp [hst,Stage.idle,Stage.begun] at hidle hret ⊢

section
variable [DecidableEq L]

theorem Programs.Sound.goes (h : s.Sound P) {a : Action L V A} (he : s.step P a = some t)
    {f : Nat} (hlt : f < s.coro.count) (hf : s.coro.stage f ≠ .fresh) :
    s.Goes P t f a.agent := by
  rcases step_performs he with hp | ⟨g,callee,u,rfl,hcreate,hawait⟩
  · exact hp.goes h hlt hf
  · obtain ⟨hstage,hplace,hlt'⟩ := create_stays hcreate hlt
    exact (hawait.goes (hcreate.sound h) hlt' (hstage ▸ hf)).of_same hstage hplace

theorem Programs.CanGo.enabled [Nonempty A] {f : Nat} (h : s.CanGo P f) :
    Enabled (Programs.step P) Action.agent f s := by
  cases h with
  | wake h => exact ⟨_,rfl,h⟩
  | run h =>
    obtain ⟨answer⟩ := (inferInstance : Nonempty A)
    exact ⟨_,rfl,h answer⟩
  | back h => exact ⟨_,rfl,h⟩
  | suspend h => exact ⟨_,rfl,h⟩
  | finish h => exact ⟨_,rfl,h⟩
  | call h => exact ⟨_,rfl,h⟩

structure Coroutines.Lasts (s t : Coroutines V) : Prop where
  count : s.count ≤ t.count
  started : ∀ f < s.count, s.stage f ≠ .fresh → t.stage f ≠ .fresh
  counted : ∀ f < s.count, (s.frames f).frameRunningCnt = true →
    (t.frames f).frameRunningCnt = true

omit [DecidableEq L] in
theorem Coroutines.Took.lasts {s t : Coroutines V} {keeps : Bool} (h : s.Took keeps t) :
    s.Lasts t := by
  cases h with
  | same h =>
    exact ⟨Nat.le_of_eq h.count.symm,fun f _ hf hfresh => hf (h.fresh f hfresh),
      fun f _ hf => (h.frameRunningCnt f).trans hf⟩
  | create =>
    refine ⟨Nat.le_succ _,fun f hlt hf => ?_,fun f hlt hf => ?_⟩
    · rw [(s.create_old (Nat.ne_of_lt hlt)).2]
      exact hf
    · rw [(s.create_old (Nat.ne_of_lt hlt)).1]
      exact hf
  | @copy g hpos =>
    refine ⟨Nat.le_refl _,fun _ _ hf => hf,fun f _ hf => ?_⟩
    have hcnt := update_frameRunningCnt s.frames g
      { s.frames g with refCnt := (s.frames g).refCnt.inc } rfl f
    exact hcnt.trans hf
  | @commit g hstop hfresh =>
    refine ⟨Nat.le_of_eq (s.commit_births g).symm,fun f _ hf => ?_,fun f _ hf => ?_⟩
    · rw [Coroutines.commit_stage hstop]
      by_cases hfg : f = g
      · rw [hfg,Function.update_self]
        simp
      · rw [Function.update_of_ne hfg]
        exact hf
    · rw [Coroutines.commit_cnt hstop,hf,ite_self]
  | @drop i g task u ht hp h =>
    refine ⟨?_,fun f _ hf hfresh => ?_,fun f _ hf => ?_⟩
    · rw [h.count,s.drop_births]
    · have hold := h.fresh f hfresh
      rw [s.drop_stage] at hold
      exact hf hold
    · rw [h.frameRunningCnt,data_count ((Coroutines.Keeps.drop s i (some g)).data f)]
      exact hf
  | @ends g hg =>
    refine ⟨Nat.le_refl _,fun f _ hf => ?_,fun f _ hf => ?_⟩
    · by_cases hfg : f = g
      · rw [hfg]
        exact (Function.update_self ..).trans_ne (by simp)
      · rw [Coroutines.setStage_other hfg]
        exact hf
    · have hcnt := update_frameRunningCnt s.frames g
        { s.frames g with refCnt := (s.frames g).refCnt.dec.2 } rfl f
      exact hcnt.trans hf

structure Programs.Called (s : Programs L V A) (f : Nat) (l : L) : Prop where
  born : f < s.coro.count
  entry : s.entry f = some l

omit [DecidableEq L] in
theorem Programs.Performs.lasts {a : Action L V A} (hp : s.Performs P a t) :
    s.coro.Lasts t.coro := by
  obtain ⟨e,ha⟩ := hp.event
  exact (Coroutines.step_took (Audit.step_coro ha)).lasts

omit [DecidableEq L] in
theorem Programs.Performs.called {a : Action L V A} (hp : s.Performs P a t) {f : Nat} {l : L}
    (h : s.Called f l) : t.Called f l := by
  refine ⟨Nat.lt_of_lt_of_le h.born hp.lasts.count,?_⟩
  cases hp with
  | create => exact (Function.update_of_ne (Nat.ne_of_lt h.born) ..).trans h.entry
  | _ => exact h.entry

theorem Programs.step_called {a : Action L V A} (he : s.step P a = some t) {f : Nat} {l : L}
    (h : s.Called f l) : t.Called f l := by
  rcases step_performs he with hp | ⟨g,callee,u,_,hcreate,hawait⟩
  · exact hp.called h
  · exact hawait.called (hcreate.called h)

def Programs.At (f : Nat) (stage : Stage) (l : L) (s : Programs L V A) : Prop :=
  s.coro.stage f = stage ∧ s.place f = some l

def Programs.Active (f : Nat) (l : L) (s : Programs L V A) : Prop :=
  (s.coro.stage f).begun = true ∧ s.place f = some l

def Programs.Over (f : Nat) (s : Programs L V A) : Prop := (s.coro.stage f).over = true

omit [DecidableEq L] in
/-- The child that a frame awaits has not ended, and is at a place below. -/
theorem Programs.Sound.child (h : s.Sound P) {f i : Nat} {l : L} (hf : s.At f (.awaiting i) l) :
    ∃ c m, s.coro.callee f = some c ∧ s.Active c m ∧ Relation.TransGen (Below P) m l := by
  obtain ⟨stack,hs⟩ := h.nested
  obtain ⟨hstage,hplace⟩ := hf
  obtain ⟨c,hc⟩ := hs.kept f i (by rw [hstage]; rfl)
  have hcallee := Coroutines.callee_awaiting hstage hc
  obtain ⟨hlt,callee,rest,hcall,hentry⟩ := h.faithful.awaited f i c (by rw [hstage]; rfl) hc
  obtain ⟨l',hl',hl⟩ := command_some hcall
  cases hplace.symm.trans hl'
  obtain ⟨e,m,he,hm,hleaves⟩ := h.faithful.bodied c hlt
  cases hentry.symm.trans he
  exact ⟨c,m,hcallee,⟨hs.callee_begun hcallee,hm⟩,
    .tail' hleaves.descends (.callee hl)⟩

theorem Programs.step_callee {a : Action L V A} (h : s.Sound P) (he : s.step P a = some t)
    {f c i : Nat} (hs : s.coro.stage f = .awaiting i) (hc : s.coro.callee f = some c)
    (hnext : t.coro.stage f = .awaiting i) : t.coro.callee f = some c := by
  rcases step_performs he with hp | ⟨g,callee,u,rfl,hcreate,hawait⟩
  · exact hp.callee_kept h hs hc hnext
  · have hstage := (create_stays hcreate (h.ledger.started f (by rw [hs]; simp))).1.trans hs
    exact hawait.callee_kept (hcreate.sound h) hstage (hcreate.callee_kept h hs hc hstage) hnext

variable {ok : Programs L V A → Action L V A → Bool} {r : Run (Programs.step P) ok}

/-- A frame that does not await stays where it is until it goes on. -/
theorem Programs.goes_on {f : Nat} {stage : Stage} {l : L} {Q : Programs L V A → Prop}
    (hsound : ∀ i, (r.state i).Sound P) (hfair : r.Fair Action.agent f)
    (hfresh : stage ≠ .fresh) (hdone : stage ≠ .done) (hself : ∀ i, stage ≠ .awaiting i)
    (henabled : ∀ s, s.Sound P → s.At f stage l → Enabled (Programs.step P) Action.agent f s)
    (hgo : ∀ s t : Programs L V A, s.At f stage l → s.Goes P t f (some f) → Q t) :
    r.LeadsTo (Programs.At f stage l) Q := by
  have hgoes : ∀ (s : Programs L V A) a t, s.Sound P → s.At f stage l → s.step P a = some t →
      s.Goes P t f a.agent := by
    intro s a t hs hat he
    exact hs.goes he (hs.ledger.started f (by rw [hat.1]; exact hdone)) (by rw [hat.1]; exact hfresh)
  refine Run.leadsTo_of_fair hsound hfair henabled (fun s a t hs hat he => ?_)
    (fun s a t hs hat ha he => ?_)
  · have hgo' := hgoes s a t hs hat he
    by_cases ha : a.agent = some f
    · rw [ha] at hgo'
      exact .inr (hgo s t hat hgo')
    · generalize a.agent = agent at hgo' ha
      cases hgo' with
      | stays _ hstage hplace => exact .inl ⟨hstage.trans hat.1,hplace.trans hat.2⟩
      | given hstage => exact absurd (hat.1.symm.trans hstage) (hself _)
      | _ => exact absurd rfl ha
  · have hgo' := hgoes s a t hs hat he
    rw [ha] at hgo'
    exact hgo s t hat hgo'

theorem Programs.begun_goes_on [Nonempty A] {f : Nat} {stage : Stage} {l : L}
    {Q : Programs L V A → Prop} (hsound : ∀ i, (r.state i).Sound P)
    (hfair : r.Fair Action.agent f) (hbegun : stage.begun = true)
    (hself : ∀ i, stage ≠ .awaiting i)
    (hgo : ∀ s t : Programs L V A, s.At f stage l → s.Goes P t f (some f) → Q t) :
    r.LeadsTo (Programs.At f stage l) Q := by
  refine goes_on hsound hfair ?_ ?_ hself (fun s hs hat => ?_) hgo
  · rintro rfl
    cases hbegun
  · rintro rfl
    cases hbegun
  · obtain ⟨stack,hstacks⟩ := hs.nested
    refine (hs.faithful.canGo hs.ledger hstacks ?_ ?_).enabled
    · rw [hat.1]
      exact hbegun
    · refine Coroutines.callee_none (fun i => ?_)
      rw [hat.1]
      exact hself i

section
variable [Nonempty A] {f : Nat} {l : L}

def Programs.Onward (P : Program L (Option V) A) (f : Nat) (l : L) (s : Programs L V A) : Prop :=
  ∃ m, Below P m l ∧ s.At f .running m

theorem Programs.queued_onward (hsound : ∀ i, (r.state i).Sound P)
    (hfair : r.Fair Action.agent f) : r.LeadsTo (Programs.At f .queued l) (Onward P f l) := by
  refine begun_goes_on hsound hfair rfl (by simp) (fun s t hat hgo => ?_)
  obtain ⟨hstage,hplace⟩ := hat
  cases hgo with
  | stays hne => exact absurd rfl hne
  | onward _ hf hnext hplace' hbelow =>
    cases hplace.symm.trans hf
    exact ⟨_,hbelow,hnext,hplace'⟩
  | given h | start h | suspend h | wake h | call h | finish h | release h =>
    cases hstage.symm.trans h

theorem Programs.back_onward {i : Nat} (hsound : ∀ i, (r.state i).Sound P)
    (hfair : r.Fair Action.agent f) :
    r.LeadsTo (Programs.At f (.back i) l) (Onward P f l) := by
  refine begun_goes_on hsound hfair rfl (by simp) (fun s t hat hgo => ?_)
  obtain ⟨hstage,hplace⟩ := hat
  cases hgo with
  | stays hne => exact absurd rfl hne
  | onward _ hf hnext hplace' hbelow =>
    cases hplace.symm.trans hf
    exact ⟨_,hbelow,hnext,hplace'⟩
  | given h | start h | suspend h | wake h | call h | finish h | release h =>
    cases hstage.symm.trans h

theorem Programs.suspended_wakes (hsound : ∀ i, (r.state i).Sound P)
    (hfair : r.Fair Action.agent f) :
    r.LeadsTo (Programs.At f .suspended l) (Programs.At f .queued l) := by
  refine begun_goes_on hsound hfair rfl (by simp) (fun s t hat hgo => ?_)
  obtain ⟨hstage,hplace⟩ := hat
  cases hgo with
  | stays hne => exact absurd rfl hne
  | wake _ hnext hplace' => exact ⟨hnext,hplace'.trans hplace⟩
  | onward h =>
    rcases h with h | ⟨_,h⟩
    · cases hstage.symm.trans h
    · cases hstage.symm.trans h
  | given h | start h | suspend h | call h | finish h | release h => cases hstage.symm.trans h

theorem Programs.running_goes (hsound : ∀ i, (r.state i).Sound P)
    (hfair : r.Fair Action.agent f) : r.LeadsTo (Programs.At f .running l) (fun s => s.Over f ∨
      s.At f .suspended l ∨ ∃ i, s.At f (.awaiting i) l) := by
  refine begun_goes_on hsound hfair rfl (by simp) (fun s t hat hgo => ?_)
  obtain ⟨hstage,hplace⟩ := hat
  cases hgo with
  | stays hne => exact absurd rfl hne
  | suspend _ _ hnext hplace' => exact .inr (.inl ⟨hnext,hplace'.trans hplace⟩)
  | call _ _ hnext hplace' => exact .inr (.inr ⟨_,hnext,hplace'.trans hplace⟩)
  | finish _ _ hnext => exact .inl hnext
  | onward h =>
    rcases h with h | ⟨_,h⟩
    · cases hstage.symm.trans h
    · cases hstage.symm.trans h
  | given h | start h | wake h | release h => cases hstage.symm.trans h

omit [Nonempty A] in
/-- A frame awaits its child until that has ended. -/
theorem Programs.awaiting_returns {i : Nat} (hsound : ∀ i, (r.state i).Sound P)
    (hchild : ∀ m, Relation.TransGen (Below P) m l → ∀ c,
      r.LeadsTo (Programs.Active c m) (Programs.Over c)) :
    r.LeadsTo (Programs.At f (.awaiting i) l) (Programs.At f (.back i) l) := by
  intro k hk
  obtain ⟨c,m,hcallee,hactive,hbelow⟩ := (hsound k).child hk
  obtain ⟨n,hkn,hover⟩ := hchild m hbelow c k hactive
  have hkeeps := Run.keeps_unless (r := r)
    (P := fun s => s.At f (.awaiting i) l ∧ s.coro.callee f = some c)
    (Q := Programs.At f (.back i) l) hkn ⟨hk,hcallee⟩ (fun j a _ _ hp _ he => ?_)
  · rcases hkeeps with ⟨_,hcallee'⟩ | hback
    · obtain ⟨stack,hs⟩ := (hsound n).nested
      have hbegun := hs.callee_begun hcallee'
      have hover' : ((r.state n).coro.stage c).over = true := hover
      cases hst : (r.state n).coro.stage c <;>
        simp [hst,Stage.begun,Stage.over] at hbegun hover'
    · exact hback
  · obtain ⟨⟨hstage,hplace⟩,hc⟩ := hp
    have hlt := (hsound j).ledger.started f (by rw [hstage]; simp)
    have hgo := (hsound j).goes he hlt (by rw [hstage]; simp)
    generalize a.agent = agent at hgo
    cases hgo with
    | stays _ hstage' hplace' =>
      have hnext := hstage'.trans hstage
      refine .inl ⟨⟨hnext,hplace'.trans hplace⟩,?_⟩
      exact step_callee (hsound j) he hstage hc hnext
    | given h hnext hplace' =>
      cases hstage.symm.trans h
      exact .inr ⟨hnext,hplace'.trans hplace⟩
    | onward h =>
      rcases h with h | ⟨_,h⟩
      · cases hstage.symm.trans h
      · cases hstage.symm.trans h
    | start h | suspend h | wake h | call h | finish h | release h => cases hstage.symm.trans h

/-- By induction on the place: a frame that goes on is at one below, and so is the child that
it awaits. -/
theorem Programs.active_ends (hsound : ∀ i, (r.state i).Sound P)
    (hfair : ∀ f, r.Fair Action.agent f) (hl : Acc (Relation.TransGen (Below P)) l) (f : Nat) :
    r.LeadsTo (Programs.Active f l) (Programs.Over f) := by
  induction hl generalizing f with
  | intro l _ ih =>
    have honward : r.LeadsTo (Onward P f l) (Programs.Over f) := by
      rintro i ⟨m,hbelow,hstage,hplace⟩
      exact ih m (.single hbelow) f i ⟨by rw [hstage]; rfl,hplace⟩
    have hback : ∀ i, r.LeadsTo (Programs.At f (.back i) l) (Programs.Over f) :=
      fun _ => (back_onward hsound (hfair f)).trans honward
    have hqueued : r.LeadsTo (Programs.At f .queued l) (Programs.Over f) :=
      (queued_onward hsound (hfair f)).trans honward
    have hsuspended : r.LeadsTo (Programs.At f .suspended l) (Programs.Over f) :=
      (suspended_wakes hsound (hfair f)).trans hqueued
    have hawaiting : ∀ i, r.LeadsTo (Programs.At f (.awaiting i) l) (Programs.Over f) :=
      fun i => (awaiting_returns hsound ih).trans (hback i)
    rintro i ⟨hbegun,hplace⟩
    cases hst : (r.state i).coro.stage f with
    | running =>
      obtain ⟨j,hij,hj⟩ := running_goes hsound (hfair f) i ⟨hst,hplace⟩
      rcases hj with hover | hsus | ⟨k,haw⟩
      · exact ⟨j,hij,hover⟩
      · obtain ⟨n,hjn,hover⟩ := hsuspended j hsus
        exact ⟨n,Nat.le_trans hij hjn,hover⟩
      · obtain ⟨n,hjn,hover⟩ := hawaiting k j haw
        exact ⟨n,Nat.le_trans hij hjn,hover⟩
    | suspended => exact hsuspended i ⟨hst,hplace⟩
    | queued => exact hqueued i ⟨hst,hplace⟩
    | awaiting k => exact hawaiting k i ⟨hst,hplace⟩
    | back k => exact hback k i ⟨hst,hplace⟩
    | fresh | committed | returned | ending | done =>
      rw [hst] at hbegun
      cases hbegun

omit [Nonempty A] in
theorem Programs.committed_starts (hsound : ∀ i, (r.state i).Sound P)
    (hfair : r.Fair Action.agent f) :
    r.LeadsTo (Programs.At f .committed l) (Programs.At f .running l) := by
  refine goes_on hsound hfair (by simp) (by simp) (by simp) (fun s _ hat => ?_)
    (fun s t hat hgo => ?_)
  · refine ⟨.other (.start f),rfl,?_⟩
    simp only [step,Event.bodiless,if_true]
    exact lift_isSome (by simp [Coroutines.step,hat.1])
  · obtain ⟨hstage,hplace⟩ := hat
    cases hgo with
    | stays hne => exact absurd rfl hne
    | start _ hnext hplace' => exact ⟨hnext,hplace'.trans hplace⟩
    | onward h =>
      rcases h with h | ⟨_,h⟩
      · cases hstage.symm.trans h
      · cases hstage.symm.trans h
    | given h | suspend h | wake h | call h | finish h | release h => cases hstage.symm.trans h

end

/-- A frame that was started is at a place that its body has come to. -/
theorem Programs.started_ends [Nonempty A] (hsound : ∀ i, (r.state i).Sound P)
    (hfair : ∀ f, r.Fair Action.agent f) {i f : Nat} {l : L} (hf : (r.state i).Called f l)
    (hl : Terminates P l) (hstage : (r.state i).coro.stage f ≠ .fresh) :
    ∃ j, i ≤ j ∧ (r.state j).Over f ∧ (r.state j).Called f l := by
  have hover : ∃ j, i ≤ j ∧ (r.state j).Over f := by
    obtain ⟨e,m,he,hplace,hleaves⟩ := (hsound i).faithful.bodied f hf.born
    cases hf.entry.symm.trans he
    have hm : Acc (Relation.TransGen (Below P)) m := by
      rcases Relation.reflTransGen_iff_eq_or_transGen.mp hleaves.descends with rfl | hbelow
      · exact Acc.transGen hl
      · exact (Acc.transGen hl).inv hbelow
    have hactive := active_ends hsound hfair hm f
    cases hst : (r.state i).coro.stage f with
    | fresh => exact absurd hst hstage
    | committed =>
      obtain ⟨j,hij,hj⟩ := committed_starts hsound (hfair f) i ⟨hst,hplace⟩
      obtain ⟨n,hjn,hn⟩ := hactive j ⟨by rw [hj.1]; rfl,hj.2⟩
      exact ⟨n,Nat.le_trans hij hjn,hn⟩
    | running | suspended | queued | awaiting | back => exact hactive i ⟨by rw [hst]; rfl,hplace⟩
    | returned | ending | done =>
      refine ⟨i,Nat.le_refl i,?_⟩
      show ((r.state i).coro.stage f).over = true
      rw [hst]
      rfl
  obtain ⟨j,hij,hj⟩ := hover
  have hkept : (r.state j).Called f l :=
    Run.keeps (r := r) (P := fun s => s.Called f l) hij hf (fun _ _ _ _ hp he =>
      step_called he hp)
  exact ⟨j,hij,hj,hkept⟩

omit [DecidableEq L] in
theorem Programs.Goes.over {f : Nat} {agent : Option Nat} (h : s.Goes P t f agent)
    (hover : s.Over f) : t.Over f := by
  have hs : (s.coro.stage f).over = true := hover
  show (t.coro.stage f).over = true
  cases h with
  | stays _ hstage => rw [hstage]; exact hs
  | release _ hnext => rw [hnext]; rfl
  | finish _ _ hnext => exact hnext
  | onward h =>
    rcases h with h | ⟨_,h⟩
    · rw [h] at hs
      cases hs
    · rw [h] at hs
      cases hs
  | given h | start h | suspend h | wake h | call h =>
    rw [h] at hs
    cases hs

theorem Programs.over_kept (hsound : ∀ i, (r.state i).Sound P) {i j f : Nat} {l : L}
    (hij : i ≤ j) (hover : (r.state i).Over f) (hf : (r.state i).Called f l) :
    (r.state j).Over f ∧ (r.state j).Called f l := by
  refine Run.keeps (r := r) (P := fun s => s.Over f ∧ s.Called f l) hij ⟨hover,hf⟩
    (fun k a _ _ hp he => ?_)
  obtain ⟨hover',hcalled⟩ := hp
  have hfresh : (r.state k).coro.stage f ≠ .fresh := by
    intro heq
    have hs : ((r.state k).coro.stage f).over = true := hover'
    rw [heq] at hs
    cases hs
  exact ⟨((hsound k).goes he hcalled.born hfresh).over hover',step_called he hcalled⟩

/-- When every frame that can go on does so, a coroutine that was started and whose body
terminates ends with what its body computes. -/
theorem started_coroutines_end [Nonempty A] (r : Run (Programs.step P) ok)
    (hstart : r.state 0 = .start) (hfair : ∀ f, r.Fair Action.agent f) (i f : Nat) (l : L)
    (hlt : f < (r.state i).coro.count) (hentry : (r.state i).entry f = some l)
    (hl : Terminates P l) (hstarted : (r.state i).coro.stage f ≠ .fresh) :
    ∃ j, i ≤ j ∧ ((r.state j).coro.stage f).over = true ∧
      Computes P l ((r.state j).answers f) ((r.state j).coro.result f) := by
  have hsound : ∀ i, (r.state i).Sound P := fun i => Programs.reaches_sound (hstart ▸ r.reaches i)
  obtain ⟨j,hij,hover,hcalled⟩ := Programs.started_ends hsound hfair ⟨hlt,hentry⟩ hl hstarted
  obtain ⟨e,he,hcomputes⟩ := (hsound j).faithful.computes hcalled.born hover
  cases hcalled.entry.symm.trans he
  exact ⟨j,hij,hover,hcomputes⟩

omit [DecidableEq L] in
theorem Audit.step_requested {a b : Audit V} {e : Event V} (h : a.step e = some b) {f : Nat}
    (hf : a.coro.stage f ≠ .fresh) : b.requested f = a.requested f := by
  obtain ⟨u,hu,rfl⟩ := Option.map_eq_some_iff.mp h
  cases e with
  | request i info =>
    cases hi : a.coro.startable i with
    | none => simp only [record,hi]
    | some g =>
      obtain ⟨_,hg⟩ := Coroutines.startable_some hi
      have hne : f ≠ g := fun heq => hf (heq ▸ hg)
      simp only [record,hi,Function.update_of_ne hne]
  | _ => rfl

structure Programs.Committed (s : Programs L V A) (f : Nat) (request : Option Net.ResponseInfo) :
    Prop where
  born : f < s.coro.count
  started : s.coro.stage f ≠ .fresh
  counted : (s.coro.frames f).frameRunningCnt = true
  requested : s.audit.requested f = request

omit [DecidableEq L] in
theorem Programs.Performs.committed {a : Action L V A} (hp : s.Performs P a t) {f : Nat}
    {request : Option Net.ResponseInfo} (h : s.Committed f request) : t.Committed f request := by
  obtain ⟨e,he⟩ := hp.event
  have hlasts := hp.lasts
  exact ⟨Nat.lt_of_lt_of_le h.born hlasts.count,hlasts.started f h.born h.started,
    hlasts.counted f h.born h.counted,(Audit.step_requested he h.started).trans h.requested⟩

theorem Programs.step_committed {a : Action L V A} (he : s.step P a = some t) {f : Nat}
    {request : Option Net.ResponseInfo} (h : s.Committed f request) : t.Committed f request := by
  rcases step_performs he with hp | ⟨g,callee,u,_,hcreate,hawait⟩
  · exact hp.committed h
  · exact hawait.committed (hcreate.committed h)

/-- A request whose coroutine was committed gets one response, with what the body computes,
when every frame that can go on does so and the body terminates. -/
theorem committed_requests_answered [Nonempty A]
    (r : Run (Programs.step P) (Programs.returnsValue P)) (hstart : r.state 0 = .start)
    (hfair : ∀ f, r.Fair Action.agent f) (i f : Nat) (info : Net.ResponseInfo) (l : L)
    (hcommitted : ((r.state i).coro.frames f).frameRunningCnt = true)
    (hrequested : (r.state i).audit.requested f = some info)
    (hentry : (r.state i).entry f = some l) (hl : Terminates P l) :
    ∃ j, i ≤ j ∧ ∃ value v, (r.state j).audit.effectsOf f = [.respond info value,.deleteLocal v] ∧
      Computes P l ((r.state j).answers f) (some value) := by
  have hreaches : ∀ i, Transition.Reaches (Programs.step P) (Programs.returnsValue P) .start
      (r.state i) := fun i => hstart ▸ r.reaches i
  have hsound : ∀ i, (r.state i).Sound P := fun i => Programs.reaches_sound (hreaches i)
  have hroots : ∀ i, (r.state i).coro.Ledger ∧ ∃ stack, (r.state i).audit.Sound stack :=
    fun i => Audit.reaches_sound (Programs.audited (hreaches i))
  have hat : (r.state i).Committed f (some info) := by
    obtain ⟨hledger,stack,hs⟩ := hroots i
    refine ⟨?_,fun hfresh => ?_,hcommitted,hrequested⟩
    · by_contra hnot
      have hunborn := congrArg (fun x => x.2.2) (hs.vars.unborn f (Nat.le_of_not_lt hnot))
      cases hcommitted.symm.trans hunborn
    · cases hcommitted.symm.trans (hledger.fresh f hfresh)
  obtain ⟨j,hij,hover,hcalled⟩ :=
    Programs.started_ends hsound hfair ⟨hat.born,hentry⟩ hl hat.started
  have hkept : (r.state j).Committed f (some info) :=
    Run.keeps (r := r) (P := fun s => s.Committed f (some info)) hij hat (fun _ _ _ _ hp he =>
      Programs.step_committed he hp)
  obtain ⟨hledger,stack,hs⟩ := hroots j
  have hcomplete := hs.rootsComplete hledger
  have hend : (r.state j).coro.completed f := by
    -- a coroutine that the scheduler counts has no caller to return to
    have hret := (hcomplete.committed f hkept.counted).1
    refine ⟨hcalled.born,?_⟩
    have hover' : ((r.state j).coro.stage f).over = true := hover
    cases hst : (r.state j).coro.stage f <;> simp [hst,Stage.over] at hover' hret ⊢
  obtain ⟨value,v,hresult,_,heffects⟩ := hcomplete.finished f hend
  obtain ⟨e,he,hcomputes⟩ := (hsound j).faithful.computes hcalled.born hover
  cases hcalled.entry.symm.trans he
  rw [hkept.requested] at heffects
  rw [hresult] at hcomputes
  exact ⟨j,hij,value,v,heffects,hcomputes⟩

def Stage.rests : Stage → Bool
  | .fresh | .awaiting _ | .returned | .done => true
  | _ => false

def Event.mover : Event V → Option Nat
  | .start f | .suspend f | .wake f | .run f | .await f _ | .back f | .finish f _ | .release f =>
      some f
  | _ => none

omit [DecidableEq L] in
theorem Coroutines.Acts.moves {s t : Coroutines V} {e : Event V} (h : s.Acts e t) {f : Nat}
    (he : e.mover = some f) : (s.stage f).rests = false := by
  cases h with
  | start hf | suspend hf | wake hf | run hf | await hf | back hf | complete hf | giveBack hf
  | release hf =>
    cases he
    rw [hf]
    rfl
  | create | copy | move | drop | request | refused | commit | stop | resume => cases he

omit [DecidableEq L] in
theorem Programs.Performs.moves {a : Action L V A} (hp : s.Performs P a t) {f : Nat}
    (ha : a.agent = some f) : (s.coro.stage f).rests = false := by
  have hmoves : ∀ {e : Event V} {audit : Audit V}, s.audit.step e = some audit →
      e.mover = some f → (s.coro.stage f).rests = false :=
    fun hb he => (Coroutines.step_acts (Audit.step_coro hb)).moves he
  cases hp with
  | create => cases ha
  | await _ _ _ hb => exact hmoves hb ha
  | back _ _ hb => exact hmoves hb ha
  | suspend _ hb => exact hmoves hb ha
  | run _ hb => exact hmoves hb ha
  | finish _ hb => exact hmoves hb ha
  | @other e audit he hb =>
    cases e with
    | start | wake | release => exact hmoves hb ha
    | _ => cases ha

theorem Programs.rests_disabled {f : Nat} (h : (s.coro.stage f).rests = true) :
    ¬ Enabled (Programs.step P) Action.agent f s := by
  rintro ⟨a,ha,hstep⟩
  obtain ⟨t,ht⟩ := Option.isSome_iff_exists.mp hstep
  rcases step_performs ht with hp | ⟨g,callee,u,rfl,hcreate,hawait⟩
  · rw [hp.moves ha] at h
    cases h
  · have hmoves := hawait.moves ha
    cases hcreate with
    | @create _ audit hb =>
      have hacts := Coroutines.step_acts (Audit.step_coro hb)
      generalize hc : audit.coro = c at hacts
      cases hacts
      change ((audit.coro.stage f).rests) = false at hmoves
      rw [hc] at hmoves
      by_cases hne : f = s.coro.count
      · rw [hne,s.coro.create_new.2] at hmoves
        cases hmoves
      · rw [(s.coro.create_old hne).2,h] at hmoves
        cases hmoves

omit [DecidableEq L] in
theorem Coroutines.Ledger.rests {s : Coroutines V} (h : s.Ledger)
    (hrests : ∀ f < s.count, (s.stage f).rests = true) (f : Nat) : (s.stage f).rests = true := by
  by_cases hlt : f < s.count
  · exact hrests f hlt
  · have hdone : s.stage f = .done := by
      by_contra hnot
      exact hlt (h.started f hnot)
    rw [hdone]
    rfl

theorem Programs.rested_fair {es : List (Action L V A)}
    (h : Transition.run (Programs.step P) ok .start es = some s)
    (hrests : ∀ f < s.coro.count, (s.coro.stage f).rests = true) (f : Nat) :
    (Run.ofEvents h).Fair Action.agent f := by
  have hledger := (reaches_sound (Transition.reaches_of_run h)).ledger
  exact Run.ofEvents_fair h (rests_disabled (hledger.rests hrests f))

end

theorem exampleRpc_terminates (l : ExampleFrame) : Terminates exampleRpc l := by
  have hlast : ∀ {l : ExampleFrame} {value : Option ExampleValue}, exampleRpc l = .ret value →
      Terminates exampleRpc l := by
    intro l value hl
    refine .intro _ (fun m hm => ?_)
    cases hm with
    | callee h | value h | answer h => cases hl.symm.trans h
  cases l with
  | add | echo =>
    refine .intro _ (fun m hm => ?_)
    cases hm with
    | callee h | value h => cases h
    | answer h =>
      cases h
      exact hlast rfl
  | added | echoed | addPoint => exact hlast rfl

def addDone : List (Action ExampleFrame ExampleValue Unit) := addServed ++ [.other (.release 0)]

theorem addDone_rests : ∃ s, Transition.run (Programs.step exampleRpc)
    (Programs.returnsValue exampleRpc) .start addDone = some s ∧
      ∀ f < s.coro.count, (s.coro.stage f).rests = true := by
  have hrun : (Transition.run (Programs.step exampleRpc) (Programs.returnsValue exampleRpc) .start
      addDone).map (fun s => decide (∀ f < s.coro.count, (s.coro.stage f).rests = true)) =
        some true := by decide
  obtain ⟨s,hs,hrests⟩ := Option.map_eq_some_iff.mp hrun
  exact ⟨s,hs,of_decide_eq_true hrests⟩

def addCommitted : Programs ExampleFrame ExampleValue Unit :=
  Run.after (Programs.step exampleRpc) .start addDone 3

theorem addDone_ends : ∃ (r : Run (Programs.step exampleRpc) (Programs.returnsValue exampleRpc))
    (j : Nat), (r.state 3).coro.stage 0 = .committed ∧ 3 ≤ j ∧
      ((r.state j).coro.stage 0).over = true ∧ Computes exampleRpc (.add 1 2)
        ((r.state j).answers 0) ((r.state j).coro.result 0) := by
  obtain ⟨s,hs,hrests⟩ := addDone_rests
  have hcommitted : addCommitted.coro.stage 0 = .committed := by decide
  have hborn : 0 < addCommitted.coro.count := by decide
  have hentry : addCommitted.entry 0 = some (.add 1 2) := by decide
  obtain ⟨j,hij,hover,hcomputes⟩ := started_coroutines_end (Run.ofEvents hs) rfl
    (Programs.rested_fair hs hrests) 3 0 (.add 1 2) hborn hentry (exampleRpc_terminates _)
    (fun hfresh => by cases hcommitted.symm.trans hfresh)
  exact ⟨Run.ofEvents hs,j,hcommitted,hij,hover,hcomputes⟩

theorem addDone_answered : ∃ (r : Run (Programs.step exampleRpc)
    (Programs.returnsValue exampleRpc)) (j : Nat), (r.state 3).audit.log = [] ∧ 3 ≤ j ∧
      ∃ value v, (r.state j).audit.effectsOf 0 =
        [.respond ⟨Net.EndPoint.v4 1 8000,5,1⟩ value,.deleteLocal v] ∧
          Computes exampleRpc (.add 1 2) ((r.state j).answers 0) (some value) := by
  obtain ⟨s,hs,hrests⟩ := addDone_rests
  have hcounted : (addCommitted.coro.frames 0).frameRunningCnt = true := by decide
  have hrequested : addCommitted.audit.requested 0 = some ⟨Net.EndPoint.v4 1 8000,5,1⟩ := by rfl
  have hentry : addCommitted.entry 0 = some (.add 1 2) := by decide
  obtain ⟨j,hij,hanswer⟩ := committed_requests_answered (Run.ofEvents hs) rfl
    (Programs.rested_fair hs hrests) 3 0 _ (.add 1 2) hcounted hrequested hentry
    (exampleRpc_terminates _)
  exact ⟨Run.ofEvents hs,j,rfl,hij,hanswer⟩

end

end NewRpc.Task
