import NewRpc.Reclamation
import NewRpc.Ring
import NewRpc.TaskSteps

/-!
Nested coroutine calls as a call stack: the ring of `prev_` and `next_` that starts at a
root is the stack of the calls that are active.
-/

set_option autoImplicit false

namespace NewRpc.Task
open Net

def Stage.task : Stage → Option Nat
  | .awaiting t => some t
  | .back t => some t
  | _ => none

def Stage.idle : Stage → Bool
  | .fresh => true
  | .committed => true
  | .ending => true
  | .done => true
  | _ => false

def Coroutines.callee {V : Type} (s : Coroutines V) (p : Nat) : Option Nat :=
  match s.stage p with
  | .awaiting t => match s.tasks[t]? with
      | some (.middle child) => some child
      | _ => none
  | _ => none

def Coroutines.received {V : Type} (s : Coroutines V) (p : Nat) : Option V :=
  match s.stage p with
  | .back t => match s.tasks[t]? with
      | some (.middle child) => s.result child
      | _ => none
  | _ => none

/-- The active calls from a root, which no frame awaits, to the leaf, which awaits none. -/
def Coroutines.CallStack {V : Type} (s : Coroutines V) (r : Nat) (l : List Nat) : Prop :=
  l.head? = some r ∧ s.stage r ≠ .returned ∧ (∀ p, s.callee p ≠ some r) ∧
    l.IsChain (fun p c => s.callee p = some c) ∧ ∀ a ∈ l.getLast?, s.callee a = none

def Coroutines.Ring {V : Type} (s : Coroutines V) (r : Nat) (l : List Nat) : Prop :=
  l.head? = some r ∧ l.Nodup ∧ (l ++ [r]).IsChain (fun a b => (s.frames a).next = some b)

structure Coroutines.Stacks {V : Type} (s : Coroutines V) (stack : Nat → List Nat) : Prop where
  threaded : Ring.Threaded (fun f => (s.frames f).next) (fun f => (s.frames f).prev) stack
  calls : ∀ r, (stack r).IsChain (fun p c => s.callee p = some c)
  leaf : ∀ r, ∀ a ∈ (stack r).getLast?, s.callee a = none
  active : ∀ f, s.stage f ≠ .returned ↔ ∃ r, f ∈ stack r
  idle : ∀ f, (s.stage f).idle = true → stack f = [f]
  kept : ∀ p t, (s.stage p).task = some t → ∃ c, s.tasks[t]? = some (.middle c)
  single : ∀ p q t, (s.stage p).task = some t → (s.stage q).task = some t → p = q
  handed : ∀ p t c, s.stage p = .back t → s.tasks[t]? = some (.middle c) → s.stage c = .returned

/-- A coroutine that is not fresh is in no stack with one that is. -/
theorem Coroutines.Stacks.root_ne {V : Type} {s : Coroutines V} {stack : Nat → List Nat}
    (h : s.Stacks stack) {r f child : Nat} (hin : f ∈ stack r) (hf : s.stage f ≠ .fresh)
    (hc : s.stage child = .fresh) : r ≠ child := by
  have hchild : stack child = [child] := h.idle child (by rw [hc]; rfl)
  exact Ring.ne_of_alone hchild hin (fun heq => hf (heq ▸ hc))

theorem Coroutines.callee_awaiting {V : Type} {s : Coroutines V} {p t c : Nat}
    (hp : s.stage p = .awaiting t) (ht : s.tasks[t]? = some (.middle c)) :
    s.callee p = some c := by
  simp [callee,hp,ht]

theorem Coroutines.callee_some {V : Type} {s : Coroutines V} {p c : Nat}
    (h : s.callee p = some c) : ∃ t, s.stage p = .awaiting t ∧ s.tasks[t]? = some (.middle c) := by
  unfold callee at h
  split at h
  · rename_i t hp
    split at h
    · rename_i child ht
      cases h
      exact ⟨t,hp,ht⟩
    · cases h
  · cases h

theorem Coroutines.callee_none {V : Type} {s : Coroutines V} {p : Nat}
    (h : ∀ t, s.stage p ≠ .awaiting t) : s.callee p = none := by
  cases hc : s.callee p with
  | none => rfl
  | some c =>
    obtain ⟨t,hp,_⟩ := callee_some hc
    exact absurd hp (h t)

theorem Coroutines.Stacks.last {V : Type} {s : Coroutines V} {stack : Nat → List Nat}
    (h : s.Stacks stack) {r f : Nat} (hf : f ∈ stack r) (hc : s.callee f = none) :
    ∃ l, stack r = l ++ [f] := by
  obtain ⟨l,m,hr⟩ := List.append_of_mem hf
  cases m with
  | nil => exact ⟨l,hr⟩
  | cons c m =>
    have hchain := h.calls r
    rw [hr] at hchain
    have hcall := (List.isChain_cons_cons.mp hchain.right_of_append).1
    rw [hc] at hcall
    cases hcall

/-- A frame that does not await is the leaf of its stack. -/
theorem Coroutines.Stacks.top {V : Type} {s : Coroutines V} {stack : Nat → List Nat}
    (h : s.Stacks stack) {f : Nat} (hf : s.stage f ≠ .returned)
    (hc : ∀ t, s.stage f ≠ .awaiting t) : ∃ r l, stack r = l ++ [f] := by
  obtain ⟨r,hr⟩ := (h.active f).mp hf
  obtain ⟨l,hl⟩ := h.last hr (callee_none hc)
  exact ⟨r,l,hl⟩

/-- The frame below another one in a stack is the only one that awaits it. -/
theorem Coroutines.Stacks.caller {V : Type} {s : Coroutines V} {stack : Nat → List Nat}
    (h : s.Stacks stack) {p c : Nat} (hc : s.callee p = some c) :
    ∃ r l m, stack r = l ++ p :: c :: m := by
  obtain ⟨t,hp,_⟩ := callee_some hc
  obtain ⟨r,hr⟩ := (h.active p).mp (by simp [hp])
  obtain ⟨l,m,hl⟩ := List.append_of_mem hr
  cases m with
  | nil =>
    have hnone := h.leaf r p (by simp [hl])
    rw [hc] at hnone
    cases hnone
  | cons b m =>
    have hchain := h.calls r
    rw [hl] at hchain
    have hb := (List.isChain_cons_cons.mp hchain.right_of_append).1
    rw [hc] at hb
    cases hb
    exact ⟨r,l,m,hl⟩

structure Coroutines.Still {V : Type} (s t : Coroutines V) (stack : Nat → List Nat) : Prop where
  next : ∀ f, (t.frames f).next = (s.frames f).next
  prev : ∀ f, (t.frames f).prev = (s.frames f).prev
  stage : ∀ f, t.stage f = s.stage f ∨ ((s.stage f).task = none ∧ s.stage f ≠ .returned ∧
    (t.stage f).task = none ∧ t.stage f ≠ .returned ∧ ((t.stage f).idle = true → stack f = [f]))
  middle : ∀ (i c : Nat), s.tasks[i]? = some (.middle c) → t.tasks[i]? = some (.middle c)

theorem Coroutines.Still.returned {V : Type} {s t : Coroutines V} {stack : Nat → List Nat}
    (h : s.Still t stack) (f : Nat) : t.stage f = .returned ↔ s.stage f = .returned := by
  rcases h.stage f with heq | ⟨_,hs,_,ht,_⟩
  · rw [heq]
  · exact iff_of_false ht hs

theorem Coroutines.Still.task {V : Type} {s t : Coroutines V} {stack : Nat → List Nat}
    (h : s.Still t stack) {p i : Nat} (hp : (t.stage p).task = some i) :
    t.stage p = s.stage p := by
  rcases h.stage p with heq | ⟨_,_,hnone,_⟩
  · exact heq
  · rw [hnone] at hp
    cases hp

theorem Coroutines.Still.callee {V : Type} {s t : Coroutines V} {stack : Nat → List Nat}
    (h : s.Still t stack) (hs : s.Stacks stack) (p : Nat) : t.callee p = s.callee p := by
  rcases h.stage p with heq | ⟨hold,_,hnew,_⟩
  · cases hp : s.stage p with
    | awaiting i =>
      obtain ⟨c,hc⟩ := hs.kept p i (by rw [hp]; rfl)
      rw [callee_awaiting hp hc,callee_awaiting (heq.trans hp) (h.middle i c hc)]
    | _ => simp [Coroutines.callee,heq,hp]
  · have hs' : s.callee p = none := by
      refine callee_none (fun i hi => ?_)
      rw [hi] at hold
      cases hold
    have ht' : t.callee p = none := by
      refine callee_none (fun i hi => ?_)
      rw [hi] at hnew
      cases hnew
    rw [hs',ht']

theorem Coroutines.Still.stacks {V : Type} {s t : Coroutines V} {stack : Nat → List Nat}
    (h : s.Still t stack) (hs : s.Stacks stack) : t.Stacks stack := by
  have hcallee := h.callee hs
  refine ⟨?_,?_,?_,?_,?_,?_,?_,?_⟩
  · simp only [h.next,h.prev]
    exact hs.threaded
  · simp only [hcallee]
    exact hs.calls
  · simp only [hcallee]
    exact hs.leaf
  · intro f
    rw [ne_eq,h.returned]
    exact hs.active f
  · intro f hf
    rcases h.stage f with heq | ⟨_,_,_,_,hidle⟩
    · rw [heq] at hf
      exact hs.idle f hf
    · exact hidle hf
  · intro p i hp
    rw [h.task hp] at hp
    obtain ⟨c,hc⟩ := hs.kept p i hp
    exact ⟨c,h.middle i c hc⟩
  · intro p q i hp hq
    rw [h.task hp] at hp
    rw [h.task hq] at hq
    exact hs.single p q i hp hq
  · intro p i c hp hc
    have hold : s.stage p = .back i := by
      rw [← h.task (i := i) (by rw [hp]; rfl)]
      exact hp
    obtain ⟨c',hc'⟩ := hs.kept p i (by rw [hold]; rfl)
    rw [h.middle i c' hc'] at hc
    cases hc
    exact (h.returned c).mpr (hs.handed p i c hold hc')

theorem Coroutines.still_stage {V : Type} {s t : Coroutines V} {stack : Nat → List Nat} {f : Nat}
    {stage : Stage} (hnext : ∀ f, (t.frames f).next = (s.frames f).next)
    (hprev : ∀ f, (t.frames f).prev = (s.frames f).prev)
    (hstage : t.stage = Function.update s.stage f stage)
    (hmiddle : ∀ (i c : Nat), s.tasks[i]? = some (.middle c) → t.tasks[i]? = some (.middle c))
    (hold : (s.stage f).task = none ∧ s.stage f ≠ .returned)
    (hnew : stage.task = none ∧ stage ≠ .returned)
    (hidle : stage.idle = true → stack f = [f]) : s.Still t stack := by
  refine ⟨hnext,hprev,?_,hmiddle⟩
  intro g
  rw [hstage]
  by_cases hg : g = f
  · subst hg
    rw [Function.update_self]
    exact .inr ⟨hold.1,hold.2,hnew.1,hnew.2,hidle⟩
  · rw [Function.update_of_ne hg]
    exact .inl rfl

theorem Coroutines.Stacks.begin {V : Type} {s : Coroutines V} {stack : Nat → List Nat}
    (h : s.Stacks stack) {f : Nat} (hold : (s.stage f).task = none ∧ s.stage f ≠ .returned) :
    (s.begin f).Stacks stack := by
  have hlinks := s.begin_links f
  refine (still_stage (fun g => (hlinks g).1) (fun g => (hlinks g).2) (s.begin_stage f) ?_ hold
    (by simp [Stage.task]) (by simp [Stage.idle])).stacks h
  intro i c hi
  rw [s.begin_tasks]
  exact hi

theorem Coroutines.Stacks.setStage {V : Type} {s : Coroutines V} {stack : Nat → List Nat}
    (h : s.Stacks stack) {f : Nat} {stage : Stage}
    (hold : (s.stage f).task = none ∧ s.stage f ≠ .returned)
    (hnew : stage.task = none ∧ stage ≠ .returned) (hidle : stage.idle = true → stack f = [f]) :
    (s.setStage f stage).Stacks stack := by
  have hstill : s.Still (s.setStage f stage) stack :=
    still_stage (fun _ => rfl) (fun _ => rfl) rfl (fun _ _ hi => hi) hold hnew hidle
  exact hstill.stacks h

theorem Coroutines.Stacks.of_links {V : Type} {s t : Coroutines V} {stack : Nat → List Nat}
    (h : s.Stacks stack) (hlinks : SameLinks s.frames t.frames) (hstage : t.stage = s.stage)
    (hmiddle : ∀ (i c : Nat), s.tasks[i]? = some (.middle c) → t.tasks[i]? = some (.middle c)) :
    t.Stacks stack := by
  have hstill : s.Still t stack :=
    ⟨fun g => (hlinks g).1,fun g => (hlinks g).2,fun g => .inl (by rw [hstage]),hmiddle⟩
  exact hstill.stacks h

theorem Coroutines.Stacks.create {V : Type} {s : Coroutines V} {stack : Nat → List Nat}
    (h : s.Stacks stack) (hnext : s.stage s.count = .done) : s.create.Stacks stack := by
  have halone : stack s.count = [s.count] := h.idle s.count (by rw [hnext]; rfl)
  have hself := h.threaded.closing (l := []) (by rw [halone]; rfl)
  have hstage : s.create.stage = Function.update s.stage s.count .fresh := rfl
  refine (still_stage ?_ ?_ hstage
    (fun i c hi => middle_append _ hi) (by simp [hnext,Stage.task]) (by simp [Stage.task])
    (fun _ => halone)).stacks h
  · intro g
    by_cases hg : g = s.count
    · subst hg
      rw [s.create_new.1]
      exact hself.1.symm
    · rw [(s.create_old hg).1]
  · intro g
    by_cases hg : g = s.count
    · subst hg
      rw [s.create_new.1]
      exact hself.2.symm
    · rw [(s.create_old hg).1]

theorem Coroutines.Stacks.back {V : Type} {s : Coroutines V} {stack : Nat → List Nat}
    (h : s.Stacks stack) {f t child : Nat} (hf : s.stage f = .back t) :
    ((s.drop t (some child)).setStage f .running).Stacks stack := by
  let u := (s.drop t (some child)).setStage f .running
  have hlinks : SameLinks s.frames u.frames := s.drop_links t (some child)
  have hstage : u.stage = Function.update s.stage f .running := rfl
  have hrunning : u.stage f = .running := by simp [hstage]
  have hother : ∀ g, g ≠ f → u.stage g = s.stage g := by
    intro g hg
    rw [hstage,Function.update_of_ne hg]
  have htask : ∀ p i, (u.stage p).task = some i → p ≠ f ∧ (s.stage p).task = some i := by
    intro p i hp
    by_cases hpf : p = f
    · rw [hpf,hrunning] at hp
      cases hp
    · rw [hother p hpf] at hp
      exact ⟨hpf,hp⟩
  have htasks : ∀ p i, (u.stage p).task = some i → u.tasks[i]? = s.tasks[i]? := by
    intro p i hp
    obtain ⟨hpf,hp'⟩ := htask p i hp
    have hne : t ≠ i := by
      intro heq
      exact hpf (h.single p f i hp' (by rw [hf,heq]; rfl))
    exact List.getElem?_set_ne hne
  have hcallee : ∀ p, u.callee p = s.callee p := by
    intro p
    by_cases hpf : p = f
    · rw [hpf,callee_none (by simp [hrunning]),callee_none (by simp [hf])]
    · cases hp : s.stage p with
      | awaiting i =>
        have hp' : u.stage p = .awaiting i := (hother p hpf).trans hp
        simp only [callee,hp,hp',htasks p i (by rw [hp']; rfl)]
      | _ => simp [callee,hother p hpf,hp]
  refine ⟨?_,?_,?_,?_,?_,?_,?_,?_⟩
  · show Ring.Threaded (fun g => (u.frames g).next) (fun g => (u.frames g).prev) stack
    simp only [hlinks _]
    exact h.threaded
  · show ∀ r, (stack r).IsChain (fun p c => u.callee p = some c)
    simp only [hcallee]
    exact h.calls
  · show ∀ r, ∀ a ∈ (stack r).getLast?, u.callee a = none
    simp only [hcallee]
    exact h.leaf
  · intro g
    by_cases hg : g = f
    · rw [hg]
      have hin := (h.active f).mp (by simp [hf])
      exact iff_of_true (by simp [u,hrunning]) hin
    · show u.stage g ≠ .returned ↔ _
      rw [hother g hg]
      exact h.active g
  · intro g hg
    change (u.stage g).idle = true at hg
    have hgf : g ≠ f := by
      intro heq
      rw [heq,hrunning] at hg
      cases hg
    rw [hother g hgf] at hg
    exact h.idle g hg
  · intro p i hp
    change (u.stage p).task = some i at hp
    obtain ⟨c,hc⟩ := h.kept p i (htask p i hp).2
    exact ⟨c,(htasks p i hp).trans hc⟩
  · intro p q i hp hq
    exact h.single p q i (htask p i hp).2 (htask q i hq).2
  · intro p i c hp hc
    change u.stage p = .back i at hp
    have hp' : (u.stage p).task = some i := by rw [hp]; rfl
    have hold : s.stage p = .back i := by rw [← hother p (htask p i hp').1,hp]
    have hret := h.handed p i c hold ((htasks p i hp').symm.trans hc)
    show u.stage c = .returned
    rw [hother c (fun heq => by rw [heq,hf] at hret; cases hret)]
    exact hret

theorem Coroutines.called_frames {V : Type} (s : Coroutines V) (frames : Frames) (f t child : Nat) :
    SameLinks frames (s.called frames f t child).frames :=
  Coroutines.setFrame_links { s with frames := frames } child
    { frames child with coroLocalVar := (frames f).coroLocalVar } rfl rfl

theorem Coroutines.called_stage {V : Type} (s : Coroutines V) (frames : Frames)
    (f t child : Nat) : (s.called frames f t child).stage =
      Function.update s.stage f (.awaiting s.tasks.length) := rfl

/-- `linkNext` pushes the child: the links it reads are those of the leaf. -/
theorem Coroutines.Stacks.linkNext {V : Type} {s : Coroutines V} {stack : Nat → List Nat}
    (h : s.Stacks stack) {r f child : Nat} {l : List Nat} (hr : stack r = l ++ [f])
    (hchild : stack child = [child]) (hne : r ≠ child) : ∃ frames,
      Task.linkNext s.frames f child = some frames ∧
      Ring.Threaded (fun g => (frames g).next) (fun g => (frames g).prev)
        (Ring.pushed stack r child) := by
  have hclose := h.threaded.closing hr
  have hcf : child ≠ f := by
    intro heq
    exact hne (h.threaded.apart r child f (by simp [hr]) (by rw [hchild,heq]; simp))
  obtain ⟨frames,hlink,hval⟩ := linkNext_some hclose.1 child hcf hne
  refine ⟨frames,hlink,h.threaded.push hr hchild hne (fun x => ?_) (fun x => ?_)⟩
  · rw [hval]
  · rw [hval]

theorem Coroutines.called_stages {V : Type} (s : Coroutines V) (frames : Frames) (t : Nat)
    {f child : Nat} (hcf : child ≠ f) :
    ((s.called frames f t child).begin child).stage child = .running ∧
      ((s.called frames f t child).begin child).stage f = .awaiting s.tasks.length ∧
      ∀ g, g ≠ f → g ≠ child →
        ((s.called frames f t child).begin child).stage g = s.stage g := by
  have hstage := Coroutines.begin_stage (s.called frames f t child) child
  refine ⟨?_,?_,fun g hgf hgc => ?_⟩
  · rw [hstage,Function.update_self]
  · rw [hstage,Function.update_of_ne (Ne.symm hcf),called_stage,Function.update_self]
  · rw [hstage,Function.update_of_ne hgc,called_stage,Function.update_of_ne hgf]

theorem Coroutines.called_task {V : Type} (s : Coroutines V) (frames : Frames) (t : Nat)
    {f child p i : Nat} (hcf : child ≠ f)
    (hp : (((s.called frames f t child).begin child).stage p).task = some i) :
    (p = f ∧ i = s.tasks.length) ∨ (p ≠ f ∧ p ≠ child ∧ (s.stage p).task = some i) := by
  obtain ⟨hchildStage,hfStage,hother⟩ := s.called_stages frames t hcf
  by_cases hpf : p = f
  · rw [hpf,hfStage] at hp
    exact .inl ⟨hpf,(Option.some.inj hp).symm⟩
  · by_cases hpc : p = child
    · rw [hpc,hchildStage] at hp
      cases hp
    · rw [hother p hpf hpc] at hp
      exact .inr ⟨hpf,hpc,hp⟩

theorem Coroutines.called_middle {V : Type} {s : Coroutines V} (frames : Frames)
    {f t child i c : Nat} (ht : s.tasks[t]? = some (.handle (some child)))
    (hi : s.tasks[i]? = some (.middle c)) :
    ((s.called frames f t child).begin child).tasks[i]? = some (.middle c) := by
  rw [Coroutines.begin_tasks]
  exact middle_append _ (middle_set ht (by simp) hi)

theorem Coroutines.called_new {V : Type} (s : Coroutines V) (frames : Frames)
    (f t child : Nat) : ((s.called frames f t child).begin child).tasks[s.tasks.length]? =
      some (.middle child) := by
  have htasks : ((s.called frames f t child).begin child).tasks =
      s.tasks.set t (.handle none) ++ [.middle child] := Coroutines.begin_tasks _ child
  rw [htasks,List.getElem?_append_right (by simp)]
  simp

theorem Coroutines.Stacks.called_callee {V : Type} {s : Coroutines V} {stack : Nat → List Nat}
    (h : s.Stacks stack) (frames : Frames) {f t child : Nat} (hcf : child ≠ f)
    (ht : s.tasks[t]? = some (.handle (some child))) (hc : s.stage child = .fresh) {p : Nat}
    (hpf : p ≠ f) :
    ((s.called frames f t child).begin child).callee p = s.callee p := by
  obtain ⟨hchildStage,_,hother⟩ := s.called_stages frames t hcf
  by_cases hpc : p = child
  · rw [hpc,callee_none (by simp [hchildStage]),callee_none (by simp [hc])]
  · cases hp : s.stage p with
    | awaiting i =>
      obtain ⟨c,hi⟩ := h.kept p i (by rw [hp]; rfl)
      have hi' := called_middle (f := f) frames ht hi
      rw [callee_awaiting hp hi,callee_awaiting ((hother p hpf hpc).trans hp) hi']
    | _ => simp [callee,hother p hpf hpc,hp]

theorem Coroutines.Stacks.called {V : Type} {s : Coroutines V} {stack : Nat → List Nat}
    (h : s.Stacks stack) {r f t child : Nat} {frames : Frames} {l : List Nat}
    (hf : s.stage f = .running) (ht : s.tasks[t]? = some (.handle (some child)))
    (hc : s.stage child = .fresh) (hlink : Task.linkNext s.frames f child = some frames)
    (hr : stack r = l ++ [f]) :
    ((s.called frames f t child).begin child).Stacks (Ring.pushed stack r child) := by
  let u := (s.called frames f t child).begin child
  have hchild : stack child = [child] := h.idle child (by rw [hc]; rfl)
  have hcf : child ≠ f := by
    intro heq
    rw [heq,hf] at hc
    cases hc
  have hne : r ≠ child := h.root_ne (f := f) (by simp [hr]) (by simp [hf]) hc
  obtain ⟨frames',hlink',hthread⟩ := h.linkNext hr hchild hne
  rw [hlink] at hlink'
  cases hlink'
  have hlinks : SameLinks frames u.frames :=
    (s.called_frames frames f t child).trans (Coroutines.begin_links _ child)
  obtain ⟨hchildStage,hfStage,hother⟩ : u.stage child = .running ∧
      u.stage f = .awaiting s.tasks.length ∧ ∀ g, g ≠ f → g ≠ child → u.stage g = s.stage g :=
    s.called_stages frames t hcf
  have hkept : ∀ (i c : Nat), s.tasks[i]? = some (.middle c) → u.tasks[i]? = some (.middle c) :=
    fun _ _ hi => called_middle frames ht hi
  have hnew : u.tasks[s.tasks.length]? = some (.middle child) := s.called_new frames f t child
  have hbelow : ∀ (i c : Nat), s.tasks[i]? = some (.middle c) → i ≠ s.tasks.length := by
    intro i c hi
    obtain ⟨hlt,_⟩ := List.getElem?_eq_some_iff.mp hi
    exact Nat.ne_of_lt hlt
  have hcalleef : u.callee f = some child := callee_awaiting hfStage hnew
  have hcalleec : u.callee child = none := callee_none (by simp [hchildStage])
  have hcallee : ∀ p, p ≠ f → u.callee p = s.callee p :=
    fun _ hpf => h.called_callee frames hcf ht hc hpf
  have hmem := h.threaded.mem_pushed hchild hne
  have hchain : ∀ q, (stack q).IsChain (fun p c => u.callee p = some c) := by
    intro q
    refine (h.calls q).imp (fun p c hpc => ?_)
    have hpf : p ≠ f := by
      intro heq
      rw [heq,callee_none (by simp [hf])] at hpc
      cases hpc
    rw [hcallee p hpf]
    exact hpc
  have htask : ∀ p i, (u.stage p).task = some i →
      (p = f ∧ i = s.tasks.length) ∨ (p ≠ f ∧ p ≠ child ∧ (s.stage p).task = some i) :=
    fun _ _ hp => s.called_task frames t hcf hp
  refine ⟨?_,?_,?_,?_,?_,?_,?_,?_⟩
  · show Ring.Threaded (fun g => (u.frames g).next) (fun g => (u.frames g).prev) _
    simp only [hlinks _]
    exact hthread
  · intro q
    by_cases hqr : q = r
    · rw [hqr,Ring.pushed_root,hr,List.append_assoc]
      exact List.isChain_split.mpr ⟨hr ▸ hchain r,List.isChain_pair.mpr hcalleef⟩
    · by_cases hqc : q = child
      · rw [hqc,Ring.pushed_child stack hne]
        exact .nil
      · rw [Ring.pushed_ne stack hqr hqc]
        exact hchain q
  · intro q a ha
    by_cases hqr : q = r
    · rw [hqr,Ring.pushed_root,List.getLast?_append_of_ne_nil _ (by simp)] at ha
      rw [← Option.some.inj ha]
      exact hcalleec
    · by_cases hqc : q = child
      · rw [hqc,Ring.pushed_child stack hne] at ha
        cases ha
      · rw [Ring.pushed_ne stack hqr hqc] at ha
        have haf : a ≠ f := by
          intro heq
          exact hqr (h.threaded.apart q r a (List.mem_of_getLast? ha) (by simp [hr,heq]))
        exact (hcallee a haf).trans (h.leaf q a ha)
  · intro g
    by_cases hgc : g = child
    · refine iff_of_true ?_ ⟨r,(hmem r g).mpr (.inr ⟨rfl,hgc⟩)⟩
      show u.stage g ≠ .returned
      simp [hgc,hchildStage]
    · by_cases hgf : g = f
      · refine iff_of_true ?_ ⟨r,(hmem r g).mpr (.inl ⟨by simp [hr,hgf],hgc⟩)⟩
        show u.stage g ≠ .returned
        simp [hgf,hfStage]
      · show u.stage g ≠ .returned ↔ _
        rw [hother g hgf hgc,h.active g]
        simp [hmem,hgc]
  · intro g hg
    change (u.stage g).idle = true at hg
    have hgc : g ≠ child := by
      intro heq
      rw [heq,hchildStage] at hg
      cases hg
    have hgf : g ≠ f := by
      intro heq
      rw [heq,hfStage] at hg
      cases hg
    rw [hother g hgf hgc] at hg
    have halone := h.idle g hg
    have hrg : r ≠ g := Ring.ne_of_alone halone (x := f) (by simp [hr]) (Ne.symm hgf)
    rw [Ring.pushed_ne stack (Ne.symm hrg) hgc]
    exact halone
  · intro p i hp
    rcases htask p i hp with ⟨_,hi⟩ | ⟨_,_,hp'⟩
    · rw [hi]
      exact ⟨child,hnew⟩
    · obtain ⟨c,hc'⟩ := h.kept p i hp'
      exact ⟨c,hkept i c hc'⟩
  · intro p q i hp hq
    rcases htask p i hp with ⟨hpf,hi⟩ | ⟨_,_,hp'⟩
    · rcases htask q i hq with ⟨hqf,_⟩ | ⟨_,_,hq'⟩
      · rw [hpf,hqf]
      · obtain ⟨c,hc'⟩ := h.kept q i hq'
        exact absurd hi (hbelow i c hc')
    · rcases htask q i hq with ⟨_,hi⟩ | ⟨_,_,hq'⟩
      · obtain ⟨c,hc'⟩ := h.kept p i hp'
        exact absurd hi (hbelow i c hc')
      · exact h.single p q i hp' hq'
  · intro p i c hp hi
    change u.stage p = .back i at hp
    rcases htask p i (by rw [hp]; rfl) with ⟨hpf,_⟩ | ⟨hpf,hpc,hp'⟩
    · rw [hpf,hfStage] at hp
      cases hp
    · rw [hother p hpf hpc] at hp
      obtain ⟨c',hi'⟩ := h.kept p i hp'
      have hcc := (hkept i c' hi').symm.trans hi
      cases hcc
      have hret := h.handed p i c hp hi'
      have hcf' : c ≠ f := fun heq => by rw [heq,hf] at hret; cases hret
      have hcc' : c ≠ child := fun heq => by rw [heq,hc] at hret; cases hret
      exact (hother c hcf' hcc').trans hret

/-- A running frame with a caller: the caller is below it in its stack and awaits it. -/
theorem Coroutines.Stacks.below {V : Type} {s : Coroutines V} {stack : Nat → List Nat}
    (h : s.Stacks stack) {f : Nat} (hf : s.stage f = .running)
    (hroot : (s.frames f).empty f = false) : ∃ r l p t, stack r = l ++ [p,f] ∧
      s.stage p = .awaiting t ∧ s.tasks[t]? = some (.middle f) ∧ (s.frames f).prev = some p ∧
      (s.frames f).next = some r ∧ p ≠ f ∧ r ≠ f := by
  obtain ⟨r,l',hr⟩ := h.top (f := f) (by simp [hf]) (by simp [hf])
  have hin : f ∈ stack r := by simp [hr]
  have hself : (s.frames f).prev ≠ some f := by
    intro heq
    simp [LinkedCoroutine.empty,heq] at hroot
  rcases List.eq_nil_or_concat l' with hl | ⟨l,p,hl⟩
  · rw [hl,List.nil_append] at hr
    have hrf := h.threaded.head r f (by simp [hr])
    rw [← hrf] at hr
    exact absurd ((h.threaded.alone hin).mpr hr) hself
  · rw [hl,List.concat_eq_append,List.append_assoc] at hr
    have hlink := h.threaded.within (m := []) hr
    have hchain := h.calls r
    rw [hr] at hchain
    have hcall : s.callee p = some f := (List.isChain_cons_cons.mp hchain.right_of_append).1
    obtain ⟨t,hp,ht⟩ := callee_some hcall
    have hclose := h.threaded.closing (r := r) (l := l ++ [p]) (a := f) (by simp [hr])
    have hpf : p ≠ f := by
      intro heq
      rw [heq,hf] at hp
      cases hp
    have hrf : r ≠ f := by
      intro heq
      rw [heq] at hclose
      exact hself hclose.2
    exact ⟨r,l,p,t,hr,hp,ht,hlink.2,hclose.1,hpf,hrf⟩

theorem Coroutines.Stacks.removeSelf {V : Type} {s : Coroutines V} {stack : Nat → List Nat}
    (h : s.Stacks stack) {r p f : Nat} {l : List Nat} (hr : stack r = l ++ [p,f])
    (hprev : (s.frames f).prev = some p) (hnext : (s.frames f).next = some r) (hpf : p ≠ f)
    (hrf : r ≠ f) : ∃ frames, Task.removeSelf s.frames f = some frames ∧
      Ring.Threaded (fun g => (frames g).next) (fun g => (frames g).prev)
        (Ring.popped stack r (l ++ [p])) := by
  obtain ⟨frames,hunlink,hval⟩ := removeSelf_some hprev hnext hpf hrf
  refine ⟨frames,hunlink,h.threaded.pop hr (fun x => ?_) (fun x => ?_)⟩
  · rw [hval]
  · rw [hval]

theorem Coroutines.giveBack_stages {V : Type} (s : Coroutines V) (frames : Frames) (t : Nat)
    {f p : Nat} (hpf : p ≠ f) : (s.giveBack frames f p t).stage p = .back t ∧
      (s.giveBack frames f p t).stage f = .returned ∧
      ∀ g, g ≠ f → g ≠ p → (s.giveBack frames f p t).stage g = s.stage g := by
  have hstage : (s.giveBack frames f p t).stage =
      Function.update (Function.update s.stage f .returned) p (.back t) := rfl
  refine ⟨?_,?_,fun g hgf hgp => ?_⟩
  · rw [hstage,Function.update_self]
  · rw [hstage,Function.update_of_ne (Ne.symm hpf),Function.update_self]
  · rw [hstage,Function.update_of_ne hgp,Function.update_of_ne hgf]

theorem Coroutines.Stacks.giveBack {V : Type} {s : Coroutines V} {stack : Nat → List Nat}
    (h : s.Stacks stack) {r p f t : Nat} {frames : Frames} {l : List Nat}
    (hf : s.stage f = .running) (hr : stack r = l ++ [p,f]) (hp : s.stage p = .awaiting t)
    (ht : s.tasks[t]? = some (.middle f))
    (hthread : Ring.Threaded (fun g => (frames g).next) (fun g => (frames g).prev)
      (Ring.popped stack r (l ++ [p]))) :
    (s.giveBack frames f p t).Stacks (Ring.popped stack r (l ++ [p])) := by
  let u := s.giveBack frames f p t
  have hpf : p ≠ f := by
    intro heq
    rw [heq,hf] at hp
    cases hp
  obtain ⟨hpStage,hfStage,hother⟩ : u.stage p = .back t ∧ u.stage f = .returned ∧
      ∀ g, g ≠ f → g ≠ p → u.stage g = s.stage g := s.giveBack_stages frames t hpf
  have hcallee : ∀ x, x ≠ p → u.callee x = s.callee x := by
    intro x hxp
    by_cases hxf : x = f
    · rw [hxf,callee_none (by simp [hfStage]),callee_none (by simp [hf])]
    · unfold callee
      rw [hother x hxf hxp]
      rfl
  have hcalleep : u.callee p = none := callee_none (by simp [hpStage])
  have hr' : stack r = (l ++ [p]) ++ [f] := by simp [hr]
  have hnod := h.threaded.once r
  rw [hr'] at hnod
  have hlf : ∀ x ∈ l ++ [p], x ≠ f := fun x hx => (List.nodup_append.mp hnod).2.2 x hx f (by simp)
  have hroot : Ring.popped stack r (l ++ [p]) r = l ++ [p] := Function.update_self ..
  have hne : ∀ q, q ≠ r → Ring.popped stack r (l ++ [p]) q = stack q :=
    fun q hq => Function.update_of_ne hq _ _
  have htask : ∀ q i, (u.stage q).task = some i → (s.stage q).task = some i := by
    intro q i hq
    by_cases hqp : q = p
    · rw [hqp,hpStage] at hq
      rw [hqp,hp]
      exact hq
    · by_cases hqf : q = f
      · rw [hqf,hfStage] at hq
        cases hq
      · rw [hother q hqf hqp] at hq
        exact hq
  refine ⟨hthread,?_,?_,?_,?_,?_,?_,?_⟩
  · intro q
    by_cases hqr : q = r
    · rw [hqr,hroot]
      have hold := h.calls r
      rw [hr'] at hold
      refine hold.left_of_append.imp_of_mem_tail_imp (fun x y _ hy hxy => ?_)
      have hxp : x ≠ p := by
        intro heq
        rw [heq,callee_awaiting hp ht] at hxy
        exact hlf y (List.mem_of_mem_tail hy) (Option.some.inj hxy).symm
      exact (hcallee x hxp).trans hxy
    · rw [hne q hqr]
      refine (h.calls q).imp_of_mem_imp (fun x y hx _ hxy => ?_)
      have hxp : x ≠ p := fun heq => hqr (h.threaded.apart q r x hx (by simp [hr,heq]))
      exact (hcallee x hxp).trans hxy
  · intro q a ha
    by_cases hqr : q = r
    · rw [hqr,hroot,List.getLast?_append_of_ne_nil _ (by simp)] at ha
      rw [← Option.some.inj ha]
      exact hcalleep
    · rw [hne q hqr] at ha
      have hap : a ≠ p := by
        intro heq
        exact hqr (h.threaded.apart q r a (List.mem_of_getLast? ha) (by simp [hr,heq]))
      exact (hcallee a hap).trans (h.leaf q a ha)
  · intro g
    show u.stage g ≠ .returned ↔ _
    by_cases hgf : g = f
    · refine iff_of_false (by simp [hgf,hfStage]) (fun hin => ?_)
      obtain ⟨q,hq⟩ := hin
      by_cases hqr : q = r
      · rw [hqr,hroot] at hq
        exact hlf g hq hgf
      · rw [hne q hqr] at hq
        exact hqr (h.threaded.apart q r g hq (by simp [hr,hgf]))
    · by_cases hgp : g = p
      · exact iff_of_true (by simp [hgp,hpStage]) ⟨r,by rw [hroot,hgp]; simp⟩
      · rw [hother g hgf hgp,h.active g]
        refine exists_congr (fun q => ?_)
        by_cases hqr : q = r
        · rw [hqr,hroot,hr']
          simp [hgf]
        · rw [hne q hqr]
  · intro g hg
    change (u.stage g).idle = true at hg
    have hgf : g ≠ f := by
      intro heq
      rw [heq,hfStage] at hg
      cases hg
    have hgp : g ≠ p := by
      intro heq
      rw [heq,hpStage] at hg
      cases hg
    rw [hother g hgf hgp] at hg
    have halone := h.idle g hg
    have hrg : r ≠ g := Ring.ne_of_alone halone (x := f) (by simp [hr]) (Ne.symm hgf)
    rw [hne g (Ne.symm hrg)]
    exact halone
  · intro q i hq
    exact h.kept q i (htask q i hq)
  · intro q q' i hq hq'
    exact h.single q q' i (htask q i hq) (htask q' i hq')
  · intro q i c hq hi
    change u.stage q = .back i at hq
    show u.stage c = .returned
    change s.tasks[i]? = some (.middle c) at hi
    by_cases hqp : q = p
    · rw [hqp,hpStage] at hq
      cases hq
      rw [ht] at hi
      cases hi
      exact hfStage
    · have hqf : q ≠ f := fun heq => by rw [heq,hfStage] at hq; cases hq
      rw [hother q hqf hqp] at hq
      have hret := h.handed q i c hq hi
      have hcf : c ≠ f := fun heq => by rw [heq,hf] at hret; cases hret
      have hcp : c ≠ p := fun heq => by rw [heq,hp] at hret; cases hret
      rw [hother c hcf hcp]
      exact hret

theorem Coroutines.Stacks.step_await {V : Type} {s : Coroutines V} {stack : Nat → List Nat}
    (h : s.Stacks stack) {f t child : Nat} (hf : s.stage f = .running)
    (ht : s.startable t = some child) :
    ∃ frames, s.step (.await f t) = some ((s.called frames f t child).begin child) := by
  have hc := (startable_some ht).2
  obtain ⟨r,l,hr⟩ := h.top (f := f) (by simp [hf]) (by simp [hf])
  have hchild : stack child = [child] := h.idle child (by rw [hc]; rfl)
  have hne : r ≠ child := h.root_ne (f := f) (by simp [hr]) (by simp [hf]) hc
  obtain ⟨frames,hlink,_⟩ := h.linkNext hr hchild hne
  refine ⟨frames,?_⟩
  simp only [Coroutines.step,ht,if_pos hf,Coroutines.await,hlink]
  rfl

theorem Coroutines.step_complete {V : Type} (s : Coroutines V) {f : Nat} (result : Option V)
    (hf : s.stage f = .running) (hroot : (s.frames f).empty f = true) :
    s.step (.finish f result) = some ((s.returning f result).complete f) := by
  rw [Coroutines.step,if_pos hf,Coroutines.finalSuspend]
  exact if_pos hroot

theorem Coroutines.Stacks.step_giveBack {V : Type} {s : Coroutines V} {stack : Nat → List Nat}
    (h : s.Stacks stack) {f : Nat} (result : Option V) (hf : s.stage f = .running)
    (hroot : (s.frames f).empty f = false) : ∃ frames p t, p ≠ f ∧
      (s.frames f).prev = some p ∧ s.stage p = .awaiting t ∧ s.tasks[t]? = some (.middle f) ∧
      s.step (.finish f result) = some ((s.returning f result).giveBack frames f p t) := by
  obtain ⟨r,l,p,t,hr,hp,ht,hprev,hnext,hpf,hrf⟩ := h.below hf hroot
  obtain ⟨frames,hunlink,_⟩ := h.removeSelf hr hprev hnext hpf hrf
  refine ⟨frames,p,t,hpf,hprev,hp,ht,?_⟩
  rw [Coroutines.step,if_pos hf,Coroutines.finalSuspend,if_neg (by simp [hroot])]
  simp only [hprev,hp,hunlink]
  rfl

theorem Coroutines.Stacks.step_back {V : Type} {s : Coroutines V} {stack : Nat → List Nat}
    (h : s.Stacks stack) {f t : Nat} (hf : s.stage f = .back t) : ∃ child,
      s.step (.back f) = some ((s.drop t (some child)).setStage f .running) := by
  obtain ⟨child,ht⟩ := h.kept f t (by rw [hf]; rfl)
  exact ⟨child,by simp only [Coroutines.step,hf,ht]⟩

def Coroutines.keepsStack {V : Type} (s : Coroutines V) : Event V → Bool
  | .await _ _ => false
  | .finish f _ => (s.frames f).empty f
  | _ => true

/-- A running frame that its ring shows alone is a root without an active child. -/
theorem Coroutines.Stacks.alone_iff {V : Type} {s : Coroutines V} {stack : Nat → List Nat}
    (h : s.Stacks stack) {f : Nat} (hf : s.stage f ≠ .returned) :
    (s.frames f).empty f = true ↔ stack f = [f] := by
  obtain ⟨r,hr⟩ := (h.active f).mp hf
  rw [← h.threaded.alone hr]
  simp [LinkedCoroutine.empty]

theorem Coroutines.Stacks.keep {V : Type} {s u : Coroutines V} {stack : Nat → List Nat}
    {e : Event V} (hs : s.Stacks stack) (hnext : s.stage s.count = .done) (h : s.Acts e u)
    (hk : s.keepsStack e = true) : u.Stacks stack := by
  cases h with
  | create => exact hs.create hnext
  | @copy t f ht =>
    have hlinks : SameLinks s.frames (s.copy f).frames :=
      Coroutines.setFrame_links _ f { s.frames f with refCnt := (s.frames f).refCnt.inc } rfl rfl
    exact hs.of_links hlinks rfl (fun _ _ hi => middle_append _ hi)
  | @move t promise ht =>
    exact hs.of_links (.refl _) rfl (fun _ _ hi => middle_append _ (middle_set ht (by simp) hi))
  | @drop t promise ht =>
    refine hs.of_links (s.drop_links t promise) (s.drop_stage t promise) (fun _ _ hi => ?_)
    rw [s.drop_tasks]
    exact middle_set ht (by simp) hi
  | request => exact hs.of_links (s.newLocal_links _ _) rfl (fun _ _ hi => hi)
  | refused => exact hs
  | @commit t f ht hf hstop =>
    have hlinks := s.commit_links f
    refine (still_stage (fun g => (hlinks g).1) (fun g => (hlinks g).2) (commit_stage hstop f) ?_
      (by simp [hf,Stage.task]) (by simp [Stage.task])
      (fun _ => hs.idle f (by rw [hf]; rfl))).stacks hs
    intro i c hi
    rw [s.commit_tasks]
    exact hi
  | stop => exact hs.of_links (.refl _) rfl (fun _ _ hi => hi)
  | resume ht hf => exact hs.begin (by simp [hf,Stage.task])
  | start hf => exact hs.begin (by simp [hf,Stage.task])
  | suspend hf | wake hf | run hf =>
    exact hs.setStage (by simp [hf,Stage.task]) (by simp [Stage.task]) (by simp [Stage.idle])
  | await => cases hk
  | back hf ht => exact hs.back hf
  | @complete f result hf hroot =>
    have hlinks : SameLinks s.frames ((s.returning f result).complete f).frames :=
      (s.returning f result).complete_links f
    have halone := (hs.alone_iff (by simp [hf])).mp hroot
    have hstage : ((s.returning f result).complete f).stage =
        Function.update s.stage f .ending := (s.returning f result).complete_stage f
    refine (still_stage (fun g => (hlinks g).1) (fun g => (hlinks g).2) hstage ?_
      (by simp [hf,Stage.task]) (by simp [Stage.task]) (fun _ => halone)).stacks hs
    intro i c hi
    rw [(s.returning f result).complete_tasks]
    exact hi
  | giveBack hf hroot =>
    simp only [keepsStack,hroot] at hk
    cases hk
  | @release f hf =>
    have hlinks : SameLinks s.frames ((s.release f).setStage f .done).frames := s.release_links f
    have hstage : ((s.release f).setStage f .done).stage = Function.update s.stage f .done := rfl
    exact (still_stage (fun g => (hlinks g).1) (fun g => (hlinks g).2) hstage (fun _ _ hi => hi)
      (by simp [hf,Stage.task]) (by simp [Stage.task])
      (fun _ => hs.idle f (by rw [hf]; rfl))).stacks hs

/-- A call pushes the child on the stack of its caller. -/
theorem Coroutines.Stacks.call {V : Type} {s u : Coroutines V} {stack : Nat → List Nat}
    {f t : Nat} (hs : s.Stacks stack) (h : s.Acts (.await f t) u) : ∃ r l child,
      stack r = l ++ [f] ∧ s.stage child = .fresh ∧ u.Stacks (Ring.pushed stack r child) := by
  cases h with
  | @await _ _ child frames hf ht hc hlink =>
    obtain ⟨r,l,hr⟩ := hs.top (f := f) (by simp [hf]) (by simp [hf])
    exact ⟨r,l,child,hr,hc,hs.called hf ht hc hlink hr⟩

/-- A return pops the leaf and gives control to the frame below it. -/
theorem Coroutines.Stacks.returns {V : Type} {s u : Coroutines V} {stack : Nat → List Nat}
    {f : Nat} {result : Option V} (hs : s.Stacks stack) (h : s.Acts (.finish f result) u)
    (hroot : (s.frames f).empty f = false) : ∃ r l p t, stack r = l ++ [p,f] ∧
      s.stage p = .awaiting t ∧ s.tasks[t]? = some (.middle f) ∧
      u.stage = Function.update (Function.update s.stage f .returned) p (.back t) ∧
      u.Stacks (Ring.popped stack r (l ++ [p])) := by
  cases h with
  | complete _ hroot' =>
    rw [hroot] at hroot'
    cases hroot'
  | @giveBack _ caller t _ frames hf _ hprev hc hunlink =>
    obtain ⟨r,l,p,t',hr,hp,ht,hprev',hnext,hpf,hrf⟩ := hs.below hf hroot
    rw [hprev] at hprev'
    cases hprev'
    rw [hc] at hp
    cases hp
    obtain ⟨frames',hunlink',hthread⟩ := hs.removeSelf hr hprev hnext hpf hrf
    change Task.removeSelf s.frames f = some frames at hunlink
    rw [hunlink] at hunlink'
    cases hunlink'
    have hs' : (s.returning f result).Stacks stack :=
      hs.of_links (.refl _) rfl (fun _ _ hi => hi)
    exact ⟨r,l,caller,t,hr,hc,ht,rfl,hs'.giveBack hf hr hc ht hthread⟩

theorem Coroutines.Stacks.step {V : Type} {s u : Coroutines V} {stack : Nat → List Nat}
    {e : Event V} (hs : s.Stacks stack) (hnext : s.stage s.count = .done) (h : s.Acts e u) :
    ∃ stack', u.Stacks stack' := by
  cases hk : s.keepsStack e with
  | true => exact ⟨stack,hs.keep hnext h hk⟩
  | false =>
    cases e with
    | await f t =>
      obtain ⟨r,l,child,_,_,hu⟩ := hs.call h
      exact ⟨_,hu⟩
    | finish f result =>
      obtain ⟨r,l,p,t,_,_,_,_,hu⟩ := hs.returns h hk
      exact ⟨_,hu⟩
    | _ => cases hk

theorem Coroutines.start_stacks {V : Type} : (start : Coroutines V).Stacks (fun f => [f]) := by
  refine ⟨⟨?_,?_,?_,?_,?_⟩,?_,?_,?_,?_,?_,?_,?_⟩
  · intro r a ha
    exact (Option.some.inj ha).symm
  · exact fun r => List.nodup_singleton r
  · intro r q a hr hq
    rw [← List.mem_singleton.mp hr,List.mem_singleton.mp hq]
  · exact fun r _ => List.isChain_pair.mpr ⟨rfl,rfl⟩
  · intro a ha
    exact absurd (List.mem_singleton.mpr rfl) (ha a)
  · exact fun r => List.isChain_singleton r
  · exact fun r a _ => rfl
  · exact fun f => iff_of_true (by simp [start]) ⟨f,List.mem_singleton.mpr rfl⟩
  · exact fun f _ => rfl
  · intro p t hp
    cases hp
  · intro p q t hp
    cases hp
  · intro p t c hp
    cases hp

theorem Coroutines.reaches_stacks {V : Type} {s : Coroutines V}
    {ok : Coroutines V → Event V → Bool} (h : Transition.Reaches step ok start s) :
    s.Ledger ∧ ∃ stack, s.Stacks stack := by
  refine h.invariant (I := fun s => s.Ledger ∧ ∃ stack, s.Stacks stack) ?_ ?_
  · intro s e t hi _ he
    obtain ⟨hledger,stack,hs⟩ := hi
    exact ⟨(step_took he).ledger hledger,hs.step hledger.next_done (step_acts he)⟩
  · exact ⟨start_ledger,_,start_stacks⟩

def Event.goesOn {V : Type} (p : Nat) : Event V → Bool
  | .back f => f == p
  | _ => false

structure Coroutines.Handed {V : Type} (s : Coroutines V) (p t c : Nat) (result : Option V) :
    Prop where
  stage : s.stage p = .back t
  task : s.tasks[t]? = some (.middle c)
  child : s.stage c = .returned
  result : s.result c = result

theorem Coroutines.Handed.received {V : Type} {s : Coroutines V} {p t c : Nat}
    {result : Option V} (h : s.Handed p t c result) : s.received p = result := by
  simp [Coroutines.received,h.stage,h.task,h.result]

theorem Coroutines.Handed.congr {V : Type} {s u : Coroutines V} {p t c : Nat}
    {result : Option V} (h : s.Handed p t c result) (hp : u.stage p = s.stage p)
    (hc : u.stage c = s.stage c) (ht : u.tasks[t]? = some (.middle c))
    (hresult : u.result c = s.result c) : u.Handed p t c result :=
  ⟨hp.trans h.stage,ht,hc.trans h.child,hresult.trans h.result⟩

theorem Coroutines.Handed.other {V : Type} {s : Coroutines V} {p t c : Nat} {result : Option V}
    (h : s.Handed p t c result) {f : Nat} (hret : s.stage f ≠ .returned)
    (hback : ∀ i, s.stage f ≠ .back i) (stage : Stage) :
    Function.update s.stage f stage p = s.stage p ∧
      Function.update s.stage f stage c = s.stage c := by
  have hp : p ≠ f := fun heq => hback t (heq ▸ h.stage)
  have hc : c ≠ f := fun heq => hret (heq ▸ h.child)
  exact ⟨Function.update_of_ne hp _ _,Function.update_of_ne hc _ _⟩

theorem Coroutines.Handed.begin {V : Type} {s : Coroutines V} {p t c : Nat} {result : Option V}
    (h : s.Handed p t c result) {f : Nat} (hret : s.stage f ≠ .returned)
    (hback : ∀ i, s.stage f ≠ .back i) : (s.begin f).Handed p t c result := by
  obtain ⟨hp,hc⟩ := h.other hret hback .running
  refine h.congr ?_ ?_ ?_ ?_
  · rw [s.begin_stage]
    exact hp
  · rw [s.begin_stage]
    exact hc
  · rw [s.begin_tasks]
    exact h.task
  · rw [s.begin_result]

theorem Coroutines.Handed.setStage {V : Type} {s : Coroutines V} {p t c : Nat}
    {result : Option V} (h : s.Handed p t c result) {f : Nat} (hret : s.stage f ≠ .returned)
    (hback : ∀ i, s.stage f ≠ .back i) (stage : Stage) :
    (s.setStage f stage).Handed p t c result := by
  obtain ⟨hp,hc⟩ := h.other hret hback stage
  exact h.congr hp hc h.task rfl

theorem Coroutines.Handed.step {V : Type} {s u : Coroutines V} {stack : Nat → List Nat}
    {p t c : Nat} {result : Option V} {e : Event V} (h : s.Handed p t c result)
    (hs : s.Stacks stack) (hnext : s.stage s.count = .done) (he : s.Acts e u)
    (hgo : e.goesOn p = false) : u.Handed p t c result := by
  cases he with
  | create =>
    obtain ⟨hp,hc⟩ := h.other (f := s.count) (by simp [hnext]) (by simp [hnext]) .fresh
    exact h.congr hp hc (middle_append _ h.task) rfl
  | copy => exact h.congr rfl rfl (middle_append _ h.task) rfl
  | move ht => exact h.congr rfl rfl (middle_append _ (middle_set ht (by simp) h.task)) rfl
  | @drop i promise ht =>
    refine h.congr (by rw [s.drop_stage]) (by rw [s.drop_stage]) ?_ (by rw [s.drop_result])
    rw [s.drop_tasks]
    exact middle_set ht (by simp) h.task
  | request => exact h.congr rfl rfl h.task rfl
  | refused => exact h
  | @commit i f ht hf hstop =>
    obtain ⟨hp,hc⟩ := h.other (f := f) (by simp [hf]) (by simp [hf]) .committed
    rw [← commit_stage hstop] at hp hc
    refine h.congr hp hc ?_ (by rw [s.commit_result])
    rw [s.commit_tasks]
    exact h.task
  | stop => exact h.congr rfl rfl h.task rfl
  | resume ht hf => exact h.begin (by simp [hf]) (by simp [hf])
  | start hf => exact h.begin (by simp [hf]) (by simp [hf])
  | suspend hf => exact h.setStage (by simp [hf]) (by simp [hf]) _
  | wake hf => exact h.setStage (by simp [hf]) (by simp [hf]) _
  | run hf => exact h.setStage (by simp [hf]) (by simp [hf]) _
  | @await f i child frames hf ht hc hlink =>
    have hcf : child ≠ f := by
      intro heq
      rw [heq,hf] at hc
      cases hc
    obtain ⟨hp',hc'⟩ := h.other (f := f) (by simp [hf]) (by simp [hf]) (.awaiting s.tasks.length)
    have hcalled : (s.called frames f i child).Handed p t c result :=
      h.congr hp' hc' (middle_append _ (middle_set ht (by simp) h.task)) rfl
    have hchild : (s.called frames f i child).stage child = .fresh := by
      rw [s.called_stage,Function.update_of_ne hcf]
      exact hc
    exact hcalled.begin (by simp [hchild]) (by simp [hchild])
  | @back f i child hf ht =>
    have hpf : p ≠ f := by
      intro heq
      simp [Event.goesOn,heq] at hgo
    have hcf : c ≠ f := by
      intro heq
      rw [← heq,h.child] at hf
      cases hf
    have hne : i ≠ t := by
      intro heq
      exact hpf (hs.single p f t (by rw [h.stage]; rfl) (by rw [hf,heq]; rfl))
    exact h.congr (Function.update_of_ne hpf _ _) (Function.update_of_ne hcf _ _)
      ((List.getElem?_set_ne hne).trans h.task) rfl
  | @complete f result' hf hroot =>
    obtain ⟨hp,hc⟩ := h.other (f := f) (by simp [hf]) (by simp [hf]) .ending
    have hcf : c ≠ f := by
      intro heq
      rw [← heq,h.child] at hf
      cases hf
    refine h.congr ?_ ?_ ?_ ?_
    · rw [Coroutines.complete_stage]
      exact hp
    · rw [Coroutines.complete_stage]
      exact hc
    · rw [Coroutines.complete_tasks]
      exact h.task
    · rw [Coroutines.complete_result]
      exact Function.update_of_ne hcf _ _
  | @giveBack f caller i result' frames hf hroot hprev hcaller hunlink =>
    have hcf : c ≠ f := by
      intro heq
      rw [← heq,h.child] at hf
      cases hf
    have hret : (s.returning f result').Handed p t c result :=
      h.congr rfl rfl h.task (Function.update_of_ne hcf _ _)
    have hleft := hret.setStage (f := f) (by simp [returning,hf]) (by simp [returning,hf])
      .returned
    have hfc : caller ≠ f := by
      intro heq
      rw [heq,hf] at hcaller
      cases hcaller
    have hstage : ((s.returning f result').setStage f .returned).stage caller = .awaiting i :=
      (Function.update_of_ne hfc _ _).trans hcaller
    obtain ⟨hp,hc⟩ := hleft.other (f := caller) (by simp [hstage]) (by simp [hstage]) (.back i)
    exact hleft.congr hp hc h.task rfl
  | @release f hf =>
    obtain ⟨hp,hc⟩ := h.other (f := f) (by simp [hf]) (by simp [hf]) .done
    exact h.congr hp hc h.task rfl

theorem Coroutines.Stacks.callStack {V : Type} {s : Coroutines V} {stack : Nat → List Nat}
    (h : s.Stacks stack) {r : Nat} (hr : stack r ≠ []) : s.CallStack r (stack r) := by
  obtain ⟨m,hm⟩ := h.threaded.root hr
  refine ⟨by rw [hm]; rfl,(h.active r).mpr ⟨r,by simp [hm]⟩,?_,h.calls r,h.leaf r⟩
  intro p hp
  obtain ⟨q,l,k,hq⟩ := h.caller hp
  have hqr := h.threaded.apart q r r (by simp [hq]) (by simp [hm])
  rw [hqr] at hq
  have hnod := h.threaded.once r
  cases l with
  | nil =>
    rw [hq,List.nil_append] at hm
    have hpr := (List.cons.inj hm).1
    rw [hq,hpr] at hnod
    simp at hnod
  | cons a l =>
    rw [hq] at hm
    have har := (List.cons.inj hm).1
    rw [hq,har] at hnod
    simp at hnod

theorem Coroutines.Stacks.eq_of_callStack {V : Type} {s : Coroutines V} {stack : Nat → List Nat}
    (h : s.Stacks stack) {r : Nat} {l : List Nat} (hl : s.CallStack r l) :
    stack r ≠ [] ∧ l = stack r := by
  obtain ⟨hhead,hret,hroot,hchain,hlast⟩ := hl
  obtain ⟨q,hq⟩ := (h.active r).mp hret
  have hqr : q = r := by
    obtain ⟨k,m,hk⟩ := List.append_of_mem hq
    rcases List.eq_nil_or_concat k with hnil | ⟨k',a,hk'⟩
    · exact (h.threaded.head q r (by simp [hk,hnil])).symm
    · rw [hk',List.concat_eq_append,List.append_assoc] at hk
      have hcalls := h.calls q
      rw [hk] at hcalls
      exact absurd (List.isChain_cons_cons.mp hcalls.right_of_append).1 (hroot a)
  rw [hqr] at hq
  have hne : stack r ≠ [] := List.ne_nil_of_mem hq
  obtain ⟨m,hm⟩ := h.threaded.root hne
  obtain ⟨l',hl'⟩ := List.head?_eq_some_iff.mp hhead
  refine ⟨hne,?_⟩
  have hcalls := h.calls r
  have hleaf := h.leaf r
  rw [hm] at hcalls hleaf
  rw [hl'] at hchain hlast
  rw [hl',hm,Ring.chain_unique hchain hlast hcalls hleaf]

theorem Coroutines.Stacks.ring_iff {V : Type} {s : Coroutines V} {stack : Nat → List Nat}
    (h : s.Stacks stack) {r : Nat} (hr : stack r ≠ []) (l : List Nat) :
    s.Ring r l ↔ l = stack r := by
  obtain ⟨m,hm⟩ := h.threaded.root hr
  have hnod := h.threaded.once r
  have hchain : (stack r ++ [r]).IsChain (fun a b => (s.frames a).next = some b) :=
    (h.threaded.linked r hr).imp (fun _ _ hab => hab.1)
  constructor
  · intro hl
    obtain ⟨hhead,hnod',hring⟩ := hl
    obtain ⟨k,hk⟩ := List.head?_eq_some_iff.mp hhead
    rw [hk] at hring hnod'
    rw [hm] at hchain hnod
    rw [hk,hm,Ring.ring_unique hring (List.nodup_cons.mp hnod').1 hchain
      (List.nodup_cons.mp hnod).1]
  · intro hl
    rw [hl]
    exact ⟨by rw [hm]; rfl,hnod,hchain⟩

structure Coroutines.CallsNest {V : Type} (s : Coroutines V) : Prop where
  inverse : ∀ a b, (s.frames a).next = some b ↔ (s.frames b).prev = some a
  ring : ∀ r l, s.CallStack r l → ∀ l', s.Ring r l' ↔ l' = l
  stacked : ∀ f, s.stage f ≠ .returned → ∃ r l, s.CallStack r l ∧ f ∈ l
  alone : ∀ r l, s.CallStack r l → ((s.frames r).empty r = true ↔ l = [r])
  /-- A final suspension gives control to the caller and to no other frame, and whatever
  happens until the caller goes on, that is the result which it receives. -/
  returns : ∀ f, s.stage f = .running → ∀ result, ∃ u, s.step (.finish f result) = some u ∧
    ((∃ p t, s.callee p = some f ∧
        u.stage = Function.update (Function.update s.stage f .returned) p (.back t) ∧
        ∀ v, Transition.Reaches Coroutines.step (fun _ e => !e.goesOn p) u v →
          v.stage p = .back t ∧ v.received p = result ∧ (v.step (.back p)).isSome = true) ∨
      (s.CallStack f [f] ∧ u.stage = Function.update s.stage f .ending))

theorem Coroutines.Handed.goes {V : Type} {s : Coroutines V} {p t c : Nat} {result : Option V}
    (h : s.Handed p t c result) : (s.step (.back p)).isSome = true := by
  simp [Coroutines.step,h.stage,h.task]

theorem Coroutines.Handed.run {V : Type} {s u : Coroutines V} {p t c : Nat} {result : Option V}
    (h : s.Handed p t c result) (hinv : s.Ledger ∧ ∃ stack, s.Stacks stack)
    (hr : Transition.Reaches Coroutines.step (fun _ e => !e.goesOn p) s u) :
    u.Handed p t c result := by
  refine (hr.invariant (I := fun s => s.Handed p t c result ∧ s.Ledger ∧
    ∃ stack, s.Stacks stack) ?_ ⟨h,hinv⟩).1
  intro s e t' hi hok he
  obtain ⟨hh,hledger,stack,hs⟩ := hi
  have hacts := step_acts he
  exact ⟨hh.step hs hledger.next_done hacts (by simpa using hok),(step_took he).ledger hledger,
    hs.step hledger.next_done hacts⟩

theorem calls_nest {V : Type} (s : Coroutines V)
    (h : Transition.Reaches Coroutines.step (fun _ _ => true) Coroutines.start s) :
    s.CallsNest := by
  obtain ⟨hledger,stack,hs⟩ := Coroutines.reaches_stacks h
  refine ⟨hs.threaded.inverse,?_,?_,?_,?_⟩
  · intro r l hl
    obtain ⟨hne,heq⟩ := hs.eq_of_callStack hl
    rw [heq]
    exact hs.ring_iff hne
  · intro f hf
    obtain ⟨r,hr⟩ := (hs.active f).mp hf
    exact ⟨r,stack r,hs.callStack (List.ne_nil_of_mem hr),hr⟩
  · intro r l hl
    obtain ⟨_,heq⟩ := hs.eq_of_callStack hl
    rw [heq]
    exact hs.alone_iff hl.2.1
  · intro f hf result
    cases hroot : (s.frames f).empty f with
    | true =>
      have halone := (hs.alone_iff (by simp [hf])).mp hroot
      have hstack := hs.callStack (r := f) (by simp [halone])
      rw [halone] at hstack
      refine ⟨(s.returning f result).complete f,?_,.inr ⟨hstack,?_⟩⟩
      · exact s.step_complete result hf hroot
      · exact (s.returning f result).complete_stage f
    | false =>
      obtain ⟨frames,p,t,hpf,_,hp,ht,hstep⟩ := hs.step_giveBack result hf hroot
      refine ⟨_,hstep,.inl ⟨p,t,Coroutines.callee_awaiting hp ht,rfl,?_⟩⟩
      intro v hv
      have hhanded : ((s.returning f result).giveBack frames f p t).Handed p t f result := by
        refine ⟨Function.update_self ..,ht,?_,Function.update_self ..⟩
        exact (Function.update_of_ne (Ne.symm hpf) _ _).trans (Function.update_self ..)
      have hu := hhanded.run ⟨(Coroutines.step_took hstep).ledger hledger,
        hs.step hledger.next_done (Coroutines.step_acts hstep)⟩ hv
      exact ⟨hu.stage,hu.received,hu.goes⟩

def calledTwice : List (Event Int) :=
  [.create,.resume 0,.create,.await 0 1,.finish 1 (some 1),.back 0,.create,.await 0 3,.create,
    .await 2 5,.suspend 3]

theorem calledTwice_nest : ∃ s : Coroutines Int, (s.frames 0).next = some 2 ∧
    (s.frames 2).next = some 3 ∧ (s.frames 3).next = some 0 ∧ s.CallsNest := by
  have hrun : (Transition.run Coroutines.step (fun _ _ => true) .start calledTwice).map
      (fun s => ((s.frames 0).next,(s.frames 2).next,(s.frames 3).next)) =
      some (some 2,some 3,some 0) := by decide
  obtain ⟨s,hs,heq⟩ := Option.map_eq_some_iff.mp hrun
  simp only [Prod.mk.injEq] at heq
  exact ⟨s,heq.1,heq.2.1,heq.2.2,calls_nest s (Transition.reaches_of_run hs)⟩

end NewRpc.Task
