import NewRpc.CallStack

/-!
A chain of calls has one `CoroLocalVar`, which no other chain has, and its root is the only
frame that the scheduler counts.
-/

set_option autoImplicit false

namespace NewRpc.Task
open Net

def LinkedCoroutine.data (frame : LinkedCoroutine) : Option Nat × Bool × Bool :=
  (frame.coroLocalVar,frame.doneFlag,frame.frameRunningCnt)

def Coroutines.globals {V : Type} (s : Coroutines V) :
    (Nat → Option CoroLocalVar) × Nat × Int × List Nat × List (ResponseInfo × V) :=
  (s.locals,s.nextId,s.runningCoroCnt,s.deleted,s.sent)

def Stage.begun : Stage → Bool
  | .running => true
  | .suspended => true
  | .queued => true
  | .awaiting _ => true
  | .back _ => true
  | _ => false

def Stage.ended : Stage → Bool
  | .ending => true
  | .done => true
  | _ => false

def Coroutines.completed {V : Type} (s : Coroutines V) (f : Nat) : Prop :=
  f < s.count ∧ (s.stage f = .ending ∨ s.stage f = .done)

theorem Coroutines.completed_iff {V : Type} (s : Coroutines V) (f : Nat) :
    s.completed f ↔ f < s.count ∧ (s.stage f).ended = true := by
  unfold completed
  cases s.stage f <;> simp [Stage.ended]

structure Coroutines.Keeps {V : Type} (s t : Coroutines V) : Prop where
  data : ∀ f, (t.frames f).data = (s.frames f).data
  globals : t.globals = s.globals

theorem data_var {F G : LinkedCoroutine} (h : F.data = G.data) :
    F.coroLocalVar = G.coroLocalVar := congrArg Prod.fst h

theorem data_done {F G : LinkedCoroutine} (h : F.data = G.data) : F.doneFlag = G.doneFlag :=
  congrArg (fun x => x.2.1) h

theorem data_count {F G : LinkedCoroutine} (h : F.data = G.data) :
    F.frameRunningCnt = G.frameRunningCnt := congrArg (fun x => x.2.2) h

theorem Coroutines.Keeps.locals {V : Type} {s t : Coroutines V} (h : s.Keeps t) :
    t.locals = s.locals := congrArg Prod.fst h.globals

theorem Coroutines.Keeps.nextId {V : Type} {s t : Coroutines V} (h : s.Keeps t) :
    t.nextId = s.nextId := congrArg (fun x => x.2.1) h.globals

theorem Coroutines.Keeps.runningCoroCnt {V : Type} {s t : Coroutines V} (h : s.Keeps t) :
    t.runningCoroCnt = s.runningCoroCnt := congrArg (fun x => x.2.2.1) h.globals

theorem Coroutines.Keeps.deleted {V : Type} {s t : Coroutines V} (h : s.Keeps t) :
    t.deleted = s.deleted := congrArg (fun x => x.2.2.2.1) h.globals

theorem Coroutines.Keeps.sent {V : Type} {s t : Coroutines V} (h : s.Keeps t) :
    t.sent = s.sent := congrArg (fun x => x.2.2.2.2) h.globals

theorem Coroutines.Keeps.refl {V : Type} (s : Coroutines V) : s.Keeps s :=
  ⟨fun _ => rfl,rfl⟩

theorem Coroutines.Keeps.setFrame {V : Type} (s : Coroutines V) (f : Nat)
    (frame : LinkedCoroutine) (hd : frame.data = (s.frames f).data) :
    s.Keeps (s.setFrame f frame) := by
  refine ⟨fun g => ?_,rfl⟩
  by_cases hg : g = f
  · subst hg
    simp [Coroutines.setFrame,hd]
  · simp [Coroutines.setFrame,hg]

theorem Coroutines.Keeps.drop {V : Type} (s : Coroutines V) (t : Nat) (promise : Option Nat) :
    s.Keeps (s.drop t promise) := by
  cases promise with
  | none => exact ⟨fun _ => rfl,rfl⟩
  | some f =>
    let u : Coroutines V := { s with tasks := s.tasks.set t .gone }
    have hu := Keeps.setFrame u f { s.frames f with refCnt := (s.frames f).refCnt.dec.2 } rfl
    exact ⟨hu.data,hu.globals⟩

theorem Coroutines.Keeps.create {V : Type} {s : Coroutines V}
    (hborn : (s.frames s.count).data = (none,false,false)) : s.Keeps s.create := by
  refine ⟨fun g => ?_,rfl⟩
  by_cases hg : g = s.count
  · rw [hg,s.create_new.1,hborn]
    rfl
  · rw [(s.create_old hg).1]

theorem setPrev_data (frames : Frames) (f : Nat) (prev : Option Nat) (g : Nat) :
    (setPrev frames f prev g).data = (frames g).data := by
  by_cases hg : g = f
  · subst hg
    simp [setPrev,LinkedCoroutine.data]
  · simp [setPrev,hg]

theorem setNext_data (frames : Frames) (f : Nat) (next : Option Nat) (g : Nat) :
    (setNext frames f next g).data = (frames g).data := by
  by_cases hg : g = f
  · subst hg
    simp [setNext,LinkedCoroutine.data]
  · simp [setNext,hg]

theorem linkNext_data {frames frames' : Frames} {f c : Nat}
    (h : linkNext frames f c = some frames') (g : Nat) : (frames' g).data = (frames g).data := by
  unfold linkNext at h
  split at h
  · cases h
  · cases h
    simp only [setPrev_data,setNext_data]

theorem removeSelf_data {frames frames' : Frames} {f : Nat}
    (h : removeSelf frames f = some frames') (g : Nat) : (frames' g).data = (frames g).data := by
  unfold removeSelf at h
  split at h
  · cases h
    rfl
  · split at h
    · cases h
      simp only [setPrev_data,setNext_data]
    · cases h

theorem Coroutines.newLocal_var {V : Type} (s : Coroutines V) (f : Nat)
    (info : Option ResponseInfo) (g : Nat) : ((s.newLocal f info).frames g).coroLocalVar =
      if g = f then some s.nextId else (s.frames g).coroLocalVar := by
  by_cases hg : g = f
  · subst hg
    simp [newLocal,setFrame]
  · simp [newLocal,setFrame,hg]

theorem Coroutines.newLocal_done {V : Type} (s : Coroutines V) (f : Nat)
    (info : Option ResponseInfo) (g : Nat) :
    ((s.newLocal f info).frames g).doneFlag = (s.frames g).doneFlag := by
  by_cases hg : g = f
  · subst hg
    simp [newLocal,setFrame]
  · simp [newLocal,setFrame,hg]

theorem Coroutines.newLocal_count {V : Type} (s : Coroutines V) (f : Nat)
    (info : Option ResponseInfo) (g : Nat) :
    ((s.newLocal f info).frames g).frameRunningCnt = (s.frames g).frameRunningCnt := by
  by_cases hg : g = f
  · subst hg
    simp [newLocal,setFrame]
  · simp [newLocal,setFrame,hg]

theorem Coroutines.begin_some {V : Type} {s : Coroutines V} {f : Nat}
    (h : (s.frames f).coroLocalVar ≠ none) : s.begin f = s.setStage f .running := by
  simp [Coroutines.begin,h]

theorem Coroutines.begin_none {V : Type} {s : Coroutines V} {f : Nat}
    (h : (s.frames f).coroLocalVar = none) :
    s.begin f = (s.newLocal f none).setStage f .running := by
  simp [Coroutines.begin,h]

theorem Coroutines.begin_var {V : Type} (s : Coroutines V) {f g : Nat} (hg : g ≠ f) :
    ((s.begin f).frames g).coroLocalVar = (s.frames g).coroLocalVar := by
  by_cases hvar : (s.frames f).coroLocalVar = none
  · rw [begin_none hvar]
    show ((s.newLocal f none).frames g).coroLocalVar = _
    rw [newLocal_var,if_neg hg]
  · rw [begin_some hvar]
    rfl

structure Coroutines.Shares {V : Type} (s t : Coroutines V) (f child : Nat) : Prop where
  var : ∀ g, (t.frames g).coroLocalVar =
    if g = child then (s.frames f).coroLocalVar else (s.frames g).coroLocalVar
  done : ∀ g, (t.frames g).doneFlag = (s.frames g).doneFlag
  cnt : ∀ g, (t.frames g).frameRunningCnt = (s.frames g).frameRunningCnt
  globals : t.globals = s.globals
  result : t.result = s.result
  count : t.count = s.count
  completed : ∀ g, t.completed g ↔ s.completed g
  begun : ∀ g, (t.stage g).begun = true → (s.stage g).begun = true ∨ g = child
  left : ∀ g, t.stage g = .returned → s.stage g = .returned

theorem Coroutines.called_shares {V : Type} {s : Coroutines V} {frames : Frames}
    {f t child : Nat} (hf : s.stage f = .running) (hc : s.stage child = .fresh)
    (hvar : (s.frames f).coroLocalVar ≠ none) (hlink : linkNext s.frames f child = some frames) :
    s.Shares ((s.called frames f t child).begin child) f child := by
  have hdata := linkNext_data hlink
  let u := s.called frames f t child
  have hucoro : ∀ g, (u.frames g).data = if g = child then
      ((s.frames f).coroLocalVar,(s.frames child).doneFlag,(s.frames child).frameRunningCnt)
        else (s.frames g).data := by
    intro g
    by_cases hg : g = child
    · rw [hg,if_pos rfl]
      simp [u,called,Coroutines.move,Coroutines.setStage,setFrame,LinkedCoroutine.data,
        data_var (hdata f),data_done (hdata child),data_count (hdata child)]
    · rw [if_neg hg,← hdata g]
      simp [u,called,Coroutines.move,Coroutines.setStage,setFrame,hg]
  have huvar : (u.frames child).coroLocalVar ≠ none := by
    have h := hucoro child
    rw [if_pos rfl] at h
    rw [show (u.frames child).coroLocalVar = _ from congrArg Prod.fst h]
    exact hvar
  have hcf : child ≠ f := by
    intro heq
    rw [heq,hf] at hc
    cases hc
  have hstages := s.called_stages frames t hcf
  have hbegin : (s.called frames f t child).begin child = u.setStage child .running :=
    Coroutines.begin_some huvar
  rw [hbegin] at hstages ⊢
  obtain ⟨hcstage,hfstage,hother⟩ := hstages
  refine ⟨fun g => ?_,fun g => ?_,fun g => ?_,rfl,rfl,rfl,fun g => ?_,fun g hg => ?_,
    fun g hg => ?_⟩
  · have h := hucoro g
    by_cases hg : g = child
    · rw [if_pos hg] at h ⊢
      exact congrArg Prod.fst h
    · rw [if_neg hg] at h ⊢
      exact data_var h
  · have h := hucoro g
    by_cases hg : g = child
    · rw [if_pos hg] at h
      rw [show ((u.setStage child .running).frames g).doneFlag = _ from
        congrArg (fun x => x.2.1) h,hg]
    · rw [if_neg hg] at h
      exact data_done h
  · have h := hucoro g
    by_cases hg : g = child
    · rw [if_pos hg] at h
      rw [show ((u.setStage child .running).frames g).frameRunningCnt = _ from
        congrArg (fun x => x.2.2) h,hg]
    · rw [if_neg hg] at h
      exact data_count h
  · rw [Coroutines.completed_iff,Coroutines.completed_iff]
    by_cases hgc : g = child
    · rw [hgc,hcstage,hc]
      exact Iff.rfl
    · by_cases hgf : g = f
      · rw [hgf,hfstage,hf]
        exact Iff.rfl
      · rw [hother g hgf hgc]
        exact Iff.rfl
  · by_cases hgc : g = child
    · exact .inr hgc
    · by_cases hgf : g = f
      · rw [hgf,hf]
        exact .inl rfl
      · rw [hother g hgf hgc] at hg
        exact .inl hg
  · by_cases hgc : g = child
    · rw [hgc,hcstage] at hg
      cases hg
    · by_cases hgf : g = f
      · rw [hgf,hfstage] at hg
        cases hg
      · rw [hother g hgf hgc] at hg
        exact hg

theorem Coroutines.commit_globals {V : Type} {s : Coroutines V} (hstop : s.stopFlag = false)
    (f : Nat) : (s.commit f).globals =
      (s.locals,s.nextId,s.runningCoroCnt + 1,s.deleted,s.sent) := by
  simp [Coroutines.commit,hstop,globals,Coroutines.setStage,setFrame,inc]

theorem Coroutines.commit_other {V : Type} {s : Coroutines V} (hstop : s.stopFlag = false)
    {f g : Nat} (hg : g ≠ f) : (s.commit f).frames g = s.frames g := by
  simp [Coroutines.commit,hstop,Coroutines.setStage,setFrame,inc,hg]

theorem Coroutines.commit_data {V : Type} {s : Coroutines V} (hstop : s.stopFlag = false)
    (f g : Nat) : ((s.commit f).frames g).data = ((s.frames g).coroLocalVar,
      (s.frames g).doneFlag,if g = f then true else (s.frames g).frameRunningCnt) := by
  by_cases hg : g = f
  · subst hg
    simp [commit_frame hstop,LinkedCoroutine.data]
  · simp [commit_other hstop hg,LinkedCoroutine.data,hg]

theorem Coroutines.commit_var {V : Type} {s : Coroutines V} (hstop : s.stopFlag = false)
    (f g : Nat) : ((s.commit f).frames g).coroLocalVar = (s.frames g).coroLocalVar :=
  congrArg Prod.fst (commit_data hstop f g)

theorem Coroutines.commit_done {V : Type} {s : Coroutines V} (hstop : s.stopFlag = false)
    (f g : Nat) : ((s.commit f).frames g).doneFlag = (s.frames g).doneFlag :=
  congrArg (fun x => x.2.1) (commit_data hstop f g)

theorem Coroutines.commit_cnt {V : Type} {s : Coroutines V} (hstop : s.stopFlag = false)
    (f g : Nat) : ((s.commit f).frames g).frameRunningCnt =
      if g = f then true else (s.frames g).frameRunningCnt :=
  congrArg (fun x => x.2.2) (commit_data hstop f g)

theorem Coroutines.commit_births {V : Type} (s : Coroutines V) (f : Nat) :
    (s.commit f).count = s.count := by
  unfold Coroutines.commit
  split <;> rfl

theorem Coroutines.commit_completed {V : Type} {s : Coroutines V} (hstop : s.stopFlag = false)
    {f : Nat} (hf : s.stage f = .fresh) (g : Nat) : (s.commit f).completed g ↔ s.completed g := by
  unfold completed
  rw [commit_births,commit_stage hstop]
  by_cases hg : g = f
  · rw [hg,Function.update_self,hf]
    simp
  · rw [Function.update_of_ne hg]

theorem Coroutines.countDown_eq {V : Type} (s : Coroutines V) (f : Nat) :
    s.countDown f = { s with runningCoroCnt :=
      s.runningCoroCnt - if (s.frames f).frameRunningCnt then 1 else 0 } := by
  unfold Coroutines.countDown
  split
  · rfl
  · rw [Int.sub_zero]

theorem Coroutines.report_frame {V : Type} (s : Coroutines V) (f g : Nat) :
    ((s.report f).frames g).coroLocalVar = (s.frames g).coroLocalVar ∧
      ((s.report f).frames g).frameRunningCnt = (s.frames g).frameRunningCnt := by
  unfold Coroutines.report
  split
  · exact ⟨rfl,rfl⟩
  · exact ⟨rfl,rfl⟩
  · by_cases hg : g = f
    · subst hg
      simp [setFrame]
    · simp [setFrame,hg]

theorem Coroutines.deleteLocal_frame {V : Type} (s : Coroutines V) (f g : Nat) :
    ((s.deleteLocal f).frames g).coroLocalVar =
        (if g = f then none else (s.frames g).coroLocalVar) ∧
      ((s.deleteLocal f).frames g).frameRunningCnt = (s.frames g).frameRunningCnt := by
  unfold Coroutines.deleteLocal
  split
  · rename_i hnone
    by_cases hg : g = f
    · simp [hg,hnone]
    · simp [hg]
  · by_cases hg : g = f
    · subst hg
      simp [setFrame]
    · simp [setFrame,hg]

theorem Coroutines.complete_frame {V : Type} (s : Coroutines V) (f g : Nat) :
    ((s.complete f).frames g).coroLocalVar =
        (if g = f then none else (s.frames g).coroLocalVar) ∧
      ((s.complete f).frames g).frameRunningCnt = (s.frames g).frameRunningCnt := by
  have hdelete := ((s.countDown f).report f).deleteLocal_frame f g
  have hreport := (s.countDown f).report_frame f g
  have hcount : (s.countDown f).frames g = s.frames g := by rw [s.countDown_eq]
  rw [hreport.1,hreport.2,hcount] at hdelete
  exact hdelete

theorem Coroutines.complete_nextId {V : Type} (s : Coroutines V) (f : Nat) :
    (s.complete f).nextId = s.nextId := by
  unfold Coroutines.complete Coroutines.deleteLocal Coroutines.report Coroutines.countDown
  split <;> split <;> split <;> rfl

structure Coroutines.Chained {V : Type} (s : Coroutines V) (stack : Nat → List Nat) : Prop where
  threads : s.Stacks stack
  shared : ∀ r, ∀ f ∈ stack r, (s.frames f).coroLocalVar = (s.frames r).coroLocalVar
  begun : ∀ f, (s.stage f).begun = true → (s.frames f).coroLocalVar ≠ none
  below : ∀ r v, stack r ≠ [] → (s.frames r).coroLocalVar = some v → v < s.nextId
  apart : ∀ r q v, stack r ≠ [] → stack q ≠ [] → (s.frames r).coroLocalVar = some v →
    (s.frames q).coroLocalVar = some v → r = q
  heads : ∀ r, ∀ f ∈ stack r, (s.frames f).frameRunningCnt = true → f = r
  left : ∀ f, s.stage f = .returned → (s.frames f).frameRunningCnt = false

/-- A frame that is alone in its stack is in no other. -/
theorem Coroutines.Stacks.alone {V : Type} {s : Coroutines V} {stack : Nat → List Nat}
    (h : s.Stacks stack) {f r : Nat} (hf : stack f = [f]) (hr : f ∈ stack r) : r = f :=
  h.threaded.apart r f f hr (by simp [hf])

/-- A step that gives no frame a local variable, and takes one only from a frame alone. -/
theorem Coroutines.Chained.keep {V : Type} {s t : Coroutines V} {stack stack' : Nat → List Nat}
    (h : s.Chained stack) (ht : t.Stacks stack') (hstack : ∀ r, ∀ f ∈ stack' r, f ∈ stack r)
    (hnext : t.nextId = s.nextId)
    (hvar : ∀ f, (t.frames f).coroLocalVar = (s.frames f).coroLocalVar ∨
      ((t.frames f).coroLocalVar = none ∧ (t.stage f).begun = false ∧ stack f = [f]))
    (hbegun : ∀ f, (t.stage f).begun = true →
      (s.stage f).begun = true ∨ (s.frames f).coroLocalVar ≠ none)
    (hcnt : ∀ f, (t.frames f).frameRunningCnt = true →
      (s.frames f).frameRunningCnt = true ∨ (stack f = [f] ∧ t.stage f ≠ .returned))
    (hleft : ∀ f, t.stage f = .returned →
      s.stage f = .returned ∨ (s.frames f).frameRunningCnt = false) : t.Chained stack' := by
  have hroot : ∀ r, stack' r ≠ [] → stack r ≠ [] := by
    intro r hr
    obtain ⟨f,hf⟩ := List.exists_mem_of_ne_nil _ hr
    exact List.ne_nil_of_mem (hstack r f hf)
  have hsome : ∀ f v, (t.frames f).coroLocalVar = some v → (s.frames f).coroLocalVar = some v := by
    intro f v hv
    rcases hvar f with heq | ⟨hnone,_⟩
    · rw [← heq]
      exact hv
    · rw [hnone] at hv
      cases hv
  refine ⟨ht,?_,?_,?_,?_,?_,?_⟩
  · intro r f hf
    have hin := hstack r f hf
    rcases hvar f with heq | ⟨_,_,halone⟩
    · rcases hvar r with heqr | ⟨_,_,haloner⟩
      · rw [heq,heqr]
        exact h.shared r f hin
      · rw [haloner] at hin
        rw [List.mem_singleton.mp hin]
    · rw [h.threads.alone halone hin]
  · intro f hf
    rcases hvar f with heq | ⟨_,hnot,_⟩
    · rw [heq]
      rcases hbegun f hf with hb | hb
      · exact h.begun f hb
      · exact hb
    · rw [hnot] at hf
      cases hf
  · intro r v hr hv
    rw [hnext]
    exact h.below r v (hroot r hr) (hsome r v hv)
  · intro r q v hr hq hv hv'
    exact h.apart r q v (hroot r hr) (hroot q hq) (hsome r v hv) (hsome q v hv')
  · intro r f hf hc
    have hin := hstack r f hf
    rcases hcnt f hc with hold | ⟨halone,_⟩
    · exact h.heads r f hin hold
    · exact (h.threads.alone halone hin).symm
  · intro f hf
    cases hc : (t.frames f).frameRunningCnt with
    | false => rfl
    | true =>
      rcases hcnt f hc with hold | ⟨_,hnot⟩
      · rcases hleft f hf with hl | hl
        · rw [h.left f hl] at hold
          cases hold
        · rw [hl] at hold
          cases hold
      · exact absurd hf hnot

theorem Coroutines.Chained.still {V : Type} {s t : Coroutines V} {stack : Nat → List Nat}
    (h : s.Chained stack) (ht : t.Stacks stack) (hk : s.Keeps t) (hstage : t.stage = s.stage) :
    t.Chained stack := by
  refine h.keep ht (fun _ _ hf => hf) hk.nextId (fun f => .inl (data_var (hk.data f)))
    (fun f hf => ?_) (fun f hf => ?_) (fun f hf => ?_)
  · rw [hstage] at hf
    exact .inl hf
  · rw [data_count (hk.data f)] at hf
    exact .inl hf
  · rw [hstage] at hf
    exact .inl hf

theorem Coroutines.Chained.moves {V : Type} {s t : Coroutines V} {stack : Nat → List Nat} {f : Nat}
    {stage : Stage} (h : s.Chained stack) (ht : t.Stacks stack) (hk : s.Keeps t)
    (hstage : t.stage = Function.update s.stage f stage)
    (hbegun : stage.begun = true →
      (s.stage f).begun = true ∨ (s.frames f).coroLocalVar ≠ none)
    (hleft : stage ≠ .returned) : t.Chained stack := by
  refine h.keep ht (fun _ _ hg => hg) hk.nextId (fun g => .inl (data_var (hk.data g)))
    (fun g hg => ?_) (fun g hg => ?_) (fun g hg => ?_)
  · rw [hstage] at hg
    by_cases hgf : g = f
    · rw [hgf,Function.update_self] at hg
      rw [hgf]
      exact hbegun hg
    · rw [Function.update_of_ne hgf] at hg
      exact .inl hg
  · rw [data_count (hk.data g)] at hg
    exact .inl hg
  · rw [hstage] at hg
    by_cases hgf : g = f
    · rw [hgf,Function.update_self] at hg
      exact absurd hg hleft
    · rw [Function.update_of_ne hgf] at hg
      exact .inl hg

theorem Coroutines.Chained.newLocal {V : Type} {s : Coroutines V} {stack : Nat → List Nat}
    (h : s.Chained stack) {f : Nat} (halone : stack f = [f]) (info : Option ResponseInfo) :
    (s.newLocal f info).Chained stack := by
  have hvar := s.newLocal_var f info
  have hcnt := s.newLocal_count f info
  have hnext : (s.newLocal f info).nextId = s.nextId + 1 := rfl
  refine ⟨h.threads.of_links (s.newLocal_links f info) rfl (fun _ _ hi => hi),?_,?_,?_,?_,?_,?_⟩
  · intro r g hg
    by_cases hgf : g = f
    · rw [hgf] at hg ⊢
      rw [h.threads.alone halone hg]
    · have hrf : r ≠ f := Ring.ne_of_alone halone hg hgf
      rw [hvar,hvar,if_neg hgf,if_neg hrf]
      exact h.shared r g hg
  · intro g hg
    rw [hvar]
    by_cases hgf : g = f
    · simp [hgf]
    · rw [if_neg hgf]
      exact h.begun g hg
  · intro r v hr hv
    rw [hnext]
    rw [hvar] at hv
    by_cases hrf : r = f
    · rw [if_pos hrf] at hv
      cases hv
      exact Nat.lt_succ_self _
    · rw [if_neg hrf] at hv
      exact Nat.lt_succ_of_lt (h.below r v hr hv)
  · intro r q v hr hq hv hv'
    rw [hvar] at hv hv'
    by_cases hrf : r = f
    · by_cases hqf : q = f
      · rw [hrf,hqf]
      · rw [if_pos hrf] at hv
        rw [if_neg hqf,← hv] at hv'
        exact absurd (h.below q _ hq hv') (Nat.lt_irrefl _)
    · rw [if_neg hrf] at hv
      by_cases hqf : q = f
      · rw [if_pos hqf] at hv'
        rw [← hv'] at hv
        exact absurd (h.below r _ hr hv) (Nat.lt_irrefl _)
      · rw [if_neg hqf] at hv'
        exact h.apart r q v hr hq hv hv'
  · intro r g hg hc
    rw [hcnt] at hc
    exact h.heads r g hg hc
  · intro g hg
    rw [hcnt]
    exact h.left g hg

theorem Coroutines.Chained.begin {V : Type} {s : Coroutines V} {stack : Nat → List Nat}
    (h : s.Chained stack) {f : Nat} (hf : s.stage f = .fresh ∨ s.stage f = .committed) :
    (s.begin f).Chained stack := by
  have hplain : (s.stage f).task = none ∧ s.stage f ≠ .returned := by
    rcases hf with hf | hf <;> simp [hf,Stage.task]
  have hidle : (s.stage f).idle = true := by
    rcases hf with hf | hf <;> simp [hf,Stage.idle]
  have hthreads := h.threads.begin hplain
  cases hvar : (s.frames f).coroLocalVar with
  | some v =>
    have hsome : (s.frames f).coroLocalVar ≠ none := by simp [hvar]
    rw [begin_some hsome] at hthreads ⊢
    exact h.moves hthreads ⟨fun _ => rfl,rfl⟩ rfl (fun _ => .inr hsome) (by simp)
  | none =>
    rw [begin_none hvar] at hthreads ⊢
    have hnew := h.newLocal (h.threads.idle f hidle) none
    refine hnew.moves hthreads ⟨fun _ => rfl,rfl⟩ rfl (fun _ => .inr ?_) (by simp)
    simp [newLocal_var]

theorem Coroutines.Chained.called {V : Type} {s t : Coroutines V} {stack : Nat → List Nat}
    (h : s.Chained stack) {r f child : Nat} {l : List Nat} (hf : (s.stage f).begun = true)
    (hr : stack r = l ++ [f]) (hchild : stack child = [child]) (hne : r ≠ child)
    (hcnt : (s.frames child).frameRunningCnt = false) (ht : s.Shares t f child)
    (hthreads : t.Stacks (Ring.pushed stack r child)) :
    t.Chained (Ring.pushed stack r child) := by
  have hmem := h.threads.threaded.mem_pushed hchild hne
  have hvarf : (s.frames f).coroLocalVar = (s.frames r).coroLocalVar :=
    h.shared r f (by simp [hr])
  have hroot : ∀ q, Ring.pushed stack r child q ≠ [] → stack q ≠ [] ∧ q ≠ child :=
    fun _ hq => Ring.of_pushed (by simp [hr]) hne hq
  have hnext : t.nextId = s.nextId := congrArg (fun x => x.2.1) ht.globals
  refine ⟨hthreads,?_,?_,?_,?_,?_,?_⟩
  · intro q g hg
    rw [ht.var,ht.var]
    have hqc := (hroot q (List.ne_nil_of_mem hg)).2
    rcases (hmem q g).mp hg with ⟨hin,hgc⟩ | ⟨hqr,hgc⟩
    · rw [if_neg hgc,if_neg hqc]
      exact h.shared q g hin
    · rw [hqr,if_pos hgc,if_neg hne]
      exact hvarf
  · intro g hg
    rw [ht.var]
    by_cases hgc : g = child
    · rw [if_pos hgc]
      exact h.begun f hf
    · rw [if_neg hgc]
      exact h.begun g ((ht.begun g hg).resolve_right hgc)
  · intro q v hq hv
    obtain ⟨hq',hqc⟩ := hroot q hq
    rw [ht.var,if_neg hqc] at hv
    rw [hnext]
    exact h.below q v hq' hv
  · intro q q' v hq hq' hv hv'
    obtain ⟨h1,h1c⟩ := hroot q hq
    obtain ⟨h2,h2c⟩ := hroot q' hq'
    rw [ht.var,if_neg h1c] at hv
    rw [ht.var,if_neg h2c] at hv'
    exact h.apart q q' v h1 h2 hv hv'
  · intro q g hg hc
    rw [ht.cnt] at hc
    rcases (hmem q g).mp hg with ⟨hin,_⟩ | ⟨_,hgc⟩
    · exact h.heads q g hin hc
    · rw [hgc,hcnt] at hc
      cases hc
  · intro g hg
    rw [ht.cnt]
    exact h.left g (ht.left g hg)

theorem Coroutines.Chained.complete {V : Type} {s : Coroutines V} {stack : Nat → List Nat}
    (h : s.Chained stack) {f : Nat} {result : Option V} (halone : stack f = [f])
    (ht : ((s.returning f result).complete f).Stacks stack) :
    ((s.returning f result).complete f).Chained stack := by
  have hframe := fun g => (s.returning f result).complete_frame f g
  have hstage := (s.returning f result).complete_stage f
  refine h.keep ht (fun _ _ hg => hg) ((s.returning f result).complete_nextId f) (fun g => ?_)
    (fun g hg => ?_) (fun g hg => ?_) (fun g hg => ?_)
  · rw [(hframe g).1]
    by_cases hgf : g = f
    · rw [hgf,hstage,Function.update_self]
      exact .inr ⟨if_pos rfl,rfl,halone⟩
    · rw [if_neg hgf]
      exact .inl rfl
  · rw [hstage] at hg
    by_cases hgf : g = f
    · rw [hgf,Function.update_self] at hg
      cases hg
    · rw [Function.update_of_ne hgf] at hg
      exact .inl hg
  · rw [(hframe g).2] at hg
    exact .inl hg
  · rw [hstage] at hg
    by_cases hgf : g = f
    · rw [hgf,Function.update_self] at hg
      cases hg
    · rw [Function.update_of_ne hgf] at hg
      exact .inl hg

theorem Coroutines.Chained.create {V : Type} {s : Coroutines V} {stack : Nat → List Nat}
    (h : s.Chained stack) (hnext : s.stage s.count = .done) : s.create.Chained stack := by
  have halone : stack s.count = [s.count] := h.threads.idle s.count (by rw [hnext]; rfl)
  refine h.keep (h.threads.create hnext) (fun _ _ hg => hg) rfl (fun g => ?_) (fun g hg => ?_)
    (fun g hg => ?_) (fun g hg => ?_)
  · by_cases hg : g = s.count
    · subst hg
      rw [s.create_new.1,s.create_new.2]
      exact .inr ⟨rfl,rfl,halone⟩
    · rw [(s.create_old hg).1]
      exact .inl rfl
  · by_cases hgc : g = s.count
    · subst hgc
      rw [s.create_new.2] at hg
      cases hg
    · rw [(s.create_old hgc).2] at hg
      exact .inl hg
  · by_cases hgc : g = s.count
    · subst hgc
      rw [s.create_new.1] at hg
      cases hg
    · rw [(s.create_old hgc).1] at hg
      exact .inl hg
  · by_cases hgc : g = s.count
    · subst hgc
      rw [s.create_new.2] at hg
      cases hg
    · rw [(s.create_old hgc).2] at hg
      exact .inl hg

theorem Coroutines.Chained.commit {V : Type} {s : Coroutines V} {stack : Nat → List Nat}
    (h : s.Chained stack) {f : Nat} (hf : s.stage f = .fresh) (hstop : s.stopFlag = false)
    (ht : (s.commit f).Stacks stack) : (s.commit f).Chained stack := by
  have hstage := commit_stage hstop f
  have hother : ∀ g, g ≠ f → (s.commit f).stage g = s.stage g := by
    intro g hg
    rw [hstage,Function.update_of_ne hg]
  have hfstage : (s.commit f).stage f = .committed := by rw [hstage,Function.update_self]
  have hnext : (s.commit f).nextId = s.nextId :=
    congrArg (fun x => x.2.1) (commit_globals hstop f)
  refine h.keep ht (fun _ _ hg => hg) hnext (fun g => .inl (commit_var hstop f g))
    (fun g hg => ?_) (fun g hg => ?_) (fun g hg => ?_)
  · by_cases hgf : g = f
    · rw [hgf,hfstage] at hg
      cases hg
    · rw [hother g hgf] at hg
      exact .inl hg
  · by_cases hgf : g = f
    · rw [hgf,hfstage]
      exact .inr ⟨h.threads.idle f (by rw [hf]; rfl),by simp⟩
    · rw [commit_cnt hstop,if_neg hgf] at hg
      exact .inl hg
  · by_cases hgf : g = f
    · rw [hgf,hfstage] at hg
      cases hg
    · rw [hother g hgf] at hg
      exact .inl hg

/-- A return takes the leaf off the stack of its caller, of which it is not the root, and has
no effect besides. -/
theorem Coroutines.Chained.giveBack {V : Type} {s u : Coroutines V} {stack : Nat → List Nat}
    (h : s.Chained stack) {f : Nat} {result : Option V} (he : s.Acts (.finish f result) u)
    (hroot : (s.frames f).empty f = false) : s.Keeps u ∧ ∃ stack', u.Chained stack' ∧
      (∀ r, ∀ g ∈ stack' r, g ∈ stack r) ∧ ∀ g, (u.stage g).ended = (s.stage g).ended := by
  obtain ⟨r,l,p,t,hr,hp,_,hstage,hu⟩ := h.threads.returns he hroot
  have hin : f ∈ stack r := by simp [hr]
  have hpop : ∀ q, ∀ g ∈ Ring.popped stack r (l ++ [p]) q, g ∈ stack q := by
    intro q g hg
    have hr' : stack r = (l ++ [p]) ++ [f] := by simp [hr]
    exact Ring.mem_of_popped hr' hg
  have hother : ∀ g, g ≠ f → g ≠ p → u.stage g = s.stage g := by
    intro g hgf hgp
    rw [hstage,Function.update_of_ne hgp,Function.update_of_ne hgf]
  cases he with
  | complete _ hroot' =>
    rw [hroot] at hroot'
    cases hroot'
  | @giveBack _ caller i _ frames hf _ hprev hc hunlink =>
    have hpf : p ≠ f := by
      intro heq
      rw [heq,hf] at hp
      cases hp
    let u := (s.returning f result).giveBack frames f caller i
    have hpStage : u.stage p = .back t := by rw [hstage,Function.update_self]
    have hfStage : u.stage f = .returned := by
      rw [hstage,Function.update_of_ne (Ne.symm hpf),Function.update_self]
    have hkeeps : s.Keeps u := ⟨removeSelf_data hunlink,rfl⟩
    refine ⟨hkeeps,_,h.keep hu hpop rfl (fun g => .inl (data_var (hkeeps.data g)))
      (fun g hg => ?_) (fun g hg => .inl ?_) (fun g hg => ?_),hpop,fun g => ?_⟩
    · by_cases hgp : g = p
      · rw [hgp,hp]
        exact .inl rfl
      · by_cases hgf : g = f
        · rw [hgf,hf]
          exact .inl rfl
        · rw [hother g hgf hgp] at hg
          exact .inl hg
    · rw [← data_count (hkeeps.data g)]
      exact hg
    · by_cases hgp : g = p
      · rw [hgp,hpStage] at hg
        cases hg
      · by_cases hgf : g = f
        · refine .inr (Bool.eq_false_iff.mpr (fun hcnt => ?_))
          rw [hgf] at hcnt
          obtain ⟨q,k,p',_,hq,_,_,_,_,_,hqf⟩ := h.threads.below hf hroot
          have hqr := h.threads.threaded.apart q r f (by simp [hq]) hin
          exact hqf (hqr.trans (h.heads r f hin hcnt).symm)
        · rw [hother g hgf hgp] at hg
          exact .inl hg
    · by_cases hgp : g = p
      · rw [hgp,hpStage,hp]
        rfl
      · by_cases hgf : g = f
        · rw [hgf,hfStage,hf]
          rfl
        · rw [hother g hgf hgp]

theorem Coroutines.Chained.step {V : Type} {s u : Coroutines V} {stack : Nat → List Nat}
    {e : Event V} (h : s.Chained stack) (hl : s.Ledger) (he : s.Acts e u) :
    ∃ stack', u.Chained stack' := by
  have hkeep := h.threads.keep hl.next_done he
  cases he with
  | create => exact ⟨_,h.create hl.next_done⟩
  | @copy t f ht =>
    have hk := Keeps.setFrame { s with tasks := s.tasks ++ [CoroTask.handle (some f)] } f
      { s.frames f with refCnt := (s.frames f).refCnt.inc } rfl
    exact ⟨_,h.still (hkeep rfl) ⟨hk.data,hk.globals⟩ rfl⟩
  | move => exact ⟨_,h.still (hkeep rfl) ⟨fun _ => rfl,rfl⟩ rfl⟩
  | @drop t promise ht =>
    exact ⟨_,h.still (hkeep rfl) (.drop s t promise) (s.drop_stage t promise)⟩
  | @request t f info ht hf hvar =>
    exact ⟨_,h.newLocal (h.threads.idle f (by rw [hf]; rfl)) (some info)⟩
  | refused => exact ⟨_,h⟩
  | commit ht hf hstop => exact ⟨_,h.commit hf hstop (hkeep rfl)⟩
  | stop => exact ⟨_,h.still (hkeep rfl) ⟨fun _ => rfl,rfl⟩ rfl⟩
  | resume ht hf => exact ⟨_,h.begin (.inl hf)⟩
  | start hf => exact ⟨_,h.begin (.inr hf)⟩
  | suspend hf | wake hf | run hf =>
    exact ⟨_,h.moves (hkeep rfl) ⟨fun _ => rfl,rfl⟩ rfl (fun _ => .inl (by rw [hf]; rfl)) (by simp)⟩
  | @await f i child frames hf ht hc hlink =>
    obtain ⟨r,l,hr⟩ := h.threads.top (f := f) (by simp [hf]) (by simp [hf])
    have hb : (s.stage f).begun = true := by rw [hf]; rfl
    have hchild : stack child = [child] := h.threads.idle child (by rw [hc]; rfl)
    have hne : r ≠ child := h.threads.root_ne (f := f) (by simp [hr]) (by simp [hf]) hc
    exact ⟨_,h.called hb hr hchild hne (hl.fresh child hc)
      (called_shares hf hc (h.begun f hb) hlink) (h.threads.called hf ht hc hlink hr)⟩
  | @back f t child hf ht =>
    have hk := Keeps.drop s t (some child)
    exact ⟨_,h.moves (hkeep rfl) ⟨hk.data,hk.globals⟩ rfl (fun _ => .inl (by rw [hf]; rfl)) (by simp)⟩
  | @complete f result hf hroot =>
    have halone := (h.threads.alone_iff (f := f) (by simp [hf])).mp hroot
    exact ⟨_,h.complete halone (hkeep hroot)⟩
  | giveBack hf hroot hprev hc hunlink =>
    obtain ⟨_,stack',hs,_⟩ := h.giveBack (.giveBack hf hroot hprev hc hunlink) hroot
    exact ⟨stack',hs⟩
  | @release f hf =>
    have hk := Keeps.setFrame s f { s.frames f with refCnt := (s.frames f).refCnt.dec.2 } rfl
    exact ⟨_,h.moves (hkeep rfl) ⟨hk.data,hk.globals⟩ rfl (fun hb => by cases hb) (by simp)⟩

theorem Coroutines.start_chained {V : Type} : (start : Coroutines V).Chained (fun f => [f]) := by
  refine ⟨start_stacks,?_,?_,?_,?_,?_,?_⟩
  · intro r f hf
    rw [List.mem_singleton.mp hf]
  · intro f hf
    cases hf
  · intro r v _ hv
    cases hv
  · intro r q v _ _ hv
    cases hv
  · intro r f hf _
    exact List.mem_singleton.mp hf
  · intro f hf
    cases hf

theorem Coroutines.reaches_chained {V : Type} {s : Coroutines V}
    {ok : Coroutines V → Event V → Bool} (h : Transition.Reaches step ok start s) :
    s.Ledger ∧ ∃ stack, s.Chained stack := by
  refine h.invariant (I := fun s => s.Ledger ∧ ∃ stack, s.Chained stack) ?_ ?_
  · intro s e t hi _ he
    obtain ⟨hledger,stack,hs⟩ := hi
    exact ⟨(step_took he).ledger hledger,hs.step hledger (step_acts he)⟩
  · exact ⟨start_ledger,_,start_chained⟩

/-- Nobody touches the local variable of a frame that is suspended in an action. -/
theorem Coroutines.Chained.var_suspended {V : Type} {s u : Coroutines V} {stack : Nat → List Nat}
    {e : Event V} (h : s.Chained stack) (hl : s.Ledger) (he : s.Acts e u) {g : Nat}
    (hg : s.stage g = .suspended) :
    (u.frames g).coroLocalVar = (s.frames g).coroLocalVar := by
  have hne : ∀ f, s.stage f ≠ .suspended → g ≠ f := by
    intro f hf heq
    exact hf (heq ▸ hg)
  cases he with
  | create => rw [(s.create_old (hne s.count (by simp [hl.next_done]))).1]
  | @copy t f ht =>
    have hk := Keeps.setFrame s f { s.frames f with refCnt := (s.frames f).refCnt.inc } rfl
    exact data_var (hk.data g)
  | move => rfl
  | @drop t promise ht => exact data_var ((Keeps.drop s t promise).data g)
  | @request t f info ht hf hvar => rw [newLocal_var,if_neg (hne f (by simp [hf]))]
  | refused => rfl
  | commit ht hf hstop => exact commit_var hstop _ g
  | stop => rfl
  | resume ht hf => exact s.begin_var (hne _ (by simp [hf]))
  | start hf => exact s.begin_var (hne _ (by simp [hf]))
  | suspend | wake | run => rfl
  | @await f i child frames hf ht hc hlink =>
    have hshares := called_shares (t := i) hf hc (h.begun f (by rw [hf]; rfl)) hlink
    rw [hshares.var,if_neg (hne child (by simp [hc]))]
  | @back f t child hf ht => exact data_var ((Keeps.drop s t (some child)).data g)
  | @complete f result hf hroot =>
    rw [((s.returning f result).complete_frame f g).1,if_neg (hne f (by simp [hf]))]
    rfl
  | giveBack hf hroot hprev hc hunlink => exact data_var (removeSelf_data hunlink g)
  | @release f hf =>
    exact data_var ((Keeps.setFrame s f
      { s.frames f with refCnt := (s.frames f).refCnt.dec.2 } rfl).data g)

end NewRpc.Task
