import Mathlib.Data.Finset.Piecewise
import NewRpc.DoneFlag

/-!
Memory that has been freed, of coroutine frames and of local variables: whatever stands there,
the steps of the process do not read it and do not write it.
-/

set_option autoImplicit false

namespace NewRpc.Task
open Codec Net Resumable

structure Litter (V : Type) where
  frames : Frames
  result : Nat → Option V
  locals : Nat → Option CoroLocalVar

section
variable {V : Type} (D E : Finset Nat) (litter : Litter V)

/-- The frames of `D` and the local variables of `E` are overwritten. -/
def Coroutines.overwrite (s : Coroutines V) : Coroutines V :=
  { s with
    frames := D.piecewise litter.frames s.frames
    result := D.piecewise litter.result s.result
    locals := E.piecewise litter.locals s.locals }

variable {D E litter} {s t : Coroutines V}

theorem Coroutines.overwrite_frame {f : Nat} (hf : f ∉ D) :
    (s.overwrite D E litter).frames f = s.frames f :=
  Finset.piecewise_eq_of_notMem _ _ _ hf

theorem Coroutines.overwrite_setFrame {f : Nat} (hf : f ∉ D) (frame : LinkedCoroutine) :
    (s.overwrite D E litter).setFrame f frame = (s.setFrame f frame).overwrite D E litter := by
  simp only [setFrame,overwrite,Finset.update_piecewise_of_notMem _ _ _ hf]

theorem Coroutines.overwrite_setStage (f : Nat) (stage : Stage) :
    (s.overwrite D E litter).setStage f stage = (s.setStage f stage).overwrite D E litter := rfl

theorem Coroutines.overwrite_inc {f : Nat} (hf : f ∉ D) :
    (s.overwrite D E litter).inc f = (s.inc f).overwrite D E litter := by
  unfold inc
  rw [overwrite_frame hf,overwrite_setFrame hf]

theorem Coroutines.overwrite_release {f : Nat} (hf : f ∉ D) :
    (s.overwrite D E litter).release f = (s.release f).overwrite D E litter := by
  unfold release
  rw [overwrite_frame hf,overwrite_setFrame hf]
  rfl

theorem Coroutines.overwrite_drop {promise : Option Nat} (i : Nat)
    (hf : ∀ f, promise = some f → f ∉ D) :
    (s.overwrite D E litter).drop i promise = (s.drop i promise).overwrite D E litter := by
  cases promise with
  | none => rfl
  | some f => exact overwrite_release (s := { s with tasks := s.tasks.set i .gone }) (hf f rfl)

theorem Coroutines.overwrite_create (hf : s.count ∉ D) :
    (s.overwrite D E litter).create = s.create.overwrite D E litter := by
  unfold create
  simp only [overwrite,Finset.update_piecewise_of_notMem _ _ _ hf]

theorem Coroutines.overwrite_newLocal {f : Nat} (hf : f ∉ D) (hnext : s.nextId ∉ E)
    (info : Option ResponseInfo) :
    (s.overwrite D E litter).newLocal f info = (s.newLocal f info).overwrite D E litter := by
  unfold newLocal
  rw [overwrite_frame hf]
  simp only [setFrame,overwrite,Finset.update_piecewise_of_notMem _ _ _ hf,
    Finset.update_piecewise_of_notMem _ _ _ hnext]

theorem Coroutines.overwrite_begin {f : Nat} (hf : f ∉ D) (hnext : s.nextId ∉ E) :
    (s.overwrite D E litter).begin f = (s.begin f).overwrite D E litter := by
  unfold begin
  rw [overwrite_frame hf,overwrite_newLocal hf hnext]
  split <;> rfl

theorem Coroutines.overwrite_commit {f : Nat} (hf : f ∉ D) :
    (s.overwrite D E litter).commit f = (s.commit f).overwrite D E litter := by
  unfold commit
  split
  · rename_i hstop
    rw [if_pos (show s.stopFlag = true from hstop)]
  · rename_i hstop
    rw [if_neg (show ¬ s.stopFlag = true from hstop),overwrite_inc hf]
    simp only [setFrame,setStage,overwrite,Finset.update_piecewise_of_notMem _ _ _ hf,
      Finset.piecewise_eq_of_notMem _ _ _ hf]

theorem Coroutines.overwrite_countDown {f : Nat} (hf : f ∉ D) :
    (s.overwrite D E litter).countDown f = (s.countDown f).overwrite D E litter := by
  unfold countDown
  rw [overwrite_frame hf]
  split <;> rfl

theorem Coroutines.overwrite_var {f : Nat} (hf : f ∉ D)
    (hvar : ∀ v, (s.frames f).coroLocalVar = some v → v ∉ E) :
    ((s.overwrite D E litter).frames f).coroLocalVar.bind (s.overwrite D E litter).locals =
      (s.frames f).coroLocalVar.bind s.locals := by
  rw [overwrite_frame hf]
  cases hv : (s.frames f).coroLocalVar with
  | none => rfl
  | some v => exact Finset.piecewise_eq_of_notMem _ _ _ (hvar v hv)

theorem Coroutines.overwrite_report {f : Nat} (hf : f ∉ D)
    (hvar : ∀ v, (s.frames f).coroLocalVar = some v → v ∉ E) :
    (s.overwrite D E litter).report f = (s.report f).overwrite D E litter := by
  have hresult : (s.overwrite D E litter).result f = s.result f :=
    Finset.piecewise_eq_of_notMem _ _ _ hf
  unfold report
  rw [overwrite_var hf hvar,hresult,overwrite_frame hf,overwrite_setFrame hf]
  split <;> rfl

theorem Coroutines.overwrite_deleteLocal {f : Nat} (hf : f ∉ D)
    (hvar : ∀ v, (s.frames f).coroLocalVar = some v → v ∉ E) :
    (s.overwrite D E litter).deleteLocal f = (s.deleteLocal f).overwrite D E litter := by
  unfold deleteLocal
  rw [overwrite_frame hf]
  split
  · rfl
  · rename_i v hv
    simp only [setFrame,overwrite,Finset.update_piecewise_of_notMem _ _ _ hf,
      Finset.update_piecewise_of_notMem _ _ _ (hvar v hv)]

theorem setNext_piecewise {litter frames : Frames} {f : Nat} (hf : f ∉ D) (next : Option Nat) :
    setNext (D.piecewise litter frames) f next = D.piecewise litter (setNext frames f next) := by
  unfold setNext
  rw [Finset.piecewise_eq_of_notMem _ _ _ hf,Finset.update_piecewise_of_notMem _ _ _ hf]

theorem setPrev_piecewise {litter frames : Frames} {f : Nat} (hf : f ∉ D) (prev : Option Nat) :
    setPrev (D.piecewise litter frames) f prev = D.piecewise litter (setPrev frames f prev) := by
  unfold setPrev
  rw [Finset.piecewise_eq_of_notMem _ _ _ hf,Finset.update_piecewise_of_notMem _ _ _ hf]

theorem linkNext_piecewise {litter frames : Frames} {f child : Nat} (hf : f ∉ D)
    (hchild : child ∉ D) (hnext : ∀ g, (frames f).next = some g → g ∉ D) :
    linkNext (D.piecewise litter frames) f child =
      (linkNext frames f child).map (fun frames => D.piecewise litter frames) := by
  unfold linkNext
  rw [Finset.piecewise_eq_of_notMem _ _ _ hf]
  cases hg : (frames f).next with
  | none => rfl
  | some g =>
    simp only [setNext_piecewise hf,setNext_piecewise hchild,setPrev_piecewise hchild,
      setPrev_piecewise (hnext g hg),Option.map_some]

theorem removeSelf_piecewise {litter frames : Frames} {f : Nat} (hf : f ∉ D)
    (hnext : ∀ g, (frames f).next = some g → g ∉ D)
    (hprev : ∀ g, (frames f).prev = some g → g ∉ D) :
    removeSelf (D.piecewise litter frames) f =
      (removeSelf frames f).map (fun frames => D.piecewise litter frames) := by
  unfold removeSelf
  rw [Finset.piecewise_eq_of_notMem _ _ _ hf]
  split
  · rfl
  · cases hp : (frames f).prev with
    | none => rfl
    | some p =>
      cases hn : (frames f).next with
      | none => rfl
      | some n =>
        simp only [setNext_piecewise hf,setNext_piecewise (hprev p hp),
          setPrev_piecewise (hnext n hn),setPrev_piecewise hf,Option.map_some]

/-- Nothing that a step looks at leads to what has been freed. -/
structure Coroutines.Clear (s : Coroutines V) (D E : Finset Nat) : Prop where
  unborn : s.count ∉ D
  done : ∀ f ∈ D, s.stage f = .done
  handle : ∀ (i f : Nat), s.tasks[i]? = some (.handle (some f)) → f ∉ D
  middle : ∀ (i f : Nat), s.tasks[i]? = some (.middle f) → f ∉ D
  next : ∀ f g, s.stage f = .running → (s.frames f).next = some g → g ∉ D
  prev : ∀ f g, s.stage f = .running → (s.frames f).prev = some g → g ∉ D
  var : ∀ f v, s.stage f = .running → (s.frames f).coroLocalVar = some v → v ∉ E
  nextId : s.nextId ∉ E

theorem Coroutines.Clear.live (h : s.Clear D E) {f : Nat} (hf : s.stage f ≠ .done) : f ∉ D :=
  fun hin => hf (h.done f hin)

theorem Coroutines.Clear.startable (h : s.Clear D E) {i f : Nat} (hi : s.startable i = some f) :
    f ∉ D :=
  h.handle i f (startable_some hi).1

theorem Coroutines.overwrite_complete {f : Nat} (hf : f ∉ D)
    (hvar : ∀ v, (s.frames f).coroLocalVar = some v → v ∉ E) :
    (s.overwrite D E litter).complete f = (s.complete f).overwrite D E litter := by
  have hreport : ∀ v, ((s.countDown f).frames f).coroLocalVar = some v → v ∉ E := by
    rw [countDown_eq]
    exact hvar
  unfold complete
  rw [overwrite_countDown hf,overwrite_report hf hreport,
    overwrite_deleteLocal hf (by rw [(report_frame _ f f).1]; exact hreport),overwrite_setStage]

theorem Coroutines.overwrite_finalSuspend {f : Nat} (hf : f ∉ D)
    (hvar : ∀ v, (s.frames f).coroLocalVar = some v → v ∉ E)
    (hnext : ∀ g, (s.frames f).next = some g → g ∉ D)
    (hprev : ∀ g, (s.frames f).prev = some g → g ∉ D) :
    (s.overwrite D E litter).finalSuspend f =
      (s.finalSuspend f).map (Coroutines.overwrite D E litter) := by
  have hstage : (s.overwrite D E litter).stage = s.stage := rfl
  have hremove : removeSelf (s.overwrite D E litter).frames f =
      (removeSelf s.frames f).map (fun frames => D.piecewise litter.frames frames) :=
    removeSelf_piecewise hf hnext hprev
  unfold finalSuspend
  rw [overwrite_frame hf,hremove,hstage]
  split
  · exact congrArg some (overwrite_complete hf hvar)
  · cases (s.frames f).prev with
    | none => rfl
    | some caller =>
      dsimp only
      cases s.stage caller <;> cases removeSelf s.frames f <;> rfl

theorem Coroutines.overwrite_await {f i child : Nat} (hf : f ∉ D) (hchild : child ∉ D)
    (hnext : ∀ g, (s.frames f).next = some g → g ∉ D) (hid : s.nextId ∉ E) :
    (s.overwrite D E litter).await f i child =
      (s.await f i child).map (Coroutines.overwrite D E litter) := by
  have hlink : linkNext (s.overwrite D E litter).frames f child =
      (linkNext s.frames f child).map (fun frames => D.piecewise litter.frames frames) :=
    linkNext_piecewise hf hchild hnext
  unfold await
  rw [hlink]
  cases linkNext s.frames f child with
  | none => rfl
  | some frames =>
    have hcalled : (s.overwrite D E litter).called (D.piecewise litter.frames frames) f i child =
        (s.called frames f i child).overwrite D E litter := by
      simp only [called,setFrame,setStage,move,overwrite,Finset.piecewise_eq_of_notMem _ _ _ hf,
        Finset.piecewise_eq_of_notMem _ _ _ hchild,Finset.update_piecewise_of_notMem _ _ _ hchild]
    have hbegin : ((s.called frames f i child).overwrite D E litter).begin child =
        ((s.called frames f i child).begin child).overwrite D E litter :=
      overwrite_begin hchild hid
    exact congrArg some ((congrArg (fun u => u.begin child) hcalled).trans hbegin)

theorem Coroutines.Clear.step (h : s.Clear D E) (e : Event V) :
    (s.overwrite D E litter).step e = (s.step e).map (Coroutines.overwrite D E litter) := by
  have htasks : (s.overwrite D E litter).tasks = s.tasks := rfl
  have hstage : (s.overwrite D E litter).stage = s.stage := rfl
  have hstartable : ∀ i, (s.overwrite D E litter).startable i = s.startable i := fun _ => rfl
  cases e with
  | create => exact congrArg some (overwrite_create h.unborn)
  | copy i =>
    simp only [Coroutines.step,htasks]
    cases hi : s.tasks[i]? with
    | none => rfl
    | some task => cases task with
      | handle promise => cases promise with
        | none => rfl
        | some f => exact congrArg some (overwrite_inc
            (s := { s with tasks := s.tasks ++ [.handle (some f)] }) (h.handle i f hi))
      | middle | gone => rfl
  | move i =>
    simp only [Coroutines.step,htasks]
    cases hi : s.tasks[i]? with
    | none => rfl
    | some task => cases task <;> rfl
  | drop i =>
    simp only [Coroutines.step,htasks]
    cases hi : s.tasks[i]? with
    | none => rfl
    | some task => cases task with
      | handle promise =>
        exact congrArg some (overwrite_drop i (fun f hf => h.handle i f (hf ▸ hi)))
      | middle | gone => rfl
  | request i info =>
    simp only [Coroutines.step,hstartable]
    cases hi : s.startable i with
    | none => rfl
    | some f =>
      have hf := h.startable hi
      simp only [overwrite_frame hf,overwrite_newLocal hf h.nextId]
      split <;> rfl
  | commit i =>
    simp only [Coroutines.step,hstartable]
    cases hi : s.startable i with
    | none => rfl
    | some f => exact congrArg some (overwrite_commit (h.startable hi))
  | stop => rfl
  | resume i =>
    simp only [Coroutines.step,hstartable]
    cases hi : s.startable i with
    | none => rfl
    | some f => exact congrArg some (overwrite_begin (h.startable hi) h.nextId)
  | start f =>
    simp only [Coroutines.step,hstage]
    split
    · rename_i hf
      exact congrArg some (overwrite_begin (h.live (by simp [hf])) h.nextId)
    · rfl
  | suspend f | wake f | run f =>
    simp only [Coroutines.step,hstage]
    split <;> rfl
  | await f i =>
    simp only [Coroutines.step,hstage,hstartable]
    cases hi : s.startable i with
    | none => rfl
    | some child =>
      dsimp only
      split
      · rename_i hf
        exact overwrite_await (h.live (by simp [hf])) (h.startable hi) (fun g => h.next f g hf)
          h.nextId
      · rfl
  | back f =>
    simp only [Coroutines.step,hstage,htasks]
    cases hf : s.stage f with
    | back i =>
      dsimp only
      cases hi : s.tasks[i]? with
      | none => rfl
      | some task => cases task with
        | middle child =>
          have hdrop : (s.overwrite D E litter).drop i (some child) =
              (s.drop i (some child)).overwrite D E litter :=
            overwrite_drop i (fun g hg => Option.some.inj hg ▸ h.middle i child hi)
          exact congrArg (fun u : Coroutines V => some (u.setStage f .running)) hdrop
        | handle | gone => rfl
    | _ => rfl
  | finish f result =>
    simp only [Coroutines.step,hstage]
    split
    · rename_i hf
      have hlive := h.live (f := f) (by simp [hf])
      have hreturning : (s.overwrite D E litter).returning f result =
          (s.returning f result).overwrite D E litter := by
        simp only [returning,overwrite,Finset.update_piecewise_of_notMem _ _ _ hlive]
      have hsuspend : ((s.returning f result).overwrite D E litter).finalSuspend f =
          ((s.returning f result).finalSuspend f).map (Coroutines.overwrite D E litter) :=
        overwrite_finalSuspend hlive (fun v => h.var f v hf) (fun g => h.next f g hf)
          (fun g => h.prev f g hf)
      exact (congrArg (fun u => u.finalSuspend f) hreturning).trans hsuspend
    · rfl
  | release f =>
    simp only [Coroutines.step,hstage]
    split
    · rename_i hf
      exact congrArg (fun u : Coroutines V => some (u.setStage f .done))
        (overwrite_release (h.live (by simp [hf])))
    · rfl

theorem Coroutines.Ledger.dead_done {s : Coroutines V} (h : s.Ledger) {f : Nat}
    (hf : f ∈ s.destroyed) : s.owners f = 0 ∧ s.stage f = .done := by
  have hcount := (h.balanced f (h.dead f hf)).destroyed
  split at hcount
  · rename_i hand
    exact ⟨hand.1,hand.2.1⟩
  · exact absurd hf (List.count_eq_zero.mp hcount)

theorem Coroutines.Ledger.owned {s : Coroutines V} (h : s.Ledger) {i f : Nat} {task : CoroTask}
    (hi : s.tasks[i]? = some task) (htask : task.pointsTo f = true) : f ∉ s.destroyed := by
  intro hf
  have hpos := Coroutines.handles_pos hi htask
  have hnone := (h.dead_done hf).1
  unfold Coroutines.owners at hnone
  omega

/-- The ring of a frame that runs has no frame that has been destroyed. -/
theorem Coroutines.Stacks.apart_dead {s : Coroutines V} {stack : Nat → List Nat}
    (h : s.Stacks stack) (hl : s.Ledger) {r f g : Nat} (hf : s.stage f = .running)
    (hin : f ∈ stack r) (hg : g ∈ stack r) : g ∉ s.destroyed := by
  intro hdead
  have hdone := (hl.dead_done hdead).2
  have halone := h.idle g (by rw [hdone]; rfl)
  have heq := h.threaded.apart r g g hg (by rw [halone]; simp)
  rw [heq,halone] at hin
  rw [List.mem_singleton.mp hin,hdone] at hf
  cases hf

theorem Coroutines.Stacks.clear {s : Coroutines V} {stack : Nat → List Nat} (h : s.Stacks stack)
    (hl : s.Ledger) (hvar : ∀ f v, s.stage f = .running → (s.frames f).coroLocalVar = some v →
      v ∉ s.deleted) (hnext : s.nextId ∉ s.deleted) :
    s.Clear s.destroyed.toFinset s.deleted.toFinset := by
  have hring : ∀ f, s.stage f = .running → ∃ r, f ∈ stack r := fun f hf =>
    (h.active f).mp (by simp [hf])
  refine ⟨?_,?_,?_,?_,?_,?_,?_,?_⟩
  all_goals simp only [List.mem_toFinset]
  · exact fun hin => Nat.lt_irrefl _ (hl.dead _ hin)
  · exact fun f hf => (hl.dead_done hf).2
  · exact fun i f hi => hl.owned hi (by simp [CoroTask.pointsTo])
  · exact fun i f hi => hl.owned hi (by simp [CoroTask.pointsTo])
  · intro f g hf hg
    obtain ⟨r,hr⟩ := hring f hf
    obtain ⟨b,hb,hlink⟩ := h.threaded.follows hr
    cases hg.symm.trans hlink.1
    exact h.apart_dead hl hf hr hb
  · intro f g hf hg
    obtain ⟨r,hr⟩ := hring f hf
    obtain ⟨b,hb,hlink⟩ := h.threaded.precedes hr
    cases hg.symm.trans hlink.2
    exact h.apart_dead hl hf hr hb
  · exact hvar
  · exact hnext

theorem Coroutines.Clear.mono {D' E' : Finset Nat} (h : s.Clear D' E') (hd : D ⊆ D')
    (he : E ⊆ E') : s.Clear D E :=
  ⟨fun hf => h.unborn (hd hf),fun f hf => h.done f (hd hf),fun i f hi hf => h.handle i f hi (hd hf),
    fun i f hi hf => h.middle i f hi (hd hf),fun f g hf hg hin => h.next f g hf hg (hd hin),
    fun f g hf hg hin => h.prev f g hf hg (hd hin),fun f v hf hv hin => h.var f v hf hv (he hin),
    fun hin => h.nextId (he hin)⟩

structure Coroutines.Frees (s t : Coroutines V) : Prop where
  frames : s.destroyed ⊆ t.destroyed
  locals : s.deleted ⊆ t.deleted

theorem Coroutines.Frees.of_eq (hd : t.destroyed = s.destroyed) (he : t.deleted = s.deleted) :
    s.Frees t :=
  ⟨hd ▸ List.Subset.refl _,he ▸ List.Subset.refl _⟩

theorem Coroutines.Frees.release (s : Coroutines V) (f : Nat) : s.Frees (s.release f) := by
  refine ⟨?_,List.Subset.refl _⟩
  unfold Coroutines.release
  show s.destroyed ⊆ if _ then s.destroyed ++ [f] else s.destroyed
  split
  · exact List.subset_append_left ..
  · exact List.Subset.refl _

theorem Coroutines.Frees.drop (s : Coroutines V) (i : Nat) (promise : Option Nat) :
    s.Frees (s.drop i promise) := by
  cases promise with
  | none => exact .of_eq rfl rfl
  | some f => exact ⟨(release _ f).frames,(release _ f).locals⟩

theorem Coroutines.Frees.begin (s : Coroutines V) (f : Nat) : s.Frees (s.begin f) := by
  unfold Coroutines.begin
  split <;> exact .of_eq rfl rfl

theorem Coroutines.Frees.complete (s : Coroutines V) (f : Nat) : s.Frees (s.complete f) := by
  have hreport : s.Frees ((s.countDown f).report f) := by
    rw [countDown_eq]
    unfold Coroutines.report
    split <;> exact .of_eq rfl rfl
  unfold Coroutines.complete Coroutines.deleteLocal
  split
  · exact ⟨hreport.frames,hreport.locals⟩
  · exact ⟨hreport.frames,List.Subset.trans hreport.locals (List.subset_append_left ..)⟩

theorem Coroutines.Acts.frees {e : Event V} (h : s.Acts e t) : s.Frees t := by
  cases h with
  | create | copy | move | request | refused | stop | suspend | wake | run | giveBack =>
    exact .of_eq rfl rfl
  | drop => exact .drop s _ _
  | @commit _ f =>
    unfold Coroutines.commit
    split <;> exact .of_eq rfl rfl
  | resume | start => exact .begin s _
  | @await f i child frames =>
    exact ⟨(Frees.begin (s.called frames f i child) child).frames,
      (Frees.begin (s.called frames f i child) child).locals⟩
  | @back f i child => exact ⟨(Frees.drop s i (some child)).frames,(Frees.drop s i (some child)).locals⟩
  | @complete f result =>
    exact ⟨(Frees.complete (s.returning f result) f).frames,
      (Frees.complete (s.returning f result) f).locals⟩
  | @release f => exact ⟨(Frees.release s f).frames,(Frees.release s f).locals⟩

structure Coroutines.Kept (s : Coroutines V) : Prop where
  ledger : s.Ledger
  audit : ∃ a : Audit V, a.coro = s ∧ a.Valued

theorem Coroutines.Kept.step {e : Event V} (h : s.Kept) (he : s.step e = some t) : t.Kept := by
  obtain ⟨a,rfl,ha⟩ := h.audit
  have hstep : a.step e = some (a.record e t) := by rw [Audit.step,he,Option.map_some]
  exact ⟨(step_took he).ledger h.ledger,_,rfl,ha.step h.ledger hstep⟩

theorem Coroutines.Kept.clear (h : s.Kept) :
    s.Clear s.destroyed.toFinset s.deleted.toFinset := by
  obtain ⟨a,rfl,b,stack,hcoro,_,hb⟩ := h.audit
  have hthreads := hb.threads
  have hshared := hb.vars.shared
  have hown := hb.vars.own
  have hpast := hb.vars.past
  rw [hcoro] at hthreads hshared hown hpast
  have hstacks : a.coro.Stacks stack :=
    ⟨hthreads.threaded,hthreads.calls,hthreads.leaf,hthreads.active,hthreads.idle,hthreads.kept,
      hthreads.single,hthreads.handed⟩
  refine hstacks.clear h.ledger (fun f v hf hv => ?_) (fun hin => Nat.lt_irrefl _ (hpast _ hin))
  obtain ⟨r,hr⟩ := (hstacks.active f).mp (by simp [hf])
  exact (hown r v (List.ne_nil_of_mem hr) ((hshared r f hr).symm.trans hv)).2.1

theorem Coroutines.Kept.run (h : s.Kept) (hd : D ⊆ s.destroyed.toFinset)
    (he : E ⊆ s.deleted.toFinset) (es : List (Event V)) :
    Transition.run Coroutines.step (fun _ _ => true) (s.overwrite D E litter) es =
      (Transition.run Coroutines.step (fun _ _ => true) s es).map
        (Coroutines.overwrite D E litter) := by
  induction es generalizing s with
  | nil => rfl
  | cons e es ih =>
    simp only [Transition.run,if_true]
    rw [(h.clear.mono hd he).step e]
    cases hs : s.step e with
    | none => rfl
    | some t =>
      obtain ⟨hdead,hdel⟩ := (step_acts hs).frees
      refine ih (h.step hs) (fun f hf => ?_) (fun v hv => ?_)
      · exact List.mem_toFinset.mpr (hdead (List.mem_toFinset.mp (hd hf)))
      · exact List.mem_toFinset.mpr (hdel (List.mem_toFinset.mp (he hv)))

/-- No use after free: whatever is written over the frames that have been destroyed and the
local variables that have been deleted, the rest of the run takes the same course, and leaves
what was written alone. -/
theorem freed_never_used (s : Coroutines V)
    (h : Transition.Reaches Coroutines.step (fun _ _ => true) .start s) (litter : Litter V)
    (es : List (Event V)) :
    Transition.run Coroutines.step (fun _ _ => true)
        (s.overwrite s.destroyed.toFinset s.deleted.toFinset litter) es =
      (Transition.run Coroutines.step (fun _ _ => true) s es).map
        (Coroutines.overwrite s.destroyed.toFinset s.deleted.toFinset litter) := by
  have hkept : s.Kept := h.invariant (I := Coroutines.Kept) (fun _ _ _ hi _ he => hi.step he)
    ⟨Coroutines.start_ledger,.start,rfl,Audit.start_valued⟩
  exact hkept.run (fun _ hf => hf) (fun _ hv => hv) es

def scribble : Litter Int := ⟨fun _ => .new 7,fun _ => some 9,fun _ => some ⟨0,none⟩⟩

def resumedNext : List (Event Int) := [.create,.resume 1,.finish 1 (some 8),.release 1]

theorem resumedOne_scribbled : ∃ s : Coroutines Int, s.destroyed = [0] ∧ s.deleted = [0] ∧
    Transition.run Coroutines.step (fun _ _ => true)
        (s.overwrite s.destroyed.toFinset s.deleted.toFinset scribble) resumedNext =
      (Transition.run Coroutines.step (fun _ _ => true) s resumedNext).map
        (Coroutines.overwrite s.destroyed.toFinset s.deleted.toFinset scribble) := by
  have hrun : (Transition.run Coroutines.step (fun _ _ => true) .start resumedOne).map
      (fun s => (s.destroyed,s.deleted)) = some ([0],[0]) := by decide
  obtain ⟨s,hs,heq⟩ := Option.map_eq_some_iff.mp hrun
  simp only [Prod.mk.injEq] at heq
  exact ⟨s,heq.1,heq.2,freed_never_used s (Transition.reaches_of_run hs) scribble resumedNext⟩

end

end NewRpc.Task
