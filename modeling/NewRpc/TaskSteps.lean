import NewRpc.Task

/-!
What a step of the coroutines needs and what it leaves: one lemma that inverts the step,
and what the operations do to the links between the frames, the stages and the tasks.
-/

set_option autoImplicit false

namespace NewRpc.Task
open Net

def Coroutines.called {V : Type} (s : Coroutines V) (frames : Frames) (f t child : Nat) :
    Coroutines V :=
  (({ s with frames := frames }.setFrame child
    { frames child with coroLocalVar := (frames f).coroLocalVar }).move t
      (.middle child)).setStage f (.awaiting s.tasks.length)

def Coroutines.returning {V : Type} (s : Coroutines V) (f : Nat) (result : Option V) :
    Coroutines V :=
  { s with result := Function.update s.result f result }

def Coroutines.complete {V : Type} (s : Coroutines V) (f : Nat) : Coroutines V :=
  (((s.countDown f).report f).deleteLocal f).setStage f .ending

def Coroutines.giveBack {V : Type} (s : Coroutines V) (frames : Frames) (f caller t : Nat) :
    Coroutines V :=
  ({ s with frames := frames }.setStage f .returned).setStage caller (.back t)

inductive Coroutines.Acts {V : Type} (s : Coroutines V) : Event V → Coroutines V → Prop
  | create : s.Acts .create s.create
  | copy {t f : Nat} (ht : s.tasks[t]? = some (.handle (some f))) : s.Acts (.copy t) (s.copy f)
  | move {t : Nat} {promise : Option Nat} (ht : s.tasks[t]? = some (.handle promise)) :
      s.Acts (.move t) (s.move t (.handle promise))
  | drop {t : Nat} {promise : Option Nat} (ht : s.tasks[t]? = some (.handle promise)) :
      s.Acts (.drop t) (s.drop t promise)
  | request {t f : Nat} {info : ResponseInfo} (ht : s.tasks[t]? = some (.handle (some f)))
      (hf : s.stage f = .fresh) (hvar : (s.frames f).coroLocalVar = none) :
      s.Acts (.request t info) (s.newLocal f (some info))
  | refused {t : Nat} (hstop : s.stopFlag = true) : s.Acts (.commit t) s
  | commit {t f : Nat} (ht : s.tasks[t]? = some (.handle (some f))) (hf : s.stage f = .fresh)
      (hstop : s.stopFlag = false) : s.Acts (.commit t) (s.commit f)
  | stop : s.Acts .stop { s with stopFlag := true }
  | resume {t f : Nat} (ht : s.tasks[t]? = some (.handle (some f))) (hf : s.stage f = .fresh) :
      s.Acts (.resume t) (s.begin f)
  | start {f : Nat} (hf : s.stage f = .committed) : s.Acts (.start f) (s.begin f)
  | suspend {f : Nat} (hf : s.stage f = .running) : s.Acts (.suspend f) (s.setStage f .suspended)
  | wake {f : Nat} (hf : s.stage f = .suspended) : s.Acts (.wake f) (s.setStage f .queued)
  | run {f : Nat} (hf : s.stage f = .queued) : s.Acts (.run f) (s.setStage f .running)
  | await {f t child : Nat} {frames : Frames} (hf : s.stage f = .running)
      (ht : s.tasks[t]? = some (.handle (some child))) (hc : s.stage child = .fresh)
      (hlink : linkNext s.frames f child = some frames) :
      s.Acts (.await f t) ((s.called frames f t child).begin child)
  | back {f t child : Nat} (hf : s.stage f = .back t) (ht : s.tasks[t]? = some (.middle child)) :
      s.Acts (.back f) ((s.drop t (some child)).setStage f .running)
  | complete {f : Nat} {result : Option V} (hf : s.stage f = .running)
      (hroot : (s.frames f).empty f = true) :
      s.Acts (.finish f result) ((s.returning f result).complete f)
  | giveBack {f caller t : Nat} {result : Option V} {frames : Frames} (hf : s.stage f = .running)
      (hroot : (s.frames f).empty f = false) (hprev : (s.frames f).prev = some caller)
      (hc : s.stage caller = .awaiting t) (hunlink : removeSelf s.frames f = some frames) :
      s.Acts (.finish f result) ((s.returning f result).giveBack frames f caller t)
  | release {f : Nat} (hf : s.stage f = .ending) :
      s.Acts (.release f) ((s.release f).setStage f .done)

theorem Coroutines.startable_some {V : Type} {s : Coroutines V} {t f : Nat}
    (h : s.startable t = some f) : s.tasks[t]? = some (.handle (some f)) ∧ s.stage f = .fresh := by
  unfold startable at h
  split at h
  · rename_i g ht
    obtain ⟨hg,heq⟩ := Option.ite_none_right_eq_some.mp h
    cases heq
    exact ⟨ht,hg⟩
  · cases h

theorem Coroutines.finalSuspend_acts {V : Type} {s u : Coroutines V} {f : Nat}
    {result : Option V} (hf : s.stage f = .running)
    (h : (s.returning f result).finalSuspend f = some u) : s.Acts (.finish f result) u := by
  unfold Coroutines.finalSuspend at h
  split at h
  · rename_i hroot
    cases h
    exact .complete hf hroot
  · rename_i hroot
    split at h
    · cases h
    · rename_i caller hprev
      split at h
      · rename_i t frames hc hunlink
        cases h
        exact .giveBack hf (Bool.eq_false_iff.mpr hroot) hprev hc hunlink
      · cases h

theorem Coroutines.step_acts {V : Type} {s u : Coroutines V} {e : Event V}
    (h : s.step e = some u) : s.Acts e u := by
  cases e with
  | create =>
    cases h
    exact .create
  | copy t =>
    simp only [step] at h
    split at h
    · rename_i f ht
      cases h
      exact .copy ht
    · cases h
  | move t =>
    simp only [step] at h
    split at h
    · rename_i promise ht
      cases h
      exact .move ht
    · cases h
  | drop t =>
    simp only [step] at h
    split at h
    · rename_i promise ht
      cases h
      exact .drop ht
    · cases h
  | request t info =>
    simp only [step] at h
    split at h
    · rename_i f hstart
      obtain ⟨hvar,heq⟩ := Option.ite_none_right_eq_some.mp h
      obtain ⟨ht,hf⟩ := startable_some hstart
      cases heq
      exact .request ht hf (Option.isNone_iff_eq_none.mp hvar)
    · cases h
  | commit t =>
    obtain ⟨f,hstart,heq⟩ := Option.map_eq_some_iff.mp h
    obtain ⟨ht,hf⟩ := startable_some hstart
    subst heq
    cases hstop : s.stopFlag with
    | true =>
      have hstay : s.commit f = s := by simp [Coroutines.commit,hstop]
      rw [hstay]
      exact .refused hstop
    | false => exact .commit ht hf hstop
  | stop =>
    cases h
    exact .stop
  | resume t =>
    obtain ⟨f,hstart,heq⟩ := Option.map_eq_some_iff.mp h
    obtain ⟨ht,hf⟩ := startable_some hstart
    subst heq
    exact .resume ht hf
  | start f =>
    obtain ⟨hf,heq⟩ := Option.ite_none_right_eq_some.mp h
    cases heq
    exact .start hf
  | suspend f =>
    obtain ⟨hf,heq⟩ := Option.ite_none_right_eq_some.mp h
    cases heq
    exact .suspend hf
  | wake f =>
    obtain ⟨hf,heq⟩ := Option.ite_none_right_eq_some.mp h
    cases heq
    exact .wake hf
  | run f =>
    obtain ⟨hf,heq⟩ := Option.ite_none_right_eq_some.mp h
    cases heq
    exact .run hf
  | await f t =>
    simp only [step] at h
    split at h
    · rename_i child hstart
      obtain ⟨hf,heq⟩ := Option.ite_none_right_eq_some.mp h
      obtain ⟨ht,hc⟩ := startable_some hstart
      unfold Coroutines.await at heq
      split at heq
      · cases heq
      · rename_i frames hlink
        cases heq
        exact .await hf ht hc hlink
    · cases h
  | back f =>
    simp only [step] at h
    split at h
    · rename_i t hf
      split at h
      · rename_i child ht
        cases h
        exact .back hf ht
      · cases h
    · cases h
  | finish f result =>
    obtain ⟨hf,heq⟩ := Option.ite_none_right_eq_some.mp h
    exact finalSuspend_acts hf heq
  | release f =>
    obtain ⟨hf,heq⟩ := Option.ite_none_right_eq_some.mp h
    cases heq
    exact .release hf

theorem linkNext_some {frames : Frames} {a r : Nat} (hr : (frames a).next = some r) (c : Nat)
    (hca : c ≠ a) (hrc : r ≠ c) : ∃ frames', linkNext frames a c = some frames' ∧
      ∀ x, frames' x = { frames x with
        next := if x = c then some r else if x = a then some c else (frames x).next
        prev := if x = r then some c else if x = c then some a else (frames x).prev } := by
  unfold linkNext
  rw [hr]
  refine ⟨_,rfl,fun x => ?_⟩
  by_cases hxc : x = c
  · subst hxc
    simp [setPrev,setNext,Ne.symm hrc,hca]
  · by_cases hxr : x = r
    · subst hxr
      by_cases hxa : x = a
      · subst hxa
        simp [setPrev,setNext,hxc]
      · simp [setPrev,setNext,hxc,hxa]
    · by_cases hxa : x = a
      · subst hxa
        simp [setPrev,setNext,hxc,hxr]
      · simp [setPrev,setNext,hxc,hxr,hxa]

theorem removeSelf_some {frames : Frames} {c a r : Nat} (hp : (frames c).prev = some a)
    (hn : (frames c).next = some r) (hac : a ≠ c) (hrc : r ≠ c) :
    ∃ frames', removeSelf frames c = some frames' ∧ ∀ x, frames' x = { frames x with
        next := if x = c then none else if x = a then some r else (frames x).next
        prev := if x = c then none else if x = r then some a else (frames x).prev } := by
  have hne : (frames c).empty c = false := by simp [LinkedCoroutine.empty,hp,hac]
  unfold removeSelf
  rw [hne,hp,hn]
  refine ⟨_,rfl,fun x => ?_⟩
  by_cases hxc : x = c
  · subst hxc
    simp [setPrev,setNext,Ne.symm hac,Ne.symm hrc]
  · by_cases hxr : x = r
    · subst hxr
      by_cases hxa : x = a
      · subst hxa
        simp [setPrev,setNext,hxc]
      · simp [setPrev,setNext,hxc,hxa]
    · by_cases hxa : x = a
      · subst hxa
        simp [setPrev,setNext,hxc,hxr]
      · simp [setPrev,setNext,hxc,hxr,hxa]

def SameLinks (frames frames' : Frames) : Prop :=
  ∀ f, (frames' f).next = (frames f).next ∧ (frames' f).prev = (frames f).prev

theorem SameLinks.refl (frames : Frames) : SameLinks frames frames := fun _ => ⟨rfl,rfl⟩

theorem SameLinks.trans {F G H : Frames} (h : SameLinks F G) (h' : SameLinks G H) :
    SameLinks F H :=
  fun f => ⟨(h' f).1.trans (h f).1,(h' f).2.trans (h f).2⟩

theorem Coroutines.setFrame_links {V : Type} (s : Coroutines V) (f : Nat)
    (frame : LinkedCoroutine) (hn : frame.next = (s.frames f).next)
    (hp : frame.prev = (s.frames f).prev) : SameLinks s.frames (s.setFrame f frame).frames := by
  intro g
  by_cases hg : g = f
  · subst hg
    simp [setFrame,hn,hp]
  · simp [setFrame,hg]

theorem Coroutines.newLocal_links {V : Type} (s : Coroutines V) (f : Nat)
    (info : Option ResponseInfo) : SameLinks s.frames (s.newLocal f info).frames :=
  s.setFrame_links f { s.frames f with coroLocalVar := some s.nextId } rfl rfl

theorem Coroutines.begin_links {V : Type} (s : Coroutines V) (f : Nat) :
    SameLinks s.frames (s.begin f).frames := by
  unfold Coroutines.begin
  split
  · exact s.newLocal_links f none
  · exact .refl _

theorem Coroutines.release_links {V : Type} (s : Coroutines V) (f : Nat) :
    SameLinks s.frames (s.release f).frames :=
  s.setFrame_links f { s.frames f with refCnt := (s.frames f).refCnt.dec.2 } rfl rfl

theorem Coroutines.drop_links {V : Type} (s : Coroutines V) (t : Nat) (promise : Option Nat) :
    SameLinks s.frames (s.drop t promise).frames := by
  cases promise with
  | none => exact .refl _
  | some f => exact Coroutines.release_links { s with tasks := s.tasks.set t .gone } f

theorem Coroutines.commit_links {V : Type} (s : Coroutines V) (f : Nat) :
    SameLinks s.frames (s.commit f).frames := by
  unfold Coroutines.commit
  split
  · exact .refl _
  · have hinc := s.setFrame_links f { s.frames f with refCnt := (s.frames f).refCnt.inc } rfl rfl
    exact hinc.trans (Coroutines.setFrame_links { s.inc f with
      runningCoroCnt := s.runningCoroCnt + 1 } f _ rfl rfl)

theorem Coroutines.complete_links {V : Type} (s : Coroutines V) (f : Nat) :
    SameLinks s.frames (s.complete f).frames := by
  have hcount : SameLinks s.frames (s.countDown f).frames := by
    unfold Coroutines.countDown
    split <;> exact .refl _
  have hreport : SameLinks (s.countDown f).frames ((s.countDown f).report f).frames := by
    unfold Coroutines.report
    split
    · exact .refl _
    · exact .refl _
    · exact (s.countDown f).setFrame_links f _ rfl rfl
  refine (hcount.trans hreport).trans ?_
  show SameLinks _ (((s.countDown f).report f).deleteLocal f).frames
  unfold Coroutines.deleteLocal
  split
  · exact .refl _
  · exact ((s.countDown f).report f).setFrame_links f _ rfl rfl

theorem Coroutines.begin_stage {V : Type} (s : Coroutines V) (f : Nat) :
    (s.begin f).stage = Function.update s.stage f .running := by
  unfold Coroutines.begin
  split <;> rfl

theorem Coroutines.begin_tasks {V : Type} (s : Coroutines V) (f : Nat) :
    (s.begin f).tasks = s.tasks := by
  unfold Coroutines.begin
  split <;> rfl

theorem Coroutines.begin_result {V : Type} (s : Coroutines V) (f : Nat) :
    (s.begin f).result = s.result := by
  unfold Coroutines.begin
  split <;> rfl

theorem Coroutines.drop_stage {V : Type} (s : Coroutines V) (t : Nat) (promise : Option Nat) :
    (s.drop t promise).stage = s.stage := by
  cases promise <;> rfl

theorem Coroutines.drop_tasks {V : Type} (s : Coroutines V) (t : Nat) (promise : Option Nat) :
    (s.drop t promise).tasks = s.tasks.set t .gone := by
  cases promise <;> rfl

theorem Coroutines.drop_result {V : Type} (s : Coroutines V) (t : Nat) (promise : Option Nat) :
    (s.drop t promise).result = s.result := by
  cases promise <;> rfl

theorem Coroutines.commit_stage {V : Type} {s : Coroutines V} (hstop : s.stopFlag = false)
    (f : Nat) : (s.commit f).stage = Function.update s.stage f .committed := by
  simp [Coroutines.commit,hstop,setStage,setFrame,inc]

theorem Coroutines.commit_tasks {V : Type} (s : Coroutines V) (f : Nat) :
    (s.commit f).tasks = s.tasks := by
  unfold Coroutines.commit
  split <;> rfl

theorem Coroutines.commit_result {V : Type} (s : Coroutines V) (f : Nat) :
    (s.commit f).result = s.result := by
  unfold Coroutines.commit
  split <;> rfl

theorem Coroutines.complete_stage {V : Type} (s : Coroutines V) (f : Nat) :
    (s.complete f).stage = Function.update s.stage f .ending := by
  unfold Coroutines.complete Coroutines.deleteLocal Coroutines.report Coroutines.countDown
  split <;> split <;> split <;> rfl

theorem Coroutines.complete_births {V : Type} (s : Coroutines V) (f : Nat) :
    (s.complete f).count = s.count := by
  unfold Coroutines.complete Coroutines.deleteLocal Coroutines.report Coroutines.countDown
  split <;> split <;> split <;> rfl

theorem Coroutines.complete_tasks {V : Type} (s : Coroutines V) (f : Nat) :
    (s.complete f).tasks = s.tasks := by
  unfold Coroutines.complete Coroutines.deleteLocal Coroutines.report Coroutines.countDown
  split <;> split <;> split <;> rfl

theorem Coroutines.complete_result {V : Type} (s : Coroutines V) (f : Nat) :
    (s.complete f).result = s.result := by
  unfold Coroutines.complete Coroutines.deleteLocal Coroutines.report Coroutines.countDown
  split <;> split <;> split <;> rfl

theorem middle_set {tasks : List CoroTask} {t i c : Nat} {old new : CoroTask}
    (ht : tasks[t]? = some old) (hold : ∀ c, old ≠ .middle c)
    (hi : tasks[i]? = some (.middle c)) : (tasks.set t new)[i]? = some (.middle c) := by
  have hne : t ≠ i := by
    intro heq
    subst heq
    rw [ht] at hi
    exact hold c (Option.some.inj hi)
  rw [List.getElem?_set_ne hne]
  exact hi

theorem middle_append {tasks : List CoroTask} {i c : Nat} (new : CoroTask)
    (hi : tasks[i]? = some (.middle c)) : (tasks ++ [new])[i]? = some (.middle c) := by
  obtain ⟨hlt,_⟩ := List.getElem?_eq_some_iff.mp hi
  rw [List.getElem?_append_left hlt]
  exact hi

end NewRpc.Task
