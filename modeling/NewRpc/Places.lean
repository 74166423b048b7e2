import NewRpc.FrameWork

/-!
The places where the framework keeps coroutine frames, what they say about a frame, and what
a step makes of them.
-/

set_option autoImplicit false

namespace NewRpc.FrameWork
open NewRpc.Task Time

inductive Place where
  | committing
  | queue
  | worker (w : Nat) (phase : Phase)
  | timer (bucket : Option Nat)
  | waiting (coroId : Nat)
  | needAwak
  deriving DecidableEq

section
variable {V : Type}

/-- `timer none` has the frames that a scan has taken out of its bucket. -/
def CoroFrameWork.held (s : CoroFrameWork V) : Place → List Nat
  | .committing => s.committing
  | .queue => s.coroutineQueue
  | .worker w phase => (s.workers w).held phase
  | .timer bucket => s.timer.held bucket
  | .waiting coroId => (s.waitingCoros coroId).toList
  | .needAwak => s.needAwak.toList

end

/-- Control is in the frame, or would be if it were resumed: it is the leaf of its chain. -/
def onTop : Stage → Bool
  | .committed => true
  | .running => true
  | .suspended => true
  | .queued => true
  | .back _ => true
  | .ending => true
  | _ => false

def Ready (stage : Stage) (sleep : Sleep) : Prop :=
  (stage = .committed ∧ sleep = .awake) ∨
    (stage = .queued ∧ (sleep = .awake ∨ sleep = .committed))

def Phase.Fits : Phase → Stage → Sleep → Prop
  | .fetched, stage, sleep => Ready stage sleep
  | .resumed, stage, sleep => stage = .running ∧ sleep = .awake
  | .returned, stage, sleep => (∃ t, stage = .back t) ∧ sleep = .awake
  | .ending, stage, sleep => stage = .ending ∧ sleep = .awake
  | .coSuspend, stage, sleep => stage = .suspended ∧ sleep = .awake
  | .coSleep _, stage, sleep => stage = .suspended ∧ sleep = .awake
  | .registering, stage, sleep => stage = .suspended ∧ ∃ idx, sleep = .entered idx
  | .missAwaken, stage, sleep => stage = .suspended ∧ sleep = .missAwaken
  | .coRpc, stage, sleep => stage = .suspended ∧ sleep = .awake

def Place.Fits : Place → Stage → Sleep → Prop
  | .committing, stage, sleep => stage = .committed ∧ sleep = .awake
  | .queue, stage, sleep => Ready stage sleep
  | .worker _ phase, stage, sleep => phase.Fits stage sleep
  | .timer _, stage, sleep => stage = .suspended ∧ ∃ idx, sleep = .asleep idx
  | .waiting _, stage, sleep => stage = .suspended ∧ sleep = .awake
  | .needAwak, stage, sleep => stage = .suspended ∧ sleep = .awake

/-- The leaves are in one place each, which fits their stage. -/
structure Placed (held : Place → List Nat) (stage : Nat → Stage) (sleep : Nat → Sleep) :
    Prop where
  places : Custody.Exclusive held (fun f => onTop (stage f) = true)
  fits : ∀ p, ∀ f ∈ held p, p.Fits (stage f) (sleep f)
  awake : ∀ f, onTop (stage f) = false → sleep f = .awake

section
variable {held : Place → List Nat} {stage : Nat → Stage} {sleep : Nat → Sleep}

theorem onTop_update {f : Nat} {σ : Stage} (h : onTop σ = onTop (stage f)) (g : Nat) :
    onTop (Function.update stage f σ g) = onTop (stage g) := by
  by_cases hg : g = f
  · rw [hg,Function.update_self,h]
  · rw [Function.update_of_ne hg]

/-- A frame that is taken out of its place is nowhere. -/
theorem Placed.gone (h : Placed held stage sleep) {f : Nat} {p : Place} {rest : List Nat}
    (hp : (held p).Perm (f :: rest)) (q : Place) : f ∉ Function.update held p rest q := by
  have hin : f ∈ held p := hp.mem_iff.mpr (by simp)
  by_cases hq : q = p
  · rw [hq,Function.update_self]
    have hnod := hp.nodup_iff.mp (h.places.once p)
    exact (List.nodup_cons.mp hnod).1
  · rw [Function.update_of_ne hq]
    exact h.places.elsewhere hin hq

theorem mem_rest {f g : Nat} {p q : Place} {rest : List Nat} (hp : (held p).Perm (f :: rest))
    (hg : g ∈ Function.update held p rest q) : g ∈ held q := by
  by_cases hq : q = p
  · rw [hq,Function.update_self] at hg
    rw [hq]
    exact hp.mem_iff.mpr (List.mem_cons_of_mem f hg)
  · rw [Function.update_of_ne hq] at hg
    exact hg

theorem Placed.leave (h : Placed held stage sleep) {f : Nat} {p : Place} {rest : List Nat}
    {σ : Stage} (hp : (held p).Perm (f :: rest)) (hσ : onTop σ = false)
    (hsleep : sleep f = .awake) :
    Placed (Function.update held p rest) (Function.update stage f σ) sleep := by
  have hin : f ∈ held p := hp.mem_iff.mpr (by simp)
  have hgone := h.gone hp
  refine ⟨h.places.remove hin ?_ (fun r hr => Function.update_of_ne hr _ _) (fun g => ?_),?_,?_⟩
  · rw [Function.update_self]
    have herase := hp.erase f
    rw [List.erase_cons_head] at herase
    exact herase.symm
  · by_cases hg : g = f
    · simp [hg,hσ]
    · simp [hg]
  · intro q g hg
    have hgf : g ≠ f := fun heq => hgone q (heq ▸ hg)
    rw [Function.update_of_ne hgf]
    exact h.fits q g (mem_rest hp hg)
  · intro g hg
    by_cases hgf : g = f
    · rw [hgf]
      exact hsleep
    · rw [Function.update_of_ne hgf] at hg
      exact h.awake g hg

theorem Placed.enter (h : Placed held stage sleep) {f : Nat} {q : Place} {σ : Stage}
    (hf : onTop (stage f) = false) (hσ : onTop σ = true) (hfit : q.Fits σ (sleep f)) :
    Placed (Function.update held q (held q ++ [f])) (Function.update stage f σ) sleep := by
  refine ⟨h.places.insert (x := f) (q := q) (by simp [hf]) ?_
    (fun r hr => Function.update_of_ne hr _ _) (fun g => ?_),?_,?_⟩
  · rw [Function.update_self]
  · by_cases hg : g = f
    · simp [hg,hσ]
    · simp [hg]
  · intro r g hg
    by_cases hgf : g = f
    · have hrq : r = q := by
        by_contra hr
        rw [Function.update_of_ne hr] at hg
        have hlive := h.places.live r g hg
        simp [hgf,hf] at hlive
      rw [hgf,hrq,Function.update_self]
      exact hfit
    · rw [Function.update_of_ne hgf]
      refine h.fits r g ?_
      by_cases hr : r = q
      · rw [hr,Function.update_self] at hg
        rw [hr]
        simpa [hgf] using hg
      · rw [Function.update_of_ne hr] at hg
        exact hg
  · intro g hg
    by_cases hgf : g = f
    · simp [hgf,hσ] at hg
    · rw [Function.update_of_ne hgf] at hg
      exact h.awake g hg

theorem Placed.move (h : Placed held stage sleep) {f : Nat} {p q : Place} {rest : List Nat}
    {σ : Stage} {τ : Sleep} (hp : (held p).Perm (f :: rest)) (hpq : p ≠ q)
    (hσ : onTop σ = true) (hfit : q.Fits σ τ) :
    Placed (Function.update (Function.update held p rest) q (held q ++ [f]))
      (Function.update stage f σ) (Function.update sleep f τ) := by
  have hin : f ∈ held p := hp.mem_iff.mpr (by simp)
  have hlive := h.places.live p f hin
  have hgone := h.gone hp
  have hnew : ∀ r g, g ∈ Function.update (Function.update held p rest) q (held q ++ [f]) r →
      (g = f ∧ r = q) ∨ (g ≠ f ∧ g ∈ held r) := by
    intro r g hg
    by_cases hr : r = q
    · rw [hr,Function.update_self] at hg
      by_cases hgf : g = f
      · exact .inl ⟨hgf,hr⟩
      · refine .inr ⟨hgf,?_⟩
        rw [hr]
        simpa [hgf] using hg
    · rw [Function.update_of_ne hr] at hg
      exact .inr ⟨fun heq => hgone r (heq ▸ hg),mem_rest hp hg⟩
  refine ⟨h.places.move hin hpq ?_ ?_ (fun r hrp hrq => ?_) (fun g => ?_),?_,?_⟩
  · rw [Function.update_of_ne hpq,Function.update_self]
    have herase := hp.erase f
    rw [List.erase_cons_head] at herase
    exact herase.symm
  · rw [Function.update_self]
  · rw [Function.update_of_ne hrq,Function.update_of_ne hrp]
  · rw [onTop_update (hσ.trans hlive.symm)]
  · intro r g hg
    rcases hnew r g hg with ⟨hgf,hr⟩ | ⟨hgf,hold⟩
    · rw [hgf,hr,Function.update_self,Function.update_self]
      exact hfit
    · rw [Function.update_of_ne hgf,Function.update_of_ne hgf]
      exact h.fits r g hold
  · intro g hg
    rw [onTop_update (hσ.trans hlive.symm)] at hg
    have hgf : g ≠ f := by
      intro heq
      rw [heq,hlive] at hg
      cases hg
    rw [Function.update_of_ne hgf]
    exact h.awake g hg

theorem Placed.off (h : Placed held stage sleep) {f : Nat} {σ : Stage}
    (hf : onTop (stage f) = false) (hσ : onTop σ = false) :
    Placed held (Function.update stage f σ) sleep := by
  have hsame : ∀ g, onTop (Function.update stage f σ g) = onTop (stage g) :=
    onTop_update (hσ.trans hf.symm)
  refine ⟨h.places.perm (fun _ => .refl _) (fun g => by rw [hsame]),?_,?_⟩
  · intro p g hg
    have hgf : g ≠ f := by
      intro heq
      have hlive := h.places.live p g hg
      rw [heq,hf] at hlive
      cases hlive
    rw [Function.update_of_ne hgf]
    exact h.fits p g hg
  · intro g hg
    rw [hsame] at hg
    exact h.awake g hg

theorem Placed.pass (h : Placed held stage sleep) {f : Nat} {p q : Place} {rest : List Nat}
    {σ : Stage} (hp : (held p).Perm (f :: rest)) (hpq : p ≠ q) (hσ : onTop σ = true)
    (hfit : q.Fits σ (sleep f)) :
    Placed (Function.update (Function.update held p rest) q (held q ++ [f]))
      (Function.update stage f σ) sleep := by
  have hmove := h.move hp hpq hσ hfit
  rw [Function.update_eq_self] at hmove
  exact hmove

/-- A scan takes some of the frames in a bucket. -/
theorem Placed.scan (h : Placed held stage sleep) {idx : Nat} (hempty : held (.timer none) = [])
    (due : Nat → Bool) :
    Placed (Function.update (Function.update held (.timer (some idx))
      ((held (.timer (some idx))).filter (fun f => !due f))) (.timer none)
        ((held (.timer (some idx))).filter due)) stage sleep := by
  have hne : Place.timer (some idx) ≠ .timer none := by simp
  refine ⟨h.places.part (p := .timer (some idx)) (q := .timer none) hempty due ?_ ?_
    (fun r hp hq => ?_) (fun _ => Iff.rfl),fun r f hf => ?_,h.awake⟩
  · rw [Function.update_of_ne hne,Function.update_self]
  · rw [Function.update_self]
  · rw [Function.update_of_ne hq,Function.update_of_ne hp]
  · by_cases hq : r = .timer none
    · rw [hq,Function.update_self] at hf
      rw [hq]
      exact h.fits (.timer (some idx)) f (List.mem_filter.mp hf).1
    · rw [Function.update_of_ne hq] at hf
      by_cases hp : r = .timer (some idx)
      · rw [hp,Function.update_self] at hf
        rw [hp]
        exact h.fits (.timer (some idx)) f (List.mem_filter.mp hf).1
      · rw [Function.update_of_ne hp] at hf
        exact h.fits r f hf

end

def waits : Stage → Bool
  | .committed => true
  | .suspended => true
  | .queued => true
  | _ => false

def Counted (resumptions suspensions : List Nat) (stage : Nat → Stage) : Prop :=
  ∀ f, resumptions.count f + (if waits (stage f) then 1 else 0) = suspensions.count f

section
variable {resumptions suspensions : List Nat} {stage : Nat → Stage}

theorem Counted.keep (h : Counted resumptions suspensions stage) {f : Nat} {σ : Stage}
    (hσ : waits σ = waits (stage f)) :
    Counted resumptions suspensions (Function.update stage f σ) := by
  intro g
  by_cases hg : g = f
  · rw [hg,Function.update_self,hσ]
    exact h f
  · rw [Function.update_of_ne hg]
    exact h g

theorem Counted.suspend (h : Counted resumptions suspensions stage) {f : Nat} {σ : Stage}
    (hf : waits (stage f) = false) (hσ : waits σ = true) :
    Counted resumptions (suspensions ++ [f]) (Function.update stage f σ) := by
  intro g
  have hold := h g
  by_cases hg : g = f
  · subst hg
    simp only [hf,Bool.false_eq_true,if_false] at hold
    simp [hσ,← hold]
  · rw [Function.update_of_ne hg,List.count_append,List.count_singleton,hold]
    simp [Ne.symm hg]

theorem Counted.resume (h : Counted resumptions suspensions stage) {f : Nat} {σ : Stage}
    (hf : waits (stage f) = true) (hσ : waits σ = false) :
    Counted (resumptions ++ [f]) suspensions (Function.update stage f σ) := by
  intro g
  have hold := h g
  by_cases hg : g = f
  · subst hg
    simp only [hf,if_true] at hold
    simp [hσ,← hold]
  · rw [Function.update_of_ne hg,List.count_append,List.count_singleton,← hold]
    simp [Ne.symm hg]

theorem Counted.le (h : Counted resumptions suspensions stage) (f : Nat) :
    resumptions.count f ≤ suspensions.count f := by
  rw [← h f]
  exact Nat.le_add_right _ _

end

section
variable {V : Type} {s : CoroFrameWork V}

theorem held_worker {w f : Nat} {phase : Phase} (hw : s.workers w = .busy phase f) :
    s.held (.worker w phase) = [f] := by
  simp [CoroFrameWork.held,Worker.held,hw]

theorem held_setWorker {w : Nat} {phase : Phase} {worker : Worker}
    (h : ∀ phase', phase' ≠ phase → worker.held phase' = (s.workers w).held phase') :
    (s.setWorker w worker).held =
      Function.update s.held (.worker w phase) (worker.held phase) := by
  funext p
  cases p with
  | worker v phase' =>
    by_cases hv : v = w
    · subst hv
      by_cases hp : phase' = phase
      · subst hp
        simp [CoroFrameWork.held,CoroFrameWork.setWorker]
      · have hne : Place.worker v phase' ≠ .worker v phase := by simp [hp]
        rw [Function.update_of_ne hne]
        simp [CoroFrameWork.held,CoroFrameWork.setWorker,h phase' hp]
    · have hne : Place.worker v phase' ≠ .worker w phase := by simp [hv]
      rw [Function.update_of_ne hne]
      simp [CoroFrameWork.held,CoroFrameWork.setWorker,hv]
  | _ => rfl

theorem held_free {w f : Nat} {phase : Phase} (hw : s.workers w = .busy phase f) :
    (s.setWorker w .looping).held = Function.update s.held (.worker w phase) [] := by
  refine held_setWorker fun phase' hp => ?_
  simp [Worker.held,hw,Ne.symm hp]

theorem held_busy {w f : Nat} {phase : Phase} (hw : s.workers w = .looping) :
    (s.setWorker w (.busy phase f)).held =
      Function.update s.held (.worker w phase) (s.held (.worker w phase) ++ [f]) := by
  have hself : s.held (.worker w phase) ++ [f] = (Worker.busy phase f).held phase := by
    simp [CoroFrameWork.held,Worker.held,hw]
  rw [hself]
  refine held_setWorker fun phase' hp => ?_
  simp [Worker.held,hw,Ne.symm hp]

/-- A worker lets a frame go and has another one, or the same in another phase. -/
theorem held_next {w f g : Nat} {phase phase' : Phase} (hw : s.workers w = .busy phase f) :
    (s.setWorker w (.busy phase' g)).held =
      Function.update (Function.update s.held (.worker w phase) []) (.worker w phase')
        (Function.update s.held (.worker w phase) [] (.worker w phase') ++ [g]) := by
  have htwice : s.setWorker w (.busy phase' g) =
      (s.setWorker w .looping).setWorker w (.busy phase' g) := by
    simp [CoroFrameWork.setWorker]
  have hloop : (s.setWorker w .looping).workers w = .looping := Function.update_self ..
  rw [htwice,held_busy hloop,held_free hw]

theorem held_advance {w f : Nat} {phase phase' : Phase} (hw : s.workers w = .busy phase f)
    (hne : phase ≠ phase') : (s.setWorker w (.busy phase' f)).held =
      Function.update (Function.update s.held (.worker w phase) []) (.worker w phase')
        (s.held (.worker w phase') ++ [f]) := by
  have hplace : Place.worker w phase' ≠ .worker w phase := by simp [Ne.symm hne]
  rw [held_next hw,Function.update_of_ne hplace]

theorem held_queue (s : CoroFrameWork V) (q : List Nat) :
    { s with coroutineQueue := q }.held = Function.update s.held .queue q := by
  funext p
  cases p <;> rfl

theorem held_committing (s : CoroFrameWork V) (l : List Nat) :
    { s with committing := l }.held = Function.update s.held .committing l := by
  funext p
  cases p <;> rfl

theorem held_needAwak (s : CoroFrameWork V) (f : Option Nat) :
    { s with needAwak := f }.held = Function.update s.held .needAwak f.toList := by
  funext p
  cases p <;> rfl

theorem held_waiting (s : CoroFrameWork V) (v : Nat) (f : Option Nat) :
    { s with waitingCoros := Function.update s.waitingCoros v f }.held =
      Function.update s.held (.waiting v) f.toList := by
  funext p
  cases p with
  | waiting u =>
    by_cases hu : u = v
    · subst hu
      simp [CoroFrameWork.held]
    · have hne : Place.waiting u ≠ .waiting v := by simp [hu]
      rw [Function.update_of_ne hne]
      simp [CoroFrameWork.held,hu]
  | _ => rfl

theorem held_timer {timer : ListThread} (h : timer.held = s.timer.held) :
    { s with timer := timer }.held = s.held := by
  funext p
  cases p with
  | timer o => exact congrFun h o
  | _ => rfl

theorem timer_injective : Function.Injective Place.timer := fun _ _ h => Place.timer.inj h

theorem held_bucket {timer : ListThread} {o : Option Nat} {l : List Nat}
    (h : timer.held = Function.update s.timer.held o l) :
    { s with timer := timer }.held = Function.update s.held (.timer o) l := by
  funext p
  cases p with
  | timer i =>
    show timer.held i = (Function.update s.held (.timer o) l ∘ Place.timer) i
    rw [h,Function.update_comp_eq_of_injective _ timer_injective]
    rfl
  | _ => rfl

theorem held_buckets {timer : ListThread} {o o' : Option Nat} {l l' : List Nat}
    (h : timer.held = Function.update (Function.update s.timer.held o l) o' l') :
    { s with timer := timer }.held =
      Function.update (Function.update s.held (.timer o) l) (.timer o') l' := by
  funext p
  cases p with
  | timer i =>
    show timer.held i =
      (Function.update (Function.update s.held (.timer o) l) (.timer o') l' ∘ Place.timer) i
    rw [h,Function.update_comp_eq_of_injective _ timer_injective,
      Function.update_comp_eq_of_injective _ timer_injective]
    rfl
  | _ => rfl

theorem linked_false {f : Nat} (h : ∀ p, f ∉ s.held p) : s.linked f = false := by
  have hqueue := h .queue
  have hready := fun w => h (.worker w .fetched)
  have hbucket := fun idx => h (.timer (some idx))
  have htaken := h (.timer none)
  simp only [CoroFrameWork.held,TimeThread.held] at hqueue hready hbucket htaken
  simp [CoroFrameWork.linked,hqueue,hready,hbucket,htaken]

end

end NewRpc.FrameWork
