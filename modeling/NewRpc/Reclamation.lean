import NewRpc.TaskSteps
import NewRpc.Transition

/-!
Who owns a coroutine frame, what its counter says, and when it is destroyed.
-/

set_option autoImplicit false

namespace NewRpc.Task
open Net

def Coroutines.handles {V : Type} (s : Coroutines V) (f : Nat) : Nat :=
  s.tasks.countP (CoroTask.pointsTo f)

def Coroutines.scheduled {V : Type} (s : Coroutines V) (f : Nat) : Nat :=
  if (s.frames f).frameRunningCnt = true ∧ s.stage f ≠ .done then 1 else 0

def Coroutines.owners {V : Type} (s : Coroutines V) (f : Nat) : Nat := s.handles f + s.scheduled f

def Coroutines.Reclaimed {V : Type} (s : Coroutines V) : Prop :=
  ∀ f < s.count, s.destroyed.count f = if s.owners f = 0 then 1 else 0

/-- The coroutine was resumed by its handle, never committed, and has ended without a caller. -/
def Coroutines.EndedAlone {V : Type} (s : Coroutines V) (f : Nat) : Prop :=
  s.stage f = .done ∧ (s.frames f).frameRunningCnt = false

instance {V : Type} (s : Coroutines V) (f : Nat) : Decidable (s.EndedAlone f) :=
  inferInstanceAs (Decidable (_ ∧ _))

def Coroutines.spares {V : Type} (s : Coroutines V) (f : Nat) : Bool :=
  decide (1 < s.owners f) || decide (s.EndedAlone f)

/-- A step takes no last owner, except from a coroutine that has ended alone. -/
def Coroutines.keepsOwner {V : Type} (s : Coroutines V) : Event V → Bool
  | .drop t => match s.tasks[t]? with
      | some (.handle (some f)) => s.spares f
      | _ => true
  | .back f => match s.stage f with
      | .back t => match s.tasks[t]? with
          | some (.middle child) => s.spares child
          | _ => true
      | _ => true
  | .release f => !(s.frames f).frameRunningCnt || s.spares f
  | _ => true

def Coroutines.Owned {V : Type} (s : Coroutines V) : Prop :=
  ∀ f < s.count, s.owners f = 0 → s.EndedAlone f

structure Coroutines.Balanced {V : Type} (s : Coroutines V) (f : Nat) : Prop where
  refCnt : (s.frames f).refCnt.sharedCnt = s.owners f - (if s.EndedAlone f then 1 else 0)
  destroyed : s.destroyed.count f = if s.owners f = 0 ∧ s.EndedAlone f then 1 else 0

structure Coroutines.Ledger {V : Type} (s : Coroutines V) : Prop where
  balanced : ∀ f < s.count, s.Balanced f
  handled : ∀ f, s.handles f ≠ 0 → f < s.count
  started : ∀ f, s.stage f ≠ .done → f < s.count
  dead : ∀ f ∈ s.destroyed, f < s.count
  fresh : ∀ f, s.stage f = .fresh → (s.frames f).frameRunningCnt = false

structure Coroutines.Same {V : Type} (s t : Coroutines V) : Prop where
  count : t.count = s.count
  handles : ∀ f, t.handles f = s.handles f
  refCnt : ∀ f, (t.frames f).refCnt = (s.frames f).refCnt
  frameRunningCnt : ∀ f, (t.frames f).frameRunningCnt = (s.frames f).frameRunningCnt
  done : ∀ f, t.stage f = .done ↔ s.stage f = .done
  fresh : ∀ f, t.stage f = .fresh → s.stage f = .fresh
  destroyed : t.destroyed = s.destroyed

theorem Coroutines.Same.refl {V : Type} (s : Coroutines V) : s.Same s :=
  ⟨rfl,fun _ => rfl,fun _ => rfl,fun _ => rfl,fun _ => Iff.rfl,fun _ h => h,rfl⟩

theorem Coroutines.Same.trans {V : Type} {s t u : Coroutines V} (h : s.Same t) (h' : t.Same u) :
    s.Same u :=
  ⟨h'.count.trans h.count,fun f => (h'.handles f).trans (h.handles f),
    fun f => (h'.refCnt f).trans (h.refCnt f),
    fun f => (h'.frameRunningCnt f).trans (h.frameRunningCnt f),
    fun f => (h'.done f).trans (h.done f),fun f hf => h.fresh f (h'.fresh f hf),
    h'.destroyed.trans h.destroyed⟩

theorem Coroutines.Same.endedAlone {V : Type} {s t : Coroutines V} (h : s.Same t) (f : Nat) :
    t.EndedAlone f ↔ s.EndedAlone f := by
  unfold EndedAlone
  rw [h.done,h.frameRunningCnt]

theorem Coroutines.Same.owners {V : Type} {s t : Coroutines V} (h : s.Same t) (f : Nat) :
    t.owners f = s.owners f := by
  unfold Coroutines.owners scheduled
  simp only [h.handles,h.frameRunningCnt,ne_eq,h.done]

theorem Coroutines.Ledger.of_same {V : Type} {s t : Coroutines V} (h : s.Ledger)
    (hsame : s.Same t) : t.Ledger := by
  refine ⟨?_,?_,?_,?_,?_⟩
  · intro f hf
    rw [hsame.count] at hf
    have hb := h.balanced f hf
    refine ⟨?_,?_⟩
    · simp only [hsame.refCnt,hsame.owners,hsame.endedAlone]
      exact hb.refCnt
    · simp only [hsame.destroyed,hsame.owners,hsame.endedAlone]
      exact hb.destroyed
  · intro f hf
    rw [hsame.handles] at hf
    rw [hsame.count]
    exact h.handled f hf
  · intro f hf
    rw [hsame.count]
    exact h.started f (fun hd => hf ((hsame.done f).mpr hd))
  · rw [hsame.destroyed,hsame.count]
    exact h.dead
  · intro f hf
    rw [hsame.frameRunningCnt]
    exact h.fresh f (hsame.fresh f hf)

theorem Coroutines.Ledger.reclaimed_iff {V : Type} {s : Coroutines V} (h : s.Ledger) :
    s.Reclaimed ↔ s.Owned := by
  refine forall₂_congr (fun f hf => ?_)
  rw [(h.balanced f hf).destroyed]
  by_cases ho : s.owners f = 0
  · by_cases he : s.EndedAlone f
    · simp [ho,he]
    · simp [ho,he]
  · simp [ho]

theorem Coroutines.Same.owned {V : Type} {s t : Coroutines V} (h : s.Same t) :
    t.Owned ↔ s.Owned := by
  unfold Owned
  simp only [h.count,h.owners,h.endedAlone]

def FramesSame (frames frames' : Frames) : Prop :=
  ∀ f, (frames' f).refCnt = (frames f).refCnt ∧
    (frames' f).frameRunningCnt = (frames f).frameRunningCnt

theorem FramesSame.trans {F G H : Frames} (h : FramesSame F G) (h' : FramesSame G H) :
    FramesSame F H :=
  fun f => ⟨(h' f).1.trans (h f).1,(h' f).2.trans (h f).2⟩

theorem update_frameRunningCnt (frames : Frames) (c : Nat) (frame : LinkedCoroutine)
    (hcnt : frame.frameRunningCnt = (frames c).frameRunningCnt) (f : Nat) :
    (Function.update frames c frame f).frameRunningCnt = (frames f).frameRunningCnt := by
  by_cases hf : f = c
  · subst hf
    rw [Function.update_self]
    exact hcnt
  · rw [Function.update_of_ne hf]

theorem FramesSame.update (frames : Frames) (c : Nat) (frame : LinkedCoroutine)
    (href : frame.refCnt = (frames c).refCnt)
    (hcnt : frame.frameRunningCnt = (frames c).frameRunningCnt) :
    FramesSame frames (Function.update frames c frame) := by
  intro f
  refine ⟨?_,update_frameRunningCnt frames c frame hcnt f⟩
  by_cases hf : f = c
  · subst hf
    rw [Function.update_self]
    exact href
  · rw [Function.update_of_ne hf]

theorem setPrev_same (frames : Frames) (f : Nat) (prev : Option Nat) :
    FramesSame frames (setPrev frames f prev) := .update frames f _ rfl rfl

theorem setNext_same (frames : Frames) (f : Nat) (next : Option Nat) :
    FramesSame frames (setNext frames f next) := .update frames f _ rfl rfl

theorem linkNext_same {frames frames' : Frames} {f c : Nat}
    (h : linkNext frames f c = some frames') : FramesSame frames frames' := by
  unfold linkNext at h
  split at h
  · cases h
  · cases h
    exact .trans (.trans (.trans (setNext_same _ _ _) (setNext_same _ _ _)) (setPrev_same _ _ _))
      (setPrev_same _ _ _)

theorem removeSelf_same {frames frames' : Frames} {f : Nat}
    (h : removeSelf frames f = some frames') : FramesSame frames frames' := by
  unfold removeSelf at h
  split at h
  · cases h
    exact fun _ => ⟨rfl,rfl⟩
  · split at h
    · cases h
      exact .trans (.trans (.trans (setNext_same _ _ _) (setPrev_same _ _ _)) (setNext_same _ _ _))
        (setPrev_same _ _ _)
    · cases h

theorem Coroutines.Same.frames {V : Type} (s : Coroutines V) {frames : Frames}
    (h : FramesSame s.frames frames) : s.Same { s with frames := frames } :=
  ⟨rfl,fun _ => rfl,fun f => (h f).1,fun f => (h f).2,fun _ => Iff.rfl,fun _ h => h,rfl⟩

theorem Coroutines.Same.setStage {V : Type} (s : Coroutines V) {f : Nat} {stage : Stage}
    (hold : s.stage f ≠ .done) (hdone : stage ≠ .done) (hfresh : stage ≠ .fresh) :
    s.Same (s.setStage f stage) := by
  refine ⟨rfl,fun _ => rfl,fun _ => rfl,fun _ => rfl,?_,?_,rfl⟩
  · intro g
    by_cases hg : g = f
    · subst hg
      simp [Coroutines.setStage,hold,hdone]
    · simp [Coroutines.setStage,Function.update_of_ne hg]
  · intro g hs
    by_cases hg : g = f
    · subst hg
      simp [Coroutines.setStage,hfresh] at hs
    · simpa [Coroutines.setStage,Function.update_of_ne hg] using hs

theorem Coroutines.Same.setFrame {V : Type} (s : Coroutines V) (f : Nat) (frame : LinkedCoroutine)
    (href : frame.refCnt = (s.frames f).refCnt)
    (hcnt : frame.frameRunningCnt = (s.frames f).frameRunningCnt) :
    s.Same (s.setFrame f frame) := .frames s (.update s.frames f frame href hcnt)

theorem Coroutines.Same.newLocal {V : Type} (s : Coroutines V) (f : Nat)
    (info : Option ResponseInfo) : s.Same (s.newLocal f info) := by
  have h := Same.setFrame s f { s.frames f with coroLocalVar := some s.nextId } rfl rfl
  exact ⟨h.count,h.handles,h.refCnt,h.frameRunningCnt,h.done,h.fresh,h.destroyed⟩

theorem Coroutines.Same.begin {V : Type} (s : Coroutines V) {f : Nat} (hold : s.stage f ≠ .done) :
    s.Same (s.begin f) := by
  unfold Coroutines.begin
  split
  · exact (Same.newLocal s f none).trans (.setStage _ hold nofun nofun)
  · exact .setStage s hold nofun nofun

/-- A move hands the reference over. -/
theorem Coroutines.Same.move {V : Type} (s : Coroutines V) {t : Nat} {old new : CoroTask}
    (ht : s.tasks[t]? = some old) (hnew : ∀ f, new.pointsTo f = old.pointsTo f) :
    s.Same (s.move t new) := by
  obtain ⟨hlt,hget⟩ := List.getElem?_eq_some_iff.mp ht
  refine ⟨rfl,?_,fun _ => rfl,fun _ => rfl,fun _ => Iff.rfl,fun _ h => h,rfl⟩
  intro f
  have hle : (if old.pointsTo f then 1 else 0) ≤ s.tasks.countP (CoroTask.pointsTo f) := by
    split
    · rename_i hp
      exact List.countP_pos_iff.mpr ⟨old,hget ▸ List.getElem_mem hlt,hp⟩
    · exact Nat.zero_le _
  have hnone : CoroTask.pointsTo f (.handle none) = false := rfl
  simp only [Coroutines.handles,Coroutines.move,List.countP_append,List.countP_singleton,
    List.countP_set hlt,hget,hnew,hnone]
  simp only [Bool.false_eq_true,if_false]
  omega

theorem Coroutines.Same.called {V : Type} {s : Coroutines V} {f t child : Nat} {frames : Frames}
    (hf : s.stage f = .running) (ht : s.tasks[t]? = some (.handle (some child)))
    (hlink : linkNext s.frames f child = some frames) : s.Same (s.called frames f t child) := by
  let s1 : Coroutines V := { s with frames := frames }
  let s2 := s1.setFrame child { frames child with coroLocalVar := (frames f).coroLocalVar }
  let s3 := s2.move t (.middle child)
  have h1 : s.Same s1 := .frames s (linkNext_same hlink)
  have h2 : s1.Same s2 := .setFrame s1 child _ rfl rfl
  have h3 : s2.Same s3 := .move s2 ht (fun _ => rfl)
  have hf3 : s3.stage f ≠ .done := by
    show s.stage f ≠ .done
    simp [hf]
  exact ((h1.trans h2).trans h3).trans (.setStage s3 hf3 nofun nofun)

theorem Coroutines.Same.countDown {V : Type} (s : Coroutines V) (f : Nat) :
    s.Same (s.countDown f) := by
  unfold Coroutines.countDown
  split
  · exact ⟨rfl,fun _ => rfl,fun _ => rfl,fun _ => rfl,fun _ => Iff.rfl,fun _ h => h,rfl⟩
  · exact .refl s

theorem Coroutines.Same.report {V : Type} (s : Coroutines V) (f : Nat) : s.Same (s.report f) := by
  unfold Coroutines.report
  split
  · exact ⟨rfl,fun _ => rfl,fun _ => rfl,fun _ => rfl,fun _ => Iff.rfl,fun _ h => h,rfl⟩
  · exact .refl s
  · exact .setFrame s f _ rfl rfl

theorem Coroutines.Same.deleteLocal {V : Type} (s : Coroutines V) (f : Nat) :
    s.Same (s.deleteLocal f) := by
  unfold Coroutines.deleteLocal
  split
  · exact .refl s
  · have h := Same.setFrame s f { s.frames f with coroLocalVar := none } rfl rfl
    exact ⟨h.count,h.handles,h.refCnt,h.frameRunningCnt,h.done,h.fresh,h.destroyed⟩

theorem Coroutines.Same.returning {V : Type} (s : Coroutines V) (f : Nat) (result : Option V) :
    s.Same (s.returning f result) :=
  ⟨rfl,fun _ => rfl,fun _ => rfl,fun _ => rfl,fun _ => Iff.rfl,fun _ h => h,rfl⟩

theorem Coroutines.Same.complete {V : Type} (s : Coroutines V) {f : Nat} (hf : s.stage f ≠ .done) :
    s.Same (s.complete f) := by
  have hroot : s.Same (((s.countDown f).report f).deleteLocal f) :=
    ((Same.countDown s f).trans (.report _ f)).trans (.deleteLocal _ f)
  exact hroot.trans (.setStage _ (fun hd => hf ((hroot.done f).mp hd)) nofun nofun)

theorem Coroutines.Same.giveBack {V : Type} (s : Coroutines V) {f caller t : Nat}
    {frames : Frames} (hf : s.stage f ≠ .done) (hc : s.stage caller ≠ .done)
    (hunlink : removeSelf s.frames f = some frames) : s.Same (s.giveBack frames f caller t) := by
  let s1 : Coroutines V := { s with frames := frames }
  let s2 := s1.setStage f .returned
  have h1 : s.Same s1 := .frames s (removeSelf_same hunlink)
  have h2 : s1.Same s2 := .setStage s1 hf nofun nofun
  have hc2 : s2.stage caller ≠ .done := fun hd => hc ((h1.trans h2).done caller |>.mp hd)
  exact (h1.trans h2).trans (.setStage s2 hc2 nofun nofun)

theorem CoroTask.pointsTo_handle (f g : Nat) :
    CoroTask.pointsTo g (.handle (some f)) = decide (g = f) := by
  by_cases h : g = f
  · subst h
    simp [pointsTo]
  · simp [pointsTo,h,Ne.symm h]

theorem Coroutines.Ledger.next {V : Type} {s : Coroutines V} (h : s.Ledger) :
    s.handles s.count = 0 ∧ s.destroyed.count s.count = 0 := by
  refine ⟨?_,List.count_eq_zero_of_not_mem (fun hin => Nat.lt_irrefl _ (h.dead _ hin))⟩
  by_cases hz : s.handles s.count = 0
  · exact hz
  · exact absurd (h.handled _ hz) (Nat.lt_irrefl _)

theorem Coroutines.Ledger.next_done {V : Type} {s : Coroutines V} (h : s.Ledger) :
    s.stage s.count = .done := by
  by_cases hd : s.stage s.count = .done
  · exact hd
  · exact absurd (h.started _ hd) (Nat.lt_irrefl _)

theorem Coroutines.create_handles {V : Type} (s : Coroutines V) (f : Nat) :
    s.create.handles f = s.handles f + if f = s.count then 1 else 0 := by
  simp [handles,create,List.countP_append,List.countP_singleton,CoroTask.pointsTo_handle]

theorem Coroutines.create_new {V : Type} (s : Coroutines V) :
    s.create.frames s.count = .new s.count ∧ s.create.stage s.count = .fresh :=
  ⟨Function.update_self ..,Function.update_self ..⟩

theorem Coroutines.create_old {V : Type} (s : Coroutines V) {f : Nat} (hf : f ≠ s.count) :
    s.create.frames f = s.frames f ∧ s.create.stage f = s.stage f :=
  ⟨Function.update_of_ne hf _ _,Function.update_of_ne hf _ _⟩

theorem Coroutines.create_owners {V : Type} (s : Coroutines V) {f : Nat} (hf : f ≠ s.count) :
    s.create.owners f = s.owners f := by
  simp [Coroutines.owners,scheduled,create_handles,hf,s.create_old hf]

theorem Coroutines.create_endedAlone {V : Type} (s : Coroutines V) {f : Nat} (hf : f ≠ s.count) :
    s.create.EndedAlone f ↔ s.EndedAlone f := by
  simp [EndedAlone,s.create_old hf]

theorem Coroutines.Ledger.create_owners_new {V : Type} {s : Coroutines V} (h : s.Ledger) :
    s.create.owners s.count = 1 := by
  simp [Coroutines.owners,scheduled,create_handles,h.next,s.create_new,LinkedCoroutine.new]

theorem Coroutines.Ledger.create {V : Type} {s : Coroutines V} (h : s.Ledger) :
    s.create.Ledger := by
  refine ⟨?_,?_,?_,fun f hf => Nat.lt_succ_of_lt (h.dead f hf),?_⟩
  · intro f hf
    by_cases hc : f = s.count
    · subst hc
      have he : ¬ s.create.EndedAlone s.count := by simp [EndedAlone,s.create_new]
      refine ⟨?_,?_⟩
      · rw [s.create_new.1,h.create_owners_new,if_neg he]
        rfl
      · rw [h.create_owners_new]
        exact h.next.2
    · have hb := h.balanced f (Nat.lt_of_le_of_ne (Nat.le_of_lt_succ hf) hc)
      refine ⟨?_,?_⟩
      · simp only [s.create_old hc,s.create_owners hc,s.create_endedAlone hc]
        exact hb.refCnt
      · simp only [s.create_owners hc,s.create_endedAlone hc]
        exact hb.destroyed
  · intro f hf
    by_cases hc : f = s.count
    · rw [hc]
      exact Nat.lt_succ_self _
    · rw [create_handles,if_neg hc] at hf
      exact Nat.lt_succ_of_lt (h.handled f hf)
  · intro f hf
    by_cases hc : f = s.count
    · rw [hc]
      exact Nat.lt_succ_self _
    · rw [(s.create_old hc).2] at hf
      exact Nat.lt_succ_of_lt (h.started f hf)
  · intro f hf
    by_cases hc : f = s.count
    · rw [hc,s.create_new.1]
      rfl
    · rw [(s.create_old hc).1]
      exact h.fresh f ((s.create_old hc).2 ▸ hf)

theorem Coroutines.Ledger.create_owned {V : Type} {s : Coroutines V} (h : s.Ledger)
    (ho : s.Owned) : s.create.Owned := by
  intro f hf hz
  by_cases hc : f = s.count
  · rw [hc,h.create_owners_new] at hz
    cases hz
  · rw [s.create_owners hc] at hz
    rw [s.create_endedAlone hc]
    exact ho f (Nat.lt_of_le_of_ne (Nat.le_of_lt_succ hf) hc) hz

structure Coroutines.Elsewhere {V : Type} (s t : Coroutines V) (f : Nat) : Prop where
  count : t.count = s.count
  handles : ∀ g, g ≠ f → t.handles g = s.handles g
  frames : ∀ g, g ≠ f → t.frames g = s.frames g
  stage : ∀ g, g ≠ f → t.stage g = s.stage g
  destroyed : ∀ g, g ≠ f → t.destroyed.count g = s.destroyed.count g

theorem Coroutines.Elsewhere.owners {V : Type} {s t : Coroutines V} {f g : Nat}
    (h : s.Elsewhere t f) (hg : g ≠ f) : t.owners g = s.owners g := by
  simp [Coroutines.owners,scheduled,h.handles g hg,h.frames g hg,h.stage g hg]

theorem Coroutines.Elsewhere.endedAlone {V : Type} {s t : Coroutines V} {f g : Nat}
    (h : s.Elsewhere t f) (hg : g ≠ f) : t.EndedAlone g ↔ s.EndedAlone g := by
  simp [EndedAlone,h.frames g hg,h.stage g hg]

theorem Coroutines.Elsewhere.owned {V : Type} {s t : Coroutines V} {f : Nat}
    (h : s.Elsewhere t f) (hf : f < s.count) (ho : s.Owned) :
    t.Owned ↔ (t.owners f = 0 → t.EndedAlone f) := by
  refine ⟨fun ht => ht f (h.count ▸ hf),fun ht g hg hz => ?_⟩
  by_cases hgf : g = f
  · exact hgf ▸ ht (hgf ▸ hz)
  · rw [h.endedAlone hgf]
    rw [h.owners hgf] at hz
    exact ho g (h.count ▸ hg) hz

theorem Coroutines.Ledger.of_elsewhere {V : Type} {s t : Coroutines V} {f : Nat} (h : s.Ledger)
    (he : s.Elsewhere t f) (hf : f < s.count) (hb : t.Balanced f)
    (hfresh : t.stage f = .fresh → (t.frames f).frameRunningCnt = false) : t.Ledger := by
  refine ⟨?_,?_,?_,?_,?_⟩
  · intro g hg
    by_cases hgf : g = f
    · exact hgf ▸ hb
    · rw [he.count] at hg
      have hold := h.balanced g hg
      refine ⟨?_,?_⟩
      · simp only [he.frames g hgf,he.owners hgf,he.endedAlone hgf]
        exact hold.refCnt
      · simp only [he.destroyed g hgf,he.owners hgf,he.endedAlone hgf]
        exact hold.destroyed
  · intro g hg
    rw [he.count]
    by_cases hgf : g = f
    · exact hgf ▸ hf
    · exact h.handled g (he.handles g hgf ▸ hg)
  · intro g hg
    rw [he.count]
    by_cases hgf : g = f
    · exact hgf ▸ hf
    · exact h.started g (he.stage g hgf ▸ hg)
  · intro g hg
    rw [he.count]
    by_cases hgf : g = f
    · exact hgf ▸ hf
    · refine h.dead g (List.count_pos_iff.mp ?_)
      rw [← he.destroyed g hgf]
      exact List.count_pos_iff.mpr hg
  · intro g hg
    by_cases hgf : g = f
    · subst hgf
      exact hfresh hg
    · rw [he.frames g hgf]
      exact h.fresh g (he.stage g hgf ▸ hg)

theorem Coroutines.handles_pos {V : Type} {s : Coroutines V} {t f : Nat} {task : CoroTask}
    (ht : s.tasks[t]? = some task) (hp : task.pointsTo f = true) : 0 < s.handles f :=
  List.countP_pos_iff.mpr ⟨task,List.mem_of_getElem? ht,hp⟩

theorem Coroutines.copy_handles {V : Type} (s : Coroutines V) (f g : Nat) :
    (s.copy f).handles g = s.handles g + if g = f then 1 else 0 := by
  simp [handles,copy,inc,setFrame,List.countP_append,List.countP_singleton,
    CoroTask.pointsTo_handle]

theorem Coroutines.copy_frame {V : Type} (s : Coroutines V) (f : Nat) :
    (s.copy f).frames f = { s.frames f with refCnt := (s.frames f).refCnt.inc } :=
  Function.update_self ..

theorem Coroutines.copy_elsewhere {V : Type} (s : Coroutines V) (f : Nat) :
    s.Elsewhere (s.copy f) f :=
  ⟨rfl,fun g hg => by simp [copy_handles,hg],fun _ hg => Function.update_of_ne hg _ _,
    fun _ _ => rfl,fun _ _ => rfl⟩

theorem Coroutines.copy_owners {V : Type} (s : Coroutines V) (f : Nat) :
    (s.copy f).owners f = s.owners f + 1 := by
  have hs : (s.copy f).scheduled f = s.scheduled f := by
    unfold scheduled
    rw [copy_frame]
    rfl
  simp only [Coroutines.owners,copy_handles,hs,if_pos]
  omega

theorem Coroutines.copy_endedAlone {V : Type} (s : Coroutines V) (f : Nat) :
    (s.copy f).EndedAlone f ↔ s.EndedAlone f := by
  unfold EndedAlone
  rw [copy_frame]
  rfl

theorem Coroutines.Ledger.copy {V : Type} {s : Coroutines V} (h : s.Ledger) {f : Nat}
    (hpos : 0 < s.handles f) : (s.copy f).Ledger := by
  have hf := h.handled f (Nat.ne_of_gt hpos)
  have hb := h.balanced f hf
  refine h.of_elsewhere (s.copy_elsewhere f) hf ⟨?_,?_⟩ ?_
  · have hr := hb.refCnt
    rw [copy_frame,copy_owners]
    simp only [copy_endedAlone,RefCount.inc]
    omega
  · have hd := hb.destroyed
    have hne : s.owners f ≠ 0 := Nat.ne_of_gt (Nat.add_pos_left hpos _)
    rw [if_neg (fun hz => hne hz.1)] at hd
    rw [copy_owners,if_neg (fun hz => by omega)]
    exact hd
  · rw [copy_frame]
    exact h.fresh f

theorem Coroutines.commit_frame {V : Type} {s : Coroutines V} (hstop : s.stopFlag = false)
    (f : Nat) : (s.commit f).frames f =
      { s.frames f with refCnt := (s.frames f).refCnt.inc, frameRunningCnt := true } := by
  simp [commit,hstop,setStage,setFrame,inc]

theorem Coroutines.commit_elsewhere {V : Type} {s : Coroutines V} (hstop : s.stopFlag = false)
    (f : Nat) : s.Elsewhere (s.commit f) f := by
  unfold commit
  rw [hstop]
  refine ⟨rfl,fun _ _ => rfl,fun g hg => ?_,fun g hg => Function.update_of_ne hg _ _,
    fun _ _ => rfl⟩
  simp [setStage,setFrame,inc,Function.update_of_ne hg]

theorem Coroutines.Ledger.unstarted {V : Type} {s : Coroutines V} (h : s.Ledger) {f : Nat}
    (hfresh : s.stage f = .fresh) :
    f < s.count ∧ s.owners f = s.handles f ∧ ¬ s.EndedAlone f := by
  have hcnt := h.fresh f hfresh
  exact ⟨h.started f (by simp [hfresh]),by simp [Coroutines.owners,scheduled,hcnt],
    by simp [EndedAlone,hfresh]⟩

theorem Coroutines.commit_owners {V : Type} {s : Coroutines V} (hstop : s.stopFlag = false)
    (f : Nat) : (s.commit f).owners f = s.handles f + 1 := by
  have hhandles : (s.commit f).handles f = s.handles f := by
    unfold commit
    rw [hstop]
    rfl
  simp [Coroutines.owners,scheduled,commit_frame hstop,commit_stage hstop,hhandles]

theorem Coroutines.Ledger.commit {V : Type} {s : Coroutines V} (h : s.Ledger)
    (hstop : s.stopFlag = false) {f : Nat} (hfresh : s.stage f = .fresh) : (s.commit f).Ledger := by
  obtain ⟨hf,ho,hea⟩ := h.unstarted hfresh
  have hea' : ¬ (s.commit f).EndedAlone f := by simp [EndedAlone,commit_stage hstop]
  have hr := (h.balanced f hf).refCnt
  have hd := (h.balanced f hf).destroyed
  rw [if_neg hea] at hr
  rw [if_neg (fun hz => hea hz.2)] at hd
  have he := commit_elsewhere hstop f
  refine h.of_elsewhere he hf ⟨?_,?_⟩ ?_
  · rw [commit_owners hstop,if_neg hea',commit_frame hstop]
    simp only [RefCount.inc]
    omega
  · rw [if_neg (fun hz => hea' hz.2)]
    have hsame : (s.commit f).destroyed = s.destroyed := by
      unfold Coroutines.commit
      rw [hstop]
      rfl
    rw [hsame]
    exact hd
  · rw [commit_stage hstop,Function.update_self]
    exact nofun

theorem Coroutines.release_destroyed {V : Type} (s : Coroutines V) (f g : Nat) :
    (s.release f).destroyed.count g =
      s.destroyed.count g + if g = f ∧ (s.frames f).refCnt.sharedCnt = 0 then 1 else 0 := by
  simp only [Coroutines.release,RefCount.dec]
  by_cases hz : (s.frames f).refCnt.sharedCnt = 0
  · by_cases hg : g = f
    · simp [hz,hg]
    · simp [hz,hg,Ne.symm hg]
  · simp [hz]

theorem Coroutines.release_frame {V : Type} (s : Coroutines V) (f : Nat) :
    (s.release f).frames f =
      { s.frames f with refCnt := ⟨(s.frames f).refCnt.sharedCnt - 1⟩ } := Function.update_self ..

theorem Coroutines.drop_handles {V : Type} {s : Coroutines V} {t f : Nat} {task : CoroTask}
    (ht : s.tasks[t]? = some task) (hp : ∀ g, task.pointsTo g = decide (g = f)) (g : Nat) :
    (s.drop t (some f)).handles g = s.handles g - if g = f then 1 else 0 := by
  obtain ⟨hlt,hget⟩ := List.getElem?_eq_some_iff.mp ht
  have hgone : CoroTask.pointsTo g .gone = false := rfl
  show (s.tasks.set t .gone).countP (CoroTask.pointsTo g) = _
  rw [List.countP_set hlt,hget,hp,hgone]
  simp [handles]

theorem Coroutines.drop_frame {V : Type} (s : Coroutines V) (t f : Nat) :
    (s.drop t (some f)).frames f =
      { s.frames f with refCnt := ⟨(s.frames f).refCnt.sharedCnt - 1⟩ } :=
  release_frame { s with tasks := s.tasks.set t .gone } f

theorem Coroutines.drop_destroyed {V : Type} (s : Coroutines V) (t f g : Nat) :
    (s.drop t (some f)).destroyed.count g =
      s.destroyed.count g + if g = f ∧ (s.frames f).refCnt.sharedCnt = 0 then 1 else 0 :=
  release_destroyed { s with tasks := s.tasks.set t .gone } f g

theorem Coroutines.drop_elsewhere {V : Type} {s : Coroutines V} {t f : Nat} {task : CoroTask}
    (ht : s.tasks[t]? = some task) (hp : ∀ g, task.pointsTo g = decide (g = f)) :
    s.Elsewhere (s.drop t (some f)) f :=
  ⟨rfl,fun g hg => by simp [drop_handles ht hp,hg],fun g hg => Function.update_of_ne hg _ _,
    fun _ _ => rfl,fun g hg => by simp [drop_destroyed,hg]⟩

theorem Coroutines.drop_owners {V : Type} {s : Coroutines V} {t f : Nat} {task : CoroTask}
    (ht : s.tasks[t]? = some task) (hp : ∀ g, task.pointsTo g = decide (g = f)) :
    (s.drop t (some f)).owners f + 1 = s.owners f := by
  have hs : (s.drop t (some f)).scheduled f = s.scheduled f := by
    unfold scheduled
    rw [drop_frame]
    rfl
  have hpos := handles_pos ht (hp f ▸ decide_eq_true rfl)
  simp only [Coroutines.owners,drop_handles ht hp,hs,if_pos]
  omega

theorem Coroutines.drop_endedAlone {V : Type} (s : Coroutines V) (t f : Nat) :
    (s.drop t (some f)).EndedAlone f ↔ s.EndedAlone f := by
  unfold EndedAlone
  rw [drop_frame]
  rfl

/-- A frame is destroyed by the task that finds nothing but a reference owed to a
coroutine that has ended alone. -/
theorem Coroutines.Ledger.drop {V : Type} {s : Coroutines V} (h : s.Ledger) {t f : Nat}
    {task : CoroTask} (ht : s.tasks[t]? = some task)
    (hp : ∀ g, task.pointsTo g = decide (g = f)) : (s.drop t (some f)).Ledger := by
  have hpos := handles_pos ht (hp f ▸ decide_eq_true rfl)
  have hf := h.handled f (Nat.ne_of_gt hpos)
  have hr := (h.balanced f hf).refCnt
  have hd := (h.balanced f hf).destroyed
  have ho := drop_owners ht hp
  rw [if_neg (fun hz => by omega)] at hd
  refine h.of_elsewhere (drop_elsewhere ht hp) hf ⟨?_,?_⟩ ?_
  · rw [drop_frame]
    simp only [drop_endedAlone]
    omega
  · rw [drop_destroyed,hd]
    simp only [drop_endedAlone,true_and,Nat.zero_add]
    by_cases hea : s.EndedAlone f
    · rw [if_pos hea] at hr
      simp only [hea,and_true]
      by_cases hz : (s.frames f).refCnt.sharedCnt = 0
      · rw [if_pos hz,if_pos (by omega)]
      · rw [if_neg hz,if_neg (by omega)]
    · rw [if_neg hea] at hr
      rw [if_neg (by omega),if_neg (fun hz => hea hz.2)]
  · rw [drop_frame]
    exact h.fresh f

theorem Coroutines.end_frame {V : Type} (s : Coroutines V) (f : Nat) :
    ((s.release f).setStage f .done).frames f =
      { s.frames f with refCnt := ⟨(s.frames f).refCnt.sharedCnt - 1⟩ } := s.release_frame f

theorem Coroutines.end_stage {V : Type} (s : Coroutines V) (f : Nat) :
    ((s.release f).setStage f .done).stage f = .done := Function.update_self ..

theorem Coroutines.end_elsewhere {V : Type} (s : Coroutines V) (f : Nat) :
    s.Elsewhere ((s.release f).setStage f .done) f := by
  refine ⟨rfl,fun _ _ => rfl,fun g hg => Function.update_of_ne hg _ _,
    fun g hg => Function.update_of_ne hg _ _,fun g hg => ?_⟩
  show (s.release f).destroyed.count g = _
  simp [release_destroyed,hg]

theorem Coroutines.end_owners {V : Type} {s : Coroutines V} {f : Nat} (hf : s.stage f = .ending) :
    s.owners f = ((s.release f).setStage f .done).owners f +
      if (s.frames f).frameRunningCnt then 1 else 0 := by
  have hhandles : ((s.release f).setStage f .done).handles f = s.handles f := rfl
  simp [Coroutines.owners,scheduled,end_stage,hhandles,hf]

theorem Coroutines.end_endedAlone {V : Type} (s : Coroutines V) (f : Nat) :
    ((s.release f).setStage f .done).EndedAlone f ↔ (s.frames f).frameRunningCnt = false := by
  simp [EndedAlone,end_stage,end_frame]

theorem Coroutines.Ledger.ends {V : Type} {s : Coroutines V} (h : s.Ledger) {f : Nat}
    (hf : s.stage f = .ending) : ((s.release f).setStage f .done).Ledger := by
  have hlt := h.started f (by simp [hf])
  have hea : ¬ s.EndedAlone f := by simp [EndedAlone,hf]
  have hr := (h.balanced f hlt).refCnt
  have hd := (h.balanced f hlt).destroyed
  have ho := end_owners hf
  rw [if_neg hea] at hr
  rw [if_neg (fun hz => hea hz.2)] at hd
  refine h.of_elsewhere (s.end_elsewhere f) hlt ⟨?_,?_⟩ ?_
  · rw [end_frame]
    simp only [end_endedAlone]
    cases hcnt : (s.frames f).frameRunningCnt with
    | true =>
      simp only [hcnt,if_true] at ho
      simp only [Bool.true_eq_false,if_false]
      omega
    | false =>
      simp only [hcnt,Bool.false_eq_true,if_false] at ho
      simp only [if_true]
      omega
  · show (s.release f).destroyed.count f = _
    rw [release_destroyed,hd]
    simp only [end_endedAlone,true_and,Nat.zero_add]
    cases hcnt : (s.frames f).frameRunningCnt with
    | true =>
      simp only [hcnt,if_true] at ho
      rw [if_neg (by omega)]
      simp
    | false =>
      simp only [hcnt,Bool.false_eq_true,if_false] at ho
      simp only [and_true]
      by_cases hz : ((s.release f).setStage f .done).owners f = 0
      · rw [if_pos hz,if_pos (by omega)]
      · rw [if_neg hz,if_neg (by omega)]
  · rw [end_stage]
    exact nofun

inductive Coroutines.Took {V : Type} (s : Coroutines V) : Bool → Coroutines V → Prop
  | same {t : Coroutines V} (h : s.Same t) : s.Took true t
  | create : s.Took true s.create
  | copy {f : Nat} (hpos : 0 < s.handles f) : s.Took true (s.copy f)
  | commit {f : Nat} (hstop : s.stopFlag = false) (hfresh : s.stage f = .fresh) :
      s.Took true (s.commit f)
  | drop {t f : Nat} {task : CoroTask} {u : Coroutines V} (ht : s.tasks[t]? = some task)
      (hp : ∀ g, task.pointsTo g = decide (g = f)) (h : (s.drop t (some f)).Same u) :
      s.Took (s.spares f) u
  | ends {f : Nat} (hf : s.stage f = .ending) :
      s.Took (!(s.frames f).frameRunningCnt || s.spares f) ((s.release f).setStage f .done)

theorem Coroutines.Same.drop {V : Type} {s : Coroutines V} {t : Nat}
    (ht : s.tasks[t]? = some (.handle none)) : s.Same (s.drop t none) := by
  obtain ⟨hlt,hget⟩ := List.getElem?_eq_some_iff.mp ht
  refine ⟨rfl,fun f => ?_,fun _ => rfl,fun _ => rfl,fun _ => Iff.rfl,fun _ h => h,rfl⟩
  have hnone : CoroTask.pointsTo f (.handle none) = false := rfl
  have hgone : CoroTask.pointsTo f .gone = false := rfl
  show (s.tasks.set t .gone).countP (CoroTask.pointsTo f) = _
  rw [List.countP_set hlt,hget,hnone,hgone]
  rfl

def Event.plain {V : Type} : Event V → Bool
  | .create => false
  | .copy _ => false
  | .drop _ => false
  | .commit _ => false
  | .back _ => false
  | .release _ => false
  | _ => true

theorem Coroutines.Acts.same {V : Type} {s t : Coroutines V} {e : Event V} (h : s.Acts e t)
    (he : e.plain = true) : s.Same t := by
  cases h with
  | move hp => exact .move s hp (fun _ => rfl)
  | request => exact .newLocal s _ _
  | stop => exact ⟨rfl,fun _ => rfl,fun _ => rfl,fun _ => rfl,fun _ => Iff.rfl,fun _ h => h,rfl⟩
  | resume hp hf => exact .begin s (by simp [hf])
  | start hf => exact .begin s (by simp [hf])
  | suspend hf => exact .setStage s (by simp [hf]) (by simp) (by simp)
  | wake hf => exact .setStage s (by simp [hf]) (by simp) (by simp)
  | run hf => exact .setStage s (by simp [hf]) (by simp) (by simp)
  | @await f p child frames hf hp hc hlink =>
    have hcalled := Same.called hf hp hlink
    have hc' : s.stage child ≠ .done := by simp [hc]
    exact hcalled.trans (.begin _ (fun hd => hc' ((hcalled.done child).mp hd)))
  | @complete f result hf hroot =>
    have hf' : (s.returning f result).stage f ≠ .done := by
      show s.stage f ≠ .done
      simp [hf]
    exact (Same.returning s f result).trans (.complete _ hf')
  | @giveBack f caller p result frames hf hroot hprev hc hunlink =>
    have hf' : (s.returning f result).stage f ≠ .done := by
      show s.stage f ≠ .done
      simp [hf]
    have hc' : (s.returning f result).stage caller ≠ .done := by
      show s.stage caller ≠ .done
      simp [hc]
    exact (Same.returning s f result).trans (.giveBack _ hf' hc' hunlink)
  | _ => cases he

theorem Coroutines.keepsOwner_plain {V : Type} (s : Coroutines V) {e : Event V}
    (he : e.plain = true) : s.keepsOwner e = true := by
  cases e <;> first | rfl | cases he

/-- The child that a caller leaves behind: the reference of its task is dropped. -/
theorem Coroutines.back_same {V : Type} {s : Coroutines V} {f t child : Nat}
    (hf : s.stage f = .back t) :
    (s.drop t (some child)).Same ((s.drop t (some child)).setStage f .running) := by
  have hback : (s.drop t (some child)).stage f ≠ .done := by
    show s.stage f ≠ .done
    simp [hf]
  exact .setStage _ hback (by simp) (by simp)

theorem Coroutines.step_took {V : Type} {s t : Coroutines V} {e : Event V}
    (h : s.step e = some t) : s.Took (s.keepsOwner e) t := by
  have hacts := step_acts h
  cases he : e.plain with
  | true =>
    rw [s.keepsOwner_plain he]
    exact .same (hacts.same he)
  | false =>
    cases hacts with
    | create => exact .create
    | copy hp => exact .copy (handles_pos hp (by simp [CoroTask.pointsTo_handle]))
    | @drop p promise hp =>
      simp only [keepsOwner,hp]
      cases promise with
      | none => exact .same (.drop hp)
      | some f => exact .drop hp (CoroTask.pointsTo_handle f) (.refl _)
    | refused => exact .same (.refl s)
    | commit hp hf hstop => exact .commit hstop hf
    | @back f p child hf hp =>
      have hmiddle : ∀ g, CoroTask.pointsTo g (.middle child) = decide (g = child) :=
        CoroTask.pointsTo_handle child
      simp only [keepsOwner,hf,hp]
      exact .drop hp hmiddle (back_same hf)
    | release hf => exact .ends hf
    | _ => cases he

theorem Coroutines.Took.ledger {V : Type} {s t : Coroutines V} {kept : Bool} (h : s.Took kept t)
    (hs : s.Ledger) : t.Ledger := by
  cases h with
  | same h => exact hs.of_same h
  | create => exact hs.create
  | copy hpos => exact hs.copy hpos
  | commit hstop hfresh => exact hs.commit hstop hfresh
  | drop ht hp h => exact (hs.drop ht hp).of_same h
  | ends hf => exact hs.ends hf

theorem Coroutines.Took.owned_iff {V : Type} {s t : Coroutines V} {kept : Bool}
    (h : s.Took kept t) (hs : s.Ledger) (ho : s.Owned) : t.Owned ↔ kept = true := by
  cases h with
  | same h => exact iff_of_true (h.owned.mpr ho) rfl
  | create => exact iff_of_true (hs.create_owned ho) rfl
  | @copy f hpos =>
    have hf := hs.handled f (Nat.ne_of_gt hpos)
    refine iff_of_true (((s.copy_elsewhere f).owned hf ho).mpr (fun hz => ?_)) rfl
    rw [copy_owners] at hz
    cases hz
  | @commit f hstop hfresh =>
    have hf := (hs.unstarted hfresh).1
    refine iff_of_true (((commit_elsewhere hstop f).owned hf ho).mpr (fun hz => ?_)) rfl
    rw [commit_owners hstop] at hz
    cases hz
  | @drop p f _ _ ht hp h =>
    have hpos := handles_pos ht (hp f ▸ decide_eq_true rfl)
    have hf := hs.handled f (Nat.ne_of_gt hpos)
    have hd := drop_owners ht hp
    rw [h.owned,(drop_elsewhere ht hp).owned hf ho,drop_endedAlone]
    by_cases hea : s.EndedAlone f
    · exact iff_of_true (fun _ => hea) (by simp [spares,hea])
    · have hspares : s.spares f = true ↔ (s.drop p (some f)).owners f ≠ 0 := by
        simp only [spares,hea,← hd,decide_false,Bool.or_false,decide_eq_true_eq]
        omega
      rw [hspares]
      exact ⟨fun hz h0 => hea (hz h0),fun hz h0 => absurd h0 hz⟩
  | @ends f hf =>
    have hlt := hs.started f (by simp [hf])
    have hend := end_owners hf
    have hea : ¬ s.EndedAlone f := by simp [EndedAlone,hf]
    rw [(s.end_elsewhere f).owned hlt ho,end_endedAlone]
    cases hcnt : (s.frames f).frameRunningCnt with
    | true =>
      simp only [hcnt,if_true] at hend
      have hspares : s.spares f = true ↔ ((s.release f).setStage f .done).owners f ≠ 0 := by
        simp only [spares,hea,hend,decide_false,Bool.or_false,decide_eq_true_eq]
        omega
      simp [hspares]
    | false => simp

theorem Coroutines.start_ledger {V : Type} : (start : Coroutines V).Ledger :=
  ⟨fun _ hf => absurd hf (Nat.not_lt_zero _),fun _ hf => absurd rfl hf,fun _ hf => absurd rfl hf,
    fun _ hf => absurd hf List.not_mem_nil,fun _ hf => by cases hf⟩

/-- Frames are reclaimed in time as long as no step takes a last owner, except from a
coroutine that has ended alone; the first step that does leaks the frame. -/
theorem reclaimed_iff_keepsOwner {V : Type} (s : Coroutines V)
    (h : Transition.Reaches Coroutines.step Coroutines.keepsOwner Coroutines.start s) :
    s.Reclaimed ∧ ∀ e t, s.step e = some t → (t.Reclaimed ↔ s.keepsOwner e = true) := by
  have hinv : s.Ledger ∧ s.Owned := by
    refine h.invariant (I := fun s => s.Ledger ∧ s.Owned) ?_ ?_
    · intro s e t hi hok he
      have htook := Coroutines.step_took he
      exact ⟨htook.ledger hi.1,(htook.owned_iff hi.1 hi.2).mpr hok⟩
    · exact ⟨Coroutines.start_ledger,fun _ hf => absurd hf (Nat.not_lt_zero _)⟩
  obtain ⟨hledger,howned⟩ := hinv
  refine ⟨hledger.reclaimed_iff.mpr howned,fun e t he => ?_⟩
  have htook := Coroutines.step_took he
  rw [(htook.ledger hledger).reclaimed_iff]
  exact htook.owned_iff hledger howned

def resumedOne : List (Event Int) := [.create,.resume 0,.finish 0 (some 7),.release 0,.drop 0]

theorem resumedOne_reclaimed : ∃ s : Coroutines Int, s.destroyed = [0] ∧ s.Reclaimed := by
  have hrun : (Transition.run Coroutines.step Coroutines.keepsOwner .start resumedOne).map
      Coroutines.destroyed = some [0] := by decide
  obtain ⟨s,hs,heq⟩ := Option.map_eq_some_iff.mp hrun
  exact ⟨s,heq,(reclaimed_iff_keepsOwner s (Transition.reaches_of_run hs)).1⟩

def committedOne : List (Event Int) :=
  [.create,.commit 0,.start 0,.finish 0 (some 7),.release 0,.drop 0]

/-- `dec` returns 1 to the last owner. -/
theorem committedOne_not_reclaimed : ∃ s : Coroutines Int,
    Transition.run Coroutines.step (fun _ _ => true) .start committedOne = some s ∧
      s.handles 0 = 0 ∧ s.stage 0 = .done ∧ s.destroyed = [] ∧ ¬ s.Reclaimed := by
  have hrun : (Transition.run Coroutines.step (fun _ _ => true) .start committedOne).map
      (fun s => (s.handles 0,s.scheduled 0,s.stage 0,s.count,s.destroyed)) =
      some (0,0,.done,1,[]) := by decide
  obtain ⟨s,hs,heq⟩ := Option.map_eq_some_iff.mp hrun
  simp only [Prod.mk.injEq] at heq
  obtain ⟨hh,hsc,hst,hc,hd⟩ := heq
  refine ⟨s,hs,hh,hst,hd,fun hr => ?_⟩
  have h0 := hr 0 (by omega)
  rw [hd] at h0
  simp [Coroutines.owners,hh,hsc] at h0

end NewRpc.Task
