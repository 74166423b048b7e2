import NewRpc.Cycles
import NewRpc.TaskSteps

/-!
Any number of coroutines under `link_next` and `remove_self`, against the rings they stand
for: which runs of calls keep every coroutine on its ring.
-/

set_option autoImplicit false

namespace NewRpc.Task
open Ring

inductive RingCall where
  | linkNext (this newCoroutine : Nat)
  | removeSelf (this : Nat)
  deriving DecidableEq, Repr

def Frames.call (frames : Frames) : RingCall → Option Frames
  | .linkNext this newCoroutine => linkNext frames this newCoroutine
  | .removeSelf this => removeSelf frames this

abbrev RingLists := Nat → List Nat

def RingLists.start : RingLists := fun f => [f]

def RingLists.without (ring : RingLists) (this : Nat) : RingLists :=
  Function.update (fun f => (ring f).filter (· ≠ this)) this [this]

def RingLists.after (ring : RingLists) : RingCall → RingLists
  | .linkNext this newCoroutine => inserted ring this newCoroutine
  | .removeSelf this => ring.without this

def RingLists.Allows (ring : RingLists) : RingCall → Prop
  | .linkNext _ newCoroutine => ring newCoroutine = [newCoroutine]
  | .removeSelf _ => True

instance (ring : RingLists) (c : RingCall) : Decidable (ring.Allows c) :=
  match c with
  | .linkNext _ newCoroutine => inferInstanceAs (Decidable (ring newCoroutine = [newCoroutine]))
  | .removeSelf _ => inferInstanceAs (Decidable True)

def RingLists.AllowsAll : RingLists → List RingCall → Prop
  | _, [] => True
  | ring, c :: cs => ring.Allows c ∧ AllowsAll (ring.after c) cs

def RingLists.removesAlone (ring : RingLists) : RingCall → Bool
  | .linkNext _ _ => true
  | .removeSelf this => ring this == [this]

def RingLists.removeAlone : RingLists → List RingCall → Bool
  | _, [] => true
  | ring, c :: cs => ring.removesAlone c && removeAlone (ring.after c) cs

/-- Each coroutine is on its ring and on no other, the links are inverse to each other, and a
coroutine that is alone is as after its construction: `empty`, and unmoved by `remove_self`. -/
structure Frames.Records (frames : Frames) (ring : RingLists) : Prop
    extends Rings (fun f => (frames f).next) (fun f => (frames f).prev) ring where
  inverse : ∀ f g, (frames f).next = some g ↔ (frames g).prev = some f
  oneRing : ∀ f g, g ∈ ring f → List.IsRotated (ring g) (ring f)
  empty : ∀ f, (frames f).empty f = true ↔ ring f = [f]
  alone : ∀ f, ring f = [f] → (frames f).next = (LinkedCoroutine.new f).next ∧
    (frames f).prev = (LinkedCoroutine.new f).prev
  removed : ∀ f, ring f = [f] → removeSelf frames f = some frames

def Frames.Refines : Frames → RingLists → List RingCall → Prop
  | frames, ring, [] => frames.Records ring
  | frames, ring, c :: cs => frames.Records ring ∧
      ∃ frames', frames.call c = some frames' ∧ Refines frames' (ring.after c) cs

theorem Frames.records_of_rings {frames : Frames} {ring : RingLists}
    (h : Rings (fun f => (frames f).next) (fun f => (frames f).prev) ring) :
    frames.Records ring := by
  have hempty : ∀ f, (frames f).empty f = true ↔ ring f = [f] := by
    intro f
    rw [LinkedCoroutine.empty,beq_iff_eq]
    exact h.alone f
  refine ⟨h,h.inverse,fun f g hg => h.rotated hg,hempty,fun f hf => ?_,fun f hf => ?_⟩
  · have hprev := (h.alone f).mpr hf
    exact ⟨(h.inverse f f).mpr hprev,hprev⟩
  · rw [removeSelf,if_pos ((hempty f).mpr hf)]

theorem Frames.start_records : Frames.Records LinkedCoroutine.new RingLists.start := by
  refine records_of_rings ⟨fun f => ⟨[],rfl⟩,fun f => List.nodup_singleton f,fun f => ?_⟩
  exact List.isChain_pair.mpr ⟨rfl,rfl⟩

section
variable {frames : Frames} {ring : RingLists}

theorem setNext_eq_self {f : Nat} {next : Option Nat} (h : (frames f).next = next) :
    setNext frames f next = frames := by
  rw [setNext,← h]
  exact Function.update_eq_self f frames

theorem setPrev_eq_self {f : Nat} {prev : Option Nat} (h : (frames f).prev = prev) :
    setPrev frames f prev = frames := by
  rw [setPrev,← h]
  exact Function.update_eq_self f frames

theorem Frames.Records.linkNext (h : frames.Records ring) (this : Nat) {newCoroutine : Nat}
    (hnew : ring newCoroutine = [newCoroutine]) :
    ∃ frames', frames.call (.linkNext this newCoroutine) = some frames' ∧
      frames'.Records (ring.after (.linkNext this newCoroutine)) := by
  by_cases hself : this = newCoroutine
  · -- behind itself the coroutine stays as it is
    subst hself
    obtain ⟨hnext,hprev⟩ := h.alone this hnew
    refine ⟨frames,?_,?_⟩
    · rw [call,Task.linkNext,hnext]
      simp only [LinkedCoroutine.new] at hnext hprev ⊢
      rw [setNext_eq_self hnext,setNext_eq_self hnext,setPrev_eq_self hprev,setPrev_eq_self hprev]
    · rw [RingLists.after,inserted,if_pos rfl]
      exact h
  · obtain ⟨s,_,hs⟩ := h.toRings.follows this
    have hsn : s ≠ newCoroutine := by
      intro heq
      have hprev := (h.alone newCoroutine hnew).2
      have hthis : (frames s).prev = some this := hs.2
      rw [heq,hprev] at hthis
      exact hself (Option.some.inj hthis).symm
    obtain ⟨frames',hcall,hframes⟩ := linkNext_some hs.1 newCoroutine (Ne.symm hself) hsn
    refine ⟨frames',hcall,records_of_rings ?_⟩
    exact h.toRings.insert hnew (Ne.symm hself) hs.1 (fun x => by rw [hframes])
      (fun x => by rw [hframes])

theorem Frames.Records.without (h : frames.Records ring) {this : Nat} (hthis : ring this = [this]) :
    ring.without this = ring := by
  funext f
  unfold RingLists.without
  by_cases hf : f = this
  · rw [hf,Function.update_self,hthis]
  · rw [Function.update_of_ne hf,List.filter_eq_self]
    intro g hg
    have hne : g ≠ this := fun heq => h.toRings.notMem hthis hf (heq ▸ hg)
    simpa using hne

theorem Frames.Records.removeSelf (h : frames.Records ring) (this : Nat) :
    ∃ frames', frames.call (.removeSelf this) = some frames' ∧
      (frames'.Records (ring.after (.removeSelf this)) ↔
        ring.removesAlone (.removeSelf this) = true) := by
  by_cases halone : ring this = [this]
  · refine ⟨frames,h.removed this halone,iff_of_true ?_ ?_⟩
    · rw [RingLists.after,h.without halone]
      exact h
    · simp [RingLists.removesAlone,halone]
  · obtain ⟨p,_,hp⟩ := h.toRings.precedes this
    obtain ⟨s,_,hs⟩ := h.toRings.follows this
    have hempty : ¬ (frames this).prev = some this := fun heq =>
      halone ((h.toRings.alone this).mp heq)
    have hpt : p ≠ this := fun heq => hempty (heq ▸ hp.2)
    have hst : s ≠ this := fun heq => hempty (heq ▸ hs.2)
    obtain ⟨frames',hcall,hframes⟩ := removeSelf_some hp.2 hs.1 hpt hst
    refine ⟨frames',hcall,iff_of_false (fun hr => ?_) ?_⟩
    · -- the links of the coroutine are null
      have hself : ring.without this this = [this] := Function.update_self ..
      have hprev := (hr.alone this hself).2
      rw [hframes,if_pos rfl] at hprev
      cases hprev
    · simpa [RingLists.removesAlone] using halone

theorem Frames.Records.call (h : frames.Records ring) {c : RingCall} (hc : ring.Allows c) :
    ∃ frames', frames.call c = some frames' ∧
      (frames'.Records (ring.after c) ↔ ring.removesAlone c = true) := by
  cases c with
  | linkNext this newCoroutine =>
    obtain ⟨frames',hcall,hr⟩ := h.linkNext this hc
    exact ⟨frames',hcall,iff_of_true hr rfl⟩
  | removeSelf this => exact h.removeSelf this

theorem Frames.Refines.records {cs : List RingCall} (h : frames.Refines ring cs) :
    frames.Records ring := by
  cases cs with
  | nil => exact h
  | cons c cs => exact h.1

theorem Frames.Records.refines_iff (h : frames.Records ring) {cs : List RingCall}
    (hcs : ring.AllowsAll cs) : frames.Refines ring cs ↔ ring.removeAlone cs = true := by
  induction cs generalizing frames ring with
  | nil => exact iff_of_true h rfl
  | cons c cs ih =>
    obtain ⟨t,ht,hr⟩ := h.call hcs.1
    rw [RingLists.removeAlone,Bool.and_eq_true,← hr]
    constructor
    · rintro ⟨_,u,hu,hrest⟩
      have heq : u = t := by simpa [ht] using hu.symm
      subst heq
      have hrec := hrest.records
      exact ⟨hrec,(ih hrec hcs.2).mp hrest⟩
    · rintro ⟨hrec,hrest⟩
      exact ⟨h,t,ht,(ih hrec hcs.2).mpr hrest⟩

end

/-- Exactly the runs that remove no coroutine from others keep every coroutine on its ring. -/
theorem rings_kept_iff (cs : List RingCall) (h : RingLists.start.AllowsAll cs) :
    Frames.Refines LinkedCoroutine.new .start cs ↔ RingLists.start.removeAlone cs = true :=
  Frames.start_records.refines_iff h

def loneRemoved : List RingCall :=
  [.linkNext 0 1,.linkNext 1 2,.removeSelf 3,.removeSelf 3,.linkNext 0 3]

theorem loneRemoved_kept : Frames.Refines LinkedCoroutine.new .start loneRemoved :=
  (rings_kept_iff loneRemoved ⟨by decide,by decide,by decide,by decide,by decide,trivial⟩).mpr
    (by decide)

/-- A coroutine is linked, removed and removed again: it is not alone to `empty`, and the second
`remove_self` goes through its null pointers. -/
def removedTwice : List RingCall := [.linkNext 0 1,.removeSelf 1,.removeSelf 1]

theorem removedTwice_fails : RingLists.start.AllowsAll removedTwice ∧
    ¬ Frames.Refines LinkedCoroutine.new .start removedTwice ∧
    removedTwice.foldlM Frames.call LinkedCoroutine.new = none := by
  have hallows : RingLists.start.AllowsAll removedTwice :=
    ⟨by decide,by decide,by decide,trivial⟩
  refine ⟨hallows,fun hr => ?_,rfl⟩
  have halone := (Frames.start_records.refines_iff hallows).mp hr
  revert halone
  decide

end NewRpc.Task
