import NewRpc.CoroutineQueue

/-!
Any number of queues over the same coroutines, against the lists they stand for: which
runs of calls keep every queue a record of its list.
-/

set_option autoImplicit false

namespace NewRpc
open IntrusiveList

structure CoroutineQueues where
  link : QueueLinks
  queue : Nat → CoroutineQueue

def CoroutineQueues.start : CoroutineQueues := ⟨fun _ => none,fun _ => .empty⟩

inductive QueueCall where
  | appendToTail (q f : Nat)
  | popFromHead (q : Nat)
  | fetchNodes (q : Nat) (condition : Nat → Bool) (target : Option Nat)

def CoroutineQueues.setTarget (queue : Nat → CoroutineQueue) :
    Option Nat → Option CoroutineQueue → Nat → CoroutineQueue
  | some i, some t => Function.update queue i t
  | _, _ => queue

/-- What a call leaves, and what it returns; `none` where the process ends. -/
def CoroutineQueues.call (ndebug : Bool) (s : CoroutineQueues) :
    QueueCall → Option (CoroutineQueues × Option Nat)
  | .appendToTail q f => ((s.queue q).appendToTail ndebug s.link f).map
      (fun r => (⟨r.1,Function.update s.queue q r.2⟩,none))
  | .popFromHead q => ((s.queue q).popFromHead ndebug s.link).map
      (fun r => (⟨r.1,Function.update s.queue q r.2.1⟩,some r.2.2))
  | .fetchNodes q condition target =>
      ((s.queue q).fetchNodes ndebug condition s.link (target.map s.queue)).map
        (fun r => (⟨r.1,setTarget (Function.update s.queue q r.2.1) target r.2.2⟩,none))

abbrev QueueLists := Nat → List Nat

def QueueLists.after (xs : QueueLists) : QueueCall → QueueLists
  | .appendToTail q f => Function.update xs q (xs q ++ [f])
  | .popFromHead q => Function.update xs q (xs q).tail
  | .fetchNodes q condition none =>
      Function.update xs q ((xs q).filter (fun x => !condition x))
  | .fetchNodes q condition (some i) =>
      Function.update (Function.update xs q ((xs q).filter (fun x => !condition x))) i
        (xs i ++ (xs q).filter condition)

def QueueLists.returned (xs : QueueLists) : QueueCall → Option Nat
  | .popFromHead q => (xs q).head?
  | _ => none

/-- Only a node of no queue is appended, only a queue with nodes is popped, and a
separate queue is the target. -/
def QueueLists.Allows (xs : QueueLists) : QueueCall → Prop
  | .appendToTail _ f => ∀ i, f ∉ xs i
  | .popFromHead q => xs q ≠ []
  | .fetchNodes q _ target => target ≠ some q

def QueueLists.AllowsAll : QueueLists → List QueueCall → Prop
  | _, [] => True
  | xs, c :: cs => xs.Allows c ∧ AllowsAll (xs.after c) cs

/-- `fetch_nodes` takes every node of the queue, or leaves the last one. -/
def QueueLists.keepsTail (xs : QueueLists) : QueueCall → Bool
  | .fetchNodes q condition _ =>
      (xs q).all condition || (xs q).getLast?.all (fun t => !condition t)
  | _ => true

def QueueLists.keepsTails : QueueLists → List QueueCall → Bool
  | _, [] => true
  | xs, c :: cs => xs.keepsTail c && keepsTails (xs.after c) cs

structure CoroutineQueue.Records (link : QueueLinks) (q : CoroutineQueue) (xs : List Nat) : Prop
    extends q.Holds link xs where
  nodup : xs.Nodup
  reach : ∀ x, Reach link q.head x ↔ x ∈ xs
  last : ∀ t, q.tail = some t → link t = none
  headNone : q.head = none ↔ q.size = 0
  tailNone : q.tail = none ↔ q.size = 0

structure CoroutineQueues.Records (s : CoroutineQueues) (xs : QueueLists) : Prop where
  queues : ∀ i, (s.queue i).Records s.link (xs i)
  apart : ∀ i j x, x ∈ xs i → x ∈ xs j → i = j
  free : ∀ x, (∀ i, x ∉ xs i) → s.link x = none

def CoroutineQueues.Refines (ndebug : Bool) :
    CoroutineQueues → QueueLists → List QueueCall → Prop
  | s, xs, [] => s.Records xs
  | s, xs, c :: cs => s.Records xs ∧
      ∃ t, s.call ndebug c = some (t,xs.returned c) ∧ Refines ndebug t (xs.after c) cs

theorem CoroutineQueue.Holds.records {link : QueueLinks} {q : CoroutineQueue} {xs : List Nat}
    (h : q.Holds link xs) : q.Records link xs := by
  refine ⟨h,h.seg.nodup,h.seg.reach_iff,fun t ht => ?_,?_,?_⟩
  · obtain ⟨ys,rfl⟩ := List.getLast?_eq_some_iff.mp (h.tail.symm.trans ht)
    obtain ⟨b,_,_,hnone⟩ := Seg.append_iff.mp h.seg
    exact hnone
  · rw [h.size]
    have hseg := h.seg
    cases xs with
    | nil => simp [Seg] at hseg; simp [hseg]
    | cons x xs => simp [hseg.1]
  · rw [h.size,h.tail]
    simp

theorem CoroutineQueues.records_of_holds {s : CoroutineQueues} {xs : QueueLists}
    (h : ∀ i, (s.queue i).Holds s.link (xs i)) (hapart : ∀ i j x, x ∈ xs i → x ∈ xs j → i = j)
    (hfree : ∀ x, (∀ i, x ∉ xs i) → s.link x = none) : s.Records xs :=
  ⟨fun i => (h i).records,hapart,hfree⟩

theorem QueueLists.mem_append {xs : QueueLists} {q f i x : Nat} :
    x ∈ xs.after (.appendToTail q f) i ↔ x ∈ xs i ∨ (i = q ∧ x = f) := by
  by_cases hi : i = q
  · subst hi
    simp [after]
  · simp [after,hi]

theorem QueueLists.mem_pop {xs : QueueLists} {q y i x : Nat} {ys : List Nat}
    (hq : xs q = y :: ys) (hy : y ∉ ys) :
    x ∈ xs.after (.popFromHead q) i ↔ x ∈ xs i ∧ (i = q → x ≠ y) := by
  by_cases hi : i = q
  · subst hi
    simp only [after,hq,List.tail_cons,Function.update_self,List.mem_cons,true_imp_iff]
    constructor
    · intro h
      exact ⟨.inr h,fun heq => hy (heq ▸ h)⟩
    · rintro ⟨rfl | h,hne⟩
      · exact absurd rfl hne
      · exact h
  · simp [after,hi]

theorem QueueLists.mem_fetch {xs : QueueLists} {q i x : Nat} {condition : Nat → Bool}
    {target : Option Nat} (ht : target ≠ some q) :
    x ∈ xs.after (.fetchNodes q condition target) i ↔
      (x ∈ xs i ∧ (i = q → condition x = false)) ∨
        (target = some i ∧ x ∈ xs q ∧ condition x = true) := by
  cases target with
  | none =>
    by_cases hi : i = q
    · subst hi
      simp [after]
    · simp [after,hi]
  | some j =>
    have hj : j ≠ q := fun heq => ht (by rw [heq])
    by_cases hij : i = j
    · subst hij
      simp [after,hj]
    · by_cases hi : i = q
      · subst hi
        simp [after,hij,Ne.symm hij]
      · simp [after,hij,hi,Ne.symm hij]

section
variable {s t : CoroutineQueues} {xs : QueueLists}

theorem CoroutineQueues.Records.aside (h : s.Records xs) {link : QueueLinks} {q i : Nat}
    (hi : i ≠ q) (hframe : ∀ x ∉ xs q, link x = s.link x) : (s.queue i).Holds link (xs i) :=
  (h.queues i).toHolds.congr (fun x hx => hframe x (fun hq => hi (h.apart i q x hx hq)))

theorem CoroutineQueues.Records.appendToTail (h : s.Records xs) (ndebug : Bool) {q f : Nat}
    (hf : ∀ i, f ∉ xs i) : ∃ t, s.call ndebug (.appendToTail q f) = some (t,none) ∧
      t.Records (xs.after (.appendToTail q f)) := by
  obtain ⟨link,q',hq,hholds,hframe⟩ := (h.queues q).toLists.appendToTail ndebug (hf q) (h.free f hf)
    (fun _ => (h.queues q).tail)
  refine ⟨⟨link,Function.update s.queue q q'⟩,by simp [call,hq],records_of_holds ?_ ?_ ?_⟩
  · intro i
    by_cases hi : i = q
    · subst hi
      simpa [QueueLists.after] using hholds
    · simpa [QueueLists.after,hi] using h.aside hi hframe
  · intro i j x hi hj
    rw [QueueLists.mem_append] at hi hj
    rcases hi with hi | ⟨rfl,rfl⟩
    · rcases hj with hj | ⟨rfl,rfl⟩
      · exact h.apart i j x hi hj
      · exact absurd hi (hf i)
    · rcases hj with hj | ⟨rfl,_⟩
      · exact absurd hj (hf j)
      · rfl
  · intro x hx
    simp only [QueueLists.mem_append,not_or] at hx
    exact (hframe x (hx q).1).trans (h.free x (fun i => (hx i).1))

theorem CoroutineQueues.Records.popFromHead (h : s.Records xs) (ndebug : Bool) {q y : Nat}
    {ys : List Nat} (hq : xs q = y :: ys) :
    ∃ t, s.call ndebug (.popFromHead q) = some (t,some y) ∧
      t.Records (xs.after (.popFromHead q)) := by
  have hold := (h.queues q).toHolds
  have hnd := (h.queues q).nodup
  rw [hq] at hold hnd
  have hy := (List.nodup_cons.mp hnd).1
  obtain ⟨q',hpop,hholds⟩ := hold.popFromHead ndebug
  have hframe : ∀ x, x ≠ y → Function.update s.link y none x = s.link x :=
    fun x hx => Function.update_of_ne hx _ _
  refine ⟨⟨Function.update s.link y none,Function.update s.queue q q'⟩,by simp [call,hpop],
    records_of_holds ?_ ?_ ?_⟩
  · intro i
    by_cases hi : i = q
    · subst hi
      simpa [QueueLists.after,hq] using hholds
    · have haside := h.aside hi (fun x hx => hframe x (fun heq => hx (by simp [heq,hq])))
      simpa [QueueLists.after,hi] using haside
  · intro i j x hi hj
    rw [QueueLists.mem_pop hq hy] at hi hj
    exact h.apart i j x hi.1 hj.1
  · intro x hx
    simp only [QueueLists.mem_pop hq hy] at hx
    by_cases hxy : x = y
    · simp [hxy]
    · exact (hframe x hxy).trans (h.free x (fun i hi => hx i ⟨hi,fun _ => hxy⟩))

theorem filter_getLast?_eq {p : Nat → Bool} {xs : List Nat} (h : xs.filter p ≠ []) :
    xs.getLast? = (xs.filter p).getLast? ↔ xs.getLast?.all p = true := by
  rcases List.eq_nil_or_concat xs with rfl | ⟨ys,t,rfl⟩
  · simp at h
  · rw [List.concat_eq_append,List.getLast?_concat,List.filter_append]
    by_cases hp : p t
    · simp [hp]
    · simp only [List.filter_cons,if_neg hp,List.filter_nil,List.append_nil,Option.all_some]
      constructor
      · intro heq
        have hmem := List.mem_of_getLast? heq.symm
        exact (List.mem_filter.mp hmem).2
      · intro hpt
        exact absurd hpt hp

theorem fetchNodes_tail {ndebug : Bool} {condition : Nat → Bool} {link link' : QueueLinks}
    {q q' : CoroutineQueue} {target target' : Option CoroutineQueue}
    (h : q.fetchNodes ndebug condition link target = some (link',q',target'))
    (hsize : q'.size = 0) : q'.tail = none := by
  unfold CoroutineQueue.fetchNodes at h
  cases hl : q.fetchLoop ndebug condition q.size link target .head q.head with
  | none => simp [hl] at h
  | some r =>
    obtain ⟨l,q1,t1⟩ := r
    simp only [hl,Option.some.injEq,Prod.mk.injEq] at h
    obtain ⟨_,hq,_⟩ := h
    subst hq
    by_cases hz : q1.size = 0
    · rw [if_pos hz]
    · rw [if_neg hz] at hsize
      exact absurd hsize hz

/-- The tail a fetch leaves is the right one exactly where it kept it or left nothing. -/
theorem fetched_tail_iff {ndebug : Bool} {condition : Nat → Bool} {link link' : QueueLinks}
    {q q' : CoroutineQueue} {target target' : Option CoroutineQueue} {ys zs : List Nat}
    (h : q.Holds link zs)
    (hcall : q.fetchNodes ndebug condition link target = some (link',q',target'))
    (hf : Fetched condition link q target zs ys link' q' target') :
    q'.tail = (zs.filter (fun x => !condition x)).getLast? ↔
      (zs.all condition || zs.getLast?.all (fun t => !condition t)) = true := by
  have hsize := hf.lists.size
  by_cases hnil : zs.filter (fun x => !condition x) = []
  · have hall : zs.all condition = true := by
      simpa [List.filter_eq_nil_iff] using hnil
    have hzero : q'.size = 0 := by rw [hsize,hnil]; rfl
    simp [hnil,hall,fetchNodes_tail hcall hzero]
  · have hall : zs.all condition = false := by
      refine Bool.eq_false_iff.mpr (fun hall => hnil ?_)
      simpa [List.filter_eq_nil_iff] using hall
    have hne : q'.size ≠ 0 := by
      rw [hsize]
      exact fun hz => hnil (List.length_eq_zero_iff.mp hz)
    rw [hf.tail hne,h.tail,hall,Bool.false_or]
    exact filter_getLast?_eq hnil

def QueueLists.targeted (xs : QueueLists) : Option Nat → List Nat
  | none => []
  | some j => xs j

theorem QueueLists.mem_targeted {xs : QueueLists} {target : Option Nat} {x : Nat} :
    x ∈ xs.targeted target ↔ ∃ j, target = some j ∧ x ∈ xs j := by
  cases target <;> simp [targeted]

theorem QueueLists.after_fetch_self (xs : QueueLists) {q : Nat} (condition : Nat → Bool)
    {target : Option Nat} (ht : target ≠ some q) :
    xs.after (.fetchNodes q condition target) q = (xs q).filter (fun x => !condition x) := by
  cases target with
  | none => simp [after]
  | some j =>
    have hj : q ≠ j := fun heq => ht (congrArg some heq.symm)
    simp [after,hj]

theorem CoroutineQueues.setTarget_self (queue : Nat → CoroutineQueue) {q : Nat}
    {target : Option Nat} (ht : target ≠ some q) (q' : CoroutineQueue)
    (t' : Option CoroutineQueue) : setTarget (Function.update queue q q') target t' q = q' := by
  cases target with
  | none => simp [setTarget]
  | some j =>
    have hj : q ≠ j := fun heq => ht (congrArg some heq.symm)
    cases t' with
    | none => simp [setTarget]
    | some t => simp [setTarget,hj]

theorem CoroutineQueues.Records.fetch_others (h : s.Records xs) {q i : Nat} (hi : i ≠ q)
    {condition : Nat → Bool} {target : Option Nat} {link : QueueLinks} {q' : CoroutineQueue}
    {t' : Option CoroutineQueue}
    (hf : Fetched condition s.link (s.queue q) (target.map s.queue) (xs q) (xs.targeted target)
      link q' t') :
    (setTarget (Function.update s.queue q q') target t' i).Holds link
      (xs.after (.fetchNodes q condition target) i) := by
  by_cases hit : target = some i
  · subst hit
    obtain ⟨u,rfl⟩ := Option.isSome_iff_exists.mp hf.isSome
    have hholds : u.Holds link (xs i ++ (xs q).filter condition) := hf.holds
    simpa [setTarget,QueueLists.after] using hholds
  · have hframe : ∀ x ∈ xs i, link x = s.link x := by
      refine fun x hx => hf.frame x (fun hxq => hi (h.apart i q x hx hxq)) (fun hy => ?_)
      obtain ⟨j,rfl,hj⟩ := QueueLists.mem_targeted.mp hy
      exact hit (congrArg some (h.apart j i x hj hx))
    have haside := (h.queues i).toHolds.congr hframe
    cases target with
    | none => simpa [setTarget,QueueLists.after,hi] using haside
    | some j =>
      have hij : i ≠ j := fun heq => hit (congrArg some heq.symm)
      obtain ⟨u,rfl⟩ := Option.isSome_iff_exists.mp hf.isSome
      simpa [setTarget,QueueLists.after,hi,hij] using haside

theorem CoroutineQueues.Records.fetch_apart (h : s.Records xs) {q : Nat} {condition : Nat → Bool}
    {target : Option Nat} (ht : target ≠ some q) {i j x : Nat}
    (hi : x ∈ xs.after (.fetchNodes q condition target) i)
    (hj : x ∈ xs.after (.fetchNodes q condition target) j) : i = j := by
  rw [QueueLists.mem_fetch ht] at hi hj
  rcases hi with ⟨hi,hiq⟩ | ⟨hti,hxq,hc⟩
  · rcases hj with ⟨hj,_⟩ | ⟨_,hxq,hc⟩
    · exact h.apart i j x hi hj
    · rw [hiq (h.apart i q x hi hxq)] at hc
      cases hc
  · rcases hj with ⟨hj,hjq⟩ | ⟨htj,_,_⟩
    · rw [hjq (h.apart j q x hj hxq)] at hc
      cases hc
    · exact Option.some.inj (hti.symm.trans htj)

/-- A node in no queue after a fetch was in none before, or it was taken without a target. -/
theorem CoroutineQueues.Records.fetch_free (h : s.Records xs) {q x : Nat}
    {condition : Nat → Bool} {target : Option Nat} (ht : target ≠ some q) {link : QueueLinks}
    {q' : CoroutineQueue} {t' : Option CoroutineQueue}
    (hf : Fetched condition s.link (s.queue q) (target.map s.queue) (xs q) (xs.targeted target)
      link q' t')
    (htaken : target = none → ∀ y ∈ (xs q).filter condition, link y = none)
    (hx : ∀ i, x ∉ xs.after (.fetchNodes q condition target) i) : link x = none := by
  simp only [QueueLists.mem_fetch ht,not_or] at hx
  by_cases hxq : x ∈ xs q
  · have hc : condition x = true := by
      by_contra hc
      exact (hx q).1 ⟨hxq,fun _ => Bool.eq_false_iff.mpr hc⟩
    cases target with
    | some j => exact absurd ⟨rfl,hxq,hc⟩ (hx j).2
    | none => exact htaken rfl x (List.mem_filter.mpr ⟨hxq,hc⟩)
  · have hnone : ∀ i, x ∉ xs i := by
      refine fun i hi => (hx i).1 ⟨hi,fun heq => ?_⟩
      exact absurd (heq ▸ hi) hxq
    refine (hf.frame x hxq (fun hy => ?_)).trans (h.free x hnone)
    obtain ⟨j,_,hj⟩ := QueueLists.mem_targeted.mp hy
    exact hnone j hj

/-- What of the record a fetch keeps whatever it takes: all but the tail it leaves. -/
theorem CoroutineQueues.Records.fetchNodes (h : s.Records xs) (ndebug : Bool) {q : Nat}
    {condition : Nat → Bool} {target : Option Nat} (ht : target ≠ some q) :
    ∃ t, s.call ndebug (.fetchNodes q condition target) = some (t,none) ∧
      (t.Records (xs.after (.fetchNodes q condition target)) ↔
        xs.keepsTail (.fetchNodes q condition target) = true) := by
  have hys : TargetHolds s.link (xs.targeted target) (target.map s.queue) := by
    cases target with
    | none => trivial
    | some j => exact (h.queues j).toHolds
  have hdisj : ∀ x ∈ xs q, x ∉ xs.targeted target := by
    intro x hx hy
    obtain ⟨j,rfl,hj⟩ := QueueLists.mem_targeted.mp hy
    exact ht (congrArg some (h.apart j q x hj hx))
  obtain ⟨link,q',t',hcall,hf,hloose⟩ :=
    (h.queues q).toLists.fetchNodes hys hdisj ndebug condition
  have htail := fetched_tail_iff (h.queues q).toHolds hcall hf
  have hq := setTarget_self s.queue ht q' t'
  have hafter := xs.after_fetch_self condition ht
  refine ⟨⟨link,setTarget (Function.update s.queue q q') target t'⟩,by simp [call,hcall],?_⟩
  constructor
  · intro hr
    have hlast := (hr.queues q).tail
    simp only [hq,hafter] at hlast
    exact htail.mp hlast
  · intro hkeep
    refine records_of_holds (fun i => ?_) (fun i j x hi hj => h.fetch_apart ht hi hj)
      (fun x hx => h.fetch_free ht hf (fun hnone => ?_) hx)
    · by_cases hi : i = q
      · subst hi
        simp only [hq,hafter]
        exact ⟨hf.lists,htail.mpr hkeep⟩
      · exact h.fetch_others hi hf
    · subst hnone
      exact hloose rfl (fun y hy => absurd hy List.not_mem_nil)

theorem CoroutineQueues.Records.call (h : s.Records xs) (ndebug : Bool) {c : QueueCall}
    (hc : xs.Allows c) : ∃ t, s.call ndebug c = some (t,xs.returned c) ∧
      (t.Records (xs.after c) ↔ xs.keepsTail c = true) := by
  cases c with
  | appendToTail q f =>
    obtain ⟨t,ht,hr⟩ := h.appendToTail ndebug hc
    exact ⟨t,ht,iff_of_true hr rfl⟩
  | popFromHead q =>
    obtain ⟨y,ys,hq⟩ := List.exists_cons_of_ne_nil hc
    obtain ⟨t,ht,hr⟩ := h.popFromHead ndebug hq
    exact ⟨t,by simp [ht,QueueLists.returned,hq],iff_of_true hr rfl⟩
  | fetchNodes q condition target => exact h.fetchNodes ndebug hc

theorem CoroutineQueues.Refines.records {ndebug : Bool} {cs : List QueueCall}
    (h : s.Refines ndebug xs cs) : s.Records xs := by
  cases cs with
  | nil => exact h
  | cons c cs => exact h.1

theorem CoroutineQueues.Records.refines_iff (h : s.Records xs) (ndebug : Bool)
    {cs : List QueueCall} (hcs : xs.AllowsAll cs) :
    s.Refines ndebug xs cs ↔ xs.keepsTails cs = true := by
  induction cs generalizing s xs with
  | nil => exact iff_of_true h rfl
  | cons c cs ih =>
    obtain ⟨t,ht,hr⟩ := h.call ndebug hcs.1
    rw [QueueLists.keepsTails,Bool.and_eq_true,← hr]
    constructor
    · rintro ⟨_,u,hu,hrest⟩
      have heq : u = t := by simpa [ht] using hu.symm
      subst heq
      have hrec := hrest.records
      exact ⟨hrec,(ih hrec hcs.2).mp hrest⟩
    · rintro ⟨hrec,hrest⟩
      exact ⟨h,t,ht,(ih hrec hcs.2).mpr hrest⟩

end

theorem CoroutineQueues.start_records : start.Records (fun _ => []) :=
  records_of_holds (fun _ => CoroutineQueue.empty_holds _) (fun _ _ _ hi => by cases hi)
    (fun _ _ => rfl)

/-- Exactly the runs whose fetches keep the tail, or take everything, refine the lists. -/
theorem queues_refine_lists_iff (ndebug : Bool) (cs : List QueueCall)
    (h : QueueLists.AllowsAll (fun _ => []) cs) :
    CoroutineQueues.start.Refines ndebug (fun _ => []) cs ↔
      QueueLists.keepsTails (fun _ => []) cs = true :=
  CoroutineQueues.start_records.refines_iff ndebug h

def headTaken : List QueueCall :=
  [.appendToTail 0 1,.appendToTail 0 2,.fetchNodes 0 (fun x => x == 1) (some 1),
    .appendToTail 0 3,.popFromHead 1]

theorem headTaken_refines : CoroutineQueues.start.Refines false (fun _ => []) headTaken := by
  refine (queues_refine_lists_iff false headTaken ⟨?_,?_,?_,?_,?_,trivial⟩).mpr (by decide)
  · simp [QueueLists.Allows]
  · simp [QueueLists.Allows,QueueLists.mem_append]
  · simp [QueueLists.Allows]
  · simp [QueueLists.Allows,QueueLists.mem_append,QueueLists.mem_fetch]
  · show QueueLists.after _ _ 1 ≠ []
    decide

def tailTaken : List QueueCall :=
  [.appendToTail 0 1,.appendToTail 0 2,.fetchNodes 0 (fun x => x == 2) (some 1),
    .appendToTail 0 3]

theorem tailTaken_loses : QueueLists.AllowsAll (fun _ => []) tailTaken ∧
    ¬ CoroutineQueues.start.Refines false (fun _ => []) tailTaken ∧
    ∃ t, tailTaken.foldlM (fun s c => (s.call false c).map Prod.fst) CoroutineQueues.start =
      some t ∧ (t.queue 0).size = 2 ∧ ¬ Reach t.link (t.queue 0).head 3 := by
  have hallows : QueueLists.AllowsAll (fun _ => []) tailTaken := by
    simp [tailTaken,QueueLists.AllowsAll,QueueLists.Allows,QueueLists.mem_append,
      QueueLists.mem_fetch]
  refine ⟨hallows,fun hr => ?_,_,rfl,rfl,fun hr => ?_⟩
  · have hkeep := (CoroutineQueues.start_records.refines_iff false hallows).mp hr
    revert hkeep
    decide
  · -- the walk from `head_` ends at the first node
    cases hr with
    | next hr => cases hr

end NewRpc
